/-
Descents and finders, over every reader and on well-formed trees.

* Over every reader (section `Everywhere`): a descent reads at most 17 blocks and
  ends in an accepted leaf; what `findFirstGe` returns is the first item of its
  leaf at or after the target.  No tree is assumed.
* On a tree that the device stores with its separators in place (`TreeAt`), the
  finders are the searches of `SearchTree` (`run_findFirstGe`), so they find the
  least item of the whole tree at or after the target (`finders_spec`).
-/
import Lambutter.Pages
import Lambutter.SearchTree
import Mathlib.Data.List.Chain

open Ranges SearchTree

/-- A lifted outcome that is not a fault. -/
theorem ensures_lift {α : Type} {r : Outcome α} {P : α → Prop} (hsafe : Outcome.Safe r)
    (hok : ∀ a, r = .ok a → P a) : Prog.Ensures Stop.Typed (liftM r : ReadM α) P :=
  Prog.Ensures.lift hok fun _ hx => hsafe.typed hx

/-! ### Over every reader -/

section Everywhere

variable {env : Env} (h64 : env.usizeBits = 64) {map : ChunkMap} {nodesize : ℕ}
  (hnode : ValidNodesize nodesize)

include h64 in
/-- One pass of the descent loop through a non-empty interior block. -/
theorem descendToLeaf_loop_node {b : TreeBlock} (hb : b.Accepted) (hl : b.header.level ≠ 0)
    {target : DiskKey} {idx : ℕ}
    (hidx : partitionPoint (fun kp => decide (kp.key ≤ target)) b.keyPtrs - 1 = idx)
    {kp : KeyPtr} (hkp : b.keyPtrs[idx]? = some kp) (n : ℕ) (nextKey : Option DiskKey) {depth : ℕ}
    (hdepth : depth < maxTreeDepth) :
    descendToLeaf.loop env map nodesize target (n + 1) b nextKey depth =
      readTreeBlock env map nodesize kp.blockptr >>= fun child =>
        descendToLeaf.loop env map nodesize target n child
          ((b.keyPtrs[idx + 1]?.map KeyPtr.key).or nextKey) (depth + 1) := by
  have hlt : idx < b.header.nritems := by
    rw [← b.length_keyPtrs]
    exact (List.getElem?_eq_some_iff.mp hkp).1
  have hn := hb.nritems_lt
  have hd : min (depth + 1) 255 = depth + 1 := by
    have : depth < 16 := hdepth
    omega
  have hd' : ¬ maxTreeDepth < depth + 1 := by
    have : depth < 16 := hdepth
    show ¬ 16 < depth + 1
    omega
  -- the separator after the child, where the node has one
  have hnext : (if idx + 1 < b.header.nritems
      then (fun kp => some kp.key) <$> b.keyPtr env (idx + 1)
      else .ok nextKey : Outcome (Option DiskKey)) =
        .ok ((b.keyPtrs[idx + 1]?.map KeyPtr.key).or nextKey) := by
    by_cases hlt' : idx + 1 < b.header.nritems
    · rw [if_pos hlt', hb.keyPtr_ok h64 hl (TreeBlock.getElem?_keyPtrs hlt'),
        TreeBlock.getElem?_keyPtrs hlt']
      rfl
    · rw [if_neg hlt', List.getElem?_eq_none (by rw [b.length_keyPtrs]; omega)]
      rfl
  rw [descendToLeaf.loop, if_pos (Nat.pos_of_ne_zero hl)]
  dsimp only
  rw [hd, if_neg hd', if_neg (by omega : ¬ b.header.nritems = 0),
    binarySearchInterior_eq h64 hb hl (by omega), hidx]
  simp only [liftM_ok_bind]
  rw [Env.addU32_ok env (by omega), liftM_ok_bind, hnext, liftM_ok_bind,
    hb.keyPtr_ok h64 hl hkp, liftM_ok_bind]

/-- The index a descent picks is one of the node's. -/
theorem exists_childIdx {b : TreeBlock} (hne : b.header.nritems ≠ 0) (target : DiskKey) :
    ∃ kp, b.keyPtrs[partitionPoint (fun kp => decide (kp.key ≤ target)) b.keyPtrs - 1]? =
      some kp := by
  have hle := partitionPoint_le (fun kp => decide (kp.key ≤ target)) b.keyPtrs
  have hlen := b.length_keyPtrs
  exact ⟨_, List.getElem?_eq_getElem (by omega)⟩

include h64 hnode

theorem descendToLeaf_loop_ensures (target : DiskKey) (n : ℕ) {b : TreeBlock} (hb : b.Accepted)
    (nextKey : Option DiskKey) {depth : ℕ} (hdepth : depth ≤ maxTreeDepth)
    (hn : maxTreeDepth < n + depth) :
    Prog.Ensures Stop.Typed (descendToLeaf.loop env map nodesize target n b nextKey depth)
      fun r => r.1.Accepted ∧ r.1.header.level = 0 := by
  have hmax : maxTreeDepth = 16 := rfl
  induction n generalizing b nextKey depth with
  | zero => omega
  | succ n ih =>
    by_cases hl : b.header.level = 0
    · rw [descendToLeaf.loop, if_neg (by omega)]
      exact Prog.Ensures.pure ⟨hb, hl⟩
    by_cases hd : depth < maxTreeDepth
    · by_cases hne : b.header.nritems = 0
      · rw [descendToLeaf.loop, if_pos (by omega)]
        dsimp only
        rw [if_neg (by omega), if_pos hne]
        exact trivial
      · obtain ⟨kp, hkp⟩ := exists_childIdx hne target
        rw [descendToLeaf_loop_node h64 hb hl rfl hkp n nextKey hd]
        refine Prog.Ensures.bind (readTreeBlock_ensures h64 hnode _) fun child hchild => ?_
        exact ih hchild.1 _ (by omega) (by omega)
    · rw [descendToLeaf.loop, if_pos (by omega)]
      dsimp only
      rw [if_pos (by omega)]
      exact trivial

theorem descendToLeaf_ensures (rootLogical : ℕ) (target : DiskKey) :
    Prog.Ensures Stop.Typed (descendToLeaf env map nodesize rootLogical target)
      fun r => r.1.Accepted ∧ r.1.header.level = 0 :=
  Prog.Ensures.bind (readTreeBlock_ensures h64 hnode _) fun _ hroot =>
    descendToLeaf_loop_ensures h64 hnode target _ hroot.1 none (Nat.zero_le _)
      (Nat.lt_succ_self _)

/-- Index `i` of the leaf holds its first item at or after the target. -/
structure FirstInLeaf (leaf : TreeBlock) (i : ℕ) (target : DiskKey) : Prop where
  accepted : leaf.Accepted
  level : leaf.header.level = 0
  lt : i < leaf.header.nritems
  ge : ∀ x, leaf.items[i]? = some x → target ≤ x.key
  before : ∀ j x, j < i → leaf.items[j]? = some x → x.key < target

omit h64 hnode in
/-- What the binary search of a leaf finds. -/
theorem firstInLeaf_of_split {leaf : TreeBlock} (hb : leaf.Accepted) (hl : leaf.header.level = 0)
    {target : DiskKey}
    (hlt : partitionPoint (fun x => decide (x.key < target)) leaf.items < leaf.items.length) :
    FirstInLeaf leaf (partitionPoint (fun x => decide (x.key < target)) leaf.items) target := by
  obtain ⟨low, high, hitems, hpos, hlow, hhigh⟩ := leaf_split (hb.leaf_sorted hl) target
  rw [hpos] at hlt ⊢
  refine ⟨hb, hl, by rwa [leaf.length_items] at hlt, fun x hx => ?_, fun j x hj hx => ?_⟩
  · rw [hitems, getElem?_length] at hx
    exact hhigh x (List.mem_of_head? hx)
  · rw [hitems, List.getElem?_append_left hj] at hx
    exact hlow x (List.mem_of_getElem? hx)

include h64 in
omit hnode in
/-- The item a finder has found. -/
theorem FirstInLeaf.exists_item {leaf : TreeBlock} {i : ℕ} {target : DiskKey}
    (h : FirstInLeaf leaf i target) :
    ∃ item ∈ leaf.items, leaf.items[i]? = some item ∧ leaf.leafItem env i = .ok item := by
  have hlt : i < leaf.items.length := h.lt.trans_eq leaf.length_items.symm
  have hget := List.getElem?_eq_getElem hlt
  exact ⟨_, List.getElem_mem hlt, hget, h.accepted.leafItem_ok h64 h.level hget⟩

/-- Whatever `find_first_ge` returns, on any image and over any reader. -/
theorem findFirstGe_ensures (rootLogical : ℕ) (target : DiskKey) :
    Prog.Ensures Stop.Typed (findFirstGe env map nodesize rootLogical target)
      fun r => ∀ leaf i, r = some (leaf, i) → FirstInLeaf leaf i target := by
  refine Prog.Ensures.bind (descendToLeaf_ensures h64 hnode _ _) fun r hr => ?_
  obtain ⟨leaf, nextKey⟩ := r
  obtain ⟨hb, hl⟩ := hr
  dsimp only at hb hl ⊢
  rw [binarySearchLeaf_eq h64 hb hl]
  simp only [liftM_ok_bind]
  -- the leaf of the descent has the item, or the next subtree is searched once more
  by_cases hlt : partitionPoint (fun x => decide (x.key < target)) leaf.items < leaf.items.length
  · rw [if_pos hlt]
    refine Prog.Ensures.pure fun leaf' i h => ?_
    cases h
    exact firstInLeaf_of_split hb hl hlt
  · rw [if_neg hlt]
    cases nextKey with
    | none => exact Prog.Ensures.pure fun leaf i h => by cases h
    | some nextKey =>
      refine Prog.Ensures.bind (descendToLeaf_ensures h64 hnode _ _) fun r hr => ?_
      obtain ⟨next, _⟩ := r
      obtain ⟨hb', hl'⟩ := hr
      dsimp only at hb' hl' ⊢
      -- the first item of the next leaf is the only one looked at there
      have hsafe : Outcome.Safe (firstPast env next target) := by
        unfold firstPast
        split_ifs
        · exact Outcome.safe_ok _
        · exact Outcome.Safe.bind (TreeBlock.leafItem_safe h64 hb'.nritems_lt 0)
            fun _ _ => Outcome.safe_ok _
      refine Prog.Ensures.bind (ensures_lift hsafe fun a ha => ha) fun past hpast => ?_
      cases past with
      | false => exact trivial
      | true =>
        refine Prog.Ensures.pure fun leaf' i h => ?_
        cases h
        unfold firstPast at hpast
        split_ifs at hpast with hzero
        · cases hpast
        · obtain ⟨item, hitem, hpast⟩ := Except.bind_eq_ok.mp hpast
          have hgt : target < item.key := by simpa using Except.ok.inj hpast
          -- it is past the target and slot 0, so nothing in that leaf comes before it
          have hpos : 0 < next.header.nritems := Nat.pos_of_ne_zero hzero
          have hfirst := hb'.leafItem_ok h64 hl' (TreeBlock.getElem?_items hpos)
          refine ⟨hb', hl', hpos, fun x hx => ?_, fun j x hj _ => absurd hj (Nat.not_lt_zero j)⟩
          rw [hb'.leafItem_ok h64 hl' hx] at hitem
          cases hitem
          exact hgt.le

theorem findExact_ensures (rootLogical : ℕ) (target : DiskKey) :
    Prog.Ensures Stop.Typed (findExact env map nodesize rootLogical target)
      fun r => ∀ leaf i, r = some (leaf, i) → FirstInLeaf leaf i target ∧
        ∃ x, leaf.items[i]? = some x ∧ x.key = target := by
  refine Prog.Ensures.bind (descendToLeaf_ensures h64 hnode _ _) fun r hr => ?_
  obtain ⟨leaf, nextKey⟩ := r
  obtain ⟨hb, hl⟩ := hr
  dsimp only at hb hl ⊢
  split_ifs with hzero
  · exact Prog.Ensures.pure fun leaf i h => by cases h
  rw [binarySearchLeaf_eq h64 hb hl]
  simp only [liftM_ok_bind]
  by_cases hlt : partitionPoint (fun x => decide (x.key < target)) leaf.items < leaf.items.length
  · rw [if_pos hlt]
    have hx := List.getElem?_eq_getElem hlt
    dsimp only
    rw [hb.leafItem_ok h64 hl hx, liftM_ok_bind]
    split_ifs with heq
    · refine Prog.Ensures.pure fun leaf' i h => ?_
      cases h
      exact ⟨firstInLeaf_of_split hb hl hlt, _, hx, heq⟩
    · exact Prog.Ensures.pure fun leaf i h => by cases h
  · rw [if_neg hlt]
    exact Prog.Ensures.pure fun leaf i h => by cases h

/-! ### Blocks read -/

/-- How many times `read_tree_block` was entered. -/
def blocksRead (t : List Event) : ℕ := t.countP fun e => match e with
  | .block _ => true
  | _ => false

omit h64 hnode

theorem fetch_notes (P : Event → Prop) (io : ℕ → Error) (n len cursor : ℕ) :
    (fetch env map io n len cursor).Notes P := by
  induction n generalizing len cursor with
  | zero => trivial
  | succ n ih =>
    rw [fetch]
    split_ifs
    · refine Prog.Notes.bind (Prog.notes_lift _) fun r => Prog.Notes.bind ?_ fun bs => ?_
      · intro a
        cases a <;> trivial
      · exact Prog.Notes.bind (ih _ _) fun _ => Prog.notes_pure _
    · exact Prog.notes_pure _

include h64 hnode

/-- Reading a block is one block. -/
theorem readTreeBlock_sat (logical : ℕ) :
    (readTreeBlock env map nodesize logical).Sat fun t r => blocksRead t = 1 ∧
      ∀ b, r = .ok b → b.Accepted := by
  have hlt : nodesize < 2 ^ 64 := lt_of_le_of_lt hnode.2 (by decide)
  have hquiet : (readTreeBlock env map nodesize logical).Sat fun t _ => blocksRead t = 1 := by
    have hbody : (readBody env map nodesize logical >>= fun body =>
        (liftM (acceptBlock env logical body) : ReadM TreeBlock)).Notes fun _ => False := by
      rw [readBody_eq (by rwa [h64])]
      exact Prog.Notes.bind (fetch_notes _ _ _ _ _) fun _ => Prog.notes_lift _
    refine hbody.sat.mono fun t r ht => ?_
    have hnil : t = [] := List.eq_nil_iff_forall_not_mem.mpr fun e he => ht e he
    rw [hnil]
    rfl
  refine (hquiet.and (readTreeBlock_ensures h64 hnode logical)).mono fun t r h => ⟨h.1, ?_⟩
  rintro b rfl
  exact h.2.1

theorem descendToLeaf_loop_sat (target : DiskKey) (n : ℕ) {b : TreeBlock} (hb : b.Accepted)
    (nextKey : Option DiskKey) {depth : ℕ} (hdepth : depth ≤ maxTreeDepth) :
    (descendToLeaf.loop env map nodesize target n b nextKey depth).Sat fun t _ =>
      blocksRead t ≤ maxTreeDepth - depth := by
  have hmax : maxTreeDepth = 16 := rfl
  induction n generalizing b nextKey depth with
  | zero => exact Nat.zero_le _
  | succ n ih =>
    by_cases hl : b.header.level = 0
    · rw [descendToLeaf.loop, if_neg (by omega)]
      exact Nat.zero_le _
    by_cases hd : depth < maxTreeDepth
    · by_cases hne : b.header.nritems = 0
      · rw [descendToLeaf.loop, if_pos (by omega)]
        dsimp only
        rw [if_neg (by omega), if_pos hne]
        exact Nat.zero_le _
      · obtain ⟨kp, hkp⟩ := exists_childIdx hne target
        rw [descendToLeaf_loop_node h64 hb hl rfl hkp n nextKey hd]
        refine Prog.Sat.bind (readTreeBlock_sat h64 hnode _) (fun t child h => ?_) fun t x h => ?_
        · refine (ih (h.2 child rfl) _ (by omega)).mono fun t' _ ht' => ?_
          rw [blocksRead, List.countP_append]
          have h1 := h.1
          unfold blocksRead at h1 ht'
          omega
        · rw [h.1]
          omega
    · rw [descendToLeaf.loop, if_pos (by omega)]
      dsimp only
      rw [if_pos (by omega)]
      exact Nat.zero_le _

/-- A descent reads at most 17 blocks, whatever the pointers say. -/
theorem descendToLeaf_sat (rootLogical : ℕ) (target : DiskKey) :
    (descendToLeaf env map nodesize rootLogical target).Sat fun t _ => blocksRead t ≤ 17 := by
  refine Prog.Sat.bind (readTreeBlock_sat h64 hnode _) (fun t root h => ?_) fun t x h => ?_
  · refine (descendToLeaf_loop_sat h64 hnode target _ (h.2 root rfl) none
      (Nat.zero_le _)).mono fun t' _ ht' => ?_
    rw [blocksRead, List.countP_append]
    have h1 := h.1
    have hmax : maxTreeDepth = 16 := rfl
    unfold blocksRead at h1 ht'
    omega
  · rw [h.1]
    decide

end Everywhere

/-! ### On a well-formed tree -/

/-- The tree `t` of height `n` is stored with its root block at `logical`: `read`
accepts every block, levels count down, interior nodes and the leaves below them
are non-empty, and the separators after the first separate the children. -/
def TreeAt (read : ℕ → Outcome TreeBlock) : (n : ℕ) → Tree DiskKey TreeBlock n → ℕ → Prop
  | 0, t, logical => ∃ leaf, t = .leaf leaf ∧ read logical = .ok leaf ∧ leaf.header.level = 0
  | n + 1, t, logical => ∃ block kids, t = .node kids ∧ read logical = .ok block ∧
      block.header.level = n + 1 ∧ kids ≠ [] ∧
      List.Forall₂ (fun kp kid => kid.1 = kp.key ∧ TreeAt read n kid.2 kp.blockptr)
        block.keyPtrs kids ∧
      kids.IsChain (Separates TreeBlock.items LeafItem.key) ∧
      ∀ kid ∈ kids, ∀ leaf ∈ leaves n kid.2, leaf.items ≠ []

theorem forall₂_getElem? {α β : Type} {R : α → β → Prop} {l : List α} {l' : List β}
    (h : List.Forall₂ R l l') {i : ℕ} {b : β} (hb : l'[i]? = some b) :
    ∃ a, l[i]? = some a ∧ R a b := by
  induction h generalizing i with
  | nil => simp at hb
  | cons hR _ ih =>
    cases i with
    | zero =>
      cases hb
      exact ⟨_, rfl, hR⟩
    | succ i => exact ih hb

/-- The separators of a stored node are the keys of its block. -/
theorem kids_keys {n : ℕ} {kids : List (DiskKey × Tree DiskKey TreeBlock n)}
    {keyPtrs : List KeyPtr} {R : KeyPtr → DiskKey × Tree DiskKey TreeBlock n → Prop}
    (h : List.Forall₂ (fun kp kid => kid.1 = kp.key ∧ R kp kid) keyPtrs kids) :
    kids.map Prod.fst = keyPtrs.map KeyPtr.key := by
  induction h with
  | nil => rfl
  | cons hR _ ih => rw [List.map_cons, List.map_cons, hR.1, ih]

section WellFormed

variable {read : ℕ → Outcome TreeBlock} (hread : ∀ l b, read l = .ok b → b.Accepted)

include hread

theorem TreeAt.separated {n : ℕ} {t : Tree DiskKey TreeBlock n} {logical : ℕ}
    (h : TreeAt read n t logical) : Separated TreeBlock.items LeafItem.key n t := by
  induction n generalizing logical with
  | zero => trivial
  | succ n ih =>
    obtain ⟨block, kids, rfl, hblock, hl, hne, hkids, hchain, hleaves⟩ := h
    have hsorted : (kids.map Prod.fst).Pairwise (· < ·) := by
      rw [kids_keys hkids]
      exact List.pairwise_map.mpr ((hread _ _ hblock).node_sorted (by omega))
    refine (separated_node _ _).mpr ⟨hne, List.pairwise_map.mp hsorted, hchain, fun kid hkid =>
      ⟨?_, hleaves kid hkid⟩⟩
    obtain ⟨i, hi⟩ := List.getElem?_of_mem hkid
    obtain ⟨kp, -, -, hkp⟩ := forall₂_getElem? hkids hi
    exact ih hkp

theorem TreeAt.leaf_accepted {n : ℕ} {t : Tree DiskKey TreeBlock n} {logical : ℕ}
    (h : TreeAt read n t logical) {leaf : TreeBlock} (hleaf : leaf ∈ leaves n t) :
    leaf.Accepted ∧ leaf.header.level = 0 := by
  induction n generalizing logical with
  | zero =>
    obtain ⟨leaf', rfl, hread', hl⟩ := h
    rw [leaves_leaf, List.mem_singleton] at hleaf
    rw [hleaf]
    exact ⟨hread _ _ hread', hl⟩
  | succ n ih =>
    obtain ⟨block, kids, rfl, -, -, -, hkids, -, -⟩ := h
    rw [leaves_node] at hleaf
    obtain ⟨kid, hkid, hleaf⟩ := List.mem_flatMap.mp hleaf
    obtain ⟨i, hi⟩ := List.getElem?_of_mem hkid
    obtain ⟨kp, -, -, hkp⟩ := forall₂_getElem? hkids hi
    exact ih hkp hleaf

/-- The items of a stored tree, in strict key order. -/
theorem TreeAt.sorted {n : ℕ} {t : Tree DiskKey TreeBlock n} {logical : ℕ}
    (h : TreeAt read n t logical) :
    (allItems TreeBlock.items n t).Pairwise fun x y => x.key < y.key :=
  (h.separated hread).sorted fun _ hleaf =>
    (h.leaf_accepted hread hleaf).1.leaf_sorted (h.leaf_accepted hread hleaf).2

end WellFormed

section OnTree

variable {env : Env} (h64 : env.usizeBits = 64) {map : ChunkMap} {nodesize : ℕ}
  (hnode : ValidNodesize nodesize) (g : (q : ReadReq) → Ans q)

/-- Reading blocks with fixed answers. -/
def blockAt (env : Env) (map : ChunkMap) (nodesize : ℕ) (g : (q : ReadReq) → Ans q)
    (logical : ℕ) : Outcome TreeBlock :=
  (readTreeBlock env map nodesize logical).run g

include h64 hnode

theorem blockAt_accepted (l : ℕ) (b : TreeBlock) (h : blockAt env map nodesize g l = .ok b) :
    b.Accepted ∧ b.header.bytenr = l :=
  (readTreeBlock_ensures h64 hnode l).returns _ () h

theorem blocks_accepted : ∀ l b, blockAt env map nodesize g l = .ok b → b.Accepted :=
  fun l b hb => (blockAt_accepted h64 hnode g l b hb).1

/-- A descent over the device is the descent in the tree. -/
theorem run_descendToLeaf_loop {n : ℕ} {t : Tree DiskKey TreeBlock n} {logical : ℕ}
    (h : TreeAt (blockAt env map nodesize g) n t logical) {b : TreeBlock}
    (hb : blockAt env map nodesize g logical = .ok b) {target : DiskKey} {fuel depth : ℕ}
    (hfuel : n < fuel) (hdepth : depth + n ≤ maxTreeDepth) (nextKey : Option DiskKey)
    {r : TreeBlock × Option DiskKey} (hr : descend n t target nextKey = some r) :
    (descendToLeaf.loop env map nodesize target fuel b nextKey depth).run g = .ok r := by
  -- on the height of the tree: fuel and depth are measured against what is left of it
  induction n generalizing logical b fuel depth nextKey with
  | zero =>
    obtain ⟨fuel, rfl⟩ : ∃ k, fuel = k + 1 := ⟨fuel - 1, by omega⟩
    obtain ⟨leaf, rfl, hread, hl⟩ := h
    rw [hb] at hread
    cases hread
    rw [descend_leaf] at hr
    cases hr
    rw [descendToLeaf.loop, if_neg (by omega)]
    rfl
  | succ n ih =>
    obtain ⟨fuel, rfl⟩ : ∃ k, fuel = k + 1 := ⟨fuel - 1, by omega⟩
    obtain ⟨block, kids, rfl, hread, hl, hne, hkids, -, -⟩ := h
    rw [hb] at hread
    cases hread
    have hacc := (blockAt_accepted h64 hnode g _ _ hb).1
    have hkeys := kids_keys hkids
    -- the node's own search over its pointers picks the child that the tree's search picks
    have hidx : partitionPoint (fun kid => decide (kid.1 ≤ target)) kids =
        partitionPoint (fun kp => decide (kp.key ≤ target)) b.keyPtrs := by
      have h1 := partitionPoint_map Prod.fst (fun k => decide (k ≤ target)) kids
      have h2 := partitionPoint_map KeyPtr.key (fun k => decide (k ≤ target)) b.keyPtrs
      rw [← h1, hkeys, h2]
    have hlen : kids.length = b.keyPtrs.length := hkids.length_eq.symm
    have hle := partitionPoint_le (fun kid => decide (kid.1 ≤ target)) kids
    have hpos : 0 < kids.length := List.length_pos_iff.mpr hne
    set i := partitionPoint (fun kid => decide (kid.1 ≤ target)) kids - 1 with hi
    have hkid : kids[i]? = some kids[i] := List.getElem?_eq_getElem (by omega)
    obtain ⟨kp, hkp, -, htree⟩ := forall₂_getElem? hkids hkid
    have hnext : kids[i + 1]?.map Prod.fst = b.keyPtrs[i + 1]?.map KeyPtr.key := by
      rw [← List.getElem?_map, ← List.getElem?_map, hkeys]
    rw [descend_kid hi.symm hkid, hnext] at hr
    -- that child is stored, whichever kind of block it is
    have hchild : ∃ child, blockAt env map nodesize g kp.blockptr = .ok child := by
      cases n with
      | zero =>
        obtain ⟨leaf, -, hread, -⟩ := htree
        exact ⟨leaf, hread⟩
      | succ n =>
        obtain ⟨block, _, -, hread, -⟩ := htree
        exact ⟨block, hread⟩
    obtain ⟨child, hchild⟩ := hchild
    rw [descendToLeaf_loop_node h64 hacc (by omega) (by rw [← hidx]) hkp fuel nextKey
      (show depth < maxTreeDepth by omega), Prog.run_bind]
    have hrun : (readTreeBlock env map nodesize kp.blockptr).run g = .ok child := hchild
    rw [hrun, Except.ok_bind]
    exact ih htree hchild (by omega) (by omega) _ hr

theorem run_descendToLeaf {n : ℕ} (hn : n ≤ maxTreeDepth) {t : Tree DiskKey TreeBlock n}
    {root : ℕ} (h : TreeAt (blockAt env map nodesize g) n t root) {target : DiskKey}
    {r : TreeBlock × Option DiskKey} (hr : descend n t target none = some r) :
    (descendToLeaf env map nodesize root target).run g = .ok r := by
  have hroot : ∃ b, blockAt env map nodesize g root = .ok b := by
    cases n with
    | zero =>
      obtain ⟨leaf, -, hread, -⟩ := h
      exact ⟨leaf, hread⟩
    | succ n =>
      obtain ⟨block, _, -, hread, -⟩ := h
      exact ⟨block, hread⟩
  obtain ⟨b, hb⟩ := hroot
  have hrun : (readTreeBlock env map nodesize root).run g = .ok b := hb
  rw [descendToLeaf, Prog.run_bind, hrun, Except.ok_bind]
  exact run_descendToLeaf_loop h64 hnode g h hb (by omega) (by omega) none hr

/-- `find_first_ge` on a stored tree is the search in the tree. -/
theorem run_findFirstGe {n : ℕ} (hn : n ≤ maxTreeDepth) {t : Tree DiskKey TreeBlock n}
    {root : ℕ} (h : TreeAt (blockAt env map nodesize g) n t root) (target : DiskKey) :
    (findFirstGe env map nodesize root target).run g =
      .ok (firstGe TreeBlock.items LeafItem.key n t target) := by
  have hacc : ∀ l b, blockAt env map nodesize g l = .ok b → b.Accepted :=
    blocks_accepted h64 hnode g
  have hsep := h.separated hacc
  obtain ⟨pre, leaf, post, hr⟩ := exists_reaches hsep target none
  obtain ⟨hleaf, hlevel⟩ := h.leaf_accepted hacc (show leaf ∈ leaves n t by rw [hr.split]; simp)
  -- where the target falls in the leaf that the descent reaches
  set i := partitionPoint (fun x => decide (x.key < target)) leaf.items with hi
  have hsearch := binarySearchLeaf_eq h64 hleaf hlevel target
  dsimp only at hsearch
  rw [← hi] at hsearch
  have hdesc : ∃ next, descend n t target none = some (leaf, next) := by
    cases post with
    | nil => exact ⟨none, hr.last rfl⟩
    | cons after rest =>
      obtain ⟨sep, hdesc, -⟩ := hr.more after rest rfl
      exact ⟨some sep, hdesc⟩
  obtain ⟨next, hdesc⟩ := hdesc
  rw [findFirstGe, Prog.run_bind, run_descendToLeaf h64 hnode g hn h hdesc, Except.ok_bind]
  dsimp only
  rw [hsearch]
  simp only [liftM_ok_bind]
  -- past the leaf's last item, the separator of the descent says if there is a next leaf
  by_cases hlt : i < leaf.items.length
  · rw [if_pos hlt]
    simp [firstGe, hdesc, ← hi, hlt]
  · rw [if_neg hlt]
    cases post with
    | nil =>
      have hnone := hr.last rfl
      rw [hdesc] at hnone
      cases hnone
      simp [firstGe, hdesc, ← hi, hlt]
    | cons after rest =>
      obtain ⟨sep, hdesc', hgt, -, hpost, hagain⟩ := hr.more after rest rfl
      rw [hdesc] at hdesc'
      cases hdesc'
      obtain ⟨next', hagain⟩ := hagain none
      obtain ⟨hafter, hlevel'⟩ :=
        h.leaf_accepted hacc (show after ∈ leaves n t by rw [hr.split]; simp)
      -- a leaf that is not the whole tree is not empty, so firstPast looks at an item
      have hne : after.items ≠ [] := by
        refine hsep.leaf_ne_nil ?_ (by rw [hr.split]; simp)
        rw [hr.split, List.length_append, List.length_cons, List.length_cons]
        omega
      obtain ⟨x, high, hx⟩ := List.exists_cons_of_ne_nil hne
      have hx0 : after.items[0]? = some x := by rw [hx]; rfl
      have hzero : after.header.nritems ≠ 0 := by
        rw [← after.length_items, hx]
        simp
      have hpast : firstPast env after target = .ok true := by
        have hsx : sep ≤ x.key := hpost x (List.mem_flatMap.mpr ⟨after, by simp, by simp [hx]⟩)
        rw [firstPast, if_neg hzero, hafter.leafItem_ok h64 hlevel' hx0, Except.ok_bind]
        exact congrArg _ (decide_eq_true (hgt.trans_le hsx))
      simp only [Prog.run_bind, run_descendToLeaf h64 hnode g hn h hagain, Except.ok_bind, hpast,
        Prog.run_liftM]
      simp [firstGe, hdesc, ← hi, hlt, hagain]

/-- `find_exact` on a stored tree finds the key if the tree holds it. -/
theorem run_findExact {n : ℕ} (hn : n ≤ maxTreeDepth) {t : Tree DiskKey TreeBlock n}
    {root : ℕ} (h : TreeAt (blockAt env map nodesize g) n t root) (target : DiskKey) :
    ∃ r, (findExact env map nodesize root target).run g = .ok r ∧
      (r = none → ∀ x ∈ allItems TreeBlock.items n t, x.key ≠ target) ∧
      ∀ leaf i, r = some (leaf, i) → leaf ∈ leaves n t ∧
        ∃ x, leaf.leafItem env i = .ok x ∧ x ∈ leaf.items ∧ x.key = target := by
  have hacc : ∀ l b, blockAt env map nodesize g l = .ok b → b.Accepted :=
    blocks_accepted h64 hnode g
  obtain ⟨pre, leaf, post, hr⟩ := exists_reaches (h.separated hacc) target none
  have hmem : leaf ∈ leaves n t := by rw [hr.split]; simp
  obtain ⟨hleaf, hlevel⟩ := h.leaf_accepted hacc hmem
  -- the other leaves lie wholly before or after the target
  have hother : ∀ x ∈ allItems TreeBlock.items n t, x ∉ leaf.items → x.key ≠ target := by
    intro x hx hnot
    rw [allItems, hr.split, List.flatMap_append, List.flatMap_cons] at hx
    rcases List.mem_append.mp hx with hx | hx
    · exact (hr.left x hx).ne
    · rcases List.mem_append.mp hx with hx | hx
      · exact absurd hx hnot
      · cases post with
        | nil => cases hx
        | cons after rest =>
          obtain ⟨sep, -, hgt, -, hpost, -⟩ := hr.more after rest rfl
          exact (hgt.trans_le (hpost x hx)).ne'
  have hdesc : ∃ next, descend n t target none = some (leaf, next) := by
    cases post with
    | nil => exact ⟨none, hr.last rfl⟩
    | cons after rest =>
      obtain ⟨sep, hdesc, -⟩ := hr.more after rest rfl
      exact ⟨some sep, hdesc⟩
  obtain ⟨next, hdesc⟩ := hdesc
  obtain ⟨low, high, hitems, hpos, hlow, hhigh⟩ := leaf_split (hleaf.leaf_sorted hlevel) target
  have hsearch := binarySearchLeaf_eq h64 hleaf hlevel target
  dsimp only at hsearch
  rw [hpos] at hsearch
  have hrun : (findExact env map nodesize root target).run g = .ok
      (high.head?.bind fun x => if x.key = target then some (leaf, low.length) else none) := by
    rw [findExact, Prog.run_bind, run_descendToLeaf h64 hnode g hn h hdesc, Except.ok_bind]
    dsimp only
    by_cases hzero : leaf.header.nritems = 0
    · rw [if_pos hzero]
      have hnil : leaf.items = [] := List.eq_nil_of_length_eq_zero (leaf.length_items.trans hzero)
      rw [hnil] at hitems
      obtain ⟨rfl, rfl⟩ := List.append_eq_nil_iff.mp hitems.symm
      rfl
    · rw [if_neg hzero, hsearch]
      simp only [liftM_ok_bind]
      cases high with
      | nil =>
        rw [if_neg (by rw [hitems]; simp)]
        rfl
      | cons x high =>
        have hx : leaf.items[low.length]? = some x := by
          rw [hitems, getElem?_length]
          rfl
        rw [if_pos (by rw [hitems]; simp)]
        dsimp only
        rw [hleaf.leafItem_ok h64 hlevel hx, liftM_ok_bind]
        rfl
  refine ⟨_, hrun, ?_, ?_⟩
  · intro hnone x hx
    by_cases hin : x ∈ leaf.items
    · rw [hitems] at hin
      rcases List.mem_append.mp hin with hin | hin
      · exact (hlow x hin).ne
      · cases high with
        | nil => cases hin
        | cons y high =>
          simp only [List.head?_cons, Option.bind_some] at hnone
          have hy : y.key ≠ target := by
            intro heq
            rw [if_pos heq] at hnone
            cases hnone
          rcases List.mem_cons.mp hin with rfl | hin
          · exact hy
          · have hsorted := hleaf.leaf_sorted hlevel
            rw [hitems] at hsorted
            have hlt : y.key < x.key :=
              (List.pairwise_cons.mp (List.pairwise_append.mp hsorted).2.1).1 x hin
            exact ((hhigh y (by simp)).trans_lt hlt).ne'
    · exact hother x hx hin
  · intro leaf' i hsome
    cases high with
    | nil => cases hsome
    | cons x high =>
      simp only [List.head?_cons, Option.bind_some] at hsome
      split_ifs at hsome with heq
      cases hsome
      have hx : leaf.items[low.length]? = some x := by
        rw [hitems, getElem?_length]
        rfl
      exact ⟨hmem, x, hleaf.leafItem_ok h64 hlevel hx, by rw [hitems]; simp, heq⟩

/-- On a well-formed tree the finders answer for the whole tree. -/
theorem finders_spec {n : ℕ} (hn : n ≤ maxTreeDepth) {t : Tree DiskKey TreeBlock n} {root : ℕ}
    (h : TreeAt (blockAt env map nodesize g) n t root) (target : DiskKey) :
    (∃ r, (findFirstGe env map nodesize root target).run g = .ok r ∧
      (r = none ↔ ∀ x ∈ allItems TreeBlock.items n t, x.key < target) ∧
      ∀ leaf i, r = some (leaf, i) → leaf ∈ leaves n t ∧
        ∃ x, leaf.leafItem env i = .ok x ∧ x ∈ allItems TreeBlock.items n t ∧ target ≤ x.key ∧
          ∀ y ∈ allItems TreeBlock.items n t, target ≤ y.key → x.key ≤ y.key) ∧
    ∃ r, (findExact env map nodesize root target).run g = .ok r ∧
      (r = none ↔ ∀ x ∈ allItems TreeBlock.items n t, x.key ≠ target) ∧
      ∀ leaf i, r = some (leaf, i) → leaf ∈ leaves n t ∧
        ∃ x, leaf.leafItem env i = .ok x ∧ x ∈ allItems TreeBlock.items n t ∧ x.key = target := by
  have hacc : ∀ l b, blockAt env map nodesize g l = .ok b → b.Accepted :=
    blocks_accepted h64 hnode g
  -- find_first_ge is the tree's search, which firstGe_spec places among the leaves
  refine ⟨⟨_, run_findFirstGe h64 hnode g hn h target, ?_⟩, ?_⟩
  · have hspec := firstGe_spec (h.separated hacc) (fun leaf hleaf =>
      (h.leaf_accepted hacc hleaf).1.leaf_sorted (h.leaf_accepted hacc hleaf).2) target
    cases hfound : firstGe TreeBlock.items LeafItem.key n t target with
    | none =>
      rw [hfound] at hspec
      exact ⟨⟨fun _ => hspec, fun _ => rfl⟩, fun leaf i hsome => by cases hsome⟩
    | some r =>
      obtain ⟨leaf, i⟩ := r
      rw [hfound] at hspec
      obtain ⟨pre, post, low, x, high, hsplit, hitems, rfl, hge, hbefore⟩ := hspec
      -- the split of the leaves carried over to the items of the whole tree
      have hall : allItems TreeBlock.items n t =
          (pre.flatMap TreeBlock.items ++ low) ++ x :: (high ++ post.flatMap TreeBlock.items) := by
        rw [allItems, hsplit, List.flatMap_append, List.flatMap_cons, hitems]
        simp
      have hx : x ∈ allItems TreeBlock.items n t := by rw [hall]; simp
      refine ⟨⟨fun hnone => by (cases hnone), fun hlt => absurd (hlt x hx) hge.not_gt⟩, ?_⟩
      intro leaf' i' hsome
      cases hsome
      have hmem : leaf ∈ leaves n t := by rw [hsplit]; simp
      obtain ⟨hleaf, hlevel⟩ := h.leaf_accepted hacc hmem
      have hxi : leaf.items[low.length]? = some x := by
        rw [hitems, getElem?_length]
        rfl
      refine ⟨hmem, x, hleaf.leafItem_ok h64 hlevel hxi, hx, hge, fun y hy hty => ?_⟩
      -- before the item everything is below the target, after it everything is above the item
      have hsorted := h.sorted hacc
      rw [hall] at hy hsorted
      rcases List.mem_append.mp hy with hy | hy
      · exact absurd (hbefore y hy) hty.not_gt
      · rcases List.mem_cons.mp hy with rfl | hy
        · exact le_rfl
        · exact ((List.pairwise_cons.mp (List.pairwise_append.mp hsorted).2.1).1 y hy).le
  · obtain ⟨r, hrun, hnone, hsome⟩ := run_findExact h64 hnode g hn h target
    refine ⟨r, hrun, ⟨hnone, fun hall => ?_⟩, fun leaf i hr => ?_⟩
    · cases r with
      | none => rfl
      | some r =>
        obtain ⟨hmem, x, -, hx, heq⟩ := hsome r.1 r.2 rfl
        exact absurd heq (hall x (List.mem_flatMap.mpr ⟨r.1, hmem, hx⟩))
    · obtain ⟨hmem, x, hget, hx, heq⟩ := hsome leaf i hr
      exact ⟨hmem, x, hget, List.mem_flatMap.mpr ⟨leaf, hmem, hx⟩, heq⟩

end OnTree

/-! ### The sample tree -/

/-- The tree block of the sample volume. -/
def sampleLeaf : TreeBlock where
  header :=
    { csum := sampleVolume.device.bytes 0x1000 32, bytenr := 0x100000, nritems := 8,
      level := 0 }
  body := sampleVolume.device.bytes 0x1000 4096

set_option maxRecDepth 100000 in
theorem sampleLeaf_read : blockAt referenceEnv sampleMap 4096 sampleVolume.device.answer 0x100000 =
    .ok sampleLeaf := by
  decide +kernel

theorem sampleTree_at : TreeAt (blockAt referenceEnv sampleMap 4096 sampleVolume.device.answer) 0
    (.leaf sampleLeaf) 0x100000 :=
  ⟨sampleLeaf, rfl, sampleLeaf_read, rfl⟩

/-! ### A tree of two levels -/

/-- A node over leaves, each under its separator. -/
def branch (kids : List (DiskKey × TreeBlock)) : Tree DiskKey TreeBlock 1 :=
  .node (kids.map fun kid => (kid.1, .leaf kid.2))

theorem leaves_branch (kids : List (DiskKey × TreeBlock)) :
    leaves 1 (branch kids) = kids.map Prod.snd := by
  rw [branch, leaves_node, List.flatMap_map, List.map_eq_flatMap]
  exact List.flatMap_congr fun kid _ => leaves_leaf kid.2

theorem TreeAt.branch {read : ℕ → Outcome TreeBlock} {logical : ℕ} {block : TreeBlock}
    {kids : List (DiskKey × TreeBlock)} (hblock : read logical = .ok block)
    (hl : block.header.level = 1) (hne : kids ≠ [])
    (hkids : List.Forall₂ (fun kp kid => kid.1 = kp.key ∧ read kp.blockptr = .ok kid.2 ∧
      kid.2.header.level = 0) block.keyPtrs kids)
    (hchain : kids.IsChain fun a b =>
      (∀ x ∈ a.2.items, x.key < b.1) ∧ ∀ x ∈ b.2.items, b.1 ≤ x.key)
    (hitems : ∀ kid ∈ kids, kid.2.items ≠ []) : TreeAt read 1 (branch kids) logical := by
  refine ⟨block, _, rfl, hblock, hl, by simpa using hne, ?_, ?_, ?_⟩
  · refine List.forall₂_map_right_iff.mpr (hkids.imp fun kp kid h => ?_)
    exact ⟨h.1, kid.2, rfl, h.2⟩
  · refine (List.isChain_map _).mpr (hchain.imp fun a b h => ?_)
    simpa [Separates, allItems, leaves_leaf] using h
  · intro kid hkid leaf hleaf
    obtain ⟨kid, hmem, rfl⟩ := List.mem_map.mp hkid
    rw [leaves_leaf, List.mem_singleton] at hleaf
    exact hleaf ▸ hitems kid hmem

/-- A leaf of a tree: its separator, its address, its page and what the page is made of. -/
structure StoredLeaf where
  separator : DiskKey
  logical : ℕ
  page : ℕ
  items : List SampleItem

section Paged

variable {env : Env} (h64 : env.usizeBits = 64) {map : ChunkMap}

include h64

/-- A block of 4096 bytes in one stripe. -/
theorem blockAt_of_bytes {dev : Device} {logical : ℕ} {r : Resolved} {body : List UInt8}
    {b : TreeBlock} (hresolve : map.resolve env logical = .ok r) (hcont : 4096 ≤ r.contiguousBytes)
    (hserves : dev.serves r.physical 4096 = true) (hbytes : dev.bytes r.physical 4096 = body)
    (haccept : acceptBlock env logical body = .ok b) :
    blockAt env map 4096 dev.answer logical = .ok b := by
  have htake : min 4096 r.contiguousBytes = 4096 := Nat.min_eq_left hcont
  have hbody : (readBody env map 4096 logical).run dev.answer = .ok body := by
    rw [readBody_eq (by rw [h64]; decide), fetch, if_pos (by decide), Prog.run_bind,
      Prog.run_liftM, hresolve, Except.ok_bind]
    dsimp only
    rw [htake, Prog.run_bind, Device.run_readAt, if_pos hserves, Except.ok_bind, Prog.run_bind,
      fetch, if_neg (by decide), Prog.run_pure, Except.ok_bind, Prog.run_pure, List.append_nil,
      hbytes]
  unfold blockAt readTreeBlock
  rw [Prog.run_bind, run_note_event, Except.ok_bind, Prog.run_bind, hbody, Except.ok_bind,
    Prog.run_liftM, haccept]

/-- A page of a volume, read through the chunks. -/
theorem blockAt_page {pages : List (ℕ × ℕ)} {size : ℕ} (hsize : size < 2 ^ 64)
    {k page logical : ℕ} (hpage : pages.lookup k = some page) (hin : 4096 * k + 4096 ≤ size)
    (hresolve : (fun r => (r.physical, decide (4096 ≤ r.contiguousBytes))) <$>
      map.resolve env logical = .ok (4096 * k, true))
    (hchecked : PageChecked env page logical) :
    blockAt env map 4096 (SliceDevice.ofPages pages size hsize).device.answer logical =
      .ok (pageBlock page) := by
  obtain ⟨r, hr, hplace⟩ := Except.map_eq_ok.mp hresolve
  obtain ⟨hphysical, hcont⟩ := Prod.mk.inj hplace
  refine blockAt_of_bytes h64 hr (of_decide_eq_true hcont) ?_ ?_ (acceptBlock_page hchecked)
  · rw [hphysical]
    exact SliceDevice.serves_iff.mpr hin
  · rw [hphysical]
    exact bytes_ofPages hsize hpage

/-- Pages that are a node and its leaves, with separators between the items, are a tree. -/
theorem treeAt_pages {g : (q : ReadReq) → Ans q} {node logical : ℕ} {kids : List StoredLeaf}
    (hnode : NodePage env node logical (kids.map fun kid => (kid.separator, kid.logical)))
    (hleaves : ∀ kid ∈ kids, LeafPage env kid.page kid.logical kid.items)
    (hread : blockAt env map 4096 g logical = .ok (pageBlock node))
    (hreads : ∀ kid ∈ kids, blockAt env map 4096 g kid.logical = .ok (pageBlock kid.page))
    (hne : kids ≠ []) (hitems : ∀ kid ∈ kids, kid.items ≠ [])
    (hchain : kids.IsChain fun a b =>
      (∀ x ∈ a.items, x.1 < b.separator) ∧ ∀ x ∈ b.items, b.separator ≤ x.1) :
    TreeAt (blockAt env map 4096 g) 1
      (branch (kids.map fun kid => (kid.separator, pageBlock kid.page))) logical := by
  obtain ⟨-, hfits, hlevel, hptrs⟩ := hnode
  -- the items of a leaf by their keys
  have hkeys : ∀ kid ∈ kids, ∀ x ∈ (pageBlock kid.page).items, ∃ y ∈ kid.items, y.1 = x.key := by
    intro kid hkid x hx
    have hmem := List.mem_map_of_mem (f := LeafItem.key) hx
    rw [(hleaves kid hkid).keys h64] at hmem
    exact List.mem_map.mp hmem
  refine TreeAt.branch hread ((level_page node).trans hlevel) (by simpa using hne) ?_ ?_ ?_
  · rw [keyPtrs_page hfits, hptrs, List.map_map, List.forall₂_map_left_iff,
      List.forall₂_map_right_iff, List.forall₂_same]
    exact fun kid hkid => ⟨rfl, hreads kid hkid, (hleaves kid hkid).level⟩
  · rw [List.isChain_map]
    refine hchain.imp_of_mem_imp fun a b ha hb hab => ⟨fun x hx => ?_, fun x hx => ?_⟩
    · obtain ⟨y, hy, hkey⟩ := hkeys a ha x hx
      exact hkey ▸ hab.1 y hy
    · obtain ⟨y, hy, hkey⟩ := hkeys b hb x hx
      exact hkey ▸ hab.2 y hy
  · intro kid hkid hnil
    obtain ⟨kid, hmem, rfl⟩ := List.mem_map.mp hkid
    have hkeys := (hleaves kid hmem).keys h64
    rw [hnil] at hkeys
    exact hitems kid hmem (List.map_eq_nil_iff.mp hkeys.symm)

end Paged

/-! ### The sample tree of two levels -/

/-- The record of an entry with a name of six bytes, at `p`. -/
def spreadEntry (p objectid ty name : ℕ) : List (ℕ × ℕ) :=
  [(p, objectid), (p + 8, 1), (p + 17, 7), (p + 27, 6), (p + 29, ty), (p + 30, name)]

/-- The entry `a20qsr`, a regular file. -/
def spreadFile (p : ℕ) : List (ℕ × ℕ) := spreadEntry p 257 1 0x727371303261

/-- The entry `m9oxd8`, a symlink, with a tail of two bytes. -/
def spreadLink (p : ℕ) : List (ℕ × ℕ) :=
  (p + 25, 2) :: (p + 36, 0x7a7a) :: spreadEntry p 258 7 0x3864786f396d

/-- A directory, its two names in one bucket. -/
def spreadFirst : List SampleItem :=
  [(⟨256, inodeItemKey, 0⟩, 160, [(52, 0o40755)]),
   (⟨256, dirItemKey, 0x1113aca4⟩, 74, spreadLink 0 ++ spreadFile 38),
   (⟨256, dirIndexKey, 2⟩, 36, spreadFile 0)]

/-- The rest of the directory, and the file up to its twelfth byte: five bytes that lie
outside the tree, a hole and four bytes inline. -/
def spreadSecond : List SampleItem :=
  [(⟨256, dirIndexKey, 7⟩, 38, spreadLink 0), sampleInode 257 22,
   (⟨257, extentDataKey, 0⟩, 53, [(8, 4096), (20, fileExtentReg), (21, 0x104000), (29, 4096),
     (45, 5)]),
   (⟨257, extentDataKey, 5⟩, 53, [(8, 3), (20, fileExtentReg), (45, 3)]),
   (⟨257, extentDataKey, 8⟩, 25, [(8, 4), (21, 0x6661656c)])]

/-- The rest of the file, behind a gap: space kept, and an extent that goes on past the
end.  Then the symlink. -/
def spreadThird : List SampleItem :=
  [(⟨257, extentDataKey, 14⟩, 53, [(8, 4), (20, fileExtentPrealloc), (21, 0x104000), (29, 4096),
     (45, 4)]),
   (⟨257, extentDataKey, 18⟩, 53, [(8, 4096), (20, fileExtentReg), (21, 0x104000), (29, 4096),
     (37, 8), (45, 8)]),
   (⟨258, inodeItemKey, 0⟩, 160, [(16, 6), (52, 0o120777)]),
   (⟨258, extentDataKey, 0⟩, 27, [(8, 6), (21, 0x727371303261)])]

/-- The leaves; the separators of the second and the third are keys of no item. -/
def spreadLeaves : List StoredLeaf :=
  [⟨⟨256, inodeItemKey, 0⟩, 0x101000, image (leafFields 0 4096 975029504 0x101000 spreadFirst),
    spreadFirst⟩,
   ⟨⟨256, dirIndexKey, 5⟩, 0x102000, image (leafFields 0 4096 4249557391 0x102000 spreadSecond),
    spreadSecond⟩,
   ⟨⟨257, extentDataKey, 13⟩, 0x103000, image (leafFields 0 4096 1344444058 0x103000 spreadThird),
    spreadThird⟩]

def spreadPtrs : List (DiskKey × ℕ) := spreadLeaves.map fun kid => (kid.separator, kid.logical)

def spreadNode : ℕ := image (nodeFields 844788112 0x100000 spreadPtrs)

/-- The node, the leaves and the data of the file. -/
def spreadPages : List (ℕ × ℕ) :=
  (1, spreadNode) :: (5, image [(0, 0x7473726966), (8, 0x656e6f207473616c)]) ::
    spreadLeaves.zipIdx.map fun kid => (kid.2 + 2, kid.1.page)

theorem spreadSize_lt : 0x6000 < 2 ^ 64 := by decide

def spreadVolume : SliceDevice := .ofPages spreadPages 0x6000 spreadSize_lt

def spreadMap : ChunkMap := (ChunkMap.empty.setLocalDevid 1).insertAll
  [{ logical := 0x100000, length := 0x5000, ty := 0, stripeLen := 65536, numStripes := 1,
     subStripes := 1, stripes := [⟨1, 0x1000, List.replicate 16 0⟩] }]

set_option maxRecDepth 100000 in
theorem spread_pages : NodePage referenceEnv spreadNode 0x100000 spreadPtrs ∧
    ∀ kid ∈ spreadLeaves, LeafPage referenceEnv kid.page kid.logical kid.items := by
  decide +kernel

def spreadTree : Tree DiskKey TreeBlock 1 :=
  branch (spreadLeaves.map fun kid => (kid.separator, pageBlock kid.page))

/-- A page of the sample, read through the chunk. -/
theorem spread_read {k page logical : ℕ} (hpage : spreadPages.lookup k = some page)
    (hin : 4096 * k + 4096 ≤ 0x6000)
    (hresolve : (fun r => (r.physical, decide (4096 ≤ r.contiguousBytes))) <$>
      spreadMap.resolve referenceEnv logical = .ok (4096 * k, true))
    (hchecked : PageChecked referenceEnv page logical) :
    blockAt referenceEnv spreadMap 4096 spreadVolume.device.answer logical = .ok (pageBlock page) :=
  blockAt_page referenceEnv_usize64 spreadSize_lt hpage hin hresolve hchecked

theorem spread_reads : ∀ kid ∈ spreadLeaves,
    blockAt referenceEnv spreadMap 4096 spreadVolume.device.answer kid.logical =
      .ok (pageBlock kid.page) := by
  obtain ⟨-, hleaves⟩ := spread_pages
  simp only [spreadLeaves, List.forall_mem_cons] at hleaves ⊢
  obtain ⟨h1, h2, h3, -⟩ := hleaves
  refine ⟨@spread_read 2 _ _ rfl (by decide) rfl h1.1, @spread_read 3 _ _ rfl (by decide) rfl h2.1,
    @spread_read 4 _ _ rfl (by decide) rfl h3.1, fun _ h => absurd h List.not_mem_nil⟩

theorem spread_at : TreeAt (blockAt referenceEnv spreadMap 4096 spreadVolume.device.answer) 1
    spreadTree 0x100000 := by
  obtain ⟨hnode, hleaves⟩ := spread_pages
  exact treeAt_pages referenceEnv_usize64 hnode hleaves
    (@spread_read 1 _ _ rfl (by decide) rfl hnode.1) spread_reads (List.cons_ne_nil _ _)
    (by decide) (by decide)

/-- The keys of the sample, leaf by leaf. -/
theorem spread_keys : (allItems TreeBlock.items 1 spreadTree).map LeafItem.key =
    spreadLeaves.flatMap fun kid => kid.items.map Prod.fst := by
  obtain ⟨-, hleaves⟩ := spread_pages
  rw [allItems, spreadTree, leaves_branch, List.map_map, List.flatMap_map, List.map_flatMap]
  exact List.flatMap_congr fun kid hkid => (hleaves kid hkid).keys referenceEnv_usize64

/-- A search that ends between two leaves finds the first item of the second; the
separator there is the key of no item. -/
theorem finders_sample :
    (∃ leaf i x, (findFirstGe referenceEnv spreadMap 4096 0x100000 ⟨256, dirIndexKey, 4⟩).run
        spreadVolume.device.answer = .ok (some (leaf, i)) ∧
      leaf.leafItem referenceEnv i = .ok x ∧ x.key = ⟨256, dirIndexKey, 7⟩) ∧
    (findExact referenceEnv spreadMap 4096 0x100000 ⟨256, dirIndexKey, 5⟩).run
      spreadVolume.device.answer = .ok none := by
  have hspec := finders_spec referenceEnv_usize64 ⟨by decide, by decide⟩
    spreadVolume.device.answer (by decide) spread_at
  have hmem : ∀ key, (∃ x ∈ allItems TreeBlock.items 1 spreadTree, x.key = key) ↔
      key ∈ spreadLeaves.flatMap fun kid => kid.items.map Prod.fst := by
    intro key
    rw [← spread_keys, List.mem_map]
  constructor
  · obtain ⟨⟨r, hrun, hnone, hsome⟩, -⟩ := hspec ⟨256, dirIndexKey, 4⟩
    obtain ⟨y, hy, hykey⟩ := (hmem ⟨256, dirIndexKey, 7⟩).mpr (by decide)
    have hge : (⟨256, dirIndexKey, 4⟩ : DiskKey) ≤ y.key := by
      rw [hykey]
      decide
    cases r with
    | none => exact absurd (hnone.mp rfl y hy) hge.not_gt
    | some r =>
      obtain ⟨-, x, hget, hx, htarget, hleast⟩ := hsome r.1 r.2 rfl
      refine ⟨r.1, r.2, x, hrun, hget, le_antisymm (hykey ▸ hleast y hy hge) ?_⟩
      -- no key lies between
      have hbetween : ∀ key ∈ spreadLeaves.flatMap fun kid => kid.items.map Prod.fst,
          (⟨256, dirIndexKey, 4⟩ : DiskKey) ≤ key → ⟨256, dirIndexKey, 7⟩ ≤ key := by
        decide
      exact hbetween x.key ((hmem x.key).mp ⟨x, hx, rfl⟩) htarget
  · obtain ⟨-, r, hrun, hnone, -⟩ := hspec ⟨256, dirIndexKey, 5⟩
    have habsent : ∀ x ∈ allItems TreeBlock.items 1 spreadTree, x.key ≠ ⟨256, dirIndexKey, 5⟩ :=
      fun x hx hkey => absurd ((hmem _).mp ⟨x, hx, hkey⟩) (by decide)
    rw [hrun, hnone.mpr habsent]
