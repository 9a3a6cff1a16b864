/-
The items a re-descend loop is given.

With fixed answers and a tree that stays readable alike, what a `Walk` does is
decided by the items its passes meet: `passes` lists them, up to the first one
that is not `mine`, and `Walk.run_eq` turns the run into a fold of the body over
this list.  Two loops that start at the same target fold over the same list.

* On every image the list ascends strictly and holds items of accepted leaves
  (`passes_sound`).
* On a well-formed tree it is the tree's items at or after the target
  (`passes_tree`), so a loop over the items of one object and type meets all of them
  (`passes_items`).
* Where the items of a tree are known (`TreeHolds`), so is what a search finds
  (`TreeHolds.findFirstGe_run`, `TreeHolds.findExact_run`).
-/
import Lambutter.Walk

open Ranges SearchTree

/-- An item and the leaf it lies in. -/
abbrev Located := TreeBlock × LeafItem

/-! ### Folding a body over a list -/

section Fold

variable {σ : Type}

/-- The body over a list of items; it may leave before the end. -/
def fold (step : Located → σ → Outcome (Pace σ)) : List Located → (σ → Outcome σ) → σ → Outcome σ
  | [], k, s => k s
  | x :: xs, k, s =>
    match step x s with
    | .error e => .error e
    | .ok (.leave s) => .ok s
    | .ok (.more s _) => fold step xs k s

theorem fold_append (step : Located → σ → Outcome (Pace σ)) (xs ys : List Located)
    (k : σ → Outcome σ) (s : σ) : fold step (xs ++ ys) k s = fold step xs (fold step ys k) s := by
  induction xs generalizing s with
  | nil => rfl
  | cons x xs ih =>
    rw [List.cons_append, fold, fold]
    rcases step x s with e | ⟨s', next⟩ | s'
    · rfl
    · exact ih s'
    · rfl

/-- What follows the last item: the end of the loop, or the failure of the next pass. -/
def ending (stop : Option Stop) (s : σ) : Outcome σ :=
  match stop with
  | none => .ok s
  | some x => .error x

end Fold

/-! ### The items -/

section Passes

variable (env : Env) (map : ChunkMap) (nodesize root : ℕ) (mine : LeafItem → Bool)
  (g : (q : ReadReq) → Ans q)

/-- The items that passes from `target` on meet, up to the first that is not
`mine`, and what the last pass failed with if it did. -/
def passes : ℕ → DiskKey → List Located × Option Stop
  | 0, _ => ([], some (.fault .fuel))
  | fuel + 1, target =>
    match (findFirstGe env map nodesize root target).run g with
    | .error x => ([], some x)
    | .ok none => ([], none)
    | .ok (some (block, idx)) =>
      let items := block.items.drop idx
      let here := (items.takeWhile mine).map (block, ·)
      if items.all mine then
        match items.getLast?.bind fun x => x.key.next with
        | none => (here, none)
        | some target => (here ++ (passes fuel target).1, (passes fuel target).2)
      else (here, none)

end Passes

section Everywhere

variable {env : Env} (h64 : env.usizeBits = 64) {map : ChunkMap} {nodesize : ℕ}
  (hnode : ValidNodesize nodesize) (root : ℕ) {mine : LeafItem → Bool}
  (g : (q : ReadReq) → Ans q)

include h64 hnode

theorem run_findFirstGe_first {target : DiskKey} {block : TreeBlock} {idx : ℕ}
    (h : (findFirstGe env map nodesize root target).run g = .ok (some (block, idx))) :
    FirstInLeaf block idx target :=
  (findFirstGe_ensures h64 hnode root target).returns _ () h block idx rfl

omit h64 hnode in
/-- Items from the first one at or after the target on: in order, none before it. -/
theorem FirstInLeaf.drop_sorted {block : TreeBlock} {idx : ℕ} {target : DiskKey}
    (h : FirstInLeaf block idx target) :
    (block.items.drop idx).Pairwise (fun x y => x.key < y.key) ∧
      ∀ x ∈ block.items.drop idx, target ≤ x.key := by
  have hlen := block.length_items
  have hlt := h.lt
  have hsorted := (h.accepted.leaf_sorted h.level).sublist (List.drop_sublist idx block.items)
  refine ⟨hsorted, fun x hx => ?_⟩
  rw [List.drop_eq_getElem_cons (by omega : idx < block.items.length)] at hsorted hx
  have hfirst := h.ge _ (List.getElem?_eq_getElem (by omega))
  rcases List.mem_cons.mp hx with rfl | hx
  · exact hfirst
  · exact hfirst.trans ((List.pairwise_cons.mp hsorted).1 x hx).le

/-- An item that passes from `target` on can meet. -/
structure Met (mine : LeafItem → Bool) (target : DiskKey) (x : Located) : Prop where
  accepted : x.1.Accepted
  level : x.1.header.level = 0
  mem : x.2 ∈ x.1.items
  mine : mine x.2 = true
  ge : target ≤ x.2.key

/-- On every image the passes meet items of accepted leaves, in strictly ascending order. -/
theorem passes_sound (fuel : ℕ) (target : DiskKey) :
    (∀ x ∈ (passes env map nodesize root mine g fuel target).1, Met mine target x) ∧
    (passes env map nodesize root mine g fuel target).1.Pairwise fun x y => x.2.key < y.2.key := by
  -- on the passes left; the target of the next pass is past all that this one met
  induction fuel generalizing target with
  | zero => simp [passes]
  | succ fuel ih =>
    rw [passes]
    rcases hfind : (findFirstGe env map nodesize root target).run g with x | _ | ⟨block, idx⟩
    · simp
    · simp
    have hfirst := run_findFirstGe_first h64 hnode root g hfind
    obtain ⟨hsorted, hge⟩ := hfirst.drop_sorted
    -- this pass: the tail of a sorted leaf
    have hmem : ∀ x ∈ ((block.items.drop idx).takeWhile mine).map (block, ·),
        Met mine target x := by
      intro x hx
      obtain ⟨y, hy, rfl⟩ := List.mem_map.mp hx
      have hd : y ∈ block.items.drop idx := (List.takeWhile_sublist _).subset hy
      exact ⟨hfirst.accepted, hfirst.level, List.mem_of_mem_drop hd,
        List.mem_takeWhile_imp hy, hge y hd⟩
    have hpair : (((block.items.drop idx).takeWhile mine).map (block, ·)).Pairwise
        fun x y => x.2.key < y.2.key :=
      List.pairwise_map.mpr (hsorted.sublist (List.takeWhile_sublist _))
    dsimp only
    split_ifs with hall
    · cases hlast : (block.items.drop idx).getLast?.bind fun x => x.key.next with
      | none => exact ⟨hmem, hpair⟩
      | some next =>
        -- the passes after it start past the last key of that leaf
        obtain ⟨hrest, hrestPair⟩ := ih next
        obtain ⟨last, hlast, hnext⟩ := Option.bind_eq_some_iff.mp hlast
        have hlt := DiskKey.lt_of_next hnext
        have hle : ∀ x ∈ block.items.drop idx, x.key ≤ last.key := by
          intro x hx
          obtain ⟨pre, hpre⟩ := List.getLast?_eq_some_iff.mp hlast
          rw [hpre] at hx hsorted
          rcases List.mem_append.mp hx with hx | hx
          · exact ((List.pairwise_append.mp hsorted).2.2 x hx last (by simp)).le
          · rw [List.mem_singleton.mp hx]
        refine ⟨fun x hx => ?_, List.pairwise_append.mpr ⟨hpair, hrestPair, fun x hx y hy => ?_⟩⟩
        · rcases List.mem_append.mp hx with hx | hx
          · exact hmem x hx
          · have hmet := hrest x hx
            have hgelast := hge last (List.mem_of_getLast? hlast)
            exact ⟨hmet.accepted, hmet.level, hmet.mem, hmet.mine,
              (hgelast.trans hlt.le).trans hmet.ge⟩
        · obtain ⟨z, hz, rfl⟩ := List.mem_map.mp hx
          exact ((hle z ((List.takeWhile_sublist _).subset hz)).trans_lt hlt).trans_le
            (hrest y hy).ge
    · exact ⟨hmem, hpair⟩

end Everywhere

/-! ### A run is a fold -/

namespace Walk

variable {σ : Type} {env : Env} {w : Walk σ} {map : ChunkMap} {mine : LeafItem → Bool}
  {g : (q : ReadReq) → Ans q} {Inv : σ → Prop}

/-- A loop whose every pass is alike: each search finds what it finds through `map`,
`Inv` keeps the loop going, an item that is not `mine` ends it, and it goes on from the
key after the item. -/
structure Steady (env : Env) (w : Walk σ) (map : ChunkMap) (mine : LeafItem → Bool)
    (g : (q : ReadReq) → Ans q) (Inv : σ → Prop) : Prop where
  found : ∀ s target, Inv s → (findFirstGe env (w.chunkMap s) w.nodesize w.root target).run g =
    (findFirstGe env map w.nodesize w.root target).run g
  proceed : ∀ s, Inv s → w.proceed s = true
  foreign : ∀ block item s, mine item = false → (w.item block item s).run g = .ok (.leave s)
  more : ∀ block item s s' next, block.Accepted → block.header.level = 0 → item ∈ block.items →
    mine item = true → Inv s → (w.item block item s).run g = .ok (.more s' next) →
      Inv s' ∧ next = item.key.next

/-- The body as a step of `fold`. -/
def step (w : Walk σ) (g : (q : ReadReq) → Ans q) (x : Located) (s : σ) : Outcome (Pace σ) :=
  (w.item x.1 x.2 s).run g

/-- Continuations that agree where `Inv` holds make equal folds. -/
theorem fold_congr (hs : w.Steady env map mine g Inv) {xs : List Located} {target : DiskKey}
    (hxs : ∀ x ∈ xs, Met mine target x) {s : σ} (hinv : Inv s) {k k' : σ → Outcome σ}
    (hk : ∀ s, Inv s → k s = k' s) : fold (w.step g) xs k s = fold (w.step g) xs k' s := by
  induction xs generalizing s with
  | nil => exact hk s hinv
  | cons x xs ih =>
    have hx := hxs x (by simp)
    rw [fold, fold]
    rcases hstep : w.step g x s with e | ⟨s', next⟩ | s'
    · rfl
    · exact ih (fun y hy => hxs y (by simp [hy]))
        (hs.more x.1 x.2 s s' next hx.accepted hx.level hx.mem hx.mine hinv hstep).1
    · rfl

/-- What the outer loop does after a leaf. -/
def after (k : DiskKey → σ → Outcome σ) : Pace σ → Outcome σ
  | .leave s => .ok s
  | .more s none => .ok s
  | .more s (some target) => k target s

theorem leaf_run (h64 : env.usizeBits = 64) (hs : w.Steady env map mine g Inv) {block : TreeBlock}
    (hb : block.Accepted) (hl : block.header.level = 0) (k : DiskKey → σ → Outcome σ)
    (n idx : ℕ) (hidx : idx + n = block.header.nritems) (s : σ) (hinv : Inv s)
    (next : Option DiskKey) :
    ((w.leaf env block n idx s next).run g >>= after k) =
      if (block.items.drop idx).all mine then
        fold (w.step g) ((block.items.drop idx).map (block, ·))
          (fun s => after k (.more s (((block.items.drop idx).getLast?.map
            fun x => x.key.next).getD next))) s
      else fold (w.step g) (((block.items.drop idx).takeWhile mine).map (block, ·)) .ok s := by
  -- on the slots left in the leaf
  induction n generalizing idx s next with
  | zero =>
    have hnil : block.items.drop idx = [] :=
      List.drop_eq_nil_of_le (by rw [block.length_items]; omega)
    rw [hnil]
    rfl
  | succ n ih =>
    have hlen := block.length_items
    have hlt : idx < block.items.length := by omega
    have hn := hb.nritems_lt
    have hitem : block.items[idx]? = some block.items[idx] := List.getElem?_eq_getElem hlt
    have hmem : block.items[idx] ∈ block.items := List.getElem_mem hlt
    have hdrop : block.items.drop idx = block.items[idx] :: block.items.drop (idx + 1) :=
      List.drop_eq_getElem_cons hlt
    generalize block.items[idx] = item at hitem hmem hdrop
    rw [leaf, hb.leafItem_ok h64 hl hitem, liftM_ok_bind, hdrop]
    simp only [Prog.run_bind, run_note_event, Except.ok_bind, List.all_cons]
    by_cases hmine : mine item = true
    · rw [List.takeWhile_cons, if_pos hmine, List.map_cons, List.map_cons, fold, fold]
      have hstep : w.step g (block, item) s = (w.item block item s).run g := rfl
      rw [hstep]
      rcases hrun : (w.item block item s).run g with e | ⟨s', next'⟩ | s'
      · simp [Except.error_bind]
      · obtain ⟨hinv', rfl⟩ := hs.more block item s s' next' hb hl hmem hmine hinv hrun
        have hrest := ih (idx + 1) (by omega) s' hinv' item.key.next
        simp only [Except.ok_bind, Prog.run_bind, Prog.run_liftM,
          Env.addU32_ok env (by omega : idx + 1 < 2 ^ 32)]
        rw [hrest]
        -- the next target is that of the last item, or what was handed in when there is none
        have hlast : ((item :: block.items.drop (idx + 1)).getLast?.map
            fun x => x.key.next).getD next =
              ((block.items.drop (idx + 1)).getLast?.map fun x => x.key.next).getD
                item.key.next := by
          rw [List.getLast?_cons]
          cases (block.items.drop (idx + 1)).getLast? <;> rfl
        rw [hlast]
        simp only [hmine, Bool.true_and]
      · simp [Except.ok_bind, after]
    -- a foreign item ends the walk, and takeWhile with it
    · have hfalse : mine item = false := by simpa using hmine
      rw [hs.foreign block item s hfalse, Except.ok_bind]
      simp [hfalse, fold, after, Except.ok_bind]

/-- With fixed answers a loop is a fold over the items its passes meet. -/
theorem run_eq (h64 : env.usizeBits = 64) (hnode : ValidNodesize w.nodesize)
    (hs : w.Steady env map mine g Inv) (fuel : ℕ) (target : DiskKey) (s : σ) (hinv : Inv s) :
    (w.run env fuel target s).run g =
      fold (w.step g) (passes env map w.nodesize w.root mine g fuel target).1
        (ending (passes env map w.nodesize w.root mine g fuel target).2) s := by
  -- one unfolding of the loop against one of passes, with leaf_run between them
  induction fuel generalizing target s with
  | zero => rfl
  | succ fuel ih =>
    rw [run, if_pos (hs.proceed s hinv), Prog.run_bind, hs.found s target hinv, passes]
    rcases hfind : (findFirstGe env map w.nodesize w.root target).run g with x | _ | ⟨block, idx⟩
    · rfl
    · rfl
    have hfirst := run_findFirstGe_first h64 hnode w.root g hfind
    have hlt := hfirst.lt
    have hleaf := leaf_run h64 hs hfirst.accepted hfirst.level
      (fun target s => (w.run env fuel target s).run g) (block.header.nritems - idx) idx
      (by omega) s hinv none
    simp only [Except.ok_bind, Prog.run_bind, run_note_event]
    trans (w.leaf env block (block.header.nritems - idx) idx s none).run g >>=
      after fun target s => (w.run env fuel target s).run g
    · refine congrArg (Bind.bind _) (funext ?_)
      rintro (⟨s, _ | target⟩ | s) <;> rfl
    rw [hleaf]
    split_ifs with hall
    · have htake : (block.items.drop idx).takeWhile mine = block.items.drop idx :=
        List.takeWhile_eq_self_iff.mpr fun x hx => List.all_eq_true.mp hall x hx
      rw [htake]
      have hbind : (block.items.drop idx).getLast?.bind (fun x => x.key.next) =
          ((block.items.drop idx).getLast?.map fun x => x.key.next).getD none := by
        cases (block.items.drop idx).getLast? <;> rfl
      rw [hbind]
      -- the invariant holds again at the end of the leaf, where the hypothesis takes over
      have hmem : ∀ x ∈ (block.items.drop idx).map (block, ·), Met mine target x := by
        intro x hx
        obtain ⟨y, hy, rfl⟩ := List.mem_map.mp hx
        exact ⟨hfirst.accepted, hfirst.level, List.mem_of_mem_drop hy,
          List.all_eq_true.mp hall y hy, hfirst.drop_sorted.2 y hy⟩
      cases ((block.items.drop idx).getLast?.map fun x => x.key.next).getD none with
      | none => exact fold_congr hs hmem hinv fun s' _ => rfl
      | some next =>
        rw [fold_append]
        exact fold_congr hs hmem hinv fun s' hinv' => ih next s' hinv'
    · rfl

end Walk

/-- What each item keeps holds of what a loop returns, on every image. -/
theorem Walk.run_keeps {σ : Type} {env : Env} {w : Walk σ} {g : (q : ReadReq) → Ans q}
    {Inv : σ → Prop}
    (hmore : ∀ block item s s' next, Inv s →
      (w.item block item s).run g = .ok (.more s' next) → Inv s')
    (hleave : ∀ block item s s', Inv s → (w.item block item s).run g = .ok (.leave s') → Inv s')
    {fuel : ℕ} {target : DiskKey} {s s' : σ} (hs : Inv s)
    (h : (w.run env fuel target s).run g = .ok s') : Inv s' := by
  -- the loop over the slots of a leaf
  have hleaf : ∀ block n idx s next, Inv s →
      (∀ s' next', (w.leaf env block n idx s next).run g = .ok (.more s' next') → Inv s') ∧
      ∀ s', (w.leaf env block n idx s next).run g = .ok (.leave s') → Inv s' := by
    intro block n
    induction n with
    | zero =>
      refine fun idx s next hs => ⟨fun s' next' h => ?_, fun s' h => ?_⟩
      · cases h
        exact hs
      · cases h
    | succ n ih =>
      intro idx s next hs
      rw [Walk.leaf]
      simp only [Prog.run_bind, Prog.run_liftM, run_note_event, Except.bind_eq_ok]
      refine ⟨?_, ?_⟩
      · rintro s' next' ⟨item, -, -, -, pace, hpace, h⟩
        cases pace with
        | leave s'' => cases h
        | more s'' next'' =>
          obtain ⟨idx', -, h⟩ := (Prog.run_bind_eq_ok _).mp h
          exact (ih idx' s'' next'' (hmore _ _ _ _ _ hs hpace)).1 s' next' h
      · rintro s' ⟨item, -, -, -, pace, hpace, h⟩
        cases pace with
        | leave s'' =>
          cases h
          exact hleave _ _ _ _ hs hpace
        | more s'' next'' =>
          obtain ⟨idx', -, h⟩ := (Prog.run_bind_eq_ok _).mp h
          exact (ih idx' s'' next'' (hmore _ _ _ _ _ hs hpace)).2 s' h
  -- the loop over the leaves
  induction fuel generalizing target s with
  | zero => cases h
  | succ fuel ih =>
    rw [Walk.run] at h
    by_cases hproceed : w.proceed s = true
    · rw [if_pos hproceed] at h
      obtain ⟨found, -, h⟩ := (Prog.run_bind_eq_ok _).mp h
      rcases found with _ | ⟨block, idx⟩
      · cases h
        exact hs
      · obtain ⟨-, -, h⟩ := (Prog.run_bind_eq_ok _).mp h
        obtain ⟨pace, hpace, h⟩ := (Prog.run_bind_eq_ok _).mp h
        obtain ⟨h1, h2⟩ := hleaf block (block.header.nritems - idx) idx s none hs
        rcases pace with ⟨s'', _ | target'⟩ | s''
        · cases h
          exact h1 _ _ hpace
        · exact ih (h1 _ _ hpace) h
        · cases h
          exact h2 _ hpace
    · rw [if_neg hproceed] at h
      cases h
      exact hs

/-! ### On a well-formed tree -/

/-- The items of a tree with the leaves they lie in, in order. -/
def located (n : ℕ) (t : Tree DiskKey TreeBlock n) : List Located :=
  (leaves n t).flatMap fun leaf => leaf.items.map (leaf, ·)

/-- Those at or after a target. -/
def locatedFrom (n : ℕ) (t : Tree DiskKey TreeBlock n) (target : DiskKey) : List Located :=
  (located n t).filter fun x => decide (target ≤ x.2.key)

theorem located_snd (n : ℕ) (t : Tree DiskKey TreeBlock n) :
    (located n t).map Prod.snd = allItems TreeBlock.items n t := by
  simp [located, allItems, List.map_flatMap, Function.comp_def]

/-- In a sorted list, the elements of an interval that starts where `q` does. -/
theorem takeWhile_filter {α : Type} {R : α → α → Prop} {p q : α → Bool} {l : List α}
    (hsorted : l.Pairwise R) (hpq : ∀ x, p x = true → q x = true)
    (hpast : ∀ x y, R x y → q x = true → p x = false → p y = false) :
    (l.filter q).takeWhile p = l.filter p := by
  induction l with
  | nil => rfl
  | cons x xs ih =>
    obtain ⟨hx, hxs⟩ := List.pairwise_cons.mp hsorted
    by_cases hp : p x = true
    · rw [List.filter_cons_of_pos (hpq x hp), List.filter_cons_of_pos hp, List.takeWhile_cons,
        if_pos hp, ih hxs]
    · rw [List.filter_cons_of_neg hp]
      by_cases hq : q x = true
      · rw [List.filter_cons_of_pos hq, List.takeWhile_cons, if_neg hp]
        refine (List.filter_eq_nil_iff.mpr fun y hy => ?_).symm
        simpa using hpast x y (hx y hy) hq (by simpa using hp)
      · rw [List.filter_cons_of_neg hq, ih hxs]

theorem located_mem {n : ℕ} {t : Tree DiskKey TreeBlock n} {x : Located} (h : x ∈ located n t) :
    x.2 ∈ x.1.items := by
  obtain ⟨leaf, -, hx⟩ := List.mem_flatMap.mp h
  obtain ⟨item, hitem, rfl⟩ := List.mem_map.mp hx
  exact hitem

/-- The item is one of the object's, of the given type. -/
def isOf (objectid itemType : ℕ) (item : LeafItem) : Bool :=
  item.key.objectid == objectid && item.key.itemType == itemType

section OnTree

variable {env : Env} (h64 : env.usizeBits = 64) {map : ChunkMap} {nodesize : ℕ}
  (hnode : ValidNodesize nodesize) {mine : LeafItem → Bool} (g : (q : ReadReq) → Ans q)

include h64 hnode

theorem located_sorted {n : ℕ} {t : Tree DiskKey TreeBlock n} {root : ℕ}
    (h : TreeAt (blockAt env map nodesize g) n t root) :
    (located n t).Pairwise fun x y => x.2.key < y.2.key := by
  have hsorted := h.sorted (blocks_accepted h64 hnode g)
  rw [← located_snd, List.pairwise_map] at hsorted
  exact hsorted

/-- A key belongs to one item. -/
theorem located_unique {n : ℕ} {t : Tree DiskKey TreeBlock n} {root : ℕ}
    (h : TreeAt (blockAt env map nodesize g) n t root) {x y : Located} (hx : x ∈ located n t)
    (hy : y ∈ located n t) (hkey : x.2.key = y.2.key) : x = y := by
  have hnodup : ((located n t).map fun x => x.2.key).Nodup :=
    List.pairwise_map.mpr ((located_sorted h64 hnode g h).imp ne_of_lt)
  exact List.inj_on_of_nodup_map hnodup hx hy hkey

/-- The first item at or after a target, the rest of its leaf, and what is left for
the passes after this one. -/
theorem locatedFrom_firstGe {n : ℕ} {t : Tree DiskKey TreeBlock n} {root : ℕ}
    (h : TreeAt (blockAt env map nodesize g) n t root) (target : DiskKey) :
    match firstGe TreeBlock.items LeafItem.key n t target with
    | none => locatedFrom n t target = []
    | some (leaf, i) => ∃ post,
        locatedFrom n t target = (leaf.items.drop i).map (leaf, ·) ++ post ∧
        ∃ last, (leaf.items.drop i).getLast? = some last ∧ target ≤ last.key ∧
          (∀ y ∈ post, last.key < y.2.key) ∧
          ∀ next, last.key.next = some next → locatedFrom n t next = post := by
  have hacc : ∀ l b, blockAt env map nodesize g l = .ok b → b.Accepted :=
    blocks_accepted h64 hnode g
  have hspec := firstGe_spec (h.separated hacc) (fun leaf hleaf =>
    (h.leaf_accepted hacc hleaf).1.leaf_sorted (h.leaf_accepted hacc hleaf).2) target
  have hsorted := located_sorted h64 hnode g h
  cases hfound : firstGe TreeBlock.items LeafItem.key n t target with
  | none =>
    rw [hfound] at hspec
    refine List.filter_eq_nil_iff.mpr fun x hx => ?_
    have hlt := hspec x.2 (by rw [← located_snd]; exact List.mem_map_of_mem hx)
    simpa using hlt
  | some r =>
    obtain ⟨leaf, i⟩ := r
    rw [hfound] at hspec
    obtain ⟨pre, post, low, x, high, hsplit, hitems, rfl, hge, hbefore⟩ := hspec
    -- the search cuts the tree's items in three: below the target, the rest of its leaf, and
    -- the leaves after it
    set below := pre.flatMap (fun leaf => leaf.items.map (leaf, ·)) ++ low.map (leaf, ·)
      with hbelow
    set here := (x :: high).map (leaf, ·) with hhere
    set rest := post.flatMap (fun leaf => leaf.items.map (leaf, ·)) with hrest
    have hall : located n t = below ++ (here ++ rest) := by
      rw [located, hsplit, List.flatMap_append, List.flatMap_cons, hitems, List.map_append]
      simp [hbelow, hhere, hrest]
    have hdrop : leaf.items.drop low.length = x :: high := by rw [hitems]; simp
    have hbelow_lt : ∀ y ∈ below, y.2.key < target := by
      intro y hy
      refine hbefore y.2 ?_
      rcases List.mem_append.mp hy with hy | hy
      · obtain ⟨l, hl, hy⟩ := List.mem_flatMap.mp hy
        obtain ⟨z, hz, rfl⟩ := List.mem_map.mp hy
        exact List.mem_append_left _ (List.mem_flatMap.mpr ⟨l, hl, hz⟩)
      · obtain ⟨z, hz, rfl⟩ := List.mem_map.mp hy
        exact List.mem_append_right _ hz
    rw [hall] at hsorted
    obtain ⟨-, hafter, -⟩ := List.pairwise_append.mp hsorted
    have hafter_ge : ∀ y ∈ here ++ rest, target ≤ y.2.key := by
      intro y hy
      have hcons : here ++ rest = (leaf, x) :: (high.map (leaf, ·) ++ rest) := rfl
      rw [hcons] at hy hafter
      rcases List.mem_cons.mp hy with rfl | hy
      · exact hge
      · exact hge.trans ((List.pairwise_cons.mp hafter).1 y hy).le
    -- the filter at the target keeps the last two
    have hfrom : locatedFrom n t target = here ++ rest := by
      rw [locatedFrom, hall, List.filter_append]
      rw [List.filter_eq_nil_iff.mpr fun y hy => by simpa using hbelow_lt y hy, List.nil_append]
      exact List.filter_eq_self.mpr fun y hy => decide_eq_true (hafter_ge y hy)
    obtain ⟨last, hlast⟩ : ∃ last, (x :: high).getLast? = some last :=
      ⟨_, List.getLast?_eq_some_getLast (List.cons_ne_nil x high)⟩
    have hlast_mem : (leaf, last) ∈ here := List.mem_map_of_mem (List.mem_of_getLast? hlast)
    have hlast_ge : target ≤ last.key := hafter_ge _ (List.mem_append_left _ hlast_mem)
    obtain ⟨hhere_sorted, -, hcross⟩ := List.pairwise_append.mp hafter
    -- and the filter past the leaf's last key keeps the last one
    have hhere_le : ∀ y ∈ here, y.2.key ≤ last.key := by
      obtain ⟨init, hinit⟩ := List.getLast?_eq_some_iff.mp hlast
      have hsplit' : here = init.map (leaf, ·) ++ [(leaf, last)] := by
        rw [hhere, hinit, List.map_append, List.map_singleton]
      intro y hy
      rw [hsplit'] at hy hhere_sorted
      rcases List.mem_append.mp hy with hy | hy
      · exact ((List.pairwise_append.mp hhere_sorted).2.2 y hy (leaf, last) (by simp)).le
      · rw [List.mem_singleton.mp hy]
    dsimp only
    rw [hdrop]
    refine ⟨rest, hfrom, last, hlast, hlast_ge, hcross (leaf, last) hlast_mem,
      fun next hnext => ?_⟩
    have hlt := DiskKey.lt_of_next hnext
    have hbelow_nil : below.filter (fun y => decide (next ≤ y.2.key)) = [] :=
      List.filter_eq_nil_iff.mpr fun y hy => by
        simpa using ((hbelow_lt y hy).trans_le hlast_ge).trans hlt
    have hhere_nil : here.filter (fun y => decide (next ≤ y.2.key)) = [] :=
      List.filter_eq_nil_iff.mpr fun y hy => by simpa using (hhere_le y hy).trans_lt hlt
    have hrest_self : rest.filter (fun y => decide (next ≤ y.2.key)) = rest :=
      List.filter_eq_self.mpr fun y hy => decide_eq_true
        (DiskKey.next_le_of_lt hnext (hcross (leaf, last) hlast_mem y hy))
    rw [locatedFrom, hall, List.filter_append below, List.filter_append here, hbelow_nil,
      hhere_nil, hrest_self, List.nil_append, List.nil_append]

/-- On a well-formed tree the passes meet the tree's items at or after the target, up
to the first that is not `mine`, and end there.  Where a key has no next one, the items
past it must not be `mine`. -/
theorem passes_tree {n : ℕ} (hn : n ≤ maxTreeDepth) {t : Tree DiskKey TreeBlock n} {root : ℕ}
    (h : TreeAt (blockAt env map nodesize g) n t root)
    (fuel : ℕ) {target : DiskKey} (htarget : target.Bounded)
    (hfuel : 2 ^ 136 ≤ fuel + target.rank)
    (hmine : ∀ x ∈ locatedFrom n t target, mine x.2 = true → x.2.key.next = none →
      ∀ y ∈ locatedFrom n t target, x.2.key < y.2.key → mine y.2 = false) :
    passes env map nodesize root mine g fuel target =
      ((locatedFrom n t target).takeWhile fun x => mine x.2, none) := by
  induction fuel generalizing target with
  | zero =>
    have := htarget.rank_lt
    omega
  | succ fuel ih =>
    have hfrom := locatedFrom_firstGe h64 hnode g h target
    rw [passes, run_findFirstGe h64 hnode g hn h]
    cases hfound : firstGe TreeBlock.items LeafItem.key n t target with
    | none =>
      rw [hfound] at hfrom
      rw [hfrom]
      rfl
    | some r =>
      obtain ⟨leaf, i⟩ := r
      rw [hfound] at hfrom
      obtain ⟨post, hfrom, last, hlast, hge, hpast, hnext⟩ := hfrom
      have hcomp : ((leaf.items.drop i).map (leaf, ·)).takeWhile (fun x => mine x.2) =
          ((leaf.items.drop i).takeWhile mine).map (leaf, ·) := List.takeWhile_map
      rw [hfrom, List.takeWhile_append, hcomp]
      dsimp only
      by_cases hall : (leaf.items.drop i).all mine = true
      · have htake : (leaf.items.drop i).takeWhile mine = leaf.items.drop i :=
          List.takeWhile_eq_self_iff.mpr fun x hx => List.all_eq_true.mp hall x hx
        rw [if_pos hall, htake, if_pos (by simp), hlast]
        have hlastMem := List.mem_of_getLast? hlast
        have hmem : (leaf, last) ∈ locatedFrom n t target := by
          rw [hfrom]
          exact List.mem_append_left _ (List.mem_map_of_mem hlastMem)
        rw [Option.bind_some]
        cases hn' : last.key.next with
        | none =>
          -- the walk ends here, and nothing past this key is `mine`
          have hrest : post.takeWhile (fun x => mine x.2) = [] := by
            refine List.takeWhile_eq_nil_iff.mpr fun hpos => ?_
            have hy : post[0] ∈ post := List.getElem_mem hpos
            have hin : post[0] ∈ locatedFrom n t target := by
              rw [hfrom]
              exact List.mem_append_right _ hy
            simp [hmine _ hmem (List.all_eq_true.mp hall last hlastMem) hn' _ hin (hpast _ hy)]
          rw [hrest, List.append_nil]
        | some next =>
          have hbound : last.key.Bounded :=
            (TreeBlock.item_bounds (List.mem_of_mem_drop hlastMem)).2.2
          have hgt : target < next := hge.trans_lt (DiskKey.lt_of_next hn')
          have hrank := DiskKey.rank_lt_rank htarget hgt
          have hsub : ∀ x ∈ locatedFrom n t next, x ∈ locatedFrom n t target := by
            intro x hx
            rw [hfrom]
            exact List.mem_append_right _ (hnext next hn' ▸ hx)
          dsimp only
          rw [ih (hbound.next hn') (by omega) fun x hx hxm hxn y hy =>
            hmine x (hsub x hx) hxm hxn y (hsub y hy), hnext next hn']
      · have hlen : ¬ (((leaf.items.drop i).takeWhile mine).map (leaf, ·)).length =
            ((leaf.items.drop i).map (leaf, ·)).length := by
          rw [List.length_map, List.length_map]
          intro hlen
          refine hall (List.all_eq_true.mpr fun x hx => ?_)
          have heq := (List.takeWhile_sublist mine).eq_of_length hlen
          exact List.takeWhile_eq_self_iff.mp heq x hx
        rw [if_neg hall, if_neg hlen]

omit h64 hnode in
theorem isOf_iff {objectid itemType : ℕ} {item : LeafItem} : isOf objectid itemType item = true ↔
    item.key.objectid = objectid ∧ item.key.itemType = itemType := by
  simp [isOf]

/-- A loop over the items of one object and type meets all of them. -/
theorem passes_items {n : ℕ} (hn : n ≤ maxTreeDepth) {t : Tree DiskKey TreeBlock n} {root : ℕ}
    (h : TreeAt (blockAt env map nodesize g) n t root) {objectid itemType : ℕ}
    (hino : objectid < 2 ^ 64) (hty : itemType < 2 ^ 8) :
    passes env map nodesize root (isOf objectid itemType) g Walk.fuel ⟨objectid, itemType, 0⟩ =
      ((located n t).filter fun x => isOf objectid itemType x.2, none) := by
  have hfrom : ∀ k : DiskKey, (⟨objectid, itemType, 0⟩ : DiskKey) ≤ k ↔
      objectid < k.objectid ∨ objectid = k.objectid ∧ itemType ≤ k.itemType := by
    intro k
    rw [← not_lt, DiskKey.lt_iff]
    dsimp only
    omega
  have hlast : ∀ x ∈ locatedFrom n t ⟨objectid, itemType, 0⟩, isOf objectid itemType x.2 = true →
      x.2.key.next = none → ∀ y ∈ locatedFrom n t ⟨objectid, itemType, 0⟩, x.2.key < y.2.key →
        isOf objectid itemType y.2 = false := by
    intro x _ hx hnone y hy hlt
    have hoffset := (TreeBlock.item_bounds (located_mem (List.mem_filter.mp hy).1)).2.2.offset
    have hend := DiskKey.next_eq_none hnone
    rw [isOf_iff] at hx
    rw [← Bool.not_eq_true, isOf_iff]
    rcases DiskKey.lt_iff.mp hlt with h | ⟨h, h' | ⟨h', h''⟩⟩ <;> omega
  rw [passes_tree h64 hnode g hn h Walk.fuel ⟨hino, hty, Nat.two_pow_pos 64⟩
    (by unfold Walk.fuel; omega) hlast]
  refine congrArg (·, none) (takeWhile_filter (located_sorted h64 hnode g h) (fun x hx => ?_)
    fun x y hlt hx hforeign => ?_)
  · obtain ⟨h1, h2⟩ := isOf_iff.mp hx
    exact decide_eq_true ((hfrom _).mpr (.inr ⟨h1.symm, h2.ge⟩))
  · -- past the first foreign item every key is past the object's items of that type
    have hge := (hfrom _).mp (of_decide_eq_true hx)
    rw [← Bool.not_eq_true, isOf_iff] at hforeign ⊢
    rcases DiskKey.lt_iff.mp hlt with h | ⟨h, h' | ⟨h', -⟩⟩ <;> omega

/-- A search for the first item of an object and type finds it, or an item of another
kind, or nothing, when there is none. -/
theorem run_findFirstOf {n : ℕ} (hn : n ≤ maxTreeDepth) {t : Tree DiskKey TreeBlock n} {root : ℕ}
    (h : TreeAt (blockAt env map nodesize g) n t root) (objectid itemType : ℕ) :
    ∃ found, (findFirstGe env map nodesize root ⟨objectid, itemType, 0⟩).run g = .ok found ∧
      match ((located n t).filter fun x => isOf objectid itemType x.2).head? with
      | some x => ∃ i, found = some (x.1, i) ∧ x.1.leafItem env i = .ok x.2
      | none => ∀ leaf i, found = some (leaf, i) →
          ∃ item, leaf.leafItem env i = .ok item ∧ isOf objectid itemType item = false := by
  set target : DiskKey := ⟨objectid, itemType, 0⟩ with htarget
  have hrun := run_findFirstGe h64 hnode g hn h target
  have hge : ∀ x : Located, isOf objectid itemType x.2 = true → target ≤ x.2.key := by
    intro x hx
    obtain ⟨h1, h2⟩ := isOf_iff.mp hx
    exact DiskKey.le_iff.mpr (.inr ⟨h1.symm, .inr ⟨h2.symm, Nat.zero_le _⟩⟩)
  have hfilter : ((located n t).filter fun x => isOf objectid itemType x.2) =
      (locatedFrom n t target).filter fun x => isOf objectid itemType x.2 := by
    rw [locatedFrom, List.filter_filter]
    refine List.filter_congr fun x _ => ?_
    rw [Bool.eq_iff_iff, Bool.and_eq_true, decide_eq_true_iff]
    exact ⟨fun hx => ⟨hx, hge x hx⟩, And.left⟩
  have hfirst := locatedFrom_firstGe h64 hnode g h target
  refine ⟨_, hrun, ?_⟩
  rw [hfilter]
  cases hfound : firstGe TreeBlock.items LeafItem.key n t target with
  | none =>
    rw [hfound] at hfirst
    rw [hfirst]
    intro leaf i hsome
    cases hsome
  | some r =>
    obtain ⟨leaf, i⟩ := r
    rw [hfound] at hfirst hrun
    obtain ⟨post, hfrom, last, hlast, -⟩ := hfirst
    have hlt : i < leaf.items.length := by
      by_contra hge
      rw [List.drop_eq_nil_of_le (not_lt.mp hge)] at hlast
      cases hlast
    have hleaf := run_findFirstGe_first h64 hnode root g hrun
    have hget := hleaf.accepted.leafItem_ok h64 hleaf.level (List.getElem?_eq_getElem hlt)
    rw [List.drop_eq_getElem_cons hlt, List.map_cons, List.cons_append] at hfrom
    rw [hfrom]
    by_cases hmine : isOf objectid itemType leaf.items[i] = true
    · simp only [List.filter_cons, hmine, if_true, List.head?_cons]
      exact ⟨i, rfl, hget⟩
    · -- an item of the kind behind the one found would lie before it
      have hnone : ((locatedFrom n t target).filter fun x => isOf objectid itemType x.2) = [] := by
        refine List.filter_eq_nil_iff.mpr fun y hy hy' => ?_
        have hsorted : (locatedFrom n t target).Pairwise fun x y => x.2.key < y.2.key :=
          (located_sorted h64 hnode g h).filter _
        have hhead : target ≤ leaf.items[i].key := by
          have hmem : (leaf, leaf.items[i]) ∈ locatedFrom n t target := by
            rw [hfrom]
            exact List.mem_cons_self
          exact of_decide_eq_true (List.mem_filter.mp hmem).2
        rw [hfrom] at hy hsorted
        rcases List.mem_cons.mp hy with rfl | hy
        · exact hmine hy'
        · have hlt' := (List.pairwise_cons.mp hsorted).1 y hy
          rw [isOf_iff] at hmine hy'
          rw [DiskKey.lt_iff] at hlt'
          rw [DiskKey.le_iff, htarget] at hhead
          dsimp only at hhead hlt'
          omega
      rw [← hfrom, hnone]
      rintro leaf' i' hsome
      cases hsome
      exact ⟨_, hget, by simpa using hmine⟩

end OnTree

/-! ### Trees with known items -/

/-- The tree holds these items, each with its data. -/
structure TreeHolds (env : Env) (n : ℕ) (t : Tree DiskKey TreeBlock n)
    (items : List (DiskKey × List UInt8)) : Prop where
  contents : (located n t).map (fun x => (x.2.key, x.1.leafItemData env x.2)) =
    items.map fun y => (y.1, .ok y.2)

namespace TreeHolds

variable {env : Env} {n : ℕ} {t : Tree DiskKey TreeBlock n} {items : List (DiskKey × List UInt8)}
  (h : TreeHolds env n t items)

include h

theorem item {x : Located} (hx : x ∈ located n t) :
    ∃ y ∈ items, x.2.key = y.1 ∧ x.1.leafItemData env x.2 = .ok y.2 := by
  have hmem : (x.2.key, x.1.leafItemData env x.2) ∈
      items.map fun y => (y.1, (.ok y.2 : Outcome (List UInt8))) :=
    h.contents ▸ List.mem_map_of_mem hx
  obtain ⟨y, hy, hxy⟩ := List.mem_map.mp hmem
  obtain ⟨hkey, hdata⟩ := Prod.mk.inj hxy
  exact ⟨y, hy, hkey.symm, hdata.symm⟩

theorem exists_item {y : DiskKey × List UInt8} (hy : y ∈ items) :
    ∃ x ∈ located n t, x.2.key = y.1 ∧ x.1.leafItemData env x.2 = .ok y.2 := by
  have hmem : (y.1, (.ok y.2 : Outcome (List UInt8))) ∈ (located n t).map fun x =>
      (x.2.key, x.1.leafItemData env x.2) :=
    h.contents ▸ List.mem_map_of_mem hy
  obtain ⟨x, hx, hxy⟩ := List.mem_map.mp hmem
  obtain ⟨hkey, hdata⟩ := Prod.mk.inj hxy
  exact ⟨x, hx, hkey, hdata⟩

theorem exists_isOf {y : DiskKey × List UInt8} (hy : y ∈ items) :
    ∃ x ∈ located n t, isOf y.1.objectid y.1.itemType x.2 = true := by
  obtain ⟨x, hx, hkey, -⟩ := h.exists_item hy
  exact ⟨x, hx, isOf_iff.mpr (by rw [hkey]; exact ⟨rfl, rfl⟩)⟩

/-- The items of some keys, with their data. -/
theorem filtered (p : DiskKey → Bool) :
    ((located n t).filter fun x => p x.2.key).map (fun x =>
        (x.2.key, x.1.leafItemData env x.2)) =
      (items.filter fun y => p y.1).map fun y => (y.1, .ok y.2) := by
  have hleft : ((located n t).map (fun x =>
      (x.2.key, x.1.leafItemData env x.2))).filter (fun y => p y.1) =
        ((located n t).filter fun x => p x.2.key).map (fun x =>
          (x.2.key, x.1.leafItemData env x.2)) := List.filter_map
  rw [← hleft, h.contents, List.filter_map]
  rfl

variable (h64 : env.usizeBits = 64) {map : ChunkMap} {nodesize : ℕ}
  (hnode : ValidNodesize nodesize) (g : (q : ReadReq) → Ans q) (hn : n ≤ maxTreeDepth) {root : ℕ}
  (htree : TreeAt (blockAt env map nodesize g) n t root)

include h64 hnode hn htree

/-- A search for the first item of an object and type, in a tree that has one. -/
theorem findFirstGe_run {objectid itemType : ℕ} {y : DiskKey × List UInt8}
    (hy : (items.filter fun y => y.1.objectid == objectid && y.1.itemType == itemType).head? =
      some y) :
    ∃ leaf i item, (findFirstGe env map nodesize root ⟨objectid, itemType, 0⟩).run g =
        .ok (some (leaf, i)) ∧ leaf.leafItem env i = .ok item ∧ item.key = y.1 ∧
      leaf.leafItemData env item = .ok y.2 := by
  have hhead := congrArg List.head? (h.filtered fun key =>
    key.objectid == objectid && key.itemType == itemType)
  rw [List.head?_map, List.head?_map, hy, Option.map_some, Option.map_eq_some_iff] at hhead
  obtain ⟨x, hx, hxy⟩ := hhead
  obtain ⟨hkey, hdata⟩ := Prod.mk.inj hxy
  have hfirst : ((located n t).filter fun x => isOf objectid itemType x.2).head? = some x := hx
  obtain ⟨found, hrun, hfound⟩ := run_findFirstOf h64 hnode g hn htree objectid itemType
  rw [hfirst] at hfound
  obtain ⟨i, rfl, hget⟩ := hfound
  exact ⟨x.1, i, x.2, hrun, hget, hkey, hdata⟩

/-- A search for a key, in a tree that has it. -/
theorem findExact_run {y : DiskKey × List UInt8} (hy : y ∈ items) :
    ∃ leaf i item, (findExact env map nodesize root y.1).run g = .ok (some (leaf, i)) ∧
      leaf.leafItem env i = .ok item ∧ leaf.leafItemData env item = .ok y.2 := by
  obtain ⟨x, hx, hkey, hdata⟩ := h.exists_item hy
  obtain ⟨found, hrun, hnone, hsome⟩ := run_findExact h64 hnode g hn htree y.1
  rcases found with _ | ⟨leaf, i⟩
  · refine absurd hkey (hnone rfl x.2 ?_)
    rw [← located_snd]
    exact List.mem_map_of_mem hx
  · obtain ⟨hleaf, item, hget, hitem, hitemKey⟩ := hsome leaf i rfl
    -- a key belongs to one item
    obtain rfl : x = (leaf, item) := located_unique h64 hnode g htree hx
      (List.mem_flatMap.mpr ⟨leaf, hleaf, List.mem_map_of_mem hitem⟩) (hkey.trans hitemKey.symm)
    exact ⟨leaf, i, item, hrun, hget, hdata⟩

end TreeHolds

/-- What a tree holds, leaf by leaf. -/
theorem located_data (env : Env) (n : ℕ) (t : Tree DiskKey TreeBlock n) :
    (located n t).map (fun x => (x.2.key, x.1.leafItemData env x.2)) =
      (leaves n t).flatMap fun leaf =>
        leaf.items.map fun item => (item.key, leaf.leafItemData env item) := by
  simp [located, List.map_flatMap, Function.comp_def]

theorem LeafPage.holds {env : Env} (h64 : env.usizeBits = 64) {page logical : ℕ}
    {items : List SampleItem} (h : LeafPage env page logical items) :
    TreeHolds env 0 (.leaf (pageBlock page)) (storedItems items) := by
  refine ⟨?_⟩
  rw [located_data, leaves_leaf, List.flatMap_singleton, h.data h64]

/-- A node over pages holds what they hold, one after the other. -/
theorem branch_holds {env : Env} (h64 : env.usizeBits = 64) {kids : List StoredLeaf}
    (h : ∀ kid ∈ kids, LeafPage env kid.page kid.logical kid.items) :
    TreeHolds env 1 (branch (kids.map fun kid => (kid.separator, pageBlock kid.page)))
      (kids.flatMap fun kid => storedItems kid.items) := by
  refine ⟨?_⟩
  rw [located_data, leaves_branch, List.map_map, List.flatMap_map, List.map_flatMap]
  exact List.flatMap_congr fun kid hkid => (h kid hkid).data h64

/-- The items of the sample tree of two levels. -/
def spreadItems : List (DiskKey × List UInt8) :=
  spreadLeaves.flatMap fun kid => storedItems kid.items

theorem spread_holds : TreeHolds referenceEnv 1 spreadTree spreadItems :=
  branch_holds referenceEnv_usize64 (And.right spread_pages)
