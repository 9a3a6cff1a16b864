/-
Iteration over a tree: the re-descend loop.

The chunk-tree walk, directory listing and both file readers share one loop: find
the first item at or after a target, go through the rest of its leaf, and descend
again to a key past the last item seen.  `Walk` is that loop with its parameters:
the condition of the outer loop, the chunk map it reads through and the body for
one item, which either leaves the loop or names the key to go on from.

No set of visited blocks is kept.  `Walk.run_sat` shows what ends the loop on
every image: the keys of the items taken ascend strictly over the whole run,
because every pass starts past the last key of the one before, and so no leaf
occurs twice and the passes are bounded by the number of keys.

`Walk.run_eq` turns a run with fixed answers into a fold over the items that the
loop would be given (`passes`), and `passes_tree` says what these are on a
well-formed tree.
-/
import Lambutter.Descent

open Ranges SearchTree

/-! ### Keys -/

namespace DiskKey

/-- The key with the next offset, when there is one. -/
def next (k : DiskKey) : Option DiskKey :=
  (checkedAdd 64 k.offset 1).map fun offset => { k with offset }

/-- The place of a key in the order of all keys on disk. -/
def rank (k : DiskKey) : ℕ := (k.objectid * 2 ^ 8 + k.itemType) * 2 ^ 64 + k.offset

theorem Bounded.rank_lt {k : DiskKey} (h : k.Bounded) : k.rank < 2 ^ 136 := by
  obtain ⟨h1, h2, h3⟩ := h
  unfold rank
  omega

theorem rank_lt_rank {a b : DiskKey} (ha : a.Bounded) (hlt : a < b) : a.rank < b.rank := by
  obtain ⟨-, h2, h3⟩ := ha
  unfold rank
  rcases lt_iff.mp hlt with h | ⟨h, h' | ⟨h', h''⟩⟩ <;> omega

theorem next_eq_some {k t : DiskKey} (h : k.next = some t) :
    k.offset + 1 < 2 ^ 64 ∧ t = { k with offset := k.offset + 1 } := by
  obtain ⟨o, ho, rfl⟩ := Option.map_eq_some_iff.mp h
  obtain ⟨hlt, rfl⟩ := checkedAdd_eq_some.mp ho
  exact ⟨hlt, rfl⟩

theorem next_eq_none {k : DiskKey} (h : k.next = none) : 2 ^ 64 ≤ k.offset + 1 :=
  checkedAdd_eq_none.mp (Option.map_eq_none_iff.mp h)

theorem lt_of_next {k t : DiskKey} (h : k.next = some t) : k < t := by
  obtain ⟨-, rfl⟩ := next_eq_some h
  exact lt_iff.mpr (.inr ⟨rfl, .inr ⟨rfl, Nat.lt_succ_self _⟩⟩)

theorem Bounded.next {k t : DiskKey} (hk : k.Bounded) (h : k.next = some t) : t.Bounded := by
  obtain ⟨hlt, rfl⟩ := next_eq_some h
  exact ⟨hk.objectid, hk.itemType, hlt⟩

/-- Nothing lies between a key and the next. -/
theorem next_le_of_lt {k t x : DiskKey} (h : k.next = some t) (hlt : k < x) : t ≤ x := by
  obtain ⟨-, rfl⟩ := next_eq_some h
  rcases lt_iff.mp hlt with h1 | ⟨h1, h2 | ⟨h2, h3⟩⟩
  · exact le_iff.mpr (.inl h1)
  · exact le_iff.mpr (.inr ⟨h1, .inl h2⟩)
  · exact le_iff.mpr (.inr ⟨h1, .inr ⟨h2, h3⟩⟩)

end DiskKey

/-- The key after an item is past it. -/
theorem next_past {leaf : TreeBlock} {item : LeafItem} (hitem : item ∈ leaf.items) (t : DiskKey)
    (h : item.key.next = some t) : t.Bounded ∧ item.key < t :=
  ⟨(TreeBlock.item_bounds hitem).2.2.next h, DiskKey.lt_of_next h⟩

/-! ### The loop -/

/-- How a loop goes on after an item: on, with the key for the next descent, or out. -/
inductive Pace (σ : Type) : Type
  | more (s : σ) (next : Option DiskKey)
  | leave (s : σ)

structure Walk (σ : Type) where
  nodesize : ℕ
  root : ℕ
  chunkMap : σ → ChunkMap
  proceed : σ → Bool
  item : TreeBlock → LeafItem → σ → ReadM (Pace σ)

namespace Walk

variable {σ : Type} (env : Env) (w : Walk σ)

/-- The inner loop: the `n` items of the leaf from `idx` on. -/
def leaf (block : TreeBlock) : ℕ → ℕ → σ → Option DiskKey → ReadM (Pace σ)
  | 0, _, s, next => pure (.more s next)
  | n + 1, idx, s, _ => do
    let item ← block.leafItem env idx
    note (.item block item)
    match ← w.item block item s with
    | .leave s => return .leave s
    | .more s next => do
      let idx ← env.addU32 idx 1
      leaf block n idx s next

/-- The outer loop.  A pass that takes no item, or whose last item has no next key,
is the last one. -/
def run : ℕ → DiskKey → σ → ReadM σ
  | 0, _, _ => (fault .fuel : Outcome _)
  | fuel + 1, target, s =>
    if w.proceed s then do
      match ← findFirstGe env (w.chunkMap s) w.nodesize w.root target with
      | none => return s
      | some (block, idx) => do
        note (.leaf block)
        match ← w.leaf env block (block.header.nritems - idx) idx s none with
        | .leave s => return s
        | .more s none => return s
        | .more s (some target) => run fuel target s
    else return s

/-- More passes than there are keys. -/
def fuel : ℕ := 2 ^ 136

end Walk

/-! ### What a run leaves in the trace -/

/-- Keys of the items taken, in order. -/
def itemKeys (t : List Event) : List DiskKey := t.filterMap fun e => match e with
  | .item _ item => some item.key
  | _ => none

/-- Leaves gone through, in order. -/
def leavesOf (t : List Event) : List TreeBlock := t.filterMap fun e => match e with
  | .leaf block => some block
  | _ => none

/-- Notes of what is done for one item. -/
def PerItem : Event → Prop
  | .leaf _ => False
  | .item _ _ => False
  | _ => True

/-- Notes of a search. -/
def Reading : Event → Prop
  | .block _ => True
  | _ => False

theorem Reading.perItem {e : Event} (h : Reading e) : PerItem e := by
  cases e <;> first | exact trivial | exact absurd h id

theorem itemKeys_inner {t : List Event} (h : ∀ e ∈ t, PerItem e) : itemKeys t = [] := by
  refine List.filterMap_eq_nil_iff.mpr fun e he => ?_
  have := h e he
  cases e <;> first | rfl | exact absurd this id

theorem leavesOf_inner {t : List Event} (h : ∀ e ∈ t, PerItem e) : leavesOf t = [] := by
  refine List.filterMap_eq_nil_iff.mpr fun e he => ?_
  have := h e he
  cases e <;> first | rfl | exact absurd this id

theorem itemKeys_append (t t' : List Event) : itemKeys (t ++ t') = itemKeys t ++ itemKeys t' :=
  List.filterMap_append

theorem leavesOf_append (t t' : List Event) : leavesOf (t ++ t') = leavesOf t ++ leavesOf t' :=
  List.filterMap_append

section Notes

variable {env : Env} {map : ChunkMap} {nodesize : ℕ}

theorem readAt_notes (P : Event → Prop) (offset len : ℕ) (e : Error) :
    (readAt offset len e).Notes P := by
  intro a
  cases a <;> trivial

theorem readBody_loop_notes (P : Event → Prop) (logical n remaining : ℕ) (body : List UInt8)
    (cursor : ℕ) :
    (readBody.loop env map nodesize logical n remaining body cursor).Notes P := by
  induction n generalizing remaining body cursor with
  | zero => trivial
  | succ n ih =>
    rw [readBody.loop]
    split_ifs
    · refine Prog.Notes.bind (Prog.notes_lift _) fun r => ?_
      refine Prog.Notes.bind (Prog.notes_lift _) fun _ => ?_
      refine Prog.Notes.bind (Prog.notes_lift _) fun _ => ?_
      refine Prog.Notes.bind (Prog.notes_lift _) fun _ => ?_
      refine Prog.Notes.bind (readAt_notes P _ _ _) fun _ => ?_
      refine Prog.Notes.bind (Prog.notes_lift _) fun _ => ?_
      exact Prog.Notes.bind (Prog.notes_lift _) fun _ => ih _ _ _
    · exact Prog.notes_pure _

theorem readTreeBlock_notes (logical : ℕ) :
    (readTreeBlock env map nodesize logical).Notes Reading := by
  refine Prog.Notes.bind ⟨trivial, trivial⟩ fun _ => ?_
  exact Prog.Notes.bind (readBody_loop_notes _ _ _ _ _ _) fun _ => Prog.notes_lift _

theorem descendToLeaf_loop_notes (target : DiskKey) (n : ℕ) (b : TreeBlock)
    (nextKey : Option DiskKey) (depth : ℕ) :
    (descendToLeaf.loop env map nodesize target n b nextKey depth).Notes Reading := by
  induction n generalizing b nextKey depth with
  | zero => trivial
  | succ n ih =>
    rw [descendToLeaf.loop]
    by_cases hl : 0 < b.header.level
    · rw [if_pos hl]
      dsimp only
      by_cases hd : maxTreeDepth < min (depth + 1) 255
      · rw [if_pos hd]
        trivial
      by_cases hn : b.header.nritems = 0
      · rw [if_neg hd, if_pos hn]
        trivial
      · rw [if_neg hd, if_neg hn]
        refine Prog.Notes.bind (Prog.notes_lift _) fun _ => ?_
        refine Prog.Notes.bind (Prog.notes_lift _) fun _ => ?_
        refine Prog.Notes.bind (Prog.notes_lift _) fun _ => ?_
        refine Prog.Notes.bind (Prog.notes_lift _) fun _ => ?_
        exact Prog.Notes.bind (readTreeBlock_notes _) fun _ => ih _ _ _
    · rw [if_neg hl]
      exact Prog.notes_pure _

theorem descendToLeaf_notes (root : ℕ) (target : DiskKey) :
    (descendToLeaf env map nodesize root target).Notes Reading :=
  Prog.Notes.bind (readTreeBlock_notes _) fun _ => descendToLeaf_loop_notes _ _ _ _ _

theorem findFirstGe_notes (root : ℕ) (target : DiskKey) :
    (findFirstGe env map nodesize root target).Notes Reading := by
  refine Prog.Notes.bind (descendToLeaf_notes _ _) fun r => ?_
  refine Prog.Notes.bind (Prog.notes_lift _) fun found => ?_
  cases found with
  | some idx => exact Prog.notes_pure _
  | none =>
    cases r.2 with
    | none => exact Prog.notes_pure _
    | some nextKey =>
      refine Prog.Notes.bind (descendToLeaf_notes _ _) fun r' => ?_
      refine Prog.Notes.bind (Prog.notes_lift _) fun past => ?_
      split_ifs
      · exact Prog.notes_pure _
      · exact Prog.notes_lift _

theorem findExact_notes (root : ℕ) (target : DiskKey) :
    (findExact env map nodesize root target).Notes Reading := by
  refine Prog.Notes.bind (descendToLeaf_notes _ _) fun r => ?_
  dsimp only
  split_ifs
  · exact Prog.notes_pure _
  · refine Prog.Notes.bind (Prog.notes_lift _) fun found => ?_
    cases found with
    | none => exact Prog.notes_pure _
    | some idx => exact Prog.Notes.bind (Prog.notes_lift _) fun _ => Prog.notes_pure _

end Notes

/-! ### Every run of a walk -/

namespace Walk

variable {σ : Type} {env : Env} {w : Walk σ} {S : Stop → Prop} {Inv Fin : σ → Prop}

/-- What is asked of the body: it stops only for reasons in `S`, keeps the invariant,
and a key to go on from is past the item it was given. -/
structure Good (w : Walk σ) (S : Stop → Prop) (Inv Fin : σ → Prop) : Prop where
  quiet : ∀ block item s, item ∈ block.items → Inv s → (w.item block item s).Notes PerItem
  step : ∀ block item s, block.Accepted → block.header.level = 0 → item ∈ block.items → Inv s →
    Prog.Ensures S (w.item block item s) fun p => match p with
      | .more s' next => Inv s' ∧ ∀ t, next = some t → t.Bounded ∧ item.key < t
      | .leave s' => Fin s'
  done : ∀ s, Inv s → Fin s
  typed : ∀ x, x.Typed → S x

/-- What one pass through a leaf leaves behind. -/
def AfterLeaf (S : Stop → Prop) (Inv Fin : σ → Prop) (block : TreeBlock) (n : ℕ)
    (next : Option DiskKey) : Except Stop (Pace σ) → Prop
  | .ok (.more s' next') => Inv s' ∧ (n = 0 → next' = next) ∧
      (0 < n → ∀ t, next' = some t → t.Bounded ∧ ∀ x ∈ block.items, x.key < t)
  | .ok (.leave s') => Fin s'
  | .error x => S x

/-- The body and the note before it, as seen from the trace. -/
theorem item_sat (hg : w.Good S Inv Fin) {block : TreeBlock} (hb : block.Accepted)
    (hl : block.header.level = 0) {item : LeafItem} (hitem : item ∈ block.items) {s : σ}
    (hs : Inv s) :
    (w.item block item s).Sat fun t r => itemKeys t = [] ∧ leavesOf t = [] ∧ match r with
      | .ok (.more s' next) => Inv s' ∧ ∀ t, next = some t → t.Bounded ∧ item.key < t
      | .ok (.leave s') => Fin s'
      | .error x => S x := by
  refine ((hg.quiet block item s hitem hs).sat.and (hg.step block item s hb hl hitem hs)).mono ?_
  rintro t r ⟨ht, hr⟩
  refine ⟨itemKeys_inner ht, leavesOf_inner ht, ?_⟩
  rcases r with x | ⟨s', next⟩ | s'
  · exact hr
  · exact hr
  · exact hr

theorem leaf_sat (h64 : env.usizeBits = 64) (hg : w.Good S Inv Fin) {block : TreeBlock}
    (hb : block.Accepted) (hl : block.header.level = 0) (n idx : ℕ)
    (hidx : idx + n = block.header.nritems) (s : σ) (hs : Inv s) (next : Option DiskKey) :
    (w.leaf env block n idx s next).Sat fun t r =>
      itemKeys t <+: (block.items.drop idx).map LeafItem.key ∧ leavesOf t = [] ∧
        AfterLeaf S Inv Fin block n next r := by
  induction n generalizing idx s next with
  | zero => exact ⟨List.nil_prefix, rfl, hs, fun _ => rfl, fun h => absurd h (lt_irrefl 0)⟩
  | succ n ih =>
    have hlt : idx < block.items.length := by
      rw [block.length_items]
      omega
    have hn := hb.nritems_lt
    set item := block.items[idx] with hitemDef
    have hitem : block.items[idx]? = some item := List.getElem?_eq_getElem hlt
    have hmem : item ∈ block.items := List.getElem_mem hlt
    have hdrop : block.items.drop idx = item :: block.items.drop (idx + 1) :=
      List.drop_eq_getElem_cons hlt
    rw [leaf, hb.leafItem_ok h64 hl hitem, liftM_ok_bind]
    rw [sat_note_bind]
    refine Prog.Sat.bind (item_sat hg hb hl hmem hs) (fun t p hp => ?_) fun t x hx => ?_
    · obtain ⟨hkeys, hleaves, hp⟩ := hp
      have hkeys' : ∀ t', itemKeys (.item block item :: (t ++ t')) = item.key :: itemKeys t' := by
        intro t'
        show item.key :: itemKeys (t ++ t') = _
        rw [itemKeys_append, hkeys, List.nil_append]
      have hleaves' : ∀ t', leavesOf (.item block item :: (t ++ t')) = leavesOf t' := by
        intro t'
        show leavesOf (t ++ t') = _
        rw [leavesOf_append, hleaves, List.nil_append]
      cases p with
      | leave s' =>
        refine ⟨?_, hleaves' [], hp⟩
        rw [hkeys', hdrop]
        exact List.prefix_append [item.key] _
      | more s' next' =>
        dsimp only at hp ⊢
        rw [Env.addU32_ok env (by omega), liftM_ok_bind]
        refine (ih (idx + 1) (by omega) s' hp.1 next').mono fun t' r hr => ?_
        obtain ⟨hpre, hrest, hr⟩ := hr
        refine ⟨?_, (hleaves' t').trans hrest, ?_⟩
        · rw [hkeys', hdrop]
          exact (List.prefix_cons_inj item.key).mpr hpre
        · rcases r with x | ⟨s'', next''⟩ | s''
          · exact hr
          · obtain ⟨hinv, hsame, hafter⟩ := hr
            refine ⟨hinv, fun h => absurd h (Nat.succ_ne_zero n), fun _ t ht => ?_⟩
            by_cases hzero : n = 0
            · rw [hsame hzero] at ht
              obtain ⟨hbound, hgt⟩ := hp.2 t ht
              refine ⟨hbound, fun x hx => lt_of_le_of_lt ?_ hgt⟩
              -- the item just taken is the last of the leaf
              obtain ⟨i, hi, rfl⟩ := List.getElem_of_mem hx
              have hlen := block.length_items
              by_cases heq : i = idx
              · subst heq
                exact le_rfl
              · exact (List.pairwise_iff_getElem.mp (hb.leaf_sorted hl) i idx hi hlt
                  (by omega)).le
            · exact hafter (Nat.pos_of_ne_zero hzero) t ht
          · exact hr
    · obtain ⟨hkeys, hleaves, hx⟩ := hx
      refine ⟨?_, hleaves, hx⟩
      rw [hdrop]
      show item.key :: itemKeys t <+: _
      rw [hkeys]
      exact List.prefix_append [item.key] _

/-- What a whole run leaves behind. -/
structure Ascends (target : DiskKey) (t : List Event) : Prop where
  keys : (itemKeys t).Pairwise (· < ·)
  keys_ge : ∀ k ∈ itemKeys t, target ≤ k
  leaves : (leavesOf t).Nodup
  leaves_ge : ∀ b ∈ leavesOf t, ∃ x ∈ b.items, target ≤ x.key

/-- A walk takes its items in strictly ascending key order, goes through no leaf
twice and ends, on every image and over every reader. -/
theorem run_sat (h64 : env.usizeBits = 64) (hnode : ValidNodesize w.nodesize)
    (hg : w.Good S Inv Fin) (fuel : ℕ) {target : DiskKey} (htarget : target.Bounded)
    (hfuel : 2 ^ 136 ≤ fuel + target.rank) {s : σ} (hs : Inv s) :
    (w.run env fuel target s).Sat fun t r => Ascends target t ∧ match r with
      | .ok s' => Fin s'
      | .error x => S x := by
  have hempty : ∀ {t : List Event} {target : DiskKey}, (∀ e ∈ t, PerItem e) → Ascends target t := by
    intro t target ht
    have h1 := itemKeys_inner ht
    have h2 := leavesOf_inner ht
    constructor <;> simp [h1, h2]
  induction fuel generalizing target s with
  | zero =>
    have := htarget.rank_lt
    omega
  | succ fuel ih =>
    rw [run]
    by_cases hproceed : w.proceed s = true
    · rw [if_pos hproceed]
      have hfind := ((@findFirstGe_notes env (w.chunkMap s) w.nodesize w.root
        target).mono fun _ => Reading.perItem).sat.and
        (@findFirstGe_ensures _ h64 (w.chunkMap s) _ hnode w.root target)
      refine Prog.Sat.bind hfind (fun t found hfound => ?_) fun t x hx =>
        ⟨hempty hx.1, hg.typed x hx.2⟩
      obtain ⟨hinner, hfirst⟩ := hfound
      cases found with
      | none =>
        refine ⟨hempty fun e he => ?_, hg.done s hs⟩
        exact hinner e (by simpa using he)
      | some found =>
        obtain ⟨block, idx⟩ := found
        obtain ⟨hb, hl, hlt, hge, -⟩ := hfirst block idx rfl
        dsimp only
        rw [sat_note_bind]
        have hkeysT : itemKeys t = [] := itemKeys_inner hinner
        have hleavesT : leavesOf t = [] := leavesOf_inner hinner
        have hlen := block.length_items
        -- the items taken from this leaf are at or after the target
        have hgeAll : ∀ k ∈ (block.items.drop idx).map LeafItem.key, target ≤ k := by
          have hdrop := List.drop_eq_getElem_cons (by omega : idx < block.items.length)
          have hfirst := hge _ (List.getElem?_eq_getElem (by omega))
          have hsorted := (hb.leaf_sorted hl).sublist (List.drop_sublist idx block.items)
          rw [hdrop] at hsorted ⊢
          intro k hk
          obtain ⟨x, hx, rfl⟩ := List.mem_map.mp hk
          rcases List.mem_cons.mp hx with rfl | hx
          · exact hfirst
          · exact hfirst.trans ((List.pairwise_cons.mp hsorted).1 x hx).le
        have hsortedKeys : ((block.items.drop idx).map LeafItem.key).Pairwise (· < ·) :=
          List.pairwise_map.mpr
            ((hb.leaf_sorted hl).sublist (List.drop_sublist idx block.items))
        have hhas : ∃ x ∈ block.items, target ≤ x.key :=
          ⟨_, List.getElem_mem (by omega : idx < block.items.length),
            hge _ (List.getElem?_eq_getElem (by omega))⟩
        have hpass : ∀ {t' : List Event}, itemKeys t' <+: (block.items.drop idx).map LeafItem.key →
            leavesOf t' = [] → Ascends target (t ++ .leaf block :: t') := by
          intro t' hpre hnil
          have hk : itemKeys (t ++ .leaf block :: t') = itemKeys t' := by
            rw [itemKeys_append, hkeysT]
            rfl
          have hl' : leavesOf (t ++ .leaf block :: t') = [block] := by
            rw [leavesOf_append, hleavesT]
            show block :: leavesOf t' = _
            rw [hnil]
          refine ⟨hk ▸ hsortedKeys.sublist hpre.sublist,
            hk ▸ fun k hk => hgeAll k (hpre.subset hk), ?_, ?_⟩
          · rw [hl']
            exact List.nodup_singleton block
          · rw [hl']
            simpa using hhas
        refine Prog.Sat.bind (leaf_sat h64 hg hb hl _ idx (by omega) s hs none)
          (fun t' p hp => ?_) fun t' x hx => ?_
        · obtain ⟨hpre, hnil, hp⟩ := hp
          cases p with
          | leave s' =>
            refine ⟨?_, hp⟩
            simpa using hpass hpre hnil
          | more s' next =>
            obtain ⟨hinv, -, hafter⟩ := hp
            cases next with
            | none =>
              refine ⟨?_, hg.done s' hinv⟩
              simpa using hpass hpre hnil
            | some target' =>
              obtain ⟨hbound, hpast⟩ := hafter (by omega) target' rfl
              have hgt : target < target' := by
                obtain ⟨x, hx, hxt⟩ := hhas
                exact hxt.trans_lt (hpast x hx)
              have hrank := DiskKey.rank_lt_rank htarget hgt
              refine (ih hbound (by omega) hinv).mono fun t'' r hr => ⟨?_, hr.2⟩
              obtain ⟨hasc, -⟩ := hr
              have hthis := hpass hpre hnil
              have hk : itemKeys (t ++ .leaf block :: (t' ++ t'')) =
                  itemKeys (t ++ .leaf block :: t') ++ itemKeys t'' := by
                rw [← itemKeys_append]
                simp
              have hl' : leavesOf (t ++ .leaf block :: (t' ++ t'')) =
                  leavesOf (t ++ .leaf block :: t') ++ leavesOf t'' := by
                rw [← leavesOf_append]
                simp
              have hsingle : leavesOf (t ++ .leaf block :: t') = [block] := by
                rw [leavesOf_append, hleavesT]
                show block :: leavesOf t' = _
                rw [hnil]
              have hkeysPre : ∀ k ∈ itemKeys (t ++ .leaf block :: t'), k < target' := by
                intro k hk
                rw [itemKeys_append, hkeysT] at hk
                obtain ⟨x, hx, rfl⟩ := List.mem_map.mp (hpre.subset hk)
                exact hpast x (List.mem_of_mem_drop hx)
              constructor
              · rw [hk]
                exact List.pairwise_append.mpr ⟨hthis.keys, hasc.keys, fun a ha b hb =>
                  (hkeysPre a ha).trans_le (hasc.keys_ge b hb)⟩
              · rw [hk]
                intro k hk
                rcases List.mem_append.mp hk with hk | hk
                · exact hthis.keys_ge k hk
                · exact hgt.le.trans (hasc.keys_ge k hk)
              · rw [hl', hsingle]
                refine List.nodup_append.mpr ⟨List.nodup_singleton block, hasc.leaves, ?_⟩
                -- later leaves hold a key past every key of this one
                rintro a ha b hb rfl
                rw [List.mem_singleton.mp ha] at hb
                obtain ⟨x, hx, hxt⟩ := hasc.leaves_ge block hb
                exact absurd (hpast x hx) hxt.not_gt
              · rw [hl', hsingle]
                intro b hb
                rcases List.mem_append.mp hb with hb | hb
                · rw [List.mem_singleton.mp hb]
                  exact hhas
                · obtain ⟨x, hx, hxt⟩ := hasc.leaves_ge b hb
                  exact ⟨x, hx, hgt.le.trans hxt⟩
        · obtain ⟨hpre, hnil, hx⟩ := hx
          exact ⟨hpass hpre hnil, hx⟩
    · rw [if_neg hproceed]
      exact ⟨hempty (by simp), hg.done s hs⟩

end Walk
