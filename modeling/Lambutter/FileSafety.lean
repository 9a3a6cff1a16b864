/-
Panics and termination of the file readers, over every reader.

`read_file` and `read_link` end in a value or a typed error on every image
(`readFile_orderly`, `readLink_ensures`).  `read_file_at` has one way to panic, the
plain addition in the compressed branch of `copy_extent_slice`: a run panics exactly
when one of its calls of that function meets an extent whose position leaves `u64`
(`readFileAt_panics_iff`), and then a requested byte lies past `u64` in the extent
that declares it (`readFileAt_panic_overflows`).
-/
import Lambutter.FileAgreement

open Ranges SearchTree

/-! ### Runs in order -/

namespace Walk

/-- A run that takes its items in ascending order and stops for reasons in `S` only. -/
structure Orderly {α : Type} (S : Stop → Prop) (target : DiskKey) (t : List Event)
    (r : Outcome α) : Prop where
  ascends : Ascends target t
  stops : ∀ x, r = .error x → S x

theorem Ascends.of_inner {target : DiskKey} {t : List Event} (ht : ∀ e ∈ t, PerItem e) :
    Ascends target t := by
  have h1 := itemKeys_inner ht
  have h2 := leavesOf_inner ht
  constructor <;> simp [h1, h2]

theorem Ascends.inner_append {target : DiskKey} {t t' : List Event} (ht : ∀ e ∈ t, PerItem e)
    (h : Ascends target t') : Ascends target (t ++ t') := by
  have h1 : itemKeys (t ++ t') = itemKeys t' := by
    rw [itemKeys_append, itemKeys_inner ht, List.nil_append]
  have h2 : leavesOf (t ++ t') = leavesOf t' := by
    rw [leavesOf_append, leavesOf_inner ht, List.nil_append]
  exact ⟨h1 ▸ h.keys, h1 ▸ h.keys_ge, h2 ▸ h.leaves, h2 ▸ h.leaves_ge⟩

section Orderly

variable {α β : Type} {S : Stop → Prop} {target : DiskKey} {P : α → Prop}

/-- A search or a read before a walk. -/
theorem orderly_after {p : ReadM α} {f : α → ReadM β} (hquiet : p.Notes PerItem)
    (hp : Prog.Ensures S p P) (hf : ∀ a, P a → (f a).Sat (Orderly S target)) :
    (p >>= f).Sat (Orderly S target) := by
  refine Prog.Sat.bind (hquiet.sat.and hp) (fun t a h => ?_) fun t x h => ?_
  · refine (hf a h.2).mono fun t' r h' => ⟨h'.ascends.inner_append h.1, h'.stops⟩
  · refine ⟨.of_inner h.1, fun y hy => ?_⟩
    cases hy
    exact h.2

theorem orderly_lift {r : Outcome α} (h : ∀ x, r = .error x → S x) :
    (liftM r : ReadM α).Sat (Orderly S target) :=
  Prog.sat_lift.mpr ⟨.of_inner (by simp), h⟩

/-- What is computed from the result of a walk. -/
theorem orderly_then {p : ReadM α} {f : α → Outcome β}
    (hp : p.Sat fun t r => Orderly S target t r ∧ ∀ a, r = .ok a → P a)
    (hf : ∀ a, P a → ∀ x, f a = .error x → S x) :
    (p >>= fun a => (liftM (f a) : ReadM β)).Sat (Orderly S target) := by
  refine Prog.Sat.bind hp (fun t a h => ?_) fun t x h => ?_
  · refine Prog.sat_lift.mpr ⟨?_, hf a (h.2 a rfl)⟩
    rw [List.append_nil]
    exact h.1.ascends
  · refine ⟨h.1.ascends, fun y hy => ?_⟩
    cases hy
    exact h.1.stops x rfl

/-- A walk from a key of the disk's range. -/
theorem run_orderly {σ : Type} {env : Env} (h64 : env.usizeBits = 64) {w : Walk σ}
    (hnode : ValidNodesize w.nodesize) {Inv Fin : σ → Prop} (hg : w.Good S Inv Fin)
    (htarget : target.Bounded) {s : σ} (hs : Inv s) :
    (w.run env fuel target s).Sat fun t r => Orderly S target t r ∧ ∀ s', r = .ok s' → Fin s' := by
  refine (run_sat h64 hnode hg fuel htarget (by unfold fuel; omega) hs).mono fun t r h => ?_
  obtain ⟨hasc, h⟩ := h
  cases r with
  | ok s' =>
    refine ⟨⟨hasc, fun x hx => by cases hx⟩, fun s'' hs'' => ?_⟩
    cases hs''
    exact h
  | error x =>
    refine ⟨⟨hasc, fun y hy => ?_⟩, fun s'' hs'' => by cases hs''⟩
    cases hy
    exact h

end Orderly

end Walk

open Walk

section Readers

variable {env : Env} {map : ChunkMap} {geometry : Geometry} {fsTreeRoot objectid : ℕ}

theorem readMetadata_notes (nodesize : ℕ) :
    (readMetadata env map nodesize fsTreeRoot objectid).Notes Reading := by
  unfold readMetadata
  split_ifs
  · exact Prog.notes_pure _
  refine Prog.Notes.bind (findFirstGe_notes _ _) fun found => ?_
  rcases found with _ | ⟨leaf, idx⟩
  · exact Prog.notes_lift _
  refine Prog.Notes.bind (Prog.notes_lift _) fun item => ?_
  split_ifs
  · exact Prog.notes_lift _
  refine Prog.Notes.bind (Prog.notes_lift _) fun _ => ?_
  refine Prog.Notes.bind (Prog.notes_lift _) fun _ => ?_
  exact Prog.Notes.bind (Prog.notes_lift _) fun _ => Prog.notes_pure _

variable (h64 : env.usizeBits = 64)

include h64

theorem finalize_safe (out : List UInt8) {size : ℕ} (hsize : size < 2 ^ 64) :
    Outcome.Safe (finalize env out size) := by
  rw [finalize_eq h64 out hsize]
  exact Outcome.safe_ok _

/-- Every run of `read_file` goes through the items in order and ends without a panic. -/
theorem readFile_orderly (hino : objectid < 2 ^ 64) :
    (readFile env map geometry fsTreeRoot objectid).Sat
      (Orderly Stop.Typed (extentsFrom objectid)) := by
  refine orderly_after ((readMetadata_notes _).mono fun _ => Reading.perItem)
    (readMetadata_ensures h64 geometry.validNodesize) fun m hsize => ?_
  split_ifs
  swap
  · exact orderly_lift fun x hx => (Outcome.safe_err _).typed hx
  dsimp only
  rw [Env.tryIntoUsize_ok h64 hsize, liftM_ok_bind]
  refine orderly_after (Prog.notes_lift _) (ensures_lift (env.tryReserve_safe _ _)
    fun _ h => (Env.tryReserve_eq_ok env).mp h) fun _ hgrant => ?_
  exact orderly_then (P := fun _ => True) (run_orderly h64 geometry.validNodesize
    (readFile_good h64 fsTreeRoot (hgrant.lt h64)) (extentsFrom_bounded hino) trivial)
    fun out _ x hx => (finalize_safe h64 out hsize).typed hx

/-- Every run of `read_file_at` goes through the items in order, and has one way to panic. -/
theorem readFileAt_orderly (hino : objectid < 2 ^ 64) (offset : ℕ) (buf : List UInt8) :
    (readFileAt env map geometry fsTreeRoot objectid offset buf).Sat
      (Orderly (AtStop env) (extentsFrom objectid)) := by
  unfold readFileAt
  by_cases hbuf : buf.length = 0
  · rw [if_pos hbuf]
    exact ⟨.of_inner (by simp), fun x hx => by cases hx⟩
  rw [if_neg hbuf]
  refine orderly_after ((readMetadata_notes _).mono fun _ => Reading.perItem)
    ((readMetadata_ensures h64 geometry.validNodesize).weaken fun _ => .inl) fun m hsize => ?_
  by_cases hfile : m.isFile = true
  swap
  · rw [if_pos hfile]
    exact orderly_lift fun x hx => .inl ((Outcome.safe_err _).typed hx)
  rw [if_neg (not_not.mpr hfile)]
  by_cases hend : m.size ≤ offset
  · rw [if_pos hend]
    exact ⟨.of_inner (by simp), fun x hx => by cases hx⟩
  rw [if_neg hend, Env.sub_ok env (by omega), liftM_ok_bind, Env.tryIntoUsize_ok h64 (by omega),
    liftM_ok_bind, sliceBounds_ok (Nat.zero_le _) (by omega), liftM_ok_bind]
  -- from here on it is the walk and then the tail, which cannot fail
  have hwant : offset + min buf.length (m.size - offset) < 2 ^ 64 := by omega
  have hwalk := run_orderly h64 (w := readFileAt.walk env map geometry fsTreeRoot objectid offset
    (min buf.length (m.size - offset))) geometry.validNodesize
    (readFileAt_good h64 fsTreeRoot hwant) (extentsFrom_bounded hino) (s := [])
    (by simp only [List.length_nil]; omega)
  have hthen := orderly_then hwalk (f := fun written => do
    let written ← fillTail env (min buf.length (m.size - offset)) written
    return (written.length, written ++ buf.drop written.length)) fun written _ x hx => ?_
  · convert hthen using 2
    funext written
    cases fillTail env (min buf.length (m.size - offset)) written <;> rfl
  · rw [fillTail_eq h64 (by omega)] at hx
    cases hx

/-- `read_link` does not panic. -/
theorem readLink_ensures : Prog.Ensures Stop.Typed
    (readLink env map geometry fsTreeRoot objectid) fun _ => True := by
  unfold readLink
  refine Prog.Ensures.bind (readMetadata_ensures h64 geometry.validNodesize) fun m _ => ?_
  split_ifs
  swap
  · exact trivial
  refine Prog.Ensures.bind (findFirstGe_ensures h64 geometry.validNodesize _ _)
    fun found hfound => ?_
  rcases found with _ | ⟨leaf, idx⟩
  · exact trivial
  have hfirst := hfound leaf idx rfl
  have hitem := List.getElem?_eq_getElem (hfirst.lt.trans_eq leaf.length_items.symm)
  dsimp only
  rw [hfirst.accepted.leafItem_ok h64 hfirst.level hitem, liftM_ok_bind]
  split_ifs
  swap
  · exact trivial
  refine Prog.Ensures.bind (ensures_lift (TreeBlock.leafItemData_safe h64 (List.getElem_mem _))
    fun _ _ => trivial) fun data (_ : True) => ?_
  rw [extentHeader_eq (Env.usize_ge h64)]
  split_ifs with hshort
  · exact trivial
  · exact trivial
  rw [liftM_ok_bind]
  split_ifs
  · exact trivial
  rw [slice_ok (not_lt.mp hshort) le_rfl, liftM_ok_bind]
  exact Prog.Ensures.bind (ensures_lift (Extent.inlinePlain_safe h64 geometry.validSectorsize _ _)
    fun _ _ => trivial) fun _ (_ : True) => trivial

end Readers

/-! ### The one addition -/

/-- The call of `copy_extent_slice` noted here reads and decodes a compressed extent,
and then adds up a position past `u64`. -/
def Panics (env : Env) (map : ChunkMap) (sectorsize : ℕ) (g : (q : ReadReq) → Ans q) :
    Event → Prop
  | .slice data i => ∃ e compression regular decoded, Extent.parse data = .ok e ∧
      e.backing = .packed compression regular ∧ 2 ^ 64 ≤ regular.offset + i ∧
      (readCompressed env map sectorsize compression regular).run g = .ok decoded
  | _ => False

section Blames

variable {g : (q : ReadReq) → Ans q} {B : Event → Prop} {α β : Type}

/-- The program stops at an overflow exactly when it leaves a note in `B`. -/
def Blames (g : (q : ReadReq) → Ans q) (B : Event → Prop) (p : ReadM α) : Prop :=
  p.run g = fault .overflow ↔ ∃ e ∈ p.trace g, B e

theorem blames_pure (a : α) : Blames g B (pure a : ReadM α) := by
  refine ⟨fun h => absurd h.symm fault_ne_ok, ?_⟩
  rintro ⟨e, he, -⟩
  cases he

theorem blames_note {e : Event} (h : ¬ B e) : Blames g B (note e) := by
  refine ⟨fun h => absurd h.symm fault_ne_ok, ?_⟩
  rintro ⟨e', he', hb⟩
  rw [List.mem_singleton.mp he'] at hb
  exact absurd hb h

theorem blames_lift {r : Outcome α} (h : Outcome.Safe r) : Blames g B (liftM r : ReadM α) := by
  refine ⟨fun hr => absurd hr (by rw [Prog.run_liftM]; exact h .overflow), ?_⟩
  rintro ⟨e, he, -⟩
  rw [Prog.trace_liftM] at he
  cases he

theorem Blames.bind {p : ReadM α} {f : α → ReadM β} (hp : Blames g B p)
    (hf : ∀ a, p.run g = .ok a → Blames g B (f a)) : Blames g B (p >>= f) := by
  unfold Blames at hp ⊢
  rw [Prog.run_bind, Prog.trace_bind]
  cases hrun : p.run g with
  | ok a =>
    have hnone : ¬ ∃ e ∈ p.trace g, B e := by
      rw [← hp, hrun]
      exact fun h => fault_ne_ok h.symm
    dsimp only
    rw [Except.ok_bind, show Prog.run g (f a) = fault .overflow ↔ _ from hf a hrun]
    refine ⟨fun ⟨e, he, hb⟩ => ⟨e, List.mem_append_right _ he, hb⟩, fun ⟨e, he, hb⟩ => ⟨e, ?_, hb⟩⟩
    rcases List.mem_append.mp he with he | he
    · exact absurd ⟨e, he, hb⟩ hnone
    · exact he
  | error x =>
    dsimp only
    rw [List.append_nil, ← hp, hrun, Except.error_bind]
    exact ⟨fun h => by cases h; rfl, fun h => by cases h; rfl⟩

/-- A program that panics nowhere and leaves only notes outside `B`. -/
theorem blames_quiet {p : ReadM α} {P : α → Prop} {Q : Event → Prop} (hquiet : p.Notes Q)
    (hQ : ∀ e, Q e → ¬ B e) (hp : Prog.Ensures Stop.Typed p P) : Blames g B p := by
  refine ⟨fun h => absurd (hp.stops _ () h) id, ?_⟩
  rintro ⟨e, he, hb⟩
  exact absurd hb (hQ e (hquiet.sat.run g e he))

/-- A walk stops at an overflow exactly when one of its items does. -/
theorem Walk.leaf_blames {σ : Type} {env : Env} (h64 : env.usizeBits = 64) {w : Walk σ}
    {S : Stop → Prop} {Inv Fin : σ → Prop} (hg : w.Good S Inv Fin)
    (hB : ∀ block item, ¬ B (.item block item)) {block : TreeBlock} (hb : block.Accepted)
    (hl : block.header.level = 0)
    (hitem : ∀ item s, item ∈ block.items → Inv s → Blames g B (w.item block item s))
    (n idx : ℕ) (hidx : idx + n = block.header.nritems) (s : σ) (hs : Inv s)
    (next : Option DiskKey) : Blames g B (w.leaf env block n idx s next) := by
  induction n generalizing idx s next with
  | zero => exact blames_pure _
  | succ n ih =>
    have hlt : idx < block.items.length := by
      rw [block.length_items]
      omega
    have hn := hb.nritems_lt
    have hmem := List.getElem_mem hlt
    rw [leaf, hb.leafItem_ok h64 hl (List.getElem?_eq_getElem hlt), liftM_ok_bind]
    refine (blames_note (hB _ _)).bind fun _ _ => (hitem _ s hmem hs).bind fun p hp => ?_
    have hafter := (hg.step block _ s hb hl hmem hs).returns _ () hp
    cases p with
    | leave s' => exact blames_pure _
    | more s' next' =>
      dsimp only
      rw [Env.addU32_ok env (by omega), liftM_ok_bind]
      exact ih (idx + 1) (by omega) s' hafter.1 next'

theorem Walk.run_blames {σ : Type} {env : Env} (h64 : env.usizeBits = 64) {w : Walk σ}
    (hnode : ValidNodesize w.nodesize) {S : Stop → Prop} {Inv Fin : σ → Prop}
    (hg : w.Good S Inv Fin) (hreading : ∀ e, Reading e → ¬ B e)
    (hleaf : ∀ block, ¬ B (.leaf block)) (hB : ∀ block item, ¬ B (.item block item))
    (hitem : ∀ block item s, block.Accepted → block.header.level = 0 → item ∈ block.items →
      Inv s → Blames g B (w.item block item s))
    (fuel : ℕ) (target : DiskKey) (s : σ) (hs : Inv s) :
    Blames g B (w.run env fuel target s) := by
  -- searches and leaf notes blame nothing, so the blame is on the items of the leaves
  induction fuel generalizing target s with
  | zero =>
    refine ⟨fun h => absurd (Stop.fault.inj (Except.error.inj h)) (by decide), ?_⟩
    rintro ⟨e, he, -⟩
    cases he
  | succ fuel ih =>
    rw [run]
    split_ifs
    swap
    · exact blames_pure _
    have hensures := @findFirstGe_ensures _ h64 (w.chunkMap s) _ hnode w.root target
    refine (blames_quiet (findFirstGe_notes _ _) hreading hensures).bind fun found hfound => ?_
    rcases found with _ | ⟨block, idx⟩
    · exact blames_pure _
    have hfirst := hensures.returns _ () hfound block idx rfl
    have hlt := hfirst.lt
    have hidx : idx + (block.header.nritems - idx) = block.header.nritems := by omega
    refine (blames_note (hleaf _)).bind fun _ _ => (leaf_blames h64 hg hB hfirst.accepted
      hfirst.level (fun item s hmem hs => hitem block item s hfirst.accepted hfirst.level hmem hs)
      _ idx hidx s hs none).bind fun p hp => ?_
    have hafter := (leaf_sat h64 hg hfirst.accepted hfirst.level _ idx hidx s hs none).run g
    rw [hp] at hafter
    rcases p with ⟨s', _ | target'⟩ | s'
    · exact blames_pure _
    · exact ih target' s' hafter.2.2.1
    · exact blames_pure _

end Blames

section Panics

variable {env : Env} (h64 : env.usizeBits = 64) (hchecks : env.overflowChecks = true)
  {map : ChunkMap} {geometry : Geometry} {fsTreeRoot objectid : ℕ}

include h64 hchecks

theorem sliceCopy_blames (g : (q : ReadReq) → Ans q) {data : List UInt8} {e : Extent}
    (hparse : Extent.parse data = .ok e) (i : ℕ) {len : ℕ} (hlen : len < 2 ^ 64) :
    Blames g (Panics env map geometry.sectorsize g) (do
      note (.slice data i)
      e.copy env map geometry.sectorsize i len) := by
  have hquiet : (e.copy env map geometry.sectorsize i len).trace g = [] := by
    refine List.eq_nil_iff_forall_not_mem.mpr fun ev hev => ?_
    exact (Extent.copy_notes (fun _ => False) e i len).sat.run g ev hev
  have htrace : ((do note (.slice data i); e.copy env map geometry.sectorsize i len) :
      ReadM (List UInt8)).trace g = [.slice data i] := by
    show _ :: (e.copy env map geometry.sectorsize i len).trace g = _
    rw [hquiet]
  unfold Blames
  rw [htrace, Prog.run_bind, run_note_event, Except.ok_bind,
    Extent.copy_fault_iff h64 g hchecks geometry.validSectorsize hparse i hlen]
  constructor
  · rintro ⟨-, compression, regular, decoded, hb, hle, hread⟩
    exact ⟨_, List.mem_singleton_self _, e, compression, regular, decoded, hparse, hb, hle, hread⟩
  · rintro ⟨ev, hev, hpanics⟩
    rw [List.mem_singleton.mp hev] at hpanics
    obtain ⟨e', compression, regular, decoded, hparse', hb, hle, hread⟩ := hpanics
    rw [hparse] at hparse'
    cases hparse'
    exact ⟨rfl, compression, regular, decoded, hb, hle, hread⟩

/-- When `copy_extent_slice` panics. -/
theorem copyExtentSlice_panics_iff (g : (q : ReadReq) → Ans q) (data : List UInt8) (i : ℕ)
    {len : ℕ} (hlen : len < 2 ^ 64) (f : Fault) :
    (copyExtentSlice env map geometry.sectorsize data i len).run g = fault f ↔
      f = .overflow ∧ Panics env map geometry.sectorsize g (.slice data i) := by
  rw [copyExtentSlice_eq (Env.usize_ge h64), Prog.run_bind, run_note_event, Except.ok_bind]
  cases hparse : Extent.parse data with
  | error x =>
    have htyped := (Extent.parse_safe data).typed hparse
    constructor
    · intro h
      cases h
      exact absurd htyped id
    · rintro ⟨-, e, -, -, -, hparse', -⟩
      rw [hparse] at hparse'
      cases hparse'
  | ok e =>
    rw [liftM_ok_bind, Extent.copy_fault_iff h64 g hchecks geometry.validSectorsize hparse i hlen]
    constructor
    · rintro ⟨rfl, compression, regular, decoded, hb, hle, hread⟩
      exact ⟨rfl, e, compression, regular, decoded, hparse, hb, hle, hread⟩
    · rintro ⟨rfl, e', compression, regular, decoded, hparse', hb, hle, hread⟩
      rw [hparse] at hparse'
      cases hparse'
      exact ⟨rfl, compression, regular, decoded, hb, hle, hread⟩

theorem readFileAt_item_blames (g : (q : ReadReq) → Ans q) {offset want : ℕ}
    (hrange : offset + want < 2 ^ 64) {leaf : TreeBlock} {item : LeafItem}
    (hitem : item ∈ leaf.items) {written : List UInt8} (hwritten : written.length < want) :
    Blames g (Panics env map geometry.sectorsize g)
      (readFileAt.item env map geometry objectid offset want leaf item written) := by
  have hkey := (TreeBlock.item_bounds hitem).2.2.offset
  by_cases hmine : isExtentOf objectid item = true
  swap
  · rw [readFileAt_item_foreign (by simpa using hmine)]
    exact blames_pure _
  rw [readFileAt_item_eq h64 hkey hmine hrange hwritten, readFileAt.body]
  refine (blames_lift (TreeBlock.leafItemData_safe h64 hitem)).bind fun data _ => ?_
  refine (blames_lift (Extent.parse_safe data)).bind fun e hparse => ?_
  rw [Prog.run_liftM] at hparse
  dsimp only
  split_ifs
  · exact blames_pure _
  · exact blames_pure _
  rw [← bind_assoc]
  refine (sliceCopy_blames h64 hchecks g hparse _ ?_).bind fun bytes _ => blames_pure _
  omega

/-- A run of `read_file_at` panics exactly when one of its calls of `copy_extent_slice`
does. -/
theorem readFileAt_panics_iff (hino : objectid < 2 ^ 64) (g : (q : ReadReq) → Ans q)
    (offset : ℕ) (buf : List UInt8) (f : Fault) :
    (readFileAt env map geometry fsTreeRoot objectid offset buf).run g = fault f ↔
      f = .overflow ∧
        ∃ ev ∈ (readFileAt env map geometry fsTreeRoot objectid offset buf).trace g,
          Panics env map geometry.sectorsize g ev := by
  have hblames : Blames g (Panics env map geometry.sectorsize g)
      (readFileAt env map geometry fsTreeRoot objectid offset buf) := by
    unfold readFileAt
    by_cases hbuf : buf.length = 0
    · rw [if_pos hbuf]
      exact blames_pure _
    rw [if_neg hbuf]
    have hensures := @readMetadata_ensures _ h64 map fsTreeRoot objectid _
      geometry.validNodesize
    -- metadata reads blame no event, so the blame starts with the walk
    have hreading : ∀ e, Reading e → ¬ Panics env map geometry.sectorsize g e := by
      intro e he hpanics
      cases e <;> first | exact he | exact hpanics
    refine (blames_quiet (readMetadata_notes _) hreading hensures).bind fun m hm => ?_
    have hsize := hensures.returns _ () hm
    by_cases hfile : m.isFile = true
    swap
    · rw [if_pos hfile]
      exact blames_lift (Outcome.safe_err _)
    rw [if_neg (not_not.mpr hfile)]
    by_cases hend : m.size ≤ offset
    · rw [if_pos hend]
      exact blames_pure _
    rw [if_neg hend, Env.sub_ok env (by omega), liftM_ok_bind, Env.tryIntoUsize_ok h64 (by omega),
      liftM_ok_bind, sliceBounds_ok (Nat.zero_le _) (by omega), liftM_ok_bind]
    have hrange : offset + min buf.length (m.size - offset) < 2 ^ 64 := by omega
    refine (Walk.run_blames h64 geometry.validNodesize (readFileAt_good h64 fsTreeRoot hrange)
      hreading (fun _ => id) (fun _ _ => id)
      (fun block item written _ _ hitem hwritten =>
        readFileAt_item_blames h64 hchecks g hrange hitem hwritten) fuel _ _
      (by simp only [List.length_nil]; omega)).bind fun written _ => ?_
    rw [fillTail_eq h64 (by omega), liftM_ok_bind]
    exact blames_pure _
  -- the walk's stops are typed but for an overflow, which fixes f
  constructor
  · intro h
    have hstop := ((readFileAt_orderly h64 hino offset buf).run g).stops _ h
    rcases hstop with hstop | ⟨hstop, -⟩
    · exact absurd hstop id
    · cases hstop
      exact ⟨rfl, hblames.mp h⟩
  · rintro ⟨rfl, h⟩
    exact hblames.mpr h

omit hchecks in
/-- `apply_extent` does not panic. -/
theorem applyExtent_ensures (out data : List UInt8) {fileSize : ℕ} (hsize : fileSize < 2 ^ 64) :
    Prog.Ensures Stop.Typed (applyExtent env map geometry.sectorsize out data fileSize)
      fun _ => True := by
  rw [applyExtent_eq h64 out data hsize]
  refine Prog.Ensures.bind (ensures_lift (Extent.parse_safe data) fun _ h => h) fun e hparse => ?_
  exact (Extent.apply_ensures h64 geometry.validSectorsize hparse out fileSize).mono
    fun _ _ => trivial

end Panics

/-! ### Which requests panic -/

section Requests

variable {env : Env} (h64 : env.usizeBits = 64) {map : ChunkMap} {geometry : Geometry}
  {fsTreeRoot objectid : ℕ}

include h64

/-- The passes over the items run out of items before they run out of fuel. -/
theorem passes_typed {nodesize root : ℕ} (hnode : ValidNodesize nodesize) {mine : LeafItem → Bool}
    (g : (q : ReadReq) → Ans q) (fuel : ℕ) {target : DiskKey} (htarget : target.Bounded)
    (hfuel : 2 ^ 136 ≤ fuel + target.rank) (x : Stop)
    (hx : (passes env map nodesize root mine g fuel target).2 = some x) : x.Typed := by
  induction fuel generalizing target with
  | zero =>
    have := htarget.rank_lt
    omega
  | succ fuel ih =>
    rw [passes] at hx
    rcases hfind : (findFirstGe env map nodesize root target).run g with y | _ | ⟨block, idx⟩
    · rw [hfind] at hx
      cases hx
      exact (@findFirstGe_ensures _ h64 map _ hnode root target).stops _ () hfind
    · rw [hfind] at hx
      cases hx
    · have hfirst := run_findFirstGe_first h64 hnode root g hfind
      rw [hfind] at hx
      dsimp only at hx
      split_ifs at hx with hall
      · split at hx
        · cases hx
        · rename_i next hnext
          obtain ⟨last, hlast, hnext⟩ := Option.bind_eq_some_iff.mp hnext
          have hmem := List.mem_of_getLast? hlast
          have hge := hfirst.drop_sorted.2 last hmem
          have hbound := (TreeBlock.item_bounds (List.mem_of_mem_drop hmem)).2.2.next hnext
          have hrank := DiskKey.rank_lt_rank htarget (hge.trans_lt (DiskKey.lt_of_next hnext))
          exact ih hbound (by omega) hx

theorem readFileAt_fold_overflow (g : (q : ReadReq) → Ans q) {offset want : ℕ}
    (hrange : offset + want < 2 ^ 64) {xs : List Located}
    (hxs : InOrder objectid xs) {stop : Option Stop} (hstop : stop ≠ some (.fault .overflow))
    {written : List UInt8} (hwritten : written.length < want)
    (h : fold ((readFileAt.walk env map geometry fsTreeRoot objectid offset want).step g) xs
      (ending stop) written = fault .overflow) :
    ∃ i, written.length ≤ i ∧ i < want ∧ OverflowsAt env xs (offset + i) := by
  induction xs generalizing written with
  | nil =>
    cases stop with
    | none => exact absurd h.symm fault_ne_ok
    | some x =>
      cases h
      exact absurd rfl hstop
  | cons x xs ih =>
    obtain ⟨hmine, hitem⟩ := hxs.1 x (by simp)
    rw [fold, readFileAt_step h64 g hmine hitem hrange hwritten] at h
    cases he : extentOf env x with
    | error y =>
      have hsafe : Outcome.Safe (extentOf env x) :=
        (TreeBlock.leafItemData_safe h64 hitem).bind fun data _ => Extent.parse_safe data
      rw [he] at h
      cases h
      exact absurd he (hsafe _)
    | ok e =>
      rw [he, Except.ok_bind] at h
      dsimp only at h
      have hkey : x.start < 2 ^ 64 := (TreeBlock.item_bounds hitem).2.2.offset
      obtain ⟨data, -, hparse⟩ := Except.bind_eq_ok.mp he
      set last := min (x.start + e.declared) (2 ^ 64 - 1) with hlast
      -- a position past this extent is left to the items after it
      have hlater : ∀ i, last ≤ offset + i → i < want → OverflowsAt env xs (offset + i) →
          OverflowsAt env (x :: xs) (offset + i) := by
        rintro i hi hlt ⟨start, e', hd, hover⟩
        exact ⟨start, e', by rwa [declarer_miss he (.inr (by omega))], hover⟩
      by_cases hskip : last ≤ offset + written.length
      · rw [if_pos hskip] at h
        obtain ⟨i, hi, hlt, hover⟩ := ih hxs.tail hwritten h
        exact ⟨i, hi, hlt, hlater i (by omega) hlt hover⟩
      rw [if_neg hskip] at h
      have hlen := readFileAt.length_filled offset x.start hwritten.le
      generalize readFileAt.filled offset want x.start written = filled at h hlen
      by_cases hfull : filled.length = want
      · rw [if_pos hfull] at h
        exact absurd h.symm fault_ne_ok
      rw [if_neg hfull] at h
      have hensures := @Extent.copy_ensures _ h64 map _ _ geometry.validSectorsize _ hparse
        (offset + filled.length - x.start)
        (min (last - (offset + filled.length)) (want - filled.length)) (by omega)
      cases hcopy : (e.copy env map geometry.sectorsize (offset + filled.length - x.start)
          (min (last - (offset + filled.length)) (want - filled.length))).run g with
      | error y =>
        rw [hcopy] at h
        cases h
        rcases hensures.stops _ () hcopy with hstop | ⟨-, -, hover⟩
        · exact absurd hstop id
        · -- at its start an extent cannot overflow, so the position is inside it
          obtain ⟨compression, regular, hb, hle⟩ := hover
          have hoffset := (Extent.packed_fields hparse hb).2.2
          exact ⟨filled.length, by omega, by omega, x.start, e,
            declarer_hit he (by omega) (by omega), compression, regular, hb, hle⟩
      | ok bytes =>
        have hcount := hensures.returns _ () hcopy
        rw [hcopy, Except.ok_bind] at h
        unfold readFileAt.pace at h
        split_ifs at h with hdone
        · exact absurd h.symm fault_ne_ok
        · rw [List.length_append] at hdone
          obtain ⟨i, hi, hlt, hover⟩ := ih hxs.tail (by rw [List.length_append]; omega) h
          rw [List.length_append] at hi
          exact ⟨i, by omega, hlt, hlater i (by omega) hlt hover⟩

/-- Where `read_file_at` panics, a requested byte lies past `u64` in the compressed
extent that is the first to declare it. -/
theorem readFileAt_panic_overflows (hino : objectid < 2 ^ 64) (g : (q : ReadReq) → Ans q)
    {offset : ℕ} {buf : List UInt8} {f : Fault}
    (h : (readFileAt env map geometry fsTreeRoot objectid offset buf).run g = fault f) :
    ∃ m, (readMetadata env map geometry.nodesize fsTreeRoot objectid).run g = .ok m ∧
      ∃ i < min buf.length (m.size - offset), OverflowsAt env
        (fileItems env map geometry fsTreeRoot objectid g).1 (offset + i) := by
  have hf : f = .overflow := by
    rcases ((readFileAt_orderly h64 hino offset buf).run g).stops _ h with hstop | ⟨hstop, -⟩
    · exact absurd hstop id
    · cases hstop
      rfl
  subst hf
  have hensures := @readMetadata_ensures _ h64 map fsTreeRoot objectid _
    geometry.validNodesize
  have hbuf : buf ≠ [] := by
    rintro rfl
    exact absurd h.symm fault_ne_ok
  have hlen : 0 < buf.length := List.length_pos_iff.mpr hbuf
  -- whatever returns before the walk does so without a panic
  cases hmeta : (readMetadata env map geometry.nodesize fsTreeRoot objectid).run g with
  | error x =>
    unfold readFileAt at h
    rw [if_neg (by omega), Prog.run_bind, hmeta] at h
    cases h
    exact absurd (hensures.stops _ () hmeta) id
  | ok m =>
    refine ⟨m, rfl, ?_⟩
    have hsize := hensures.returns _ () hmeta
    by_cases hfile : m.isFile = true
    swap
    · unfold readFileAt at h
      rw [if_neg (by omega), Prog.run_bind, hmeta, Except.ok_bind, if_pos hfile] at h
      cases h
    by_cases hoffset : offset < m.size
    swap
    · unfold readFileAt at h
      rw [if_neg (by omega), Prog.run_bind, hmeta, Except.ok_bind, if_neg (by simpa using hfile),
        if_pos (by omega)] at h
      exact absurd h.symm fault_ne_ok
    rw [run_readFileAt h64 g hmeta hfile hbuf hoffset] at h
    -- nor do the passes themselves panic: the fold over their items does
    have hpasses : (fileItems env map geometry fsTreeRoot objectid g).2 ≠
        some (.fault .overflow) := fun hstop =>
      passes_typed h64 geometry.validNodesize g _ (extentsFrom_bounded hino)
        (Nat.le_add_right _ _) _ hstop
    cases hfold : fold ((readFileAt.walk env map geometry fsTreeRoot objectid offset
        (min buf.length (m.size - offset))).step g)
        (fileItems env map geometry fsTreeRoot objectid g).1
        (ending (fileItems env map geometry fsTreeRoot objectid g).2) [] with
    | ok written =>
      dsimp only at h
      rw [hfold] at h
      exact absurd h.symm fault_ne_ok
    | error x =>
      dsimp only at h
      rw [hfold] at h
      cases h
      obtain ⟨i, -, hlt, hover⟩ := readFileAt_fold_overflow h64 g (by omega)
        (fileItems_inOrder h64 map geometry fsTreeRoot objectid g) hpasses
        (by simp only [List.length_nil]; omega) hfold
      exact ⟨i, hlt, hover⟩

end Requests

/-- Extent arithmetic in a build that checks it: over every reader, `read_file`,
`read_link`, `apply_extent` and `read_through_chunks` never panic; `copy_extent_slice`,
and so `read_file_at`, panics exactly at a compressed extent whose position leaves
`u64`, which takes a requested byte that lies there. -/
theorem extent_arithmetic {env : Env} (h64 : env.usizeBits = 64)
    (hchecks : env.overflowChecks = true) (map : ChunkMap) (geometry : Geometry)
    (fsTreeRoot : ℕ) {objectid : ℕ} (hino : objectid < 2 ^ 64) :
    Prog.Ensures Stop.Typed (readFile env map geometry fsTreeRoot objectid) (fun _ => True) ∧
    Prog.Ensures Stop.Typed (readLink env map geometry fsTreeRoot objectid) (fun _ => True) ∧
    (∀ start len, len < 2 ^ 64 →
      Prog.Ensures Stop.Typed (readThroughChunks env map start len) fun _ => True) ∧
    (∀ out data fileSize, fileSize < 2 ^ 64 → Prog.Ensures Stop.Typed
      (applyExtent env map geometry.sectorsize out data fileSize) fun _ => True) ∧
    (∀ g data i len f, len < 2 ^ 64 →
      ((copyExtentSlice env map geometry.sectorsize data i len).run g = fault f ↔
        f = .overflow ∧ Panics env map geometry.sectorsize g (.slice data i))) ∧
    ∀ g offset buf f,
      ((readFileAt env map geometry fsTreeRoot objectid offset buf).run g = fault f ↔
        f = .overflow ∧
          ∃ ev ∈ (readFileAt env map geometry fsTreeRoot objectid offset buf).trace g,
            Panics env map geometry.sectorsize g ev) ∧
      ((readFileAt env map geometry fsTreeRoot objectid offset buf).run g = fault f →
        ∃ m, (readMetadata env map geometry.nodesize fsTreeRoot objectid).run g = .ok m ∧
          ∃ i < min buf.length (m.size - offset), OverflowsAt env
            (fileItems env map geometry fsTreeRoot objectid g).1 (offset + i)) := by
  refine ⟨?_, readLink_ensures h64, fun start len hlen => ?_,
    fun out data fileSize hsize => applyExtent_ensures h64 out data hsize,
    fun g data i len f hlen => copyExtentSlice_panics_iff h64 hchecks g data i hlen f,
    fun g offset buf f => ⟨readFileAt_panics_iff h64 hchecks hino g offset buf f,
      readFileAt_panic_overflows h64 hino g⟩⟩
  · refine (readFile_orderly h64 hino).mono fun t r h => ?_
    cases r with
    | ok _ => trivial
    | error x => exact h.stops x rfl
  · exact (Extent.readThroughChunks_ensures h64 hlen).mono fun _ _ => trivial

set_option maxRecDepth 100000 in
/-- One byte from position 1 of the second file of the sample volume, whose compressed
extent starts at the last `u64`. -/
theorem readFileAt_overflows :
    (readFileAt referenceEnv sampleMap sampleGeometry 0x100000 258 1 [0]).run
      sampleVolume.device.answer = fault .overflow := by
  decide +kernel

set_option maxRecDepth 100000 in
/-- A call of `copy_extent_slice` is to blame, and the byte asked for is the one whose
position leaves `u64`; to read the item as a link is safe. -/
theorem extent_arithmetic_sample :
    (∃ ev ∈ (readFileAt referenceEnv sampleMap sampleGeometry 0x100000 258 1 [0]).trace
        sampleVolume.device.answer,
      Panics referenceEnv sampleMap 4096 sampleVolume.device.answer ev) ∧
    OverflowsAt referenceEnv (fileItems referenceEnv sampleMap sampleGeometry 0x100000 258
      sampleVolume.device.answer).1 1 ∧
    Outcome.Safe ((readLink referenceEnv sampleMap sampleGeometry 0x100000 258).run
      sampleVolume.device.answer) := by
  obtain ⟨-, hlink, -, -, -, hat⟩ := extent_arithmetic referenceEnv_usize64 rfl sampleMap
    sampleGeometry 0x100000 (by decide : 258 < 2 ^ 64)
  obtain ⟨hpanics, hoverflows⟩ := hat sampleVolume.device.answer 1 [0] .overflow
  refine ⟨(hpanics.mp readFileAt_overflows).2, ?_, fun f hf => hlink.stops _ () hf⟩
  obtain ⟨m, -, i, hi, hover⟩ := hoverflows readFileAt_overflows
  obtain rfl : i = 0 := by
    rw [List.length_singleton] at hi
    omega
  exact hover
