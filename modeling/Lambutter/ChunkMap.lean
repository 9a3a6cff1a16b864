/-
The chunk map: logical addresses to places on the device being read.

`ChunkMap` carries the order of its mappings as a field, so `insert` has to
prove, in the one place where a map is changed, that its two neighbour checks
keep the order.  Everything else is read off the field:

* `resolve` looks at the one mapping that covers the address (`resolve_of_covers`),
  and answers `chunk_unmapped` exactly when there is none (`resolve_unmapped_iff`);
* inserting never changes the answer for a mapped address
  (`resolve_insert_of_covers`);
* the order of insertion does not matter (`insertAll_perm`).
-/
import Lambutter.Format
import Lambutter.Ranges

open Ranges

structure ChunkMapping where
  logical : ℕ
  length : ℕ
  ty : ℕ
  stripeLen : ℕ
  numStripes : ℕ
  subStripes : ℕ
  stripes : List Stripe
  deriving DecidableEq, Repr

/-- A logical address on the device: where, and how far the chunk goes on. -/
structure Resolved where
  devid : ℕ
  physical : ℕ
  contiguousBytes : ℕ
  deriving DecidableEq, Repr

namespace ChunkMapping

/-- One past the last logical byte. -/
def stop (m : ChunkMapping) : ℕ := m.logical + m.length

/-- The mapping's range contains the address. -/
def Covers (m : ChunkMapping) (l : ℕ) : Prop := Ranges.Covers logical stop m l

instance (m : ChunkMapping) (l : ℕ) : Decidable (m.Covers l) :=
  inferInstanceAs (Decidable (_ ∧ _))

def profile (m : ChunkMapping) : ℕ := m.ty &&& blockGroupProfileMask

/-- The profiles whose every stripe holds the whole chunk. -/
def Linear (m : ChunkMapping) : Prop :=
  m.profile ∈ [0, blockGroupDup, blockGroupRaid1, blockGroupRaid1c3, blockGroupRaid1c4]

instance (m : ChunkMapping) : Decidable m.Linear := inferInstanceAs (Decidable (_ ∈ _))

/-- The refusal of the other profiles. -/
def profileError (m : ChunkMapping) : Error :=
  if m.profile = blockGroupRaid0 then .unsupportedProfile "prof_raid0"
  else if m.profile = blockGroupRaid10 then .unsupportedProfile "prof_raid10"
  else if m.profile = blockGroupRaid5 then .unsupportedProfile "prof_raid5"
  else if m.profile = blockGroupRaid6 then .unsupportedProfile "prof_raid6"
  else .unsupportedProfile "prof_unknown"

/-- The stripe to read: the first one on the local device, or the first one when
no local device is recorded. -/
def pickStripe (m : ChunkMapping) (localDevid : Option ℕ) : Outcome Stripe :=
  if m.Linear then
    match m.stripes with
    | [] => err (.unsupportedProfile "prof_no_stripes")
    | first :: _ =>
      match localDevid with
      | some devid =>
        okOr (m.stripes.find? fun s => s.devid == devid)
          (.unsupportedProfile "prof_other_device")
      | none => .ok first
  else err m.profileError

/-- The second half of `resolve`, once the mapping is found. -/
def resolveAt (env : Env) (m : ChunkMapping) (localDevid : Option ℕ) (logical : ℕ) :
    Outcome Resolved := do
  let stripe ← m.pickStripe localDevid
  let offsetInChunk ← env.sub 64 logical m.logical
  let physical ← okOr (checkedAdd 64 stripe.offset offsetInChunk)
    (.corruptBtree "chunk_overflow" logical)
  let bytesRemaining ← env.sub 64 m.length offsetInChunk
  return { devid := stripe.devid, physical, contiguousBytes := bytesRemaining }

/-- A picked stripe is one of the chunk's, of a linear chunk, on the local device. -/
theorem pickStripe_eq_ok {m : ChunkMapping} {localDevid : Option ℕ} {s : Stripe}
    (h : m.pickStripe localDevid = .ok s) :
    m.Linear ∧ s ∈ m.stripes ∧ ∀ devid ∈ localDevid, s.devid = devid := by
  unfold pickStripe at h
  by_cases hl : m.Linear
  · rw [if_pos hl] at h
    refine ⟨hl, ?_⟩
    cases hs : m.stripes with
    | nil =>
      rw [hs] at h
      exact absurd h err_ne_ok
    | cons first rest =>
      rw [hs] at h
      cases localDevid with
      | none =>
        cases h
        exact ⟨by simp, by simp⟩
      | some devid =>
        have hfind : (first :: rest).find? (fun s => s.devid == devid) = some s :=
          okOr_eq_ok.mp h
        refine ⟨List.mem_of_find?_eq_some hfind, ?_⟩
        intro d hd
        cases hd
        simpa using List.find?_some hfind
  · rw [if_neg hl] at h
    exact absurd h err_ne_ok

/-- A stripe is picked or an unsupported profile reported. -/
theorem pickStripe_cases (m : ChunkMapping) (localDevid : Option ℕ) :
    (∃ s, m.pickStripe localDevid = .ok s) ∨
      ∃ token, m.pickStripe localDevid = err (.unsupportedProfile token) := by
  unfold pickStripe
  by_cases hl : m.Linear
  · rw [if_pos hl]
    cases hs : m.stripes with
    | nil => exact .inr ⟨_, rfl⟩
    | cons first rest =>
      cases localDevid with
      | none => exact .inl ⟨first, rfl⟩
      | some devid =>
        cases hf : (first :: rest).find? (fun s => s.devid == devid) with
        | none => exact .inr ⟨"prof_other_device", by simp [okOr, hf]⟩
        | some s => exact .inl ⟨s, by simp [okOr, hf]⟩
  · rw [if_neg hl, profileError]
    split_ifs <;> exact .inr ⟨_, rfl⟩

/-- On a covered address the only plain arithmetic of `resolve` is exact. -/
theorem resolveAt_eq {env : Env} {m : ChunkMapping} {l : ℕ} (h : m.Covers l)
    (localDevid : Option ℕ) :
    m.resolveAt env localDevid l = (do
      let s ← m.pickStripe localDevid
      if s.offset + (l - m.logical) < 2 ^ 64 then
        .ok ⟨s.devid, s.offset + (l - m.logical), m.stop - l⟩
      else err (.corruptBtree "chunk_overflow" l)) := by
  obtain ⟨hle, hlt⟩ := h
  have hstop : m.stop = m.logical + m.length := rfl
  have hrem : m.length - (l - m.logical) = m.stop - l := by omega
  unfold resolveAt
  refine congrArg _ (funext fun s => ?_)
  rw [Env.sub_ok env hle, Except.ok_bind, checkedAdd]
  split_ifs
  · rw [okOr_some, Except.ok_bind, Env.sub_ok env (by omega), hrem]
    rfl
  · rfl

theorem resolveAt_ne_unmapped {env : Env} {m : ChunkMapping} {l : ℕ} (h : m.Covers l)
    (localDevid : Option ℕ) (l' : ℕ) :
    m.resolveAt env localDevid l ≠ err (.corruptBtree "chunk_unmapped" l') := by
  rw [resolveAt_eq h]
  rcases pickStripe_cases m localDevid with ⟨s, hs⟩ | ⟨token, hs⟩
  · rw [hs, Except.ok_bind]
    split_ifs
    · exact fun hc => absurd hc.symm err_ne_ok
    · simp [err]
  · rw [hs, err_bind]
    simp [err]

theorem resolveAt_eq_ok {env : Env} {m : ChunkMapping} {l : ℕ} (h : m.Covers l)
    {localDevid : Option ℕ} {r : Resolved} :
    m.resolveAt env localDevid l = .ok r ↔ ∃ s, m.pickStripe localDevid = .ok s ∧
      s.offset + (l - m.logical) < 2 ^ 64 ∧
      r = ⟨s.devid, s.offset + (l - m.logical), m.stop - l⟩ := by
  rw [resolveAt_eq h, Except.bind_eq_ok]
  refine exists_congr fun s => and_congr_right fun _ => ?_
  split_ifs with hlt
  · exact ⟨fun hr => ⟨hlt, (Except.ok.inj hr).symm⟩, fun hr => congrArg _ hr.2.symm⟩
  · exact ⟨fun hr => absurd hr err_ne_ok, fun hr => absurd hr.1 hlt⟩

end ChunkMapping

/-! ### The map -/

/-- Sorted by `logical`, non-overlapping, every end in `u64`. -/
@[ext] structure ChunkMap where
  mappings : List ChunkMapping
  localDevid : Option ℕ
  laid : Laid ChunkMapping.logical ChunkMapping.stop mappings
  stop_lt : ∀ m ∈ mappings, m.stop < 2 ^ 64

namespace ChunkMap

/-- `ChunkMap::default()`. -/
def empty : ChunkMap where
  mappings := []
  localDevid := none
  laid := Laid.nil
  stop_lt := by simp

def setLocalDevid (map : ChunkMap) (devid : ℕ) : ChunkMap := { map with localDevid := some devid }

/-- The check of `insert` against the mapping before the new one. -/
def clearsPrev (prev : Option ChunkMapping) (m : ChunkMapping) : Outcome Unit :=
  match prev with
  | none => .ok ()
  | some prev => do
    let prevEnd ← okOr (checkedAdd 64 prev.logical prev.length)
      (.corruptBtree "chunk_overflow" prev.logical)
    if m.logical < prevEnd then err (.corruptBtree "chunk_overlap" m.logical) else .ok ()

/-- The check of `insert` against the mapping after the new one. -/
def clearsNext (next : Option ChunkMapping) (m : ChunkMapping) (newEnd : ℕ) : Outcome Unit :=
  match next with
  | none => .ok ()
  | some next =>
    if next.logical < newEnd then err (.corruptBtree "chunk_overlap" m.logical) else .ok ()

/-- The checks of `insert`, and the position where the mapping goes. -/
def insertPos (mappings : List ChunkMapping) (m : ChunkMapping) : Outcome ℕ := do
  let pos := partitionPoint (fun x => decide (x.logical < m.logical)) mappings
  clearsPrev (before mappings pos) m
  let newEnd ← okOr (checkedAdd 64 m.logical m.length) (.corruptBtree "chunk_overflow" m.logical)
  clearsNext mappings[pos]? m newEnd
  return pos

/-- What the checks of `insert` amount to. -/
structure Fits (pre post : List ChunkMapping) (m : ChunkMapping) : Prop where
  stop_lt : m.stop < 2 ^ 64
  prev : ∀ b ∈ pre.getLast?, b.stop ≤ m.logical
  next : ∀ b ∈ post.head?, m.stop ≤ b.logical

theorem clearsPrev_eq_ok {prev : Option ChunkMapping} {m : ChunkMapping}
    (h : ∀ b ∈ prev, b.stop < 2 ^ 64) :
    clearsPrev prev m = .ok () ↔ ∀ b ∈ prev, b.stop ≤ m.logical := by
  cases prev with
  | none => simp [clearsPrev]
  | some b =>
    have hb : b.logical + b.length < 2 ^ 64 := h b rfl
    rw [clearsPrev, checkedAdd, if_pos hb]
    simp only [okOr, Except.ok_bind]
    split_ifs with hlt
    · simpa [err, ChunkMapping.stop] using hlt
    · simpa [ChunkMapping.stop] using hlt

theorem clearsNext_eq_ok {next : Option ChunkMapping} {m : ChunkMapping} {newEnd : ℕ} :
    clearsNext next m newEnd = .ok () ↔ ∀ b ∈ next, newEnd ≤ b.logical := by
  cases next with
  | none => simp [clearsNext]
  | some b =>
    rw [clearsNext]
    split_ifs with hlt
    · simpa [err] using hlt
    · simpa using hlt

/-- The one place where the position is computed: it splits the map, and the
checks pass exactly when the new mapping clears both neighbours. -/
theorem insertPos_split {l : List ChunkMapping} (hl : Laid ChunkMapping.logical ChunkMapping.stop l)
    (hb : ∀ x ∈ l, x.stop < 2 ^ 64) (m : ChunkMapping) :
    ∃ pre post, l = pre ++ post ∧ (∀ x ∈ pre, x.logical < m.logical) ∧
      (∀ x ∈ post, m.logical ≤ x.logical) ∧
      ∀ pos, insertPos l m = .ok pos ↔ pos = pre.length ∧ Fits pre post m := by
  obtain ⟨pre, post, rfl, hpos, hpre, hpost⟩ :=
    hl.exists_split (fun x => decide (x.logical < m.logical))
      (fun a b hab hb => decide_eq_true (hab.trans_lt (of_decide_eq_true hb)))
  refine ⟨pre, post, rfl, fun x hx => of_decide_eq_true (hpre x hx),
    fun x hx => not_lt.mp fun hlt => hpost x hx (decide_eq_true hlt), fun pos => ?_⟩
  have hprev : ∀ b ∈ pre.getLast?, b.stop < 2 ^ 64 :=
    fun b hb' => hb b (List.mem_append_left _ (List.mem_of_getLast? hb'))
  simp only [insertPos, hpos, before_length, getElem?_length, Except.bind_eq_ok, okOr_eq_ok,
    checkedAdd_eq_some]
  constructor
  · rintro ⟨u, h1, newEnd, ⟨h2, rfl⟩, v, h3, h4⟩
    cases h4
    exact ⟨rfl, h2, (clearsPrev_eq_ok hprev).mp h1, clearsNext_eq_ok.mp h3⟩
  · rintro ⟨rfl, h⟩
    exact ⟨(), (clearsPrev_eq_ok hprev).mpr h.prev, _, ⟨h.stop_lt, rfl⟩, (),
      clearsNext_eq_ok.mpr h.next, rfl⟩

theorem laid_insertIdx {l : List ChunkMapping} (hl : Laid ChunkMapping.logical ChunkMapping.stop l)
    (hb : ∀ x ∈ l, x.stop < 2 ^ 64) {m : ChunkMapping} {pos : ℕ}
    (h : insertPos l m = .ok pos) :
    Laid ChunkMapping.logical ChunkMapping.stop (l.insertIdx pos m) := by
  obtain ⟨pre, post, rfl, -, -, hok⟩ := insertPos_split hl hb m
  obtain ⟨rfl, hfits⟩ := (hok pos).mp h
  rw [insertIdx_length]
  exact hl.insert (Nat.le_add_right _ _) hfits.prev hfits.next

theorem stop_lt_insertIdx {l : List ChunkMapping}
    (hl : Laid ChunkMapping.logical ChunkMapping.stop l) (hb : ∀ x ∈ l, x.stop < 2 ^ 64)
    {m : ChunkMapping} {pos : ℕ} (h : insertPos l m = .ok pos) :
    ∀ x ∈ l.insertIdx pos m, x.stop < 2 ^ 64 := by
  obtain ⟨pre, post, rfl, -, -, hok⟩ := insertPos_split hl hb m
  obtain ⟨rfl, hfits⟩ := (hok pos).mp h
  rw [insertIdx_length]
  intro x hx
  rcases List.mem_append.mp hx with hx | hx
  · exact hb x (by simp [hx])
  · rcases List.mem_cons.mp hx with rfl | hx
    · exact hfits.stop_lt
    · exact hb x (by simp [hx])

/-- `insert(&mut self, mapping)`: the result, and the map afterwards. -/
def insert (map : ChunkMap) (m : ChunkMapping) : Outcome Unit × ChunkMap :=
  match h : insertPos map.mappings m with
  | .error e => (.error e, map)
  | .ok pos => (.ok (),
    { map with
      mappings := map.mappings.insertIdx pos m
      laid := laid_insertIdx map.laid map.stop_lt h
      stop_lt := stop_lt_insertIdx map.laid map.stop_lt h })

def contains (map : ChunkMap) (logical : ℕ) : Bool :=
  map.mappings.any fun m => m.logical == logical

def resolve (env : Env) (map : ChunkMap) (logical : ℕ) : Outcome Resolved := do
  let pos := partitionPoint (fun m => decide (m.logical ≤ logical)) map.mappings
  let mapping ← okOr (before map.mappings pos) (.corruptBtree "chunk_unmapped" logical)
  let mappingEnd ← okOr (checkedAdd 64 mapping.logical mapping.length)
    (.corruptBtree "chunk_overflow" mapping.logical)
  if mappingEnd ≤ logical then err (.corruptBtree "chunk_unmapped" logical)
  else mapping.resolveAt env map.localDevid logical

/-! ### `insert` -/

theorem insert_error {map : ChunkMap} {m : ChunkMapping} {e : Stop}
    (h : (map.insert m).1 = .error e) : (map.insert m).2 = map := by
  unfold insert at h ⊢
  split
  · rfl
  · rename_i pos hpos
    split at h
    · rename_i e' he'
      rw [hpos] at he'
      cases he'
    · cases h

/-- A mapping goes in exactly when it clears its neighbours, and then it goes
between them. -/
theorem insert_split (map : ChunkMap) (m : ChunkMapping) :
    ∃ pre post, map.mappings = pre ++ post ∧ (∀ x ∈ pre, x.logical < m.logical) ∧
      (∀ x ∈ post, m.logical ≤ x.logical) ∧
      ((map.insert m).1 = .ok () ↔ Fits pre post m) ∧
      ((map.insert m).1 = .ok () → (map.insert m).2.mappings = pre ++ m :: post ∧
        (map.insert m).2.localDevid = map.localDevid) := by
  obtain ⟨pre, post, hsplit, hpre, hpost, hok⟩ := insertPos_split map.laid map.stop_lt m
  refine ⟨pre, post, hsplit, hpre, hpost, ?_⟩
  unfold insert
  split
  · rename_i e he
    have hnot : ¬ Fits pre post m := by
      intro hfits
      rw [(hok pre.length).mpr ⟨rfl, hfits⟩] at he
      cases he
    have herr : (.error e : Outcome Unit) ≠ .ok () := by simp
    exact ⟨⟨fun h => absurd h herr, fun h => absurd h hnot⟩, fun h => absurd h herr⟩
  · rename_i pos hpos
    obtain ⟨rfl, hfits⟩ := (hok pos).mp hpos
    refine ⟨⟨fun _ => hfits, fun _ => rfl⟩, fun _ => ⟨?_, rfl⟩⟩
    show map.mappings.insertIdx pre.length m = _
    rw [hsplit, insertIdx_length]

theorem insert_ok {map : ChunkMap} {m : ChunkMapping} (h : (map.insert m).1 = .ok ()) :
    ∃ pre post, map.mappings = pre ++ post ∧ (map.insert m).2.mappings = pre ++ m :: post := by
  obtain ⟨pre, post, hsplit, -, -, -, hok⟩ := insert_split map m
  exact ⟨pre, post, hsplit, (hok h).1⟩

/-- A failing `insert` fails with a typed error. -/
theorem insert_safe (map : ChunkMap) (m : ChunkMapping) : Outcome.Safe (map.insert m).1 := by
  have hpos : Outcome.Safe (insertPos map.mappings m) := by
    refine Outcome.Safe.bind ?_ fun _ _ => Outcome.Safe.bind (Outcome.safe_okOr _ _) fun _ _ =>
      Outcome.Safe.bind ?_ fun _ _ => Outcome.safe_ok _
    · cases before map.mappings _ with
      | none => exact Outcome.safe_ok _
      | some prev =>
        refine Outcome.Safe.bind (Outcome.safe_okOr _ _) fun _ _ => ?_
        split_ifs
        · exact Outcome.safe_err _
        · exact Outcome.safe_ok _
    · unfold clearsNext
      split
      · exact Outcome.safe_ok _
      · split_ifs
        · exact Outcome.safe_err _
        · exact Outcome.safe_ok _
  unfold insert
  split
  · rename_i e he
    intro f hf
    exact hpos f (he.trans (by cases hf; rfl))
  · exact Outcome.safe_ok _

theorem insert_localDevid (map : ChunkMap) (m : ChunkMapping) :
    (map.insert m).2.localDevid = map.localDevid := by
  unfold insert
  split <;> rfl

/-- Mappings are never dropped. -/
theorem mem_insert_of_mem {map : ChunkMap} {m x : ChunkMapping} (hx : x ∈ map.mappings) :
    x ∈ (map.insert m).2.mappings := by
  cases h : (map.insert m).1 with
  | error e => rwa [insert_error h]
  | ok u =>
    obtain ⟨pre, post, hsplit, hnew⟩ := insert_ok h
    rw [hsplit] at hx
    rw [hnew]
    rcases List.mem_append.mp hx with hx | hx <;> simp [hx]

/-! ### `resolve` -/

theorem resolve_of_covers (env : Env) {map : ChunkMap} {m : ChunkMapping} {l : ℕ}
    (hm : m ∈ map.mappings) (h : m.Covers l) :
    map.resolve env l = m.resolveAt env map.localDevid l := by
  have hloc : before map.mappings
      (partitionPoint (fun m => decide (m.logical ≤ l)) map.mappings) = some m :=
    map.laid.locate hm h
  have hend : checkedAdd 64 m.logical m.length = some m.stop :=
    checkedAdd_eq_some.mpr ⟨map.stop_lt m hm, rfl⟩
  simp only [resolve, hloc, hend, okOr_some, Except.ok_bind]
  rw [if_neg (not_le.mpr h.2)]

theorem resolve_of_not_covers (env : Env) {map : ChunkMap} {l : ℕ}
    (h : ∀ m ∈ map.mappings, ¬ m.Covers l) :
    map.resolve env l = err (.corruptBtree "chunk_unmapped" l) := by
  cases hloc : before map.mappings
      (partitionPoint (fun m => decide (m.logical ≤ l)) map.mappings) with
  | none =>
    simp only [resolve, hloc, okOr_none]
    rfl
  | some m =>
    have hm : m ∈ map.mappings := before_mem hloc
    have hend : checkedAdd 64 m.logical m.length = some m.stop :=
      checkedAdd_eq_some.mpr ⟨map.stop_lt m hm, rfl⟩
    have hle : m.stop ≤ l := not_lt.mp fun hlt => h m hm ⟨map.laid.start_le_of_before hloc, hlt⟩
    simp only [resolve, hloc, hend, okOr_some, Except.ok_bind]
    rw [if_pos hle]

theorem resolve_unmapped_iff (env : Env) (map : ChunkMap) (l : ℕ) :
    map.resolve env l = err (.corruptBtree "chunk_unmapped" l) ↔
      ∀ m ∈ map.mappings, ¬ m.Covers l := by
  constructor
  · intro h m hm hcov
    rw [resolve_of_covers env hm hcov] at h
    exact ChunkMapping.resolveAt_ne_unmapped hcov _ _ h
  · exact resolve_of_not_covers env

/-- A resolved address is covered by a mapping of the map. -/
theorem resolve_eq_ok {env : Env} {map : ChunkMap} {l : ℕ} {r : Resolved}
    (h : map.resolve env l = .ok r) :
    ∃ m ∈ map.mappings, m.Covers l ∧ m.resolveAt env map.localDevid l = .ok r := by
  by_cases hc : ∃ m ∈ map.mappings, m.Covers l
  · obtain ⟨m, hm, hcov⟩ := hc
    exact ⟨m, hm, hcov, by rw [← resolve_of_covers env hm hcov, h]⟩
  · rw [resolve_of_not_covers env (fun m hm hcov => hc ⟨m, hm, hcov⟩)] at h
    exact absurd h err_ne_ok

/-- `resolve` never panics. -/
theorem resolve_safe (env : Env) (map : ChunkMap) (l : ℕ) : Outcome.Safe (map.resolve env l) := by
  by_cases hc : ∃ m ∈ map.mappings, m.Covers l
  · obtain ⟨m, hm, hcov⟩ := hc
    rw [resolve_of_covers env hm hcov, ChunkMapping.resolveAt_eq hcov]
    refine Outcome.Safe.bind ?_ fun s _ => ?_
    · rcases ChunkMapping.pickStripe_cases m map.localDevid with ⟨s, hs⟩ | ⟨token, hs⟩
      · rw [hs]
        exact Outcome.safe_ok _
      · rw [hs]
        exact Outcome.safe_err _
    · split_ifs
      · exact Outcome.safe_ok _
      · exact Outcome.safe_err _
  · rw [resolve_of_not_covers env (fun m hm hcov => hc ⟨m, hm, hcov⟩)]
    exact Outcome.safe_err _

theorem resolve_insert_of_covers (env : Env) {map : ChunkMap} {x : ChunkMapping} {l : ℕ}
    (hx : x ∈ map.mappings) (hcov : x.Covers l) (m : ChunkMapping) :
    (map.insert m).2.resolve env l = map.resolve env l := by
  rw [resolve_of_covers env hx hcov, resolve_of_covers env (mem_insert_of_mem hx) hcov,
    insert_localDevid]

/-! ### Sequences of inserts -/

/-- The map after a sequence of `insert` calls, failing ones included. -/
def insertAll (map : ChunkMap) (calls : List ChunkMapping) : ChunkMap :=
  calls.foldl (fun map m => (map.insert m).2) map

/-- The new chunk overlaps none of the map's. -/
def Clear (map : ChunkMap) (m : ChunkMapping) : Prop :=
  ∀ x ∈ map.mappings, x.stop ≤ m.logical ∨ m.stop ≤ x.logical

/-- A chunk that overlaps nothing goes in. -/
theorem insert_of_clear {map : ChunkMap} {m : ChunkMapping} (hstop : m.stop < 2 ^ 64)
    (hne : ∀ x ∈ map.mappings, 0 < x.length) (h : map.Clear m) :
    (map.insert m).1 = .ok () ∧ (map.insert m).2.mappings.Perm (m :: map.mappings) := by
  obtain ⟨pre, post, hsplit, hpre, hpost, hiff, hok⟩ := insert_split map m
  have hfits : Fits pre post m := by
    refine ⟨hstop, fun b hb => ?_, fun b hb => ?_⟩
    · have hmem : b ∈ pre := List.mem_of_getLast? hb
      have hlt : b.logical < m.logical := hpre b hmem
      have hstop : m.stop = m.logical + m.length := rfl
      rcases h b (by simp [hsplit, hmem]) with hc | hc
      · exact hc
      · omega
    · have hmem : b ∈ post := List.mem_of_head? hb
      have hle : m.logical ≤ b.logical := hpost b hmem
      have hlen : 0 < b.length := hne b (by simp [hsplit, hmem])
      have hstop : b.stop = b.logical + b.length := rfl
      rcases h b (by simp [hsplit, hmem]) with hc | hc
      · omega
      · exact hc
  have h1 := hiff.mpr hfits
  refine ⟨h1, ?_⟩
  rw [(hok h1).1, hsplit]
  exact List.perm_middle

/-- Chunks as an image may list them: non-empty, in `u64`, pairwise disjoint. -/
structure Disjoint (calls : List ChunkMapping) : Prop where
  nonempty : ∀ m ∈ calls, 0 < m.length
  stop_lt : ∀ m ∈ calls, m.stop < 2 ^ 64
  apart : calls.Pairwise fun a b => a.stop ≤ b.logical ∨ b.stop ≤ a.logical

theorem Disjoint.perm {calls calls' : List ChunkMapping} (h : Disjoint calls)
    (hp : calls.Perm calls') : Disjoint calls' where
  nonempty m hm := h.nonempty m (hp.mem_iff.mpr hm)
  stop_lt m hm := h.stop_lt m (hp.mem_iff.mpr hm)
  apart := h.apart.perm hp fun hab => hab.symm

/-- Disjoint chunks that are also clear of the map all go in. -/
theorem insertAll_perm_append {calls : List ChunkMapping} (h : Disjoint calls) (map : ChunkMap)
    (hne : ∀ x ∈ map.mappings, 0 < x.length) (hclear : ∀ m ∈ calls, map.Clear m) :
    (map.insertAll calls).mappings.Perm (calls ++ map.mappings) ∧
      ∀ before m after, calls = before ++ m :: after →
        ((map.insertAll before).insert m).1 = .ok () := by
  induction calls generalizing map with
  | nil => exact ⟨.refl _, by simp⟩
  | cons m calls ih =>
    obtain ⟨hm, hrest⟩ := List.pairwise_cons.mp h.apart
    have hdis : Disjoint calls :=
      ⟨fun x hx => h.nonempty x (by simp [hx]), fun x hx => h.stop_lt x (by simp [hx]), hrest⟩
    obtain ⟨hok, hperm⟩ := insert_of_clear (h.stop_lt m (by simp)) hne (hclear m (by simp))
    -- after the first insert the other chunks are still clear of the map
    have hne' : ∀ x ∈ (map.insert m).2.mappings, 0 < x.length := by
      intro x hx
      rcases List.mem_cons.mp (hperm.mem_iff.mp hx) with rfl | hx
      · exact h.nonempty x (by simp)
      · exact hne x hx
    have hclear' : ∀ x ∈ calls, (map.insert m).2.Clear x := by
      intro x hx y hy
      rcases List.mem_cons.mp (hperm.mem_iff.mp hy) with rfl | hy
      · exact hm x hx
      · exact hclear x (by simp [hx]) y hy
    obtain ⟨hp, hall⟩ := ih hdis (map.insert m).2 hne' hclear'
    refine ⟨?_, ?_⟩
    · calc (map.insertAll (m :: calls)).mappings.Perm (calls ++ (map.insert m).2.mappings) := hp
        _ |>.Perm (calls ++ m :: map.mappings) := hperm.append_left calls
        _ |>.Perm (m :: calls ++ map.mappings) := List.perm_middle
    · intro before x after hsplit
      cases before with
      | nil =>
        cases hsplit
        exact hok
      | cons y before =>
        cases hsplit
        exact hall before x after rfl

theorem insertAll_localDevid (map : ChunkMap) (calls : List ChunkMapping) :
    (map.insertAll calls).localDevid = map.localDevid := by
  induction calls generalizing map with
  | nil => rfl
  | cons m calls ih => exact (ih _).trans (insert_localDevid map m)

/-- The order of insertion of disjoint chunks does not matter. -/
theorem insertAll_perm {calls calls' : List ChunkMapping} (h : Disjoint calls)
    (hp : calls.Perm calls') (map : ChunkMap) (hempty : map.mappings = []) :
    map.insertAll calls' = map.insertAll calls := by
  have hne : ∀ x ∈ map.mappings, 0 < x.length := by simp [hempty]
  have hclear : ∀ m, map.Clear m := fun m x hx => by simp [hempty] at hx
  have h1 := (insertAll_perm_append h map hne fun m _ => hclear m).1
  have h2 := (insertAll_perm_append (h.perm hp) map hne fun m _ => hclear m).1
  rw [hempty, List.append_nil] at h1 h2
  have hmap : (map.insertAll calls').mappings = (map.insertAll calls).mappings := by
    refine Laid.eq_of_perm (map.insertAll calls').laid (map.insertAll calls).laid ?_
      ((h2.trans hp.symm).trans h1.symm)
    intro a ha
    have hlen := h.nonempty a ((h2.trans hp.symm).mem_iff.mp ha)
    show a.logical < a.logical + a.length
    omega
  refine ChunkMap.ext hmap ?_
  rw [insertAll_localDevid, insertAll_localDevid]

/-- A chunk map keeps its promises through any sequence of `insert` calls. -/
theorem insert_calls_spec (env : Env) (devid : Option ℕ) (calls : List ChunkMapping) :
    let map := { ChunkMap.empty with localDevid := devid }.insertAll calls
    (∀ x ∈ map.mappings, x.logical + x.length < 2 ^ 64) ∧
    map.mappings.Pairwise (fun a b => a.logical + a.length ≤ b.logical) ∧
    (∀ m e, (map.insert m).1 = .error e → (map.insert m).2 = map) ∧
    (∀ m, (map.insert m).1 = .ok () → ∃ pre post, map.mappings = pre ++ post ∧
      (map.insert m).2.mappings = pre ++ m :: post ∧ (map.insert m).2.localDevid = devid) ∧
    (∀ l r, map.resolve env l = .ok r → ∃ x ∈ map.mappings, x.Covers l) ∧
    (∀ pre x post l, map.mappings = pre ++ x :: post → x.Covers l →
      map.resolve env l = x.resolveAt env devid l ∧ ∀ y ∈ pre ++ post, ¬ y.Covers l) ∧
    (∀ l, map.resolve env l = err (.corruptBtree "chunk_unmapped" l) ↔
      ∀ x ∈ map.mappings, ¬ x.Covers l) ∧
    (∀ m l x, x ∈ map.mappings → x.Covers l →
      (map.insert m).2.resolve env l = map.resolve env l) ∧
    (Disjoint calls →
      (∀ before m after, calls = before ++ m :: after →
        (({ ChunkMap.empty with localDevid := devid }.insertAll before).insert m).1 = .ok ()) ∧
      map.mappings.Perm calls ∧
      ∀ calls', calls.Perm calls' →
        { ChunkMap.empty with localDevid := devid }.insertAll calls' = map) := by
  intro map
  have hdev : map.localDevid = devid := insertAll_localDevid _ calls
  -- the promises that are the invariant of the map are its own fields; the others cite the
  -- lemma of the operation they are about
  refine ⟨map.stop_lt, map.laid.apart, fun m e => insert_error, fun m hm => ?_, fun l r hr => ?_,
    fun pre x post l hsplit hcov => ⟨?_, ?_⟩, resolve_unmapped_iff env map,
    fun m l x hx hcov => resolve_insert_of_covers env hx hcov m, fun hdis => ⟨?_, ?_, ?_⟩⟩
  · obtain ⟨pre, post, hsplit, hnew⟩ := insert_ok hm
    exact ⟨pre, post, hsplit, hnew, (insert_localDevid map m).trans hdev⟩
  · obtain ⟨x, hx, hcov, -⟩ := resolve_eq_ok hr
    exact ⟨x, hx, hcov⟩
  · rw [← hdev]
    exact resolve_of_covers env (by simp [hsplit]) hcov
  · have hlaid := map.laid
    rw [hsplit] at hlaid
    exact hlaid.covers_unique hcov
  · exact (insertAll_perm_append hdis _ (by simp [ChunkMap.empty])
      (fun m _ x hx => by simp [ChunkMap.empty] at hx)).2
  · have hperm := (insertAll_perm_append hdis { ChunkMap.empty with localDevid := devid }
      (by simp [ChunkMap.empty]) (fun m _ x hx => by simp [ChunkMap.empty] at hx)).1
    rwa [show ({ ChunkMap.empty with localDevid := devid } : ChunkMap).mappings = [] from rfl,
      List.append_nil] at hperm
  · exact fun calls' hp => insertAll_perm hdis hp _ rfl

end ChunkMap
