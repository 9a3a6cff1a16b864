/-
The chunk map's two sources: the superblock's packed array and the chunk tree.

`parse_system_chunk_array` checks positions against the size field of the
superblock but indexes a fixed array.  `parseSystemChunkArray_fault_iff` says exactly
when it panics: when a record that the size field admits, before the first one that
is malformed or clashes, reaches past the array.

The walk over the chunk tree is a `Walk` whose state is the chunk map it reads
through; it has no way to panic (`populateFromChunkTree_good`).
-/
import Lambutter.Passes
import Mathlib.Logic.Relation

/-! ### Records -/

/-- The loop over a chunk's stripes: `n` of them from number `s` on, for a chunk item
at `p`. -/
def parseStripes (env : Env) (buf : List UInt8) (p : ℕ) : ℕ → ℕ → Outcome (List Stripe)
  | 0, _ => .ok []
  | n + 1, s => do
    let base ← env.addUsize p ChunkItem.headerSize
    let at' ← env.addUsize base (← env.mulUsize s Stripe.size)
    let stripe ← Stripe.parse buf at'
    let rest ← parseStripes env buf p n (s + 1)
    return stripe :: rest

/-- The mapping that a chunk item and its key stand for. -/
def chunkMapping (key : DiskKey) (chunk : ChunkItem) (stripes : List Stripe) : ChunkMapping where
  logical := key.offset
  length := chunk.length
  ty := chunk.ty
  stripeLen := chunk.stripeLen
  numStripes := chunk.numStripes
  subStripes := chunk.subStripes
  stripes := stripes

/-- The stripes at a chunk item's place in a long enough buffer. -/
def stripesAt (buf : List UInt8) (p n s : ℕ) : List Stripe :=
  (List.range n).map fun i => Stripe.readAt buf (p + 48 + 32 * (s + i))

theorem stripesAt_succ (buf : List UInt8) (p n s : ℕ) :
    stripesAt buf p (n + 1) s =
      Stripe.readAt buf (p + 48 + 32 * s) :: stripesAt buf p n (s + 1) := by
  rw [stripesAt, List.range_succ_eq_map, List.map_cons, List.map_map]
  refine congrArg _ (List.map_congr_left fun i _ => ?_)
  show Stripe.readAt buf (p + 48 + 32 * (s + (i + 1))) = _
  rw [show s + (i + 1) = s + 1 + i by omega]

section Stripes

variable {env : Env} {buf : List UInt8} {p : ℕ}

theorem parseStripes_step {n s : ℕ} (hfit : p + 48 + 32 * (s + n) < 2 ^ env.usizeBits) :
    parseStripes env buf p (n + 1) s = (do
      let stripe ← Stripe.parse buf (p + 48 + 32 * s)
      let rest ← parseStripes env buf p n (s + 1)
      return stripe :: rest) := by
  have hsize : Stripe.size = 32 := rfl
  have hheader : ChunkItem.headerSize = 48 := rfl
  have hmul : s * Stripe.size = 32 * s := Nat.mul_comm _ _
  rw [parseStripes, hheader, Env.addUsize_fits (by omega), Except.ok_bind,
    Env.mulUsize_fits (by omega), Except.ok_bind, hmul, Env.addUsize_fits (by omega),
    Except.ok_bind]

/-- The stripes of a chunk item that lies inside its buffer. -/
theorem parseStripes_ok {n s : ℕ} (hfit : p + 48 + 32 * (s + n) < 2 ^ env.usizeBits)
    (hin : p + 48 + 32 * (s + n) ≤ buf.length) :
    parseStripes env buf p n s = .ok (stripesAt buf p n s) := by
  induction n generalizing s with
  | zero => rfl
  | succ n ih =>
    rw [parseStripes_step (by omega), Stripe.parse_ok (by omega), Except.ok_bind,
      ih (by omega) (by omega), Except.ok_bind]
    rw [stripesAt_succ]
    rfl

/-- A stripe that is not inside its buffer is an index out of range. -/
theorem Stripe.parse_fault (h : buf.length < p + 32) : Stripe.parse buf p = fault .index := by
  unfold Stripe.parse readLeU64
  by_cases h1 : p + 8 ≤ buf.length
  · rw [readLe_ok h1, Except.ok_bind]
    by_cases h2 : p + 8 + 8 ≤ buf.length
    · rw [readLe_ok h2, Except.ok_bind]
      unfold slice
      rw [if_neg (by simp only [uuidLen]; omega)]
      rfl
    · unfold readLe
      rw [if_neg h2]
      rfl
  · unfold readLe
    rw [if_neg h1]
    rfl

/-- The stripes of a chunk item that reaches past its buffer. -/
theorem parseStripes_fault {n s : ℕ} (hfit : p + 48 + 32 * (s + n) < 2 ^ env.usizeBits)
    (hn : 0 < n) (hpast : buf.length < p + 48 + 32 * (s + n)) :
    parseStripes env buf p n s = fault .index := by
  induction n generalizing s with
  | zero => omega
  | succ n ih =>
    rw [parseStripes_step (by omega)]
    by_cases hin : p + 48 + 32 * s + 32 ≤ buf.length
    · rw [Stripe.parse_ok hin, Except.ok_bind, ih (by omega) (by omega) (by omega)]
      rfl
    · rw [Stripe.parse_fault (by omega)]
      rfl

end Stripes

/-! ### The system chunk array -/

/-- The loop of `parse_system_chunk_array`; every record takes a byte at least. -/
def parseSystemChunkArray.loop (env : Env) (array : List UInt8) (used : ℕ) :
    ℕ → ℕ → ChunkMap → Outcome ChunkMap
  | 0, _, _ => fault .fuel
  | n + 1, p, map =>
    if p < used then do
      let keyEnd ← env.addUsize p DiskKey.size
      if used < keyEnd then err (.corruptBtree "sys_chunk_short_key" 0)
      else
        let key ← DiskKey.parse array p
        let p ← env.addUsize p DiskKey.size
        if key.itemType ≠ chunkItemKey then
          err (.corruptBtree "sys_chunk_unexpected_key_type" key.offset)
        else
          let parsed ← ChunkItem.parse env array p
          let chunk ← okOr parsed (.corruptBtree "sys_chunk_short_chunk" key.offset)
          let total := ChunkItem.totalSize chunk.numStripes
          let recordEnd ← env.addUsize p total
          if used < recordEnd then err (.corruptBtree "sys_chunk_short_stripes" key.offset)
          else
            let stripes ← parseStripes env array p chunk.numStripes 0
            (map.insert (chunkMapping key chunk stripes)).1
            let p ← env.addUsize p total
            loop env array used n p (map.insert (chunkMapping key chunk stripes)).2
    else .ok map

/-- Parse a packed system chunk array, of which the first `used` bytes count. -/
def parseSystemChunkArray (env : Env) (map : ChunkMap) (array : List UInt8) (used : ℕ) :
    Outcome ChunkMap :=
  parseSystemChunkArray.loop env array used (used + 1) 0 map

/-- Where the record at `p` ends. -/
def recordEnd (array : List UInt8) (p : ℕ) : ℕ := p + 65 + 32 * leAt array (p + 61) 2

/-- The mapping in the record at `p` of a long enough array. -/
def recordAt (array : List UInt8) (p : ℕ) : ChunkMapping :=
  chunkMapping (DiskKey.readAt array p) (ChunkItem.readAt array (p + 17))
    (stripesAt array (p + 17) (leAt array (p + 61) 2) 0)

/-- The record at `p` goes into the map, and the next one starts where it ends. -/
inductive PacksNext (array : List UInt8) (used : ℕ) : ℕ × ChunkMap → ℕ × ChunkMap → Prop
  | next {p : ℕ} {map : ChunkMap} (hkey : (DiskKey.readAt array p).itemType = chunkItemKey)
      (hused : recordEnd array p ≤ used) (hinside : recordEnd array p ≤ array.length)
      (hinsert : (map.insert (recordAt array p)).1 = .ok ()) :
      PacksNext array used (p, map) (recordEnd array p, (map.insert (recordAt array p)).2)

/-- The size field admits a record at `p` that the array does not hold: the key of
one, or all that its `num_stripes` announces. -/
def Overruns (array : List UInt8) (used p : ℕ) : Prop :=
  p + 17 ≤ used ∧ (array.length < p + 17 ∨
    (DiskKey.readAt array p).itemType = chunkItemKey ∧ p + 65 ≤ array.length ∧
      recordEnd array p ≤ used ∧ array.length < recordEnd array p)

section SystemChunkArray

variable {env : Env} {array : List UInt8} {used : ℕ}

theorem DiskKey.parse_fault {buf : List UInt8} {p : ℕ} (h : buf.length < p + 17) :
    DiskKey.parse buf p = fault .index := by
  unfold DiskKey.parse readLeU64 readLeU8
  by_cases h1 : p + 8 ≤ buf.length
  · rw [readLe_ok h1, Except.ok_bind]
    by_cases h2 : p + 8 + 1 ≤ buf.length
    · rw [readLe_ok h2, Except.ok_bind]
      unfold readLe
      rw [if_neg (by omega)]
      rfl
    · unfold readLe
      rw [if_neg h2]
      rfl
  · unfold readLe
    rw [if_neg h1]
    rfl

/-- One record: a typed error, an overrun, or a step.  A record takes less than `2 ^ 22`
bytes. -/
theorem loop_record (hfit : used + 2 ^ 22 < 2 ^ env.usizeBits) {n p : ℕ} (hp : p < used)
    (map : ChunkMap) :
    (∃ e, parseSystemChunkArray.loop env array used (n + 1) p map = err e ∧
      ¬ Overruns array used p ∧ ∀ s, ¬ PacksNext array used (p, map) s) ∨
    (parseSystemChunkArray.loop env array used (n + 1) p map = fault .index ∧
      Overruns array used p) ∨
    (PacksNext array used (p, map) (recordEnd array p, (map.insert (recordAt array p)).2) ∧
      ¬ Overruns array used p ∧
      parseSystemChunkArray.loop env array used (n + 1) p map =
        parseSystemChunkArray.loop env array used n (recordEnd array p)
          (map.insert (recordAt array p)).2) := by
  have hsize : DiskKey.size = 17 := rfl
  have hend : recordEnd array p = p + 65 + 32 * leAt array (p + 61) 2 := rfl
  have hstripes : leAt array (p + 61) 2 < 256 ^ 2 := leAt_lt array (p + 61) 2
  -- a step needs all of the record
  have hno : ∀ s, PacksNext array used (p, map) s →
      (DiskKey.readAt array p).itemType = chunkItemKey ∧ recordEnd array p ≤ used ∧
        recordEnd array p ≤ array.length ∧ (map.insert (recordAt array p)).1 = .ok () := by
    rintro s ⟨hkey, hu, hi, hins⟩
    exact ⟨hkey, hu, hi, hins⟩
  rw [parseSystemChunkArray.loop, if_pos hp, hsize, Env.addUsize_fits (by omega), Except.ok_bind]
  by_cases hshort : used < p + 17
  · rw [if_pos hshort]
    refine .inl ⟨_, rfl, fun h => ?_, fun s hs => ?_⟩
    · have := h.1
      omega
    · have := (hno s hs).2.1
      omega
  rw [if_neg hshort]
  by_cases hkeyIn : array.length < p + 17
  · rw [DiskKey.parse_fault hkeyIn]
    exact .inr (.inl ⟨rfl, not_lt.mp hshort, .inl hkeyIn⟩)
  rw [DiskKey.parse_ok (by omega), Except.ok_bind]
  by_cases hkey : (DiskKey.readAt array p).itemType ≠ chunkItemKey
  · rw [Except.ok_bind, if_pos hkey]
    refine .inl ⟨_, rfl, ?_, fun s hs => hkey (hno s hs).1⟩
    rintro ⟨-, h | ⟨h, -⟩⟩
    · exact hkeyIn h
    · exact hkey h
  rw [Except.ok_bind, if_neg hkey, ChunkItem.parse_eq (by omega), Except.ok_bind]
  have hkey := not_not.mp hkey
  by_cases hchunk : array.length < p + 17 + 48
  · rw [if_pos hchunk]
    refine .inl ⟨_, rfl, ?_, fun s hs => ?_⟩
    · rintro ⟨-, h | ⟨-, h, -⟩⟩ <;> omega
    · have := (hno s hs).2.2.1
      omega
  rw [if_neg hchunk, okOr_some, Except.ok_bind]
  have hnum : (ChunkItem.readAt array (p + 17)).numStripes = leAt array (p + 61) 2 := rfl
  have htotal : p + 17 + ChunkItem.totalSize (ChunkItem.readAt array (p + 17)).numStripes =
      recordEnd array p := by
    unfold ChunkItem.totalSize
    simp only [hnum, ChunkItem.headerSize, Stripe.size, uuidLen]
    omega
  dsimp only
  rw [Env.addUsize_fits (by omega), Except.ok_bind, htotal]
  by_cases hlong : used < recordEnd array p
  · rw [if_pos hlong]
    refine .inl ⟨_, rfl, ?_, fun s hs => ?_⟩
    · rintro ⟨-, h | ⟨-, -, h, -⟩⟩ <;> omega
    · have := (hno s hs).2.1
      omega
  rw [if_neg hlong]
  by_cases hpast : array.length < recordEnd array p
  · rw [parseStripes_fault (by omega) (by omega) (by omega)]
    exact .inr (.inl ⟨rfl, not_lt.mp hshort, .inr ⟨hkey, by omega, not_lt.mp hlong, hpast⟩⟩)
  have hnot : ¬ Overruns array used p := by
    rintro ⟨-, h | ⟨-, -, -, h⟩⟩ <;> omega
  rw [parseStripes_ok (by omega) (by omega), Except.ok_bind]
  have hrecord : chunkMapping (DiskKey.readAt array p) (ChunkItem.readAt array (p + 17))
      (stripesAt array (p + 17) (ChunkItem.readAt array (p + 17)).numStripes 0) =
        recordAt array p := rfl
  rw [hrecord]
  cases hins : (map.insert (recordAt array p)).1 with
  | ok u =>
    rw [Except.ok_bind, Except.ok_bind]
    exact .inr (.inr ⟨.next hkey (not_lt.mp hlong) (not_lt.mp hpast) hins, hnot, rfl⟩)
  | error x =>
    cases x with
    | err e =>
      refine .inl ⟨e, rfl, hnot, fun s hs => ?_⟩
      have := (hno s hs).2.2.2
      rw [hins] at this
      cases this
    | fault f => exact absurd hins (ChunkMap.insert_safe map _ f)

/-- From a record on: when the loop panics. -/
theorem loop_fault_iff (hfit : used + 2 ^ 22 < 2 ^ env.usizeBits) {n p : ℕ} (hp : p ≤ used)
    (hn : used < p + n) (map : ChunkMap) (f : Fault) :
    parseSystemChunkArray.loop env array used n p map = fault f ↔ f = .index ∧
      ∃ s, Relation.ReflTransGen (PacksNext array used) (p, map) s ∧ Overruns array used s.1 := by
  induction n generalizing p map with
  | zero => omega
  | succ n ih =>
    -- a way on from here starts with a step
    have hreach : ∀ {s}, Relation.ReflTransGen (PacksNext array used) (p, map) s →
        (p, map) = s ∨ ∃ t, PacksNext array used (p, map) t ∧
          Relation.ReflTransGen (PacksNext array used) t s :=
      Relation.ReflTransGen.cases_head
    by_cases hlt : p < used
    swap
    · rw [parseSystemChunkArray.loop, if_neg hlt]
      refine ⟨fun h => absurd h.symm fault_ne_ok, ?_⟩
      rintro ⟨-, s, hs, hover⟩
      rcases hreach hs with rfl | ⟨t, ⟨-, hu, -, -⟩, -⟩
      · have := hover.1
        omega
      · have hend : recordEnd array p = p + 65 + 32 * leAt array (p + 61) 2 := rfl
        omega
    rcases @loop_record env array _ hfit n _ hlt map with
      ⟨e, hloop, hnot, hno⟩ | ⟨hloop, hover⟩ | ⟨hstep, hnot, hloop⟩
    · rw [hloop]
      refine ⟨fun h => absurd (Except.error.inj h) Stop.noConfusion, ?_⟩
      rintro ⟨-, s, hs, hover⟩
      rcases hreach hs with rfl | ⟨t, ht, -⟩
      · exact absurd hover hnot
      · exact absurd ht (hno t)
    · rw [hloop]
      constructor
      · intro h
        cases h
        exact ⟨rfl, (p, map), .refl, hover⟩
      · rintro ⟨rfl, -⟩
        rfl
    · have hend : recordEnd array p = p + 65 + 32 * leAt array (p + 61) 2 := rfl
      have hle : recordEnd array p ≤ used := by
        cases hstep
        assumption
      rw [hloop, ih hle (by omega)]
      refine and_congr_right fun _ => ⟨fun ⟨s, hs, hover⟩ => ⟨s, .head hstep hs, hover⟩, ?_⟩
      rintro ⟨s, hs, hover⟩
      rcases hreach hs with rfl | ⟨t, ht, hrest⟩
      · exact absurd hover hnot
      · cases ht
        exact ⟨s, hrest, hover⟩

/-- When `parse_system_chunk_array` panics. -/
theorem parseSystemChunkArray_fault_iff (h64 : env.usizeBits = 64) (hused : used < 2 ^ 32)
    (map : ChunkMap) (f : Fault) :
    parseSystemChunkArray env map array used = fault f ↔ f = .index ∧
      ∃ s, Relation.ReflTransGen (PacksNext array used) (0, map) s ∧ Overruns array used s.1 :=
  loop_fault_iff (by rw [h64]; omega) (Nat.zero_le used) (by omega) map f

end SystemChunkArray

/-- A size field within the array overruns nothing. -/
theorem not_overruns {array : List UInt8} {used p : ℕ} (h : used ≤ array.length) :
    ¬ Overruns array used p := by
  rintro ⟨hkey, hlt | ⟨-, -, hle, hlt⟩⟩ <;> omega

/-! ### The chunk tree -/

/-- What one item of the chunk tree does to the map. -/
def harvest (env : Env) (leaf : TreeBlock) (item : LeafItem) (map : ChunkMap) :
    Outcome ChunkMap :=
  if item.key.itemType = chunkItemKey then do
    let data ← leaf.leafItemData env item
    let parsed ← ChunkItem.parse env data 0
    let chunk ← okOr parsed (.corruptBtree "chunk_item_short" leaf.header.bytenr)
    let total := ChunkItem.totalSize chunk.numStripes
    if data.length < total then
      err (.corruptBtree "chunk_item_truncated" leaf.header.bytenr)
    else
      let stripes ← parseStripes env data 0 chunk.numStripes 0
      -- a chunk already known from the system array is not inserted again
      if map.contains item.key.offset then return map
      else
        (map.insert (chunkMapping item.key chunk stripes)).1
        return (map.insert (chunkMapping item.key chunk stripes)).2
  else return map

/-- The walk over the chunk tree; it reads through the map that it fills. -/
def populateFromChunkTree.walk (env : Env) (nodesize chunkRoot : ℕ) : Walk ChunkMap where
  nodesize := nodesize
  root := chunkRoot
  chunkMap map := map
  proceed _ := true
  item leaf item map := do
    let map ← harvest env leaf item map
    return .more map item.key.next

/-- The sought-after first key of the chunk tree. -/
def chunksFrom : DiskKey := ⟨chunkTreeObjectid, chunkItemKey, 0⟩

def populateFromChunkTree (env : Env) (map : ChunkMap) (nodesize chunkRoot : ℕ) :
    ReadM ChunkMap :=
  (populateFromChunkTree.walk env nodesize chunkRoot).run env Walk.fuel chunksFrom map

section Populate

variable {env : Env} (h64 : env.usizeBits = 64)

include h64

/-- Taking one item of the chunk tree in does not panic. -/
theorem harvest_safe {leaf : TreeBlock} {item : LeafItem} (hitem : item ∈ leaf.items)
    (map : ChunkMap) : Outcome.Safe (harvest env leaf item map) := by
  unfold harvest
  by_cases hty : item.key.itemType = chunkItemKey
  swap
  · rw [if_neg hty]
    exact Outcome.safe_ok _
  rw [if_pos hty]
  refine (TreeBlock.leafItemData_safe h64 hitem).bind fun data _ => ?_
  rw [ChunkItem.parse_eq (by rw [h64]; omega), Except.ok_bind]
  refine (Outcome.safe_okOr _ _).bind fun chunk hchunk => ?_
  dsimp only
  by_cases htrunc : data.length < ChunkItem.totalSize chunk.numStripes
  · rw [if_pos htrunc]
    exact Outcome.safe_err _
  have hchunk := okOr_eq_ok.mp hchunk
  split_ifs at hchunk
  cases hchunk
  have hnum : (ChunkItem.readAt data 0).numStripes < 256 ^ 2 := leAt_lt data 44 2
  unfold ChunkItem.totalSize at htrunc ⊢
  simp only [ChunkItem.headerSize, Stripe.size, uuidLen] at htrunc
  rw [if_neg htrunc, parseStripes_ok (by rw [h64]; omega) (by omega), Except.ok_bind]
  by_cases hknown : map.contains item.key.offset = true
  · rw [if_pos hknown]
    exact Outcome.safe_ok _
  · rw [if_neg hknown]
    exact (ChunkMap.insert_safe map _).bind fun _ _ => Outcome.safe_ok _

/-- The walk over the chunk tree stops for typed errors only. -/
theorem populateFromChunkTree_good (nodesize chunkRoot : ℕ) :
    (populateFromChunkTree.walk env nodesize chunkRoot).Good Stop.Typed (fun _ => True)
      (fun _ => True) where
  quiet _ _ _ _ _ := Prog.Notes.bind (Prog.notes_lift _) fun _ => Prog.notes_pure _
  step _ _ map _ _ hitem _ :=
    Prog.Ensures.bind (ensures_lift (harvest_safe h64 hitem map) fun _ _ => trivial)
      fun _ (_ : True) => Prog.Ensures.pure ⟨trivial, fun t ht => next_past hitem t ht⟩
  done _ _ := trivial
  typed _ h := h

end Populate
