/-
The system chunk array, packed and parsed back.

A `ChunkRecord` has the fields of one record at their on-disk widths, so that every
value of the type can be packed.  `parseSystemChunkArray` takes a packed list apart
record by record (`loop_whole`), and the chunk map ends up with the same chunks,
sorted; an array that is cut off inside a record is an error (`loop_cut`).
-/
import Lambutter.ChunkTree
import Lambutter.Reference
import Mathlib.Data.List.Sort

/-! ### Records -/

structure StripeRecord where
  devid : UInt64
  offset : UInt64
  devUuid : Vector UInt8 16

structure ChunkRecord where
  objectid : UInt64
  logical : UInt64
  length : UInt64
  owner : UInt64
  stripeLen : UInt64
  ty : UInt64
  ioAlign : UInt32
  ioWidth : UInt32
  sectorSize : UInt32
  subStripes : UInt16
  stripes : List StripeRecord
  /-- Their number is stored in 16 bits. -/
  stripes_lt : stripes.length < 2 ^ 16

namespace StripeRecord

def stripe (s : StripeRecord) : Stripe := ⟨s.devid.toNat, s.offset.toNat, s.devUuid.toList⟩

def fields (s : StripeRecord) : List (ℕ × ℕ) := [(8, s.devid.toNat), (8, s.offset.toNat)]

def pack (s : StripeRecord) : List UInt8 := fieldBytes s.fields ++ s.devUuid.toList

theorem length_fields (s : StripeRecord) : (fieldBytes s.fields).length = 16 :=
  length_fieldBytes s.fields

theorem length_pack (s : StripeRecord) : s.pack.length = 32 := by
  rw [pack, List.length_append, length_fields, Vector.length_toList]

theorem fields_fit (s : StripeRecord) : ∀ f ∈ s.fields, f.2 < 256 ^ f.1 := by
  simp only [fields, List.forall_mem_cons, List.not_mem_nil, false_implies, implies_true, and_true]
  exact ⟨s.devid.toNat_lt, s.offset.toNat_lt⟩

theorem readAt_pack (s : StripeRecord) (rest : List UInt8) :
    Stripe.readAt (s.pack ++ rest) 0 = s.stripe := by
  have hdevid := leAt_fieldBytes s.fields_fit (s.devUuid.toList ++ rest) 0 (Nat.zero_lt_two)
  have hoffset := leAt_fieldBytes s.fields_fit (s.devUuid.toList ++ rest) 1 (Nat.one_lt_two)
  have huuid : ((fieldBytes s.fields ++ (s.devUuid.toList ++ rest)).drop 16).take 16 =
      s.devUuid.toList := by
    rw [List.drop_left' s.length_fields, List.take_left' s.devUuid.length_toList]
  unfold Stripe.readAt stripe pack
  rw [List.append_assoc]
  exact (Stripe.mk.injEq ..).mpr ⟨hdevid, hoffset, huuid⟩

end StripeRecord

namespace ChunkRecord

def mapping (r : ChunkRecord) : ChunkMapping where
  logical := r.logical.toNat
  length := r.length.toNat
  ty := r.ty.toNat
  stripeLen := r.stripeLen.toNat
  numStripes := r.stripes.length
  subStripes := r.subStripes.toNat
  stripes := r.stripes.map StripeRecord.stripe

/-- The key, of 17 bytes, and the chunk header, of 48. -/
def fields (r : ChunkRecord) : List (ℕ × ℕ) :=
  [(8, r.objectid.toNat), (1, chunkItemKey), (8, r.logical.toNat), (8, r.length.toNat),
   (8, r.owner.toNat), (8, r.stripeLen.toNat), (8, r.ty.toNat), (4, r.ioAlign.toNat),
   (4, r.ioWidth.toNat), (4, r.sectorSize.toNat), (2, r.stripes.length),
   (2, r.subStripes.toNat)]

/-- Key, header and stripes, back to back. -/
def pack (r : ChunkRecord) : List UInt8 :=
  fieldBytes r.fields ++ r.stripes.flatMap StripeRecord.pack

theorem length_stripes (stripes : List StripeRecord) :
    (stripes.flatMap StripeRecord.pack).length = 32 * stripes.length := by
  induction stripes with
  | nil => rfl
  | cons s stripes ih =>
    rw [List.flatMap_cons, List.length_append, StripeRecord.length_pack, ih, List.length_cons]
    omega

theorem length_fields (r : ChunkRecord) : (fieldBytes r.fields).length = 65 :=
  length_fieldBytes r.fields

theorem length_pack (r : ChunkRecord) : r.pack.length = 65 + 32 * r.stripes.length := by
  rw [pack, List.length_append, length_stripes, length_fields]

theorem fields_fit (r : ChunkRecord) : ∀ f ∈ r.fields, f.2 < 256 ^ f.1 := by
  simp only [fields, List.forall_mem_cons, List.not_mem_nil, false_implies, implies_true, and_true]
  exact ⟨r.objectid.toNat_lt, by decide, r.logical.toNat_lt, r.length.toNat_lt, r.owner.toNat_lt,
    r.stripeLen.toNat_lt, r.ty.toNat_lt, r.ioAlign.toNat_lt, r.ioWidth.toNat_lt,
    r.sectorSize.toNat_lt, r.stripes_lt, r.subStripes.toNat_lt⟩

end ChunkRecord

/-- Records packed back to back. -/
def packArray (records : List ChunkRecord) : List UInt8 := records.flatMap ChunkRecord.pack

/-! ### Reading a record back -/

theorem Stripe.readAt_drop (buf : List UInt8) (p : ℕ) :
    Stripe.readAt buf p = Stripe.readAt (buf.drop p) 0 := by
  unfold Stripe.readAt
  rw [List.drop_drop, ← leAt_drop, ← leAt_drop]
  rfl

/-- The stripes behind a header. -/
theorem stripesAt_pack {stripes : List StripeRecord} {buf rest : List UInt8} {p s : ℕ}
    (h : buf.drop (p + 48 + 32 * s) = stripes.flatMap StripeRecord.pack ++ rest) :
    stripesAt buf p stripes.length s = stripes.map StripeRecord.stripe := by
  induction stripes generalizing s with
  | nil => rfl
  | cons stripe stripes ih =>
    rw [List.flatMap_cons, List.append_assoc] at h
    have hnext : buf.drop (p + 48 + 32 * (s + 1)) = stripes.flatMap StripeRecord.pack ++ rest := by
      rw [show p + 48 + 32 * (s + 1) = p + 48 + 32 * s + 32 by omega, ← List.drop_drop, h,
        List.drop_left' stripe.length_pack]
    rw [List.length_cons, stripesAt_succ, Stripe.readAt_drop, h, StripeRecord.readAt_pack,
      ih hnext, List.map_cons]

/-- A field of a record that starts at `p`. -/
theorem leAt_pack {r : ChunkRecord} {array rest : List UInt8} {p : ℕ}
    (h : array.drop p = fieldBytes r.fields ++ rest) (i : Fin 12) :
    leAt array (p + ((r.fields.take i).map Prod.fst).sum) (r.fields.get i).1 =
      (r.fields.get i).2 := by
  rw [leAt_drop, h]
  exact leAt_fieldBytes r.fields_fit rest i i.2

/-- Where a record whose header is there ends, and the type in its key. -/
theorem recordEnd_pack {r : ChunkRecord} {array rest : List UInt8} {p : ℕ}
    (h : array.drop p = fieldBytes r.fields ++ rest) :
    recordEnd array p = p + r.pack.length ∧ (DiskKey.readAt array p).itemType = chunkItemKey := by
  have hcount : leAt array (p + 61) 2 = r.stripes.length := leAt_pack h 10
  refine ⟨?_, leAt_pack h 1⟩
  rw [recordEnd, hcount, r.length_pack]
  omega

/-- A record that starts at `p` is read back as it was packed. -/
theorem recordAt_pack {r : ChunkRecord} {array rest : List UInt8} {p : ℕ}
    (h : array.drop p = r.pack ++ rest) : recordAt array p = r.mapping := by
  rw [ChunkRecord.pack, List.append_assoc] at h
  have hcount : leAt array (p + 61) 2 = r.stripes.length := leAt_pack h 10
  have hstripes : stripesAt array (p + 17) r.stripes.length 0 =
      r.stripes.map StripeRecord.stripe := by
    refine @stripesAt_pack _ _ rest _ _ ?_
    rw [show p + 17 + 48 + 32 * 0 = p + 65 by omega, ← List.drop_drop, h,
      List.drop_left' r.length_fields]
  have hlogical : leAt array (p + 9) 8 = r.logical.toNat := leAt_pack h 2
  have hlength : leAt array (p + 17) 8 = r.length.toNat := leAt_pack h 3
  have hstripeLen : leAt array (p + 33) 8 = r.stripeLen.toNat := leAt_pack h 5
  have hty : leAt array (p + 41) 8 = r.ty.toNat := leAt_pack h 6
  have hsub : leAt array (p + 63) 2 = r.subStripes.toNat := leAt_pack h 11
  unfold recordAt chunkMapping DiskKey.readAt ChunkItem.readAt ChunkRecord.mapping
  simp only [Nat.add_assoc, Nat.reduceAdd]
  rw [hcount, hstripes, hlogical, hlength, hstripeLen, hty, hsub]

/-! ### The loop over a packed list -/

section Loop

variable {env : Env} {array : List UInt8} {used : ℕ}

/-- A record that is there whole goes into the map, or the loop stops with an error. -/
theorem loop_whole (hfit : used + 2 ^ 22 < 2 ^ env.usizeBits) (hin : used ≤ array.length)
    {r : ChunkRecord} {rest : List UInt8} {p : ℕ} (h : array.drop p = r.pack ++ rest)
    (hend : p + r.pack.length ≤ used) (n : ℕ) (map : ChunkMap) :
    ((map.insert r.mapping).1 = .ok () ∧
      parseSystemChunkArray.loop env array used (n + 1) p map =
        parseSystemChunkArray.loop env array used n (p + r.pack.length)
          (map.insert r.mapping).2) ∨
    ((map.insert r.mapping).1 ≠ .ok () ∧
      ∃ e, parseSystemChunkArray.loop env array used (n + 1) p map = err e) := by
  have hfront : array.drop p =
      fieldBytes r.fields ++ (r.stripes.flatMap StripeRecord.pack ++ rest) := by
    rw [h, ChunkRecord.pack, List.append_assoc]
  obtain ⟨hstop, hkey⟩ := recordEnd_pack hfront
  have hrecord := recordAt_pack h
  have hlen := r.length_pack
  rcases @loop_record env array used hfit n p (by omega) map with
    ⟨e, hloop, -, hno⟩ | ⟨-, hover⟩ | ⟨hstep, -, hloop⟩
  · refine .inr ⟨fun hok => ?_, e, hloop⟩
    exact hno _ (.next hkey (by omega) (by omega) (by rw [hrecord]; exact hok))
  · exact absurd hover (not_overruns hin)
  · rw [hstop, hrecord] at hloop
    refine .inl ⟨?_, hloop⟩
    cases hstep with
    | next _ _ _ hinsert => rwa [hrecord] at hinsert

/-- A packed list up to the end of what counts: its records are inserted in turn. -/
theorem loop_packed (hfit : used + 2 ^ 22 < 2 ^ env.usizeBits) (hin : used ≤ array.length)
    {records : List ChunkRecord} {rest : List UInt8} {p : ℕ}
    (h : array.drop p = packArray records ++ rest) (hend : p + (packArray records).length = used)
    {n : ℕ} (hn : used < p + n) {map : ChunkMap}
    (hok : ∀ before m after, records.map ChunkRecord.mapping = before ++ m :: after →
      ((map.insertAll before).insert m).1 = .ok ()) :
    parseSystemChunkArray.loop env array used n p map =
      .ok (map.insertAll (records.map ChunkRecord.mapping)) := by
  -- on the records left, with the cursor at the first of them
  induction records generalizing p n map with
  | nil =>
    have hp : p = used := hend
    cases n with
    | zero => omega
    | succ n =>
      rw [parseSystemChunkArray.loop, if_neg (by omega)]
      rfl
  | cons r records ih =>
    rw [packArray, List.flatMap_cons, List.append_assoc] at h
    rw [packArray, List.flatMap_cons, List.length_append] at hend
    have hlen := r.length_pack
    cases n with
    | zero => omega
    | succ n =>
      have hfirst : (map.insert r.mapping).1 = .ok () := hok [] r.mapping _ rfl
      rcases loop_whole hfit hin h (by omega) n map with ⟨-, hloop⟩ | ⟨hno, -⟩
      swap
      · exact absurd hfirst hno
      rw [hloop]
      refine ih ?_ ?_ (by omega) fun before m after hsplit => ?_
      · rw [← List.drop_drop, h, List.drop_left' rfl]
        rfl
      · rw [← hend, packArray]
        omega
      · exact hok (r.mapping :: before) m after (congrArg (r.mapping :: ·) hsplit)

/-- A packed list cut off inside a record is an error. -/
theorem loop_cut (hfit : used + 2 ^ 22 < 2 ^ env.usizeBits) (hin : used ≤ array.length)
    {records : List ChunkRecord} {r : ChunkRecord} {rest : List UInt8} {p k : ℕ}
    (h : array.drop p = packArray records ++ (r.pack.take k ++ rest))
    (hend : p + (packArray records).length + k = used) (hpos : 0 < k) (hk : k < r.pack.length)
    {n : ℕ} (hn : used < p + n) (map : ChunkMap) :
    ∃ e, parseSystemChunkArray.loop env array used n p map = err e := by
  induction records generalizing p n map with
  | nil =>
    have hused : p + k = used := hend
    cases n with
    | zero => omega
    | succ n =>
      rcases @loop_record env array used hfit n p (by omega) map with
        ⟨e, hloop, -⟩ | ⟨-, hover⟩ | ⟨hstep, -, -⟩
      · exact ⟨e, hloop⟩
      · exact absurd hover (not_overruns hin)
      exfalso
      have hle : recordEnd array p ≤ used := by
        cases hstep
        assumption
      -- either the header is cut, or it says that the stripes go on
      by_cases hheader : k < 65
      · have hmin : p + 65 ≤ recordEnd array p := Nat.le_add_right _ _
        omega
      · have hfront : r.pack.take k = fieldBytes r.fields ++
            (r.stripes.flatMap StripeRecord.pack).take (k - 65) := by
          rw [ChunkRecord.pack, List.take_append, r.length_fields,
            List.take_of_length_le (by rw [r.length_fields]; omega)]
        have hdrop : array.drop p = r.pack.take k ++ rest := h
        rw [hfront, List.append_assoc] at hdrop
        have hstop := (recordEnd_pack hdrop).1
        omega
  | cons first records ih =>
    rw [packArray, List.flatMap_cons, List.append_assoc] at h
    rw [packArray, List.flatMap_cons, List.length_append] at hend
    have hlen := first.length_pack
    cases n with
    | zero => omega
    | succ n =>
      rcases loop_whole hfit hin h (by omega) n map with ⟨-, hloop⟩ | ⟨-, herr⟩
      · rw [hloop]
        refine ih ?_ ?_ (by omega) _
        · rw [← List.drop_drop, h, List.drop_left' rfl]
          rfl
        · rw [← hend, packArray]
          omega
      · exact herr

end Loop

/-- A cut that is at no end of a record is inside one. -/
theorem exists_cut {records : List ChunkRecord} {used : ℕ}
    (hle : used ≤ (packArray records).length)
    (hno : ∀ k, used ≠ (packArray (records.take k)).length) :
    ∃ done r after k, records = done ++ r :: after ∧ used = (packArray done).length + k ∧
      0 < k ∧ k < r.pack.length := by
  induction records generalizing used with
  | nil => exact absurd (Nat.le_zero.mp hle) (hno 0)
  | cons r records ih =>
    rw [packArray, List.flatMap_cons, List.length_append] at hle
    have hzero : used ≠ 0 := hno 0
    by_cases hin : used < r.pack.length
    · exact ⟨[], r, records, used, rfl, (Nat.zero_add used).symm, Nat.pos_of_ne_zero hzero, hin⟩
    · have hrest : used - r.pack.length ≤ (packArray records).length := by
        rw [packArray]
        omega
      obtain ⟨done, r', after, k, rfl, hused, hpos, hk⟩ := ih hrest fun k hk => by
        refine hno (k + 1) ?_
        rw [List.take_succ_cons, packArray, List.flatMap_cons, List.length_append]
        rw [packArray] at hk
        omega
      refine ⟨r :: done, r', after, k, rfl, ?_, hpos, hk⟩
      rw [packArray, List.flatMap_cons, List.length_append]
      rw [packArray] at hused
      omega

/-- Parsing a system chunk array undoes packing it: the chunks of a packed list are in
the map, sorted; a list cut off anywhere but at the end of a record is an error. -/
theorem parse_packed_array {env : Env} (husize : 32 ≤ env.usizeBits) {map : ChunkMap}
    (hempty : map.mappings = []) {array : List UInt8} (harray : array.length = 2048)
    (records : List ChunkRecord) :
    (ChunkMap.Disjoint (records.map ChunkRecord.mapping) →
      ∀ rest, array = packArray records ++ rest →
        ∃ map', parseSystemChunkArray env map array (packArray records).length = .ok map' ∧
          map'.mappings.Perm (records.map ChunkRecord.mapping) ∧
          map'.mappings.Pairwise (fun a b => a.logical < b.logical) ∧
          map'.localDevid = map.localDevid) ∧
    ∀ used rest, used ≤ (packArray records).length →
      array = (packArray records).take used ++ rest →
      (∀ k, used ≠ (packArray (records.take k)).length) →
      ∃ e, parseSystemChunkArray env map array used = err e := by
  have hwidth : 2 ^ 32 ≤ 2 ^ env.usizeBits := Nat.pow_le_pow_right (by omega) husize
  refine ⟨fun hdis rest hsplit => ?_, fun used rest hused hsplit hno => ?_⟩
  -- whole records: the loop inserts them one by one, and disjoint ones are all taken
  · have hlen : (packArray records).length ≤ 2048 := by
      rw [← harray, hsplit, List.length_append]
      omega
    obtain ⟨hperm, hok⟩ := ChunkMap.insertAll_perm_append hdis map (by simp [hempty])
      fun m _ x hx => by simp [hempty] at hx
    rw [hempty, List.append_nil] at hperm
    refine ⟨map.insertAll (records.map ChunkRecord.mapping), ?_, hperm, ?_,
      map.insertAll_localDevid _⟩
    · exact @loop_packed env array _ (by omega) (by omega) records rest 0 hsplit
        (Nat.zero_add _) _ (by omega) map hok
    · refine (map.insertAll _).laid.apart.imp_of_mem fun {a b} ha _ hab => ?_
      have hne : 0 < a.length := hdis.nonempty a (hperm.mem_iff.mp ha)
      have hstop : a.stop = a.logical + a.length := rfl
      omega
  -- a cut inside a record: the records before it are read, and that one is too short
  · have hlen : used ≤ 2048 := by
      rw [← harray, hsplit, List.length_append, List.length_take]
      omega
    obtain ⟨done, r, after, k, rfl, hcut, hpos, hk⟩ := exists_cut hused hno
    refine @loop_cut env array used (by omega) (by omega) done r rest 0 k ?_ (by omega) hpos hk _
      (by omega) map
    have htake : (packArray (done ++ r :: after)).take used = packArray done ++ r.pack.take k := by
      rw [packArray, List.flatMap_append, List.flatMap_cons, List.take_append, ← packArray, hcut,
        List.take_of_length_le (by omega), Nat.add_sub_cancel_left,
        List.take_append_of_le_length (by omega)]
    rw [List.drop_zero, hsplit, htake, List.append_assoc]

/-- Two chunks, the later one first. -/
def sampleRecords : List ChunkRecord :=
  [{ objectid := 256, logical := 0x2000000, length := 0x800000, owner := 2, stripeLen := 0x10000,
     ty := 0x22, ioAlign := 4096, ioWidth := 4096, sectorSize := 4096, subStripes := 1,
     stripes := [⟨1, 0x2500000, Vector.replicate 16 7⟩, ⟨1, 0x2d00000, Vector.replicate 16 7⟩],
     stripes_lt := by decide },
   { objectid := 256, logical := 0x1500000, length := 0x800000, owner := 2, stripeLen := 0x10000,
     ty := 2, ioAlign := 4096, ioWidth := 4096, sectorSize := 4096, subStripes := 0,
     stripes := [⟨1, 0x1500000, Vector.replicate 16 7⟩], stripes_lt := by decide }]

/-- Both chunks are found, and the second record cut off after its first byte is an error. -/
theorem parse_packed_sample :
    (∃ map, parseSystemChunkArray referenceEnv ChunkMap.empty
        (packArray sampleRecords ++ List.replicate 1822 0xff) 226 = .ok map ∧
      map.mappings.Perm (sampleRecords.map ChunkRecord.mapping) ∧
      map.mappings.Pairwise (fun a b => a.logical < b.logical) ∧ map.localDevid = none) ∧
    ∃ e, parseSystemChunkArray referenceEnv ChunkMap.empty
      ((packArray sampleRecords).take 130 ++ List.replicate 1918 0xff) 130 = err e := by
  have hlen : (packArray sampleRecords).length = 226 := by decide +kernel
  constructor
  · have hdis : ChunkMap.Disjoint (sampleRecords.map ChunkRecord.mapping) :=
      ⟨by decide, by decide, by decide⟩
    have harray : (packArray sampleRecords ++ List.replicate 1822 0xff).length = 2048 := by
      rw [List.length_append, hlen, List.length_replicate]
    have h := (@parse_packed_array referenceEnv (by decide) ChunkMap.empty rfl _ harray
      sampleRecords).1 hdis _ rfl
    rwa [hlen] at h
  · have harray :
        ((packArray sampleRecords).take 130 ++ List.replicate 1918 0xff).length = 2048 := by
      rw [List.length_append, List.length_take, hlen, List.length_replicate]
      rfl
    refine (@parse_packed_array referenceEnv (by decide) ChunkMap.empty rfl _ harray
      sampleRecords).2 130 _ (by omega) rfl fun k => ?_
    match k with
    | 0 => decide +kernel
    | 1 => decide +kernel
    | k + 2 =>
      rw [List.take_of_length_le (by show 2 ≤ k + 2; omega), hlen]
      decide
