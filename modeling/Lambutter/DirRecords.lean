/-
Directory entries as they are packed on disk.

A `DirRecord` has the fields of one entry at their on-disk widths, so that every value
of the type can be packed: a header of 30 bytes, the name, and a tail of further bytes.
An index item holds one record, a hashed item all records whose names share a hash.

* A record is read back where it starts, whatever lies around it (`parse_pack`).
* The scan through the records of one item goes from each to the next and stops at the
  first that is wanted (`findEntry_pack`), so a name that is a prefix of another, or
  bytes in a tail that look like a record, do not divert it.
-/
import Lambutter.Resolve

structure DirRecord where
  objectid : UInt64
  itemType : UInt8
  offset : UInt64
  transid : UInt64
  ty : UInt8
  name : List UInt8
  data : List UInt8
  /-- Both lengths are stored in 16 bits. -/
  name_lt : name.length < 2 ^ 16
  data_lt : data.length < 2 ^ 16

namespace DirRecord

/-- What the entry leads to. -/
def location (r : DirRecord) : DiskKey := ⟨r.objectid.toNat, r.itemType.toNat, r.offset.toNat⟩

/-- The entry that a reader should get. -/
def entry (r : DirRecord) : DiskDirEntry where
  location := r.location
  dataLen := r.data.length
  nameLen := r.name.length
  ty := r.ty.toNat
  name := r.name

/-- The location key, of 17 bytes, and the 13 bytes after it. -/
def fields (r : DirRecord) : List (ℕ × ℕ) :=
  [(8, r.objectid.toNat), (1, r.itemType.toNat), (8, r.offset.toNat), (8, r.transid.toNat),
   (2, r.data.length), (2, r.name.length), (1, r.ty.toNat)]

/-- Header, name and tail, back to back. -/
def pack (r : DirRecord) : List UInt8 := fieldBytes r.fields ++ (r.name ++ r.data)

/-- Names are not ciphertext. -/
def Plain (r : DirRecord) : Prop := r.ty.toNat &&& ftEncrypted = 0

instance (r : DirRecord) : Decidable r.Plain :=
  inferInstanceAs (Decidable (_ = _))

theorem length_fields (r : DirRecord) : (fieldBytes r.fields).length = 30 :=
  length_fieldBytes r.fields

theorem length_pack (r : DirRecord) : r.pack.length = 30 + r.name.length + r.data.length := by
  rw [pack, List.length_append, List.length_append, length_fields]
  omega

/-- Packed records are at least as many bytes as they are records. -/
theorem length_le_flatMap_pack (records : List DirRecord) :
    records.length ≤ (records.flatMap pack).length := by
  induction records with
  | nil => exact le_rfl
  | cons r records ih =>
    rw [List.flatMap_cons, List.length_append, r.length_pack, List.length_cons]
    omega

theorem fields_fit (r : DirRecord) : ∀ f ∈ r.fields, f.2 < 256 ^ f.1 := by
  simp only [fields, List.forall_mem_cons, List.not_mem_nil, false_implies, implies_true, and_true]
  exact ⟨r.objectid.toNat_lt, r.itemType.toNat_lt, r.offset.toNat_lt, r.transid.toNat_lt,
    r.data_lt, r.name_lt, r.ty.toNat_lt⟩

variable {r : DirRecord} {buf rest : List UInt8} {p : ℕ}

/-- A field of a record that starts at `p`. -/
theorem leAt_pack (h : buf.drop p = fieldBytes r.fields ++ rest) (i : Fin 7) :
    leAt buf (p + ((r.fields.take i).map Prod.fst).sum) (r.fields.get i).1 =
      (r.fields.get i).2 := by
  rw [leAt_drop, h]
  exact leAt_fieldBytes r.fields_fit rest i i.2

/-- A record that starts at `p` is read back as it was packed. -/
theorem readAt_pack (h : buf.drop p = r.pack ++ rest) :
    DiskDirEntry.readAt buf p = r.entry ∧ DiskDirEntry.endAt buf p = p + r.pack.length := by
  rw [pack, List.append_assoc] at h
  have hkey : DiskKey.readAt buf p = r.location := by
    have h0 : leAt buf p 8 = r.objectid.toNat := leAt_pack h 0
    have h1 : leAt buf (p + 8) 1 = r.itemType.toNat := leAt_pack h 1
    have h2 : leAt buf (p + 9) 8 = r.offset.toNat := leAt_pack h 2
    unfold DiskKey.readAt location
    rw [h0, h1, h2]
  have hdata : leAt buf (p + 25) 2 = r.data.length := leAt_pack h 4
  have hlen : leAt buf (p + 27) 2 = r.name.length := leAt_pack h 5
  have hty : leAt buf (p + 29) 1 = r.ty.toNat := leAt_pack h 6
  have hname : (buf.drop (p + 30)).take r.name.length = r.name := by
    rw [← List.drop_drop, h, List.drop_left' r.length_fields, List.append_assoc,
      List.take_left' rfl]
  constructor
  · unfold DiskDirEntry.readAt entry
    rw [hkey, hdata, hlen, hty, hname]
  · rw [DiskDirEntry.endAt, hdata, hlen, r.length_pack]
    omega

end DirRecord

section Parse

variable {env : Env} (h64 : env.usizeBits = 64)

include h64

theorem parse_pack {r : DirRecord} {buf rest : List UInt8} {p : ℕ} (hp : p + 2 ^ 20 < 2 ^ 64)
    (h : buf.drop p = r.pack ++ rest) :
    DiskDirEntry.parse env buf p = .ok (some (r.entry, p + r.pack.length)) := by
  obtain ⟨hentry, hend⟩ := r.readAt_pack h
  have hlen : buf.length - p = r.pack.length + rest.length := by
    rw [← List.length_drop, h, List.length_append]
  have hpack := r.length_pack
  rw [DiskDirEntry.parse_eq h64 hp, if_neg (by omega), hentry, hend]

/-- The scan through packed records is a search in the list of their entries. -/
theorem findEntry_pack {wanted : DiskDirEntry → Outcome Bool} {accept : DirRecord → Bool}
    {records : List DirRecord} (hwanted : ∀ r ∈ records, wanted r.entry = .ok (accept r))
    {buf : List UInt8} (bytenr n : ℕ) {p : ℕ} (hp : buf.length + 2 ^ 20 < 2 ^ 64)
    (hfuel : records.length < n) (h : buf.drop p = records.flatMap DirRecord.pack) :
    findEntry env buf bytenr wanted n p = .ok ((records.find? accept).map DirRecord.entry) := by
  induction records generalizing n p with
  | nil =>
    obtain ⟨n, rfl⟩ : ∃ k, n = k + 1 := ⟨n - 1, by omega⟩
    have hend : buf.length ≤ p := List.drop_eq_nil_iff.mp h
    rw [findEntry, if_neg (by omega)]
    rfl
  | cons r records ih =>
    rw [List.length_cons] at hfuel
    obtain ⟨n, rfl⟩ : ∃ k, n = k + 1 := ⟨n - 1, by omega⟩
    rw [List.flatMap_cons] at h
    have hlen : buf.length - p = r.pack.length + (records.flatMap DirRecord.pack).length := by
      rw [← List.length_drop, h, List.length_append]
    have hpack := r.length_pack
    rw [findEntry, if_pos (by omega), parse_pack h64 (by omega) h, Except.ok_bind]
    dsimp only
    rw [hwanted r (by simp), Except.ok_bind]
    cases haccept : accept r with
    | true =>
      rw [List.find?_cons_of_pos haccept]
      rfl
    | false =>
      have hnext : buf.drop (p + r.pack.length) = records.flatMap DirRecord.pack := by
        rw [← List.drop_drop, h, List.drop_left' rfl]
      rw [List.find?_cons_of_neg (by simp [haccept])]
      exact ih (fun r' hr' => hwanted r' (by simp [hr'])) n (by omega) hnext

end Parse
