/-
The on-disk format: constants, little-endian fields and the record parsers.

The parsers are the ones of `format/repr.rs`, field by field at the source's
offsets.  A read outside the buffer is a fault (the source indexes), a buffer too
short for a record is `none` where the source returns an `Option`.  Next to each
parser stands the record it reads when it stays inside the buffer (`…At`), and a
lemma that says so; later modules use these lemmas only.

Record fields that no modelled function reads are left out.
-/
import Lambutter.Machine
import Mathlib.Data.Nat.Bitwise
import Mathlib.Data.Prod.Lex
import Mathlib.Order.Lattice
import Mathlib.Tactic.Linarith

/-! ### Constants -/

abbrev btrfsMagic : ℕ := 0x4D5F53665248425F

def superblockOffsets : List ℕ := [0x00010000, 0x04000000, 0x004000000000, 0x0040000000000000]

abbrev superblockSize : ℕ := 4096

abbrev csumLen : ℕ := 32

abbrev uuidLen : ℕ := 16

abbrev chunkTreeObjectid : ℕ := 3

abbrev fsTreeObjectid : ℕ := 5

abbrev rootTreeDirObjectid : ℕ := 6

abbrev firstFreeObjectid : ℕ := 256

abbrev emptySubvolDirObjectid : ℕ := 2

abbrev inodeItemKey : ℕ := 1

abbrev dirItemKey : ℕ := 84

abbrev dirIndexKey : ℕ := 96

abbrev extentDataKey : ℕ := 108

abbrev rootItemKey : ℕ := 132

abbrev rootRefKey : ℕ := 156

abbrev chunkItemKey : ℕ := 228

abbrev csumTypeCrc32c : ℕ := 0

abbrev csumTypeXxhash : ℕ := 1

abbrev csumTypeSha256 : ℕ := 2

abbrev csumTypeBlake2 : ℕ := 3

abbrev compressNone : ℕ := 0

abbrev compressZlib : ℕ := 1

abbrev compressLzo : ℕ := 2

abbrev compressZstd : ℕ := 3

abbrev fileExtentInline : ℕ := 0

abbrev fileExtentReg : ℕ := 1

abbrev fileExtentPrealloc : ℕ := 2

abbrev ftEncrypted : ℕ := 0x80

abbrev blockGroupRaid0 : ℕ := 1 <<< 3

abbrev blockGroupRaid1 : ℕ := 1 <<< 4

abbrev blockGroupDup : ℕ := 1 <<< 5

abbrev blockGroupRaid10 : ℕ := 1 <<< 6

abbrev blockGroupRaid5 : ℕ := 1 <<< 7

abbrev blockGroupRaid6 : ℕ := 1 <<< 8

abbrev blockGroupRaid1c3 : ℕ := 1 <<< 9

abbrev blockGroupRaid1c4 : ℕ := 1 <<< 10

abbrev blockGroupProfileMask : ℕ :=
  blockGroupRaid0 ||| blockGroupRaid1 ||| blockGroupDup ||| blockGroupRaid10 |||
    blockGroupRaid5 ||| blockGroupRaid6 ||| blockGroupRaid1c3 ||| blockGroupRaid1c4

abbrev maxTreeDepth : ℕ := 16

abbrev minNodeSize : ℕ := 4096

abbrev maxNodeSize : ℕ := 65536

abbrev minSectorSize : ℕ := 4096

abbrev maxSectorSize : ℕ := 65536

abbrev maxDecompressedExtentBytes : ℕ := 16 * 1024 * 1024

abbrev nameHashSeed : ℕ := 0xFFFFFFFE

/-- `IncompatFlags::all()`: every bit the crate knows (bit 15 is not assigned). -/
abbrev incompatAll : ℕ := 0x37FFF

abbrev incompatZoned : ℕ := 1 <<< 12

abbrev incompatRaidStripeTree : ℕ := 1 <<< 14

abbrev incompatRemapTree : ℕ := 1 <<< 17

/-! ### Little-endian fields -/

def leValue : List UInt8 → ℕ
  | [] => 0
  | b :: bs => b.toNat + 256 * leValue bs

/-- The little-endian field of `width` bytes at `p`. -/
def leAt (buf : List UInt8) (p width : ℕ) : ℕ := leValue ((buf.drop p).take width)

def readLe (buf : List UInt8) (p width : ℕ) : Outcome ℕ :=
  if p + width ≤ buf.length then .ok (leAt buf p width) else fault .index

def readLeU8 (buf : List UInt8) (p : ℕ) : Outcome ℕ := readLe buf p 1

def readLeU16 (buf : List UInt8) (p : ℕ) : Outcome ℕ := readLe buf p 2

def readLeU32 (buf : List UInt8) (p : ℕ) : Outcome ℕ := readLe buf p 4

def readLeU64 (buf : List UInt8) (p : ℕ) : Outcome ℕ := readLe buf p 8

theorem leValue_lt (bs : List UInt8) : leValue bs < 256 ^ bs.length := by
  induction bs with
  | nil => simp [leValue]
  | cons b bs ih =>
    have hb : b.toNat < 256 := b.toNat_lt
    rw [leValue, List.length_cons, Nat.pow_succ]
    omega

theorem leAt_lt (buf : List UInt8) (p width : ℕ) : leAt buf p width < 256 ^ width :=
  (leValue_lt _).trans_le (Nat.pow_le_pow_right (by omega) (by simp))

theorem readLe_ok {buf : List UInt8} {p width : ℕ} (h : p + width ≤ buf.length) :
    readLe buf p width = .ok (leAt buf p width) := if_pos h

/-- The little-endian field of `width` bytes that holds `v`. -/
def leBytes : ℕ → ℕ → List UInt8
  | 0, _ => []
  | width + 1, v => UInt8.ofNat v :: leBytes width (v / 256)

@[simp] theorem length_leBytes (width v : ℕ) : (leBytes width v).length = width := by
  induction width generalizing v with
  | zero => rfl
  | succ width ih => rw [leBytes, List.length_cons, ih]

theorem leValue_leBytes {width v : ℕ} (h : v < 256 ^ width) : leValue (leBytes width v) = v := by
  induction width generalizing v with
  | zero =>
    rw [Nat.pow_zero] at h
    show 0 = v
    omega
  | succ width ih =>
    rw [Nat.pow_succ] at h
    have hbyte : (UInt8.ofNat v).toNat = v % 256 := UInt8.toNat_ofNat'
    rw [leBytes, leValue, hbyte, ih (by omega)]
    omega

theorem leAt_drop (buf : List UInt8) (p k width : ℕ) :
    leAt buf (p + k) width = leAt (buf.drop p) k width := by
  unfold leAt
  rw [List.drop_drop]

/-- The field at the front of a buffer. -/
theorem leAt_leBytes {width v : ℕ} (h : v < 256 ^ width) (rest : List UInt8) :
    leAt (leBytes width v ++ rest) 0 width = v := by
  unfold leAt
  rw [List.drop_zero, List.take_left' (length_leBytes width v), leValue_leBytes h]

/-- A field behind the front of a buffer. -/
theorem leAt_append {front : List UInt8} {p : ℕ} (h : front.length ≤ p) (rest : List UInt8)
    (width : ℕ) : leAt (front ++ rest) p width = leAt rest (p - front.length) width := by
  unfold leAt
  rw [List.drop_append, List.drop_of_length_le h, List.nil_append]

/-- Fields back to back, each given by its width and its value. -/
def fieldBytes (fields : List (ℕ × ℕ)) : List UInt8 :=
  fields.flatMap fun field => leBytes field.1 field.2

theorem length_fieldBytes (fields : List (ℕ × ℕ)) :
    (fieldBytes fields).length = (fields.map Prod.fst).sum := by
  induction fields with
  | nil => rfl
  | cons field fields ih =>
    rw [fieldBytes, List.flatMap_cons, List.length_append, length_leBytes]
    exact congrArg (field.1 + ·) ih

/-- Each field is read back where the ones before it end. -/
theorem leAt_fieldBytes {fields : List (ℕ × ℕ)} (hfits : ∀ f ∈ fields, f.2 < 256 ^ f.1)
    (rest : List UInt8) (i : ℕ) (hi : i < fields.length) :
    leAt (fieldBytes fields ++ rest) ((fields.take i).map Prod.fst).sum fields[i].1 =
      fields[i].2 := by
  induction fields generalizing i with
  | nil => exact absurd hi (Nat.not_lt_zero i)
  | cons field fields ih =>
    obtain ⟨hfirst, hfits⟩ := List.forall_mem_cons.mp hfits
    rw [fieldBytes, List.flatMap_cons, List.append_assoc]
    cases i with
    | zero => exact leAt_leBytes hfirst _
    | succ i =>
      rw [List.take_succ_cons, List.map_cons, List.sum_cons, leAt_append (by simp),
        length_leBytes, Nat.add_sub_cancel_left]
      exact ih hfits i (Nat.lt_of_succ_lt_succ hi)

/-! ### Keys -/

@[ext] structure DiskKey where
  objectid : ℕ
  itemType : ℕ
  offset : ℕ
  deriving DecidableEq, Repr

namespace DiskKey

abbrev size : ℕ := 17

def parse (buf : List UInt8) (p : ℕ) : Outcome DiskKey := do
  let objectid ← readLeU64 buf p
  let itemType ← readLeU8 buf (p + 8)
  let offset ← readLeU64 buf (p + 9)
  return { objectid, itemType, offset }

/-- Strict ordering by (objectid, type, offset). -/
def cmpTuple (k : DiskKey) : ℕ ×ₗ ℕ ×ₗ ℕ := toLex (k.objectid, toLex (k.itemType, k.offset))

theorem cmpTuple_injective : Function.Injective cmpTuple := by
  intro a b h
  have h1 := congrArg Prod.fst (congrArg ofLex h)
  have h2 := congrArg ofLex (congrArg Prod.snd (congrArg ofLex h))
  exact DiskKey.ext h1 (congrArg Prod.fst h2) (congrArg Prod.snd h2)

instance : LinearOrder DiskKey := LinearOrder.lift' cmpTuple cmpTuple_injective

theorem lt_iff {a b : DiskKey} : a < b ↔ a.objectid < b.objectid ∨ a.objectid = b.objectid ∧
    (a.itemType < b.itemType ∨ a.itemType = b.itemType ∧ a.offset < b.offset) := by
  show cmpTuple a < cmpTuple b ↔ _
  rw [cmpTuple, cmpTuple, Prod.Lex.toLex_lt_toLex, Prod.Lex.toLex_lt_toLex]

theorem le_iff {a b : DiskKey} : a ≤ b ↔ a.objectid < b.objectid ∨ a.objectid = b.objectid ∧
    (a.itemType < b.itemType ∨ a.itemType = b.itemType ∧ a.offset ≤ b.offset) := by
  show cmpTuple a ≤ cmpTuple b ↔ _
  rw [cmpTuple, cmpTuple, Prod.Lex.toLex_le_toLex, Prod.Lex.toLex_le_toLex]

/-- The key at `p` of a long enough buffer. -/
def readAt (buf : List UInt8) (p : ℕ) : DiskKey where
  objectid := leAt buf p 8
  itemType := leAt buf (p + 8) 1
  offset := leAt buf (p + 9) 8

theorem parse_ok {buf : List UInt8} {p : ℕ} (h : p + 17 ≤ buf.length) :
    parse buf p = .ok (readAt buf p) := by
  simp (disch := omega) only [parse, readLeU64, readLeU8, readLe_ok, Except.ok_bind]
  rfl

/-- The fields fit their on-disk types. -/
structure Bounded (k : DiskKey) : Prop where
  objectid : k.objectid < 2 ^ 64
  itemType : k.itemType < 2 ^ 8
  offset : k.offset < 2 ^ 64

theorem readAt_bounded (buf : List UInt8) (p : ℕ) : (readAt buf p).Bounded :=
  ⟨leAt_lt buf p 8, leAt_lt buf (p + 8) 1, leAt_lt buf (p + 9) 8⟩

end DiskKey

/-! ### Superblock -/

structure Superblock where
  csum : List UInt8
  magic : ℕ
  generation : ℕ
  root : ℕ
  chunkRoot : ℕ
  rootDirObjectid : ℕ
  devid : ℕ
  sectorsize : ℕ
  nodesize : ℕ
  sysChunkArraySize : ℕ
  incompatFlags : ℕ
  csumType : ℕ
  sysChunkArray : List UInt8
  deriving DecidableEq, Repr

namespace Superblock

abbrev offsetSysChunkArray : ℕ := 811

abbrev sizeSysChunkArray : ℕ := 2048

def parse (buf : List UInt8) : Outcome (Option Superblock) := do
  if buf.length < superblockSize then return none
  let csum ← slice buf 0 csumLen
  let sysChunkArray ← slice buf offsetSysChunkArray (offsetSysChunkArray + sizeSysChunkArray)
  let magic ← readLeU64 buf 64
  let generation ← readLeU64 buf 72
  let root ← readLeU64 buf 80
  let chunkRoot ← readLeU64 buf 88
  let rootDirObjectid ← readLeU64 buf 128
  let devid ← readLeU64 buf 201
  let sectorsize ← readLeU32 buf 144
  let nodesize ← readLeU32 buf 148
  let sysChunkArraySize ← readLeU32 buf 160
  let incompatFlags ← readLeU64 buf 188
  let csumType ← readLeU16 buf 196
  return some
    { csum, magic, generation, root, chunkRoot, rootDirObjectid, devid, sectorsize, nodesize,
      sysChunkArraySize, incompatFlags, csumType, sysChunkArray }

/-- The superblock in a long enough buffer. -/
def readAt (buf : List UInt8) : Superblock where
  csum := buf.take 32
  magic := leAt buf 64 8
  generation := leAt buf 72 8
  root := leAt buf 80 8
  chunkRoot := leAt buf 88 8
  rootDirObjectid := leAt buf 128 8
  devid := leAt buf 201 8
  sectorsize := leAt buf 144 4
  nodesize := leAt buf 148 4
  sysChunkArraySize := leAt buf 160 4
  incompatFlags := leAt buf 188 8
  csumType := leAt buf 196 2
  sysChunkArray := (buf.drop 811).take 2048

theorem parse_eq (buf : List UInt8) :
    parse buf = .ok (if buf.length < superblockSize then none else some (readAt buf)) := by
  simp only [parse, superblockSize, csumLen, offsetSysChunkArray, sizeSysChunkArray]
  by_cases h : buf.length < 4096
  · rw [if_pos h, if_pos h]
    rfl
  · rw [if_neg h, if_neg h]
    simp (disch := omega) only [slice_ok, readLeU64, readLeU32, readLeU16, readLe_ok,
      Except.ok_bind]
    rfl

end Superblock

/-! ### Tree blocks -/

structure Header where
  csum : List UInt8
  bytenr : ℕ
  nritems : ℕ
  level : ℕ
  deriving DecidableEq, Repr

namespace Header

/-- `HEADER_END`: items and key pointers start here. -/
abbrev size : ℕ := 101

def parse (buf : List UInt8) : Outcome (Option Header) := do
  if buf.length < size then return none
  let csum ← slice buf 0 csumLen
  let bytenr ← readLeU64 buf 48
  let nritems ← readLeU32 buf 96
  let level ← readLeU8 buf 100
  return some { csum, bytenr, nritems, level }

def readAt (buf : List UInt8) : Header where
  csum := buf.take 32
  bytenr := leAt buf 48 8
  nritems := leAt buf 96 4
  level := leAt buf 100 1

theorem parse_eq (buf : List UInt8) :
    parse buf = .ok (if buf.length < size then none else some (readAt buf)) := by
  simp only [parse, size, csumLen]
  by_cases h : buf.length < 101
  · rw [if_pos h, if_pos h]
    rfl
  · rw [if_neg h, if_neg h]
    simp (disch := omega) only [slice_ok, readLeU64, readLeU32, readLeU8, readLe_ok,
      Except.ok_bind]
    rfl

end Header

structure LeafItem where
  key : DiskKey
  offset : ℕ
  size : ℕ
  deriving DecidableEq, Repr

namespace LeafItem

abbrev sizeOf : ℕ := DiskKey.size + 4 + 4

def parse (buf : List UInt8) (p : ℕ) : Outcome LeafItem := do
  let key ← DiskKey.parse buf p
  let offset ← readLeU32 buf (p + DiskKey.size)
  let size ← readLeU32 buf (p + DiskKey.size + 4)
  return { key, offset, size }

def readAt (buf : List UInt8) (p : ℕ) : LeafItem where
  key := DiskKey.readAt buf p
  offset := leAt buf (p + 17) 4
  size := leAt buf (p + 21) 4

theorem parse_ok {buf : List UInt8} {p : ℕ} (h : p + 25 ≤ buf.length) :
    parse buf p = .ok (readAt buf p) := by
  simp (disch := omega) only [parse, DiskKey.parse_ok, DiskKey.size, readLeU32, readLe_ok,
    Except.ok_bind]
  rfl

end LeafItem

structure KeyPtr where
  key : DiskKey
  blockptr : ℕ
  deriving DecidableEq, Repr

namespace KeyPtr

abbrev size : ℕ := DiskKey.size + 8 + 8

def parse (buf : List UInt8) (p : ℕ) : Outcome KeyPtr := do
  let key ← DiskKey.parse buf p
  let blockptr ← readLeU64 buf (p + DiskKey.size)
  let _generation ← readLeU64 buf (p + DiskKey.size + 8)
  return { key, blockptr }

def readAt (buf : List UInt8) (p : ℕ) : KeyPtr where
  key := DiskKey.readAt buf p
  blockptr := leAt buf (p + 17) 8

theorem parse_ok {buf : List UInt8} {p : ℕ} (h : p + 33 ≤ buf.length) :
    parse buf p = .ok (readAt buf p) := by
  simp (disch := omega) only [parse, DiskKey.parse_ok, DiskKey.size, readLeU64, readLe_ok,
    Except.ok_bind]
  rfl

end KeyPtr

/-! ### Chunks -/

structure Stripe where
  devid : ℕ
  offset : ℕ
  devUuid : List UInt8
  deriving DecidableEq, Repr

namespace Stripe

abbrev size : ℕ := 8 + 8 + uuidLen

def parse (buf : List UInt8) (p : ℕ) : Outcome Stripe := do
  let devid ← readLeU64 buf p
  let offset ← readLeU64 buf (p + 8)
  let devUuid ← slice buf (p + 16) (p + 16 + uuidLen)
  return { devid, offset, devUuid }

def readAt (buf : List UInt8) (p : ℕ) : Stripe where
  devid := leAt buf p 8
  offset := leAt buf (p + 8) 8
  devUuid := (buf.drop (p + 16)).take 16

theorem parse_ok {buf : List UInt8} {p : ℕ} (h : p + 32 ≤ buf.length) :
    parse buf p = .ok (readAt buf p) := by
  simp (disch := omega) only [parse, uuidLen, readLeU64, readLe_ok, slice_ok, Except.ok_bind,
    Nat.add_sub_cancel_left]
  rfl

end Stripe

structure ChunkItem where
  length : ℕ
  stripeLen : ℕ
  ty : ℕ
  numStripes : ℕ
  subStripes : ℕ
  deriving DecidableEq, Repr

namespace ChunkItem

abbrev headerSize : ℕ := 48

def parse (env : Env) (buf : List UInt8) (p : ℕ) : Outcome (Option ChunkItem) := do
  if buf.length < (← env.addUsize p headerSize) then return none
  let length ← readLeU64 buf p
  let stripeLen ← readLeU64 buf (p + 16)
  let ty ← readLeU64 buf (p + 24)
  let numStripes ← readLeU16 buf (p + 44)
  let subStripes ← readLeU16 buf (p + 46)
  return some { length, stripeLen, ty, numStripes, subStripes }

/-- Total on-disk size of the chunk item including the stripe array. -/
def totalSize (numStripes : ℕ) : ℕ := headerSize + Stripe.size * numStripes

def readAt (buf : List UInt8) (p : ℕ) : ChunkItem where
  length := leAt buf p 8
  stripeLen := leAt buf (p + 16) 8
  ty := leAt buf (p + 24) 8
  numStripes := leAt buf (p + 44) 2
  subStripes := leAt buf (p + 46) 2

theorem parse_eq {env : Env} {buf : List UInt8} {p : ℕ} (hp : p + 48 < 2 ^ env.usizeBits) :
    parse env buf p = .ok (if buf.length < p + 48 then none else some (readAt buf p)) := by
  unfold parse
  rw [Env.addUsize_fits (by simpa [headerSize] using hp), Except.ok_bind]
  simp only [headerSize]
  by_cases h : buf.length < p + 48
  · rw [if_pos h, if_pos h]
    rfl
  · rw [if_neg h, if_neg h]
    simp (disch := omega) only [readLeU64, readLeU16, readLe_ok, Except.ok_bind]
    rfl

end ChunkItem

/-! ### Inodes and roots -/

structure InodeItem where
  generation : ℕ
  size : ℕ
  nbytes : ℕ
  nlink : ℕ
  uid : ℕ
  gid : ℕ
  mode : ℕ
  deriving DecidableEq, Repr

namespace InodeItem

abbrev sizeOf : ℕ := 160

def parse (env : Env) (buf : List UInt8) (p : ℕ) : Outcome (Option InodeItem) := do
  if buf.length < (← env.addUsize p sizeOf) then return none
  let generation ← readLeU64 buf p
  let size ← readLeU64 buf (p + 16)
  let nbytes ← readLeU64 buf (p + 24)
  let nlink ← readLeU32 buf (p + 40)
  let uid ← readLeU32 buf (p + 44)
  let gid ← readLeU32 buf (p + 48)
  let mode ← readLeU32 buf (p + 52)
  return some { generation, size, nbytes, nlink, uid, gid, mode }

def readAt (buf : List UInt8) (p : ℕ) : InodeItem where
  generation := leAt buf p 8
  size := leAt buf (p + 16) 8
  nbytes := leAt buf (p + 24) 8
  nlink := leAt buf (p + 40) 4
  uid := leAt buf (p + 44) 4
  gid := leAt buf (p + 48) 4
  mode := leAt buf (p + 52) 4

theorem parse_eq {env : Env} (hw : 32 ≤ env.usizeBits) (buf : List UInt8) :
    parse env buf 0 = .ok (if buf.length < 160 then none else some (readAt buf 0)) := by
  unfold parse
  rw [Env.addUsize_small hw (by decide), Except.ok_bind]
  simp only [sizeOf, Nat.zero_add]
  by_cases h : buf.length < 160
  · rw [if_pos h, if_pos h]
    rfl
  · rw [if_neg h, if_neg h]
    simp (disch := omega) only [readLeU64, readLeU32, readLe_ok, Except.ok_bind]
    rfl

end InodeItem

structure RootItem where
  bytenr : ℕ
  refs : ℕ
  deriving DecidableEq, Repr

namespace RootItem

abbrev minSize : ℕ := InodeItem.sizeOf + 8 + 8 + 8 + 8 + 8 + 8 + 8 + 4 + DiskKey.size + 1 + 1

/-- The fields up to `level` are read in order from a moving position; the ones
no caller uses are read and dropped. -/
def parse (env : Env) (buf : List UInt8) (p : ℕ) : Outcome (Option RootItem) := do
  if buf.length < (← env.addUsize p minSize) then return none
  match ← InodeItem.parse env buf p with
  | none => return none
  | some _ => do
    let p := p + InodeItem.sizeOf
    let _generation ← readLeU64 buf p
    let _rootDirid ← readLeU64 buf (p + 8)
    let bytenr ← readLeU64 buf (p + 16)
    let _byteLimit ← readLeU64 buf (p + 24)
    let _bytesUsed ← readLeU64 buf (p + 32)
    let _lastSnapshot ← readLeU64 buf (p + 40)
    let _flags ← readLeU64 buf (p + 48)
    let refs ← readLeU32 buf (p + 56)
    let _dropProgress ← DiskKey.parse buf (p + 60)
    let _dropLevel ← readLeU8 buf (p + 77)
    let _level ← readLeU8 buf (p + 78)
    return some { bytenr, refs }

def readAt (buf : List UInt8) (p : ℕ) : RootItem where
  bytenr := leAt buf (p + 176) 8
  refs := leAt buf (p + 216) 4

theorem parse_eq {env : Env} (h64 : env.usizeBits = 64) (buf : List UInt8) :
    parse env buf 0 = .ok (if buf.length < 239 then none else some (readAt buf 0)) := by
  unfold parse
  rw [Env.addUsize_ok h64 (by decide), Except.ok_bind]
  simp only [minSize, InodeItem.sizeOf, DiskKey.size, Nat.zero_add, Nat.reduceAdd]
  by_cases h : buf.length < 239
  · rw [if_pos h, if_pos h]
    rfl
  · rw [if_neg h, if_neg h]
    rw [InodeItem.parse_eq (Env.usize_ge h64), if_neg (by omega), Except.ok_bind]
    simp (disch := omega) only [readLeU64, readLeU32, readLeU8, readLe_ok, DiskKey.parse_ok,
      Except.ok_bind]
    rfl

end RootItem

/-! ### Directory entries -/

structure DiskDirEntry where
  location : DiskKey
  dataLen : ℕ
  nameLen : ℕ
  ty : ℕ
  name : List UInt8
  deriving DecidableEq, Repr

namespace DiskDirEntry

abbrev headerSize : ℕ := DiskKey.size + 8 + 2 + 2 + 1

/-- One entry starting at `p`, with the offset of the next. -/
def parse (env : Env) (buf : List UInt8) (p : ℕ) : Outcome (Option (DiskDirEntry × ℕ)) := do
  if buf.length < (← env.addUsize p headerSize) then return none
  let location ← DiskKey.parse buf p
  let _transid ← readLeU64 buf (p + DiskKey.size)
  let dataLen ← readLeU16 buf (p + DiskKey.size + 8)
  let nameLen ← readLeU16 buf (p + DiskKey.size + 10)
  let ty ← readLeU8 buf (p + DiskKey.size + 12)
  let nameStart ← env.addUsize p headerSize
  let nameEnd ← env.addUsize nameStart nameLen
  let dataEnd ← env.addUsize nameEnd dataLen
  if buf.length < dataEnd then return none
  let name ← slice buf nameStart nameEnd
  return some ({ location, dataLen, nameLen, ty, name }, dataEnd)

def readAt (buf : List UInt8) (p : ℕ) : DiskDirEntry where
  location := DiskKey.readAt buf p
  dataLen := leAt buf (p + 25) 2
  nameLen := leAt buf (p + 27) 2
  ty := leAt buf (p + 29) 1
  name := (buf.drop (p + 30)).take (leAt buf (p + 27) 2)

/-- Where the entry at `p` ends. -/
def endAt (buf : List UInt8) (p : ℕ) : ℕ := p + 30 + leAt buf (p + 27) 2 + leAt buf (p + 25) 2

theorem parse_fits {env : Env} {buf : List UInt8} {p : ℕ} (hp : p + 2 ^ 20 < 2 ^ env.usizeBits) :
    parse env buf p = .ok (if buf.length < p + 30 ∨ buf.length < endAt buf p then none
      else some (readAt buf p, endAt buf p)) := by
  have hn : leAt buf (p + 27) 2 < 256 ^ 2 := leAt_lt buf (p + 27) 2
  have hd : leAt buf (p + 25) 2 < 256 ^ 2 := leAt_lt buf (p + 25) 2
  unfold parse
  simp only [headerSize, DiskKey.size, Nat.reduceAdd, show p + 17 + 8 = p + 25 from rfl,
    show p + 17 + 10 = p + 27 from rfl, show p + 17 + 12 = p + 29 from rfl]
  rw [Env.addUsize_fits (by omega), Except.ok_bind]
  by_cases h : buf.length < p + 30
  · rw [if_pos h, if_pos (Or.inl h)]
    rfl
  · rw [if_neg h]
    simp (disch := omega) only [DiskKey.parse_ok, readLeU64, readLeU16, readLeU8, readLe_ok,
      Env.addUsize_fits, Except.ok_bind]
    have hend : endAt buf p = p + 30 + leAt buf (p + 27) 2 + leAt buf (p + 25) 2 := rfl
    by_cases h2 : buf.length < endAt buf p
    · rw [if_pos (show _ ∨ _ from Or.inr h2), ← hend, if_pos h2]
      rfl
    · have hnot : ¬(buf.length < p + 30 ∨ buf.length < endAt buf p) := by omega
      rw [if_neg hnot, ← hend, if_neg h2, slice_ok (by omega) (by omega),
        Nat.add_sub_cancel_left]
      rfl

theorem parse_eq {env : Env} (h64 : env.usizeBits = 64) {buf : List UInt8} {p : ℕ}
    (hp : p + 2 ^ 20 < 2 ^ 64) :
    parse env buf p = .ok (if buf.length < p + 30 ∨ buf.length < endAt buf p then none
      else some (readAt buf p, endAt buf p)) :=
  parse_fits (by rwa [h64])

end DiskDirEntry

/-! ### File extents -/

structure ExtentDataHeader where
  ramBytes : ℕ
  compression : ℕ
  encryption : ℕ
  ty : ℕ
  deriving DecidableEq, Repr

namespace ExtentDataHeader

abbrev size : ℕ := 21

def parse (env : Env) (buf : List UInt8) (p : ℕ) : Outcome (Option ExtentDataHeader) := do
  if buf.length < (← env.addUsize p size) then return none
  let _generation ← readLeU64 buf p
  let ramBytes ← readLeU64 buf (p + 8)
  let compression ← readLeU8 buf (p + 16)
  let encryption ← readLeU8 buf (p + 17)
  let _otherEncoding ← readLeU16 buf (p + 18)
  let ty ← readLeU8 buf (p + 20)
  return some { ramBytes, compression, encryption, ty }

def readAt (buf : List UInt8) (p : ℕ) : ExtentDataHeader where
  ramBytes := leAt buf (p + 8) 8
  compression := leAt buf (p + 16) 1
  encryption := leAt buf (p + 17) 1
  ty := leAt buf (p + 20) 1

theorem parse_eq {env : Env} (hw : 32 ≤ env.usizeBits) (buf : List UInt8) :
    parse env buf 0 = .ok (if buf.length < 21 then none else some (readAt buf 0)) := by
  unfold parse
  rw [Env.addUsize_small hw (by decide), Except.ok_bind]
  simp only [size, Nat.zero_add]
  by_cases h : buf.length < 21
  · rw [if_pos h, if_pos h]
    rfl
  · rw [if_neg h, if_neg h]
    simp (disch := omega) only [readLeU64, readLeU16, readLeU8, readLe_ok, Except.ok_bind]
    rfl

end ExtentDataHeader

structure ExtentDataRegular where
  diskBytenr : ℕ
  diskNumBytes : ℕ
  offset : ℕ
  numBytes : ℕ
  deriving DecidableEq, Repr

namespace ExtentDataRegular

abbrev size : ℕ := 32

def parse (env : Env) (buf : List UInt8) (p : ℕ) : Outcome (Option ExtentDataRegular) := do
  if buf.length < (← env.addUsize p size) then return none
  let diskBytenr ← readLeU64 buf p
  let diskNumBytes ← readLeU64 buf (p + 8)
  let offset ← readLeU64 buf (p + 16)
  let numBytes ← readLeU64 buf (p + 24)
  return some { diskBytenr, diskNumBytes, offset, numBytes }

def readAt (buf : List UInt8) (p : ℕ) : ExtentDataRegular where
  diskBytenr := leAt buf p 8
  diskNumBytes := leAt buf (p + 8) 8
  offset := leAt buf (p + 16) 8
  numBytes := leAt buf (p + 24) 8

/-- The tail after the header, where every caller reads it. -/
theorem parse_eq {env : Env} (hw : 32 ≤ env.usizeBits) (buf : List UInt8) :
    parse env buf ExtentDataHeader.size =
      .ok (if buf.length < 53 then none else some (readAt buf 21)) := by
  unfold parse
  rw [Env.addUsize_small hw (by decide), Except.ok_bind]
  simp only [size, ExtentDataHeader.size, Nat.reduceAdd]
  by_cases h : buf.length < 53
  · rw [if_pos h, if_pos h]
    rfl
  · rw [if_neg h, if_neg h]
    simp (disch := omega) only [readLeU64, readLe_ok, Except.ok_bind]
    rfl

end ExtentDataRegular
