/-
A reference environment, and a small volume to read through it.

`referenceEnv` is a 64-bit debug build whose crates are computable: CRC32C, taken a
nibble at a time, and the part of zlib that stores its blocks.  The other two
decoders are left out of the build, as the crate's features allow.

`sampleVolume` holds one tree block with a few files in it; `leafFields` lays such a
block out the way the file system does, headers from the front and data from the back.
-/
import Lambutter.ChunkMap
import Lambutter.Reader

/-! ### CRC32C -/

/-- The register after each of the sixteen nibbles, 32 bits apiece, from nibble 0 up. -/
def crcNibbles : ℕ :=
  0xf36e6f75e330a81ad3d3e1abc38d26c4b21572c9a24bb5a692a8fc1782f63b787198540d61c693625125dad3417b1dbc30e349b120bd8ede105ec76f00000000

def crcNibble (crc : ℕ) : ℕ :=
  Nat.xor (Nat.div crc 16)
    (Nat.mod (Nat.shiftRight crcNibbles (Nat.mul 32 (Nat.mod crc 16))) 4294967296)

/-- The register run over `bs`; the match keeps it a numeral. -/
def crcFold : List UInt8 → ℕ → ℕ
  | [], crc => Nat.xor crc 0xFFFFFFFF
  | b :: bs, crc =>
    match crcNibble (crcNibble (Nat.xor crc b.toNat)) with
    | 0 => crcFold bs 0
    | n + 1 => crcFold bs (n + 1)

def crc32c (bs : List UInt8) : ℕ := crcFold bs 0xFFFFFFFF

-- the check value of CRC-32/ISCSI, over `123456789`
example : crc32c [49, 50, 51, 52, 53, 54, 55, 56, 57] = 0xe3069283 := by decide +kernel

/-! ### Stored zlib streams -/

def adler32 (bs : List UInt8) : ℕ :=
  let sums := bs.foldl (fun sums b =>
    ((sums.1 + b.toNat) % 65521, (sums.2 + sums.1 + b.toNat) % 65521)) (1, 0)
  65536 * sums.2 + sums.1

/-- A zlib stream of one stored block, with a limit on the output. -/
def inflateStored (src : List UInt8) (max : ℕ) : Option (List UInt8) :=
  let len := leAt src 3 2
  let data := (src.drop 7).take len
  if src.take 3 = [0x78, 0x01, 0x01] ∧ leAt src 5 2 = 65535 - len ∧ len + 11 ≤ src.length ∧
      len ≤ max ∧ leValue ((src.drop (len + 7)).take 4).reverse = adler32 data then some data
  else none

theorem inflateStored_length {src out : List UInt8} {max : ℕ}
    (h : inflateStored src max = some out) : out.length ≤ max := by
  unfold inflateStored at h
  dsimp only at h
  split_ifs at h with hcond
  obtain ⟨-, -, -, hmax, -⟩ := hcond
  cases h
  rw [List.length_take]
  omega

/-! ### The environment -/

def referenceDecoders : Decoders where
  inflate := inflateStored
  inflate_length := inflateStored_length
  lzokay _ _ := none
  lzokay_length h := by cases h
  Streaming := Unit
  streamingNew _ := none
  streamingNew_length h := by cases h
  streamingRead _ _ _ := none
  streamingRead_length h := by cases h

def referenceEnv : Env where
  usizeBits := 64
  overflowChecks := true
  allocates _ := true
  checksum := crc32c
  zlib := true
  lzo := false
  zstd := false
  decoders := referenceDecoders

theorem referenceEnv_usize64 : referenceEnv.usizeBits = 64 := rfl

/-! ### Images -/

/-- An image as one number, its bytes the digits from the lowest up. -/
def SliceDevice.ofNat (image size : ℕ) (h : size < 2 ^ 64) : SliceDevice where
  size := size
  byte i := UInt8.ofNat (Nat.shiftRight image (Nat.mul 8 i))
  size_lt := h

/-- The image with these little-endian values at these offsets. -/
def image (fields : List (ℕ × ℕ)) : ℕ :=
  fields.foldr (fun field rest => Nat.add (Nat.shiftLeft field.2 (Nat.mul 8 field.1)) rest) 0

/-- An item to be stored: its key, the length of its data and their fields. -/
abbrev SampleItem := DiskKey × ℕ × List (ℕ × ℕ)

/-- Items of a leaf at `start`: headers from `front` on, data down from `back`. -/
def itemFields (start : ℕ) : ℕ → ℕ → List SampleItem → List (ℕ × ℕ)
  | _, _, [] => []
  | front, back, (key, size, data) :: rest =>
    [(start + front, key.objectid), (start + front + 8, key.itemType),
      (start + front + 9, key.offset), (start + front + 17, back - size - 101),
      (start + front + 21, size)] ++
    data.map (fun field => (start + (back - size) + field.1, field.2)) ++
    itemFields start (front + 25) (back - size) rest

/-- A leaf of `nodesize` bytes at `start`. -/
def leafFields (start nodesize csum bytenr : ℕ) (items : List SampleItem) : List (ℕ × ℕ) :=
  [(start, csum), (start + 48, bytenr), (start + 96, items.length)] ++
    itemFields start 101 nodesize items

/-- Key pointers from `front` on. -/
def ptrFields : ℕ → List (DiskKey × ℕ) → List (ℕ × ℕ)
  | _, [] => []
  | front, (key, blockptr) :: rest =>
    [(front, key.objectid), (front + 8, key.itemType), (front + 9, key.offset),
      (front + 17, blockptr)] ++ ptrFields (front + 33) rest

/-- A node over leaves. -/
def nodeFields (csum bytenr : ℕ) (ptrs : List (DiskKey × ℕ)) : List (ℕ × ℕ) :=
  [(0, csum), (48, bytenr), (96, ptrs.length), (100, 1)] ++ ptrFields 101 ptrs

/-- The inode item of a regular file. -/
def sampleInode (objectid size : ℕ) : SampleItem :=
  (⟨objectid, inodeItemKey, 0⟩, 160, [(16, size), (52, 0o100644)])

/-! ### The sample volume -/

/-- Four regular files, each with one extent: five bytes inline; a compressed extent
whose offset is the last `u64`; eight bytes declared inline and three stored; and ten
bytes without an extent, before space kept past them. -/
def sampleItems : List SampleItem :=
  [sampleInode 257 5,
   (⟨257, extentDataKey, 0⟩, 26, [(8, 5), (21, 0x6f6c6c6568)]),
   sampleInode 258 4096,
   (⟨258, extentDataKey, 0⟩, 53, [(8, 4096), (16, compressZlib), (20, fileExtentReg),
     (21, 0x101000), (29, 13), (37, 2 ^ 64 - 1), (45, 4096)]),
   sampleInode 259 8,
   (⟨259, extentDataKey, 0⟩, 24, [(8, 8), (21, 0x636261)]),
   sampleInode 260 10,
   (⟨260, extentDataKey, 4096⟩, 53, [(8, 4096), (20, fileExtentPrealloc),
     (21, 0x102000), (29, 4096), (45, 4096)])]

theorem sampleSize_lt : 0x8000 < 2 ^ 64 := by decide

/-- The block of the files at `0x1000`, and at `0x4000` a zlib stream of two bytes. -/
def sampleVolume : SliceDevice :=
  .ofNat (image ((0x4000, 0xd2003b016968fffd0002010178) ::
    leafFields 0x1000 4096 94770613 0x100000 sampleItems)) 0x8000 sampleSize_lt

/-- A chunk for the tree block, which is kept twice, and one for data right after it. -/
def sampleChunks : List ChunkMapping :=
  [{ logical := 0x100000, length := 0x1000, ty := blockGroupDup, stripeLen := 65536,
     numStripes := 2, subStripes := 1,
     stripes := [⟨1, 0x1000, List.replicate 16 0⟩, ⟨1, 0x7000, List.replicate 16 0⟩] },
   { logical := 0x101000, length := 0x3000, ty := 0, stripeLen := 65536, numStripes := 1,
     subStripes := 1, stripes := [⟨1, 0x4000, List.replicate 16 0⟩] }]

def sampleMap : ChunkMap := (ChunkMap.empty.setLocalDevid 1).insertAll sampleChunks
