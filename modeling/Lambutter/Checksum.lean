/-
CRC32C: verification of metadata blocks and the name hash of directory entries.

Metadata checksums come from a crate and are a parameter of `Env`.  The name hash
is the crate's own table-driven register, seeded without reflection and without
a final XOR.
-/
import Lambutter.Format
import Mathlib.Logic.Function.Iterate

/-- The reflected Castagnoli polynomial. -/
def castagnoli : BitVec 32 := 0x82F63B78#32

/-- One step of the table generation. -/
def tableStep (c : BitVec 32) : BitVec 32 :=
  if c &&& 1#32 ≠ 0#32 then c >>> 1 ^^^ castagnoli else c >>> 1

def generateNameHashTable : Vector (BitVec 32) 256 :=
  Vector.ofFn fun n => tableStep^[8] (BitVec.ofNat 32 n)

def nameHashTable : Vector (BitVec 32) 256 := generateNameHashTable

theorem toNat_and_0xFF_lt (x : BitVec 32) : (x &&& 0xFF#32).toNat < 256 := by
  rw [BitVec.toNat_and]
  exact Nat.lt_of_le_of_lt Nat.and_le_right (by decide)

/-- `((crc ^ b) & 0xFF) as usize`, an index into the table. -/
def tableIndex (crc : BitVec 32) (b : UInt8) : Fin 256 :=
  ⟨((crc ^^^ b.toBitVec.setWidth 32) &&& 0xFF#32).toNat, toNat_and_0xFF_lt _⟩

def crc32cWithSeed (seed : BitVec 32) (data : List UInt8) : BitVec 32 :=
  data.foldl (fun crc b => nameHashTable.get (tableIndex crc b) ^^^ crc >>> 8) seed

/-- The btrfs name hash, as a `u64`. -/
def nameHash (name : List UInt8) : ℕ := (crc32cWithSeed (BitVec.ofNat 32 nameHashSeed) name).toNat

/-- A stored checksum field against a body. -/
def verifyCrc32c (env : Env) (body stored : List UInt8) : Bool :=
  if stored.length < 4 then false else env.checksum body == leAt stored 0 4

-- the register agrees with the value `mkfs.btrfs` stores for `hello.txt`
example : nameHash [104, 101, 108, 108, 111, 46, 116, 120, 116] = 0x415FEB59 := by
  decide +kernel
