/-
The name hash against the register it computes.

`crc32c_with_seed` takes a byte at a time from a table.  For every seed and every name
the result is that of the bit-serial register (`crc32cWithSeed_eq`), and names of one
length that differ only within four consecutive bytes never share a hash
(`crc32cWithSeed_register`).
-/
import Lambutter.Checksum
import Lambutter.Registers

open Registers

theorem tableStep_eq : tableStep = shiftOut castagnoli := by
  funext c
  have hbit : c &&& 1#32 = BitVec.setWidth 32 (BitVec.ofBool (c.getLsbD 0)) :=
    BitVec.and_one_eq_setWidth_ofBool_getLsbD
  unfold tableStep shiftOut
  rw [hbit]
  cases c.getLsbD 0
  · rw [if_neg (by decide), if_neg (by decide)]
  · rw [if_pos (by decide), if_pos (by decide)]

/-- An entry is its index after eight shifts. -/
theorem nameHashTable_get (i : Fin 256) :
    nameHashTable.get i = (shiftOut castagnoli)^[8] (BitVec.ofNat 32 i) := by
  unfold nameHashTable generateNameHashTable
  rw [tableStep_eq]
  exact Vector.getElem_ofFn i.isLt

/-- One step of the loop is one byte fed to the register. -/
theorem tableByte_eq (crc : BitVec 32) (b : UInt8) :
    nameHashTable.get (tableIndex crc b) ^^^ crc >>> 8 = feed castagnoli crc b := by
  have hbyte : b.toBitVec.setWidth 32 >>> 8 = 0#32 := by
    refine BitVec.eq_of_getLsbD_eq fun i _ => ?_
    rw [BitVec.getLsbD_ushiftRight, getLsbD_byte_of_ge b (by omega), BitVec.getLsbD_zero]
  have hindex : BitVec.ofNat 32 (tableIndex crc b) =
      (crc ^^^ b.toBitVec.setWidth 32) &&& 255#32 := by
    show BitVec.ofNat 32 (BitVec.toNat ((crc ^^^ b.toBitVec.setWidth 32) &&& 255#32)) = _
    rw [BitVec.ofNat_toNat, BitVec.setWidth_eq]
  rw [feed, shifts_eight, nameHashTable_get, hindex, BitVec.ushiftRight_xor_distrib, hbyte,
    BitVec.xor_zero]

/-- The table-driven loop is the bit-serial register. -/
theorem crc32cWithSeed_eq (seed : BitVec 32) (data : List UInt8) :
    crc32cWithSeed seed data = absorb castagnoli seed data := by
  unfold crc32cWithSeed absorb
  congr 1
  funext crc b
  exact tableByte_eq crc b

/-- The hash is the reflected Castagnoli register, and tells apart strings that differ
only in a window of four bytes. -/
theorem crc32cWithSeed_register (seed : BitVec 32) :
    (∀ data, crc32cWithSeed seed data = absorb castagnoli seed data) ∧
    ∀ as bs : List UInt8, as.length = bs.length → as ≠ bs →
      ∀ i, (∀ j, j < i ∨ i + 4 ≤ j → as[j]? = bs[j]?) →
        crc32cWithSeed seed as ≠ crc32cWithSeed seed bs := by
  refine ⟨crc32cWithSeed_eq seed, fun as bs hlen hne i hwindow => ?_⟩
  rw [crc32cWithSeed_eq, crc32cWithSeed_eq]
  exact absorb_ne_of_window (by decide) hlen hne (by decide) hwindow seed

/-- `hello.txt` and `help!.txt`. -/
theorem crc32cWithSeed_register_sample :
    crc32cWithSeed (BitVec.ofNat 32 nameHashSeed) [104, 101, 108, 108, 111, 46, 116, 120, 116] ≠
      crc32cWithSeed (BitVec.ofNat 32 nameHashSeed)
        [104, 101, 108, 112, 33, 46, 116, 120, 116] := by
  have hnames : ∀ j < 9, j < 3 ∨ 3 + 4 ≤ j →
      ([104, 101, 108, 108, 111, 46, 116, 120, 116] : List UInt8)[j]? =
        [104, 101, 108, 112, 33, 46, 116, 120, 116][j]? := by
    decide
  refine (crc32cWithSeed_register (BitVec.ofNat 32 nameHashSeed)).2 _ _ rfl (by decide) 3
    fun j hj => ?_
  by_cases hlt : j < 9
  · exact hnames j hlt hj
  · rw [List.getElem?_eq_none (by simpa using hlt), List.getElem?_eq_none (by simpa using hlt)]
