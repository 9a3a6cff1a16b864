/-
Reflected cyclic redundancy registers, of any width and polynomial.

A register takes a byte in at its low end and is then shifted right eight times; where
the bit that leaves it is a one, the polynomial is added.  Both steps are linear over
exclusive or (`shiftOut_xor`), and a polynomial with its top bit set makes a shift
injective (`shiftOut_injective`).  Hence

* eight shifts can be taken from a table that is indexed by the low byte
  (`shifts_eight`);
* two strings that differ only in a window no longer than the register leave different
  registers behind (`absorb_ne_of_window`).
-/
import Mathlib.Data.BitVec
import Mathlib.Logic.Function.Iterate

namespace Registers

section Shift

variable {w : ℕ} (poly : BitVec w)

/-- One shift to the right; the bit that leaves the register decides what is added. -/
def shiftOut (c : BitVec w) : BitVec w := if c.getLsbD 0 then c >>> 1 ^^^ poly else c >>> 1

theorem xor_cancel (a b p : BitVec w) : a ^^^ p ^^^ (b ^^^ p) = a ^^^ b := by
  rw [BitVec.xor_assoc, ← BitVec.xor_assoc p, BitVec.xor_comm p b, BitVec.xor_assoc b,
    BitVec.xor_self, BitVec.xor_zero]

theorem shiftOut_xor (a b : BitVec w) :
    shiftOut poly (a ^^^ b) = shiftOut poly a ^^^ shiftOut poly b := by
  unfold shiftOut
  rw [BitVec.getLsbD_xor, BitVec.ushiftRight_xor_distrib]
  cases a.getLsbD 0 <;> cases b.getLsbD 0
  · rfl
  · exact BitVec.xor_assoc _ _ _
  · show a >>> 1 ^^^ b >>> 1 ^^^ poly = a >>> 1 ^^^ poly ^^^ b >>> 1
    rw [BitVec.xor_assoc, BitVec.xor_comm (b >>> 1), BitVec.xor_assoc]
  · exact (xor_cancel _ _ _).symm

theorem shifts_xor (n : ℕ) (a b : BitVec w) :
    (shiftOut poly)^[n] (a ^^^ b) = (shiftOut poly)^[n] a ^^^ (shiftOut poly)^[n] b := by
  induction n generalizing a b with
  | zero => rfl
  | succ n ih => rw [Function.iterate_succ_apply, shiftOut_xor, ih]; rfl

/-- Bits that are zero leave the register without a trace. -/
theorem shifts_of_low {n : ℕ} {c : BitVec w} (h : ∀ i < n, c.getLsbD i = false) :
    (shiftOut poly)^[n] c = c >>> n := by
  induction n with
  | zero => simp
  | succ n ih =>
    have hlow : (c >>> n).getLsbD 0 = false := by
      rw [BitVec.getLsbD_ushiftRight]
      exact h n (Nat.lt_succ_self n)
    rw [Function.iterate_succ_apply', ih fun i hi => h i (by omega), shiftOut, hlow,
      BitVec.shiftRight_add]
    rfl

theorem low_of_shiftLeft (x : BitVec w) (n : ℕ) : ∀ i < n, (x <<< n).getLsbD i = false := by
  intro i hi
  rw [BitVec.getLsbD_shiftLeft]
  simp [hi]

/-- Shifting in at the bottom what the shifts then move to its place. -/
theorem shifts_shiftLeft {x : BitVec w} {n m : ℕ} (hx : ∀ i, m ≤ i → x.getLsbD i = false)
    (hfit : m + n ≤ w) : (shiftOut poly)^[n] (x <<< n) = x := by
  rw [shifts_of_low poly (low_of_shiftLeft x n)]
  refine BitVec.eq_of_getLsbD_eq fun i hi => ?_
  rw [BitVec.getLsbD_ushiftRight, BitVec.getLsbD_shiftLeft]
  by_cases him : i < m
  · have h1 : n + i < w := by omega
    have h2 : ¬ n + i < n := by omega
    have h3 : n + i - n = i := by omega
    simp [h1, h3]
  · rw [hx i (by omega)]
    have h3 : n + i - n = i := by omega
    rw [h3, hx i (by omega), Bool.and_false]

/-- The top bit of the polynomial shows which bit left. -/
theorem shiftOut_injective (hpoly : poly.msb = true) : Function.Injective (shiftOut poly) := by
  have htop : ∀ c : BitVec w, (shiftOut poly c).msb = c.getLsbD 0 := by
    intro c
    unfold shiftOut
    cases hc : c.getLsbD 0
    · simp
    · simp [hpoly]
  intro a b h
  have hlow : a.getLsbD 0 = b.getLsbD 0 := by rw [← htop, ← htop, h]
  have hrest : a >>> 1 = b >>> 1 := by
    unfold shiftOut at h
    rw [hlow] at h
    cases hb : b.getLsbD 0
    · simpa [hb] using h
    · rw [hb] at h
      have := congrArg (· ^^^ poly) h
      simpa [BitVec.xor_assoc] using this
  refine BitVec.eq_of_getLsbD_eq fun i hi => ?_
  cases i with
  | zero => exact hlow
  | succ i =>
    have := congrArg (BitVec.getLsbD · i) hrest
    simpa [BitVec.getLsbD_ushiftRight, Nat.add_comm] using this

/-- What some shifts make of the low bits, over the rest moved down. -/
theorem shifts_low (n : ℕ) (c : BitVec w) : (shiftOut poly)^[n] c =
    (shiftOut poly)^[n] (c &&& BitVec.ofNat w (2 ^ n - 1)) ^^^ c >>> n := by
  set low := BitVec.ofNat w (2 ^ n - 1) with hlow
  have hmask : ∀ i, low.getLsbD i = (decide (i < w) && decide (i < n)) := by
    intro i
    rw [hlow, BitVec.getLsbD_ofNat, Nat.testBit_two_pow_sub_one]
  have hsplit : c = (c &&& low) ^^^ (c &&& ~~~low) := by
    refine BitVec.eq_of_getLsbD_eq fun i hi => ?_
    rw [BitVec.getLsbD_xor, BitVec.getLsbD_and, BitVec.getLsbD_and, BitVec.getLsbD_not]
    cases c.getLsbD i <;> cases low.getLsbD i <;> simp [hi]
  have hclear : ∀ i < n, (c &&& ~~~low).getLsbD i = false := by
    intro i hi
    rw [BitVec.getLsbD_and, BitVec.getLsbD_not, hmask]
    by_cases hw : i < w <;> simp [hi, hw]
  have hhigh : (c &&& ~~~low) >>> n = c >>> n := by
    refine BitVec.eq_of_getLsbD_eq fun i hi => ?_
    rw [BitVec.getLsbD_ushiftRight, BitVec.getLsbD_ushiftRight, BitVec.getLsbD_and,
      BitVec.getLsbD_not, hmask]
    by_cases hw : n + i < w
    · simp [hw]
    · simp [BitVec.getLsbD_of_ge c (n + i) (by omega)]
  calc (shiftOut poly)^[n] c
      = (shiftOut poly)^[n] ((c &&& low) ^^^ (c &&& ~~~low)) := by rw [← hsplit]
    _ = (shiftOut poly)^[n] (c &&& low) ^^^ (c &&& ~~~low) >>> n := by
        rw [shifts_xor, shifts_of_low poly hclear]
    _ = (shiftOut poly)^[n] (c &&& low) ^^^ c >>> n := by rw [hhigh]

/-- Eight shifts: what they make of the low byte, over the rest moved down. -/
theorem shifts_eight (c : BitVec w) :
    (shiftOut poly)^[8] c = (shiftOut poly)^[8] (c &&& 255#w) ^^^ c >>> 8 := shifts_low poly 8 c

end Shift

/-! ### Bytes -/

section Bytes

variable {w : ℕ} (poly : BitVec w)

/-- A byte comes in at the low end and is shifted through. -/
def feed (c : BitVec w) (b : UInt8) : BitVec w :=
  (shiftOut poly)^[8] (c ^^^ b.toBitVec.setWidth w)

/-- The register after a string of bytes. -/
def absorb (c : BitVec w) (bs : List UInt8) : BitVec w := bs.foldl (feed poly) c

theorem absorb_append (c : BitVec w) (as bs : List UInt8) :
    absorb poly c (as ++ bs) = absorb poly (absorb poly c as) bs := List.foldl_append

/-- The bytes as one word, the first of them lowest. -/
def word : List UInt8 → BitVec w
  | [] => 0
  | b :: bs => word bs <<< 8 ^^^ b.toBitVec.setWidth w

theorem getLsbD_byte_of_ge (b : UInt8) {i : ℕ} (hi : 8 ≤ i) :
    (b.toBitVec.setWidth w).getLsbD i = false := by
  rw [BitVec.getLsbD_setWidth, BitVec.getLsbD_of_ge _ _ hi, Bool.and_false]

theorem word_high (bs : List UInt8) : ∀ i, 8 * bs.length ≤ i →
    (word bs : BitVec w).getLsbD i = false := by
  induction bs with
  | nil =>
    intro i _
    exact BitVec.getLsbD_zero
  | cons b bs ih =>
    intro i hi
    rw [List.length_cons] at hi
    rw [word, BitVec.getLsbD_xor, BitVec.getLsbD_shiftLeft, ih (i - 8) (by omega),
      getLsbD_byte_of_ge b (by omega)]
    simp

/-- A string that fits the register acts as one word. -/
theorem absorb_eq {bs : List UInt8} (hfit : 8 * bs.length ≤ w) (c : BitVec w) :
    absorb poly c bs = (shiftOut poly)^[8 * bs.length] (c ^^^ word bs) := by
  induction bs generalizing c with
  | nil => exact (BitVec.xor_zero).symm
  | cons b bs ih =>
    rw [List.length_cons] at hfit
    have hlift : (shiftOut poly)^[8] (word bs <<< 8) = word bs :=
      shifts_shiftLeft poly (word_high bs) (by omega)
    calc absorb poly c (b :: bs)
        = (shiftOut poly)^[8 * bs.length] (feed poly c b ^^^ word bs) := ih (by omega) _
      _ = (shiftOut poly)^[8 * bs.length]
            ((shiftOut poly)^[8] (c ^^^ b.toBitVec.setWidth w ^^^ word bs <<< 8)) := by
          rw [shifts_xor poly 8, hlift, feed]
      _ = (shiftOut poly)^[8 * bs.length + 8] (c ^^^ word (b :: bs)) := by
          rw [Function.iterate_add_apply, word, BitVec.xor_assoc,
            BitVec.xor_comm (b.toBitVec.setWidth w)]

theorem word_injective {as bs : List UInt8} (hlen : as.length = bs.length)
    (hfit : 8 * as.length ≤ w) (h : (word as : BitVec w) = word bs) : as = bs := by
  induction as generalizing bs with
  | nil => exact (List.length_eq_zero_iff.mp hlen.symm).symm
  | cons a as ih =>
    cases bs with
    | nil => cases hlen
    | cons b bs =>
      rw [List.length_cons] at hfit
      have hlen' : as.length = bs.length := Nat.succ.inj hlen
      have hbit : ∀ i, (word (a :: as) : BitVec w).getLsbD i = (word (b :: bs)).getLsbD i :=
        fun i => by rw [h]
      -- the first bytes are the low eight bits
      have hhead : a = b := by
        refine UInt8.toBitVec_inj.mp (BitVec.eq_of_getLsbD_eq fun i hi => ?_)
        have := hbit i
        simp only [word, BitVec.getLsbD_xor, BitVec.getLsbD_shiftLeft,
          BitVec.getLsbD_setWidth] at this
        have hw : i < w := by omega
        simpa [hi, hw] using this
      have htail : (word as : BitVec w) = word bs := by
        refine BitVec.eq_of_getLsbD_eq fun i hi => ?_
        by_cases hin : i + 8 < w
        · have := hbit (i + 8)
          simp only [word, BitVec.getLsbD_xor, BitVec.getLsbD_shiftLeft] at this
          rw [getLsbD_byte_of_ge a (by omega), getLsbD_byte_of_ge b (by omega)] at this
          have h8 : ¬ i + 8 < 8 := by omega
          simpa [hin, h8] using this
        · rw [word_high as i (by omega), word_high bs i (by omega)]
      rw [hhead, ih hlen' (by omega) htail]

theorem xor_right_injective (x : BitVec w) : Function.Injective (· ^^^ x) := by
  intro a b h
  have := congrArg (· ^^^ x) h
  simpa [BitVec.xor_assoc] using this

variable {poly} (hpoly : poly.msb = true)

include hpoly

/-- A common rest keeps registers apart. -/
theorem absorb_injective (bs : List UInt8) : Function.Injective (absorb poly · bs) := by
  induction bs with
  | nil => exact fun _ _ h => h
  | cons b bs ih =>
    intro c d h
    have hfeed : feed poly c b = feed poly d b := ih h
    exact xor_right_injective _ ((shiftOut_injective poly hpoly).iterate 8 hfeed)

/-- Strings that fit the register are told apart. -/
theorem absorb_fits {as bs : List UInt8} (hlen : as.length = bs.length)
    (hfit : 8 * as.length ≤ w) {c : BitVec w} (h : absorb poly c as = absorb poly c bs) :
    as = bs := by
  rw [absorb_eq poly hfit, absorb_eq poly (hlen ▸ hfit), ← hlen] at h
  have hword := (shiftOut_injective poly hpoly).iterate _ h
  rw [BitVec.xor_comm c, BitVec.xor_comm c] at hword
  exact word_injective hlen hfit (xor_right_injective c hword)

/-- Strings of one length that differ only in a window of `k` bytes, no wider than the
register, leave different registers behind. -/
theorem absorb_ne_of_window {as bs : List UInt8} (hlen : as.length = bs.length) (hne : as ≠ bs)
    {i k : ℕ} (hk : 8 * k ≤ w) (hwindow : ∀ j, j < i ∨ i + k ≤ j → as[j]? = bs[j]?)
    (c : BitVec w) : absorb poly c as ≠ absorb poly c bs := by
  have hcut : ∀ l : List UInt8, l = l.take i ++ ((l.drop i).take k ++ l.drop (i + k)) := by
    intro l
    rw [← List.drop_drop, List.take_append_drop, List.take_append_drop]
  have hfront : as.take i = bs.take i := by
    refine List.ext_getElem? fun j => ?_
    by_cases hj : j < i
    · rw [List.getElem?_take_of_lt hj, List.getElem?_take_of_lt hj, hwindow j (.inl hj)]
    · rw [List.getElem?_take_eq_none (by omega), List.getElem?_take_eq_none (by omega)]
  have hback : as.drop (i + k) = bs.drop (i + k) := by
    refine List.ext_getElem? fun j => ?_
    rw [List.getElem?_drop, List.getElem?_drop, hwindow _ (.inr (by omega))]
  intro h
  refine hne ?_
  rw [hcut as, hcut bs, hfront, hback] at h ⊢
  simp only [absorb_append] at h
  have hmid := absorb_injective hpoly _ h
  have hlens : ((as.drop i).take k).length = ((bs.drop i).take k).length := by
    simp [hlen]
  have hfit : 8 * ((as.drop i).take k).length ≤ w := by
    rw [List.length_take]
    omega
  rw [absorb_fits hpoly hlens hfit hmid]

end Bytes

end Registers
