/-
Damaged metadata.

A tree block carries the CRC-32 of its bytes, and the code uses no block whose checksum
does not match.  The register tells apart any two blocks that differ within four bytes
(`Registers.absorb_ne_of_window`), so of a block and a damaged copy of it at most one is
accepted (`burst_unchecks`), and what a call makes of the blocks it reads follows:
damage of that kind never changes a reply, it can only make the call fail, with the error
that names a damaged block (`damage_detected`).
-/
import Lambutter.NameHash
import Lambutter.Sessions

open Prog Registers

/-! ### The checksum -/

/-- CRC-32/ISCSI: the reflected Castagnoli register, over ones and inverted at the end. -/
def Iscsi (checksum : List UInt8 → ℕ) : Prop :=
  ∀ bs, checksum bs = (~~~ absorb castagnoli (BitVec.allOnes 32) bs).toNat

/-- The sixteen nibbles after four shifts. -/
theorem crcNibbles_eq (i : Fin 16) : Nat.mod (Nat.shiftRight crcNibbles (Nat.mul 32 i)) 4294967296 =
    ((shiftOut castagnoli)^[4] (BitVec.ofNat 32 i)).toNat := by
  revert i
  decide +kernel

theorem crcNibble_eq (c : BitVec 32) :
    crcNibble c.toNat = ((shiftOut castagnoli)^[4] c).toNat := by
  have hlow : c &&& BitVec.ofNat 32 (2 ^ 4 - 1) = BitVec.ofNat 32 (c.toNat % 16) := by
    refine BitVec.eq_of_toNat_eq ?_
    rw [BitVec.toNat_and, BitVec.toNat_ofNat, BitVec.toNat_ofNat, Nat.mod_eq_of_lt (by omega),
      Nat.mod_eq_of_lt (by omega), Nat.and_two_pow_sub_one_eq_mod]
  have hnibble := crcNibbles_eq ⟨c.toNat % 16, Nat.mod_lt _ (by decide)⟩
  rw [shifts_low, hlow, BitVec.xor_comm, BitVec.toNat_xor, ← hnibble, BitVec.toNat_ushiftRight,
    Nat.shiftRight_eq_div_pow]
  rfl

theorem crcFold_eq (bs : List UInt8) (c : BitVec 32) :
    crcFold bs c.toNat = (~~~ absorb castagnoli c bs).toNat := by
  induction bs generalizing c with
  | nil =>
    show Nat.xor c.toNat 0xFFFFFFFF = (~~~ c).toNat
    rw [← BitVec.xor_allOnes, BitVec.toNat_xor]
    rfl
  | cons b bs ih =>
    have hbyte : Nat.xor c.toNat b.toNat = (c ^^^ b.toBitVec.setWidth 32).toNat := by
      rw [BitVec.toNat_xor, BitVec.toNat_setWidth, Nat.mod_eq_of_lt (by
        have := b.toNat_lt
        omega)]
      rfl
    have hstep : crcNibble (crcNibble (Nat.xor c.toNat b.toNat)) = (feed castagnoli c b).toNat := by
      rw [hbyte, crcNibble_eq, crcNibble_eq, feed, ← Function.iterate_add_apply]
    have hfold : crcFold (b :: bs) c.toNat =
        crcFold bs (crcNibble (crcNibble (Nat.xor c.toNat b.toNat))) := by
      rw [crcFold]
      split
      · rename_i h
        rw [h]
      · rename_i h
        rw [h]
    rw [hfold, hstep]
    exact ih (feed castagnoli c b)

/-- The checksum of the reference environment. -/
theorem crc32c_iscsi : Iscsi crc32c := fun bs => crcFold_eq bs (BitVec.allOnes 32)

/-- Strings that differ within four bytes have different checksums. -/
theorem Iscsi.ne_of_window {checksum : List UInt8 → ℕ} (h : Iscsi checksum) {as bs : List UInt8}
    (hlen : as.length = bs.length) (hne : as ≠ bs) {i : ℕ}
    (hwindow : ∀ j, j < i ∨ i + 4 ≤ j → as[j]? = bs[j]?) : checksum as ≠ checksum bs := by
  have hregister :
      absorb castagnoli (BitVec.allOnes 32) as ≠ absorb castagnoli (BitVec.allOnes 32) bs :=
    absorb_ne_of_window (by decide) hlen hne (by decide) hwindow _
  intro heq
  rw [h, h] at heq
  exact hregister (BitVec.not_inj.mp (BitVec.eq_of_toNat_eq heq))

/-! ### Blocks -/

theorem leValue_injective {as bs : List UInt8} (hlen : as.length = bs.length)
    (h : leValue as = leValue bs) : as = bs := by
  induction as generalizing bs with
  | nil => exact (List.length_eq_zero_iff.mp hlen.symm).symm
  | cons a as ih =>
    cases bs with
    | nil => cases hlen
    | cons b bs =>
      rw [leValue, leValue] at h
      have ha := a.toNat_lt
      have hb := b.toNat_lt
      have hhead : a = b := UInt8.toNat_inj.mp (by omega)
      rw [hhead, ih (Nat.succ.inj hlen) (by omega)]

/-- The stored checksum is that of the block. -/
def Matches (env : Env) (body : List UInt8) : Prop :=
  env.checksum (body.drop csumLen) = leAt body 0 4

/-- Only bytes within a window of four differ, and none in the part of the checksum field
that CRC-32 leaves unused. -/
def Burst (body body' : List UInt8) : Prop :=
  ∃ w, ∀ i, body'[i]? ≠ body[i]? → w ≤ i ∧ i < w + 4 ∧ ¬ (4 ≤ i ∧ i < csumLen)

section Block

variable {env : Env} {body body' : List UInt8}

/-- Of two blocks that differ by a burst, at most one has a checksum that matches. -/
theorem burst_unchecks (hcrc : Iscsi env.checksum) (hlen : body'.length = body.length)
    (hburst : Burst body body') (hne : body' ≠ body) (h : Matches env body) :
    ¬ Matches env body' := by
  intro h'
  obtain ⟨w, hw⟩ := hburst
  have hcsum : csumLen = 32 := rfl
  have hsame : ∀ i, ¬ (w ≤ i ∧ i < w + 4 ∧ ¬ (4 ≤ i ∧ i < csumLen)) → body'[i]? = body[i]? :=
    fun i hi => not_not.mp fun hdiff => hi (hw i hdiff)
  have htake : body'.take 4 = body.take 4 → leAt body' 0 4 = leAt body 0 4 := by
    intro heq
    rw [leAt, leAt, List.drop_zero, List.drop_zero, heq]
  by_cases hbody : body'.drop csumLen = body.drop csumLen
  · -- behind the checksum nothing has changed, so the checksum has
    have hfirst : body'.take 4 = body.take 4 := by
      have hvalue : leAt body' 0 4 = leAt body 0 4 := by
        rw [← h, ← h', hbody]
      refine leValue_injective ?_ hvalue
      rw [List.length_take, List.length_take, hlen]
    refine hne (List.ext_getElem? fun i => ?_)
    by_cases h4 : i < 4
    · have hi := congrArg (fun l : List UInt8 => l[i]?) hfirst
      simpa only [List.getElem?_take_of_lt h4] using hi
    by_cases h32 : i < csumLen
    · exact hsame i fun hi => hi.2.2 ⟨by omega, h32⟩
    · have hi := congrArg (fun l : List UInt8 => l[i - csumLen]?) hbody
      simpa only [List.getElem?_drop, Nat.add_sub_cancel' (not_lt.mp h32)] using hi
  · -- the window reaches behind the checksum, and the register tells the two apart
    obtain ⟨j, hj⟩ : ∃ j, body'[csumLen + j]? ≠ body[csumLen + j]? := by
      by_contra hall
      refine hbody (List.ext_getElem? fun j => ?_)
      rw [List.getElem?_drop, List.getElem?_drop]
      exact not_not.mp fun hdiff => hall ⟨j, hdiff⟩
    have hwindow := hw _ hj
    have hvalue : leAt body' 0 4 = leAt body 0 4 := by
      refine htake (List.ext_getElem? fun i => ?_)
      by_cases h4 : i < 4
      · rw [List.getElem?_take_of_lt h4, List.getElem?_take_of_lt h4]
        exact hsame i fun hi => by omega
      · rw [List.getElem?_take_eq_none (by omega), List.getElem?_take_eq_none (by omega)]
    refine hcrc.ne_of_window (i := w - csumLen) ?_ hbody (fun i hi => ?_) ?_
    · rw [List.length_drop, List.length_drop, hlen]
    · rw [List.getElem?_drop, List.getElem?_drop]
      exact hsame _ fun hin => by omega
    · rw [h, h', hvalue]

/-- A block whose checksum does not match is not accepted. -/
theorem acceptBlock_mismatch (logical : ℕ) (hlen : ValidNodesize body.length)
    (h : ¬ Matches env body) : acceptBlock env logical body = err (.csumMismatch logical) := by
  have hmin : 4096 ≤ body.length := hlen.1
  have hsz : Header.size = 101 := rfl
  have hcl : csumLen = 32 := rfl
  have hverify : ¬ verifyCrc32c env ((body.drop csumLen).take (body.length - csumLen))
      (Header.readAt body).csum = true := by
    have hstored : (Header.readAt body).csum = body.take 32 := rfl
    have hall : (body.drop csumLen).take (body.length - csumLen) = body.drop csumLen := by
      rw [List.take_of_length_le (by simp)]
    have hfirst : leAt (body.take 32) 0 4 = leAt body 0 4 := by
      simp [leAt, List.take_take]
    rw [verifyCrc32c, hstored, hall, if_neg (by simp; omega), hfirst, beq_iff_eq]
    exact h
  unfold acceptBlock
  rw [Header.parse_eq, if_neg (by omega), Except.ok_bind, okOr_some, Except.ok_bind,
    slice_ok (by omega) le_rfl, Except.ok_bind, if_pos hverify]

end Block

/-! ### Reading them -/

section Reading

variable {env : Env} {map : ChunkMap} {dev dev' : Device}

/-- A logical read from a device, byte by byte. -/
theorem run_fetch_byteAt {io : ℕ → Error} {n len cursor : ℕ} {out : List UInt8}
    (h : (fetch env map io n len cursor).run dev.answer = .ok out) {i : ℕ} (hi : i < len) :
    out[i]? = map.byteAt env dev (cursor + i) := by
  obtain ⟨hlen, hbytes⟩ := run_fetch h
  obtain ⟨r, offset, k, hr, -, -, -, hb⟩ := hbytes i (by omega)
  rw [ChunkMap.byteAt_of_resolve hr, ← hb, List.getElem?_eq_getElem]

/-- Where two devices serve the same requests, logical reads succeed on both or fail alike. -/
theorem run_fetch_served (hserves : dev'.serves = dev.serves) (io : ℕ → Error)
    (n len cursor : ℕ) :
    (∃ out out', (fetch env map io n len cursor).run dev.answer = .ok out ∧
      (fetch env map io n len cursor).run dev'.answer = .ok out') ∨
    ∃ x, (fetch env map io n len cursor).run dev.answer = .error x ∧
      (fetch env map io n len cursor).run dev'.answer = .error x := by
  induction n generalizing len cursor with
  | zero => exact .inr ⟨_, rfl, rfl⟩
  | succ n ih =>
    rw [fetch]
    by_cases hpos : 0 < len
    · rw [if_pos hpos]
      simp only [Prog.run_bind, Prog.run_liftM, Prog.run_pure, Device.run_readAt, hserves]
      cases hr : map.resolve env cursor with
      | error x => exact .inr ⟨x, rfl, rfl⟩
      | ok r =>
        simp only [Except.ok_bind]
        by_cases hserve : dev.serves r.physical (min len r.contiguousBytes) = true
        · rw [if_pos hserve, if_pos hserve, Except.ok_bind, Except.ok_bind]
          rcases ih (len - min len r.contiguousBytes) (cursor + min len r.contiguousBytes) with
            ⟨out, out', h, h'⟩ | ⟨x, h, h'⟩
          · rw [h, h']
            exact .inl ⟨_, _, rfl, rfl⟩
          · rw [h, h']
            exact .inr ⟨x, rfl, rfl⟩
        · rw [if_neg hserve, if_neg hserve]
          exact .inr ⟨_, rfl, rfl⟩
    · rw [if_neg hpos]
      exact .inl ⟨_, _, rfl, rfl⟩

/-- Some byte of the block at `l` is another one on the second device. -/
def DamagedAt (env : Env) (map : ChunkMap) (dev dev' : Device) (nodesize l : ℕ) : Prop :=
  ∃ i < nodesize, map.byteAt env dev' (l + i) ≠ map.byteAt env dev (l + i)

/-- If so, it is within a burst. -/
def BurstAt (env : Env) (map : ChunkMap) (dev dev' : Device) (nodesize l : ℕ) : Prop :=
  ∃ w, ∀ i < nodesize, map.byteAt env dev' (l + i) ≠ map.byteAt env dev (l + i) →
    w ≤ i ∧ i < w + 4 ∧ ¬ (4 ≤ i ∧ i < csumLen)

abbrev Mismatch (x : Stop) : Prop := ∃ l, x = .err (.csumMismatch l)

/-- The error that a damaged block leads to. -/
def PointsAt (env : Env) (map : ChunkMap) (dev dev' : Device) (nodesize : ℕ) (e : Event)
    (x : Stop) : Prop :=
  ∃ l, e = .block l ∧ DamagedAt env map dev dev' nodesize l ∧ x = .err (.csumMismatch l)

/-- A block is read alike from both devices, unless it is damaged; then one of the two
reads fails. -/
theorem readTreeBlock_reveals (h64 : env.usizeBits = 64) (hcrc : Iscsi env.checksum)
    {nodesize : ℕ} (hnode : ValidNodesize nodesize) (hserves : dev'.serves = dev.serves) {l : ℕ}
    (hburst : BurstAt env map dev dev' nodesize l) :
    Reveals Mismatch (PointsAt env map dev dev' nodesize)
      ((readTreeBlock env map nodesize l).trace dev.answer)
      ((readTreeBlock env map nodesize l).run dev.answer)
      ((readTreeBlock env map nodesize l).run dev'.answer) := by
  have hmax : nodesize ≤ 65536 := hnode.2
  have hfits : nodesize < 2 ^ env.usizeBits := by
    rw [h64]
    omega
  have hrun : ∀ d : Device, (readTreeBlock env map nodesize l).run d.answer =
      ((fetch env map (.io "tree_block_read") (nodesize + 1) nodesize l).run d.answer >>=
        acceptBlock env l) := by
    intro d
    unfold readTreeBlock
    rw [readBody_eq hfits]
    simp only [Prog.run_bind, run_note_event, Except.ok_bind, Prog.run_liftM]
  have hnoted : Event.block l ∈ (readTreeBlock env map nodesize l).trace dev.answer := by
    unfold readTreeBlock
    rw [Prog.trace_bind]
    exact List.mem_append_left _ (List.mem_singleton_self _)
  rw [hrun, hrun]
  rcases @run_fetch_served env map dev dev' hserves (.io "tree_block_read") (nodesize + 1)
    nodesize l with ⟨body, body', h, h'⟩ | ⟨x, h, h'⟩
  · rw [h, h', Except.ok_bind, Except.ok_bind]
    have hlen := (run_fetch h).1
    have hlen' := (run_fetch h').1
    by_cases hsame : body' = body
    · rw [hsame]
      exact .inl rfl
    have hdiff : ∀ i, body'[i]? ≠ body[i]? → i < nodesize ∧
        map.byteAt env dev' (l + i) ≠ map.byteAt env dev (l + i) := by
      intro i hi
      have hlt : i < nodesize := by
        by_contra hge
        refine hi ?_
        rw [List.getElem?_eq_none (by omega), List.getElem?_eq_none (by omega)]
      rw [run_fetch_byteAt h hlt, run_fetch_byteAt h' hlt] at hi
      exact ⟨hlt, hi⟩
    obtain ⟨w, hw⟩ := hburst
    have hbodies : Burst body body' := ⟨w, fun i hi => hw i (hdiff i hi).1 (hdiff i hi).2⟩
    by_cases hmatch : Matches env body
    · have hno := burst_unchecks hcrc (by omega) hbodies hsame hmatch
      obtain ⟨i, hi⟩ : ∃ i, ¬ body'[i]? = body[i]? := by
        by_contra hall
        exact hsame (List.ext_getElem? fun i => not_not.mp fun hi => hall ⟨i, hi⟩)
      rw [acceptBlock_mismatch l (by rwa [hlen']) hno]
      exact .inr (.inr ⟨_, hnoted, _, rfl, l, rfl, ⟨i, hdiff i hi⟩, rfl⟩)
    · rw [acceptBlock_mismatch l (by rwa [hlen]) hmatch]
      exact .inr (.inl ⟨_, rfl, l, rfl⟩)
  · rw [h, h']
    exact .inl rfl

end Reading

/-! ### Calls -/

namespace Btrfs

/-- Damage to the tree blocks a call reads, a burst in each at most, never changes its
reply: on the damaged device it replies the same, or fails with the error that names a
damaged block it has read; unless a block was damaged before. -/
theorem damage_detected {env : Env} (h64 : env.usizeBits = 64) (hcrc : Iscsi env.checksum)
    (fs : Btrfs) {dev dev' : Device} (hserves : dev'.serves = dev.serves) {r : Request}
    (hr : r.Structural)
    (hburst : ∀ l, .block l ∈ (r.program env fs).trace dev.answer →
      BurstAt env fs.chunkMap dev dev' fs.geometry.nodesize l) :
    (r.program env fs).run dev'.answer = (r.program env fs).run dev.answer ∨
    (∃ l, (r.program env fs).run dev.answer = err (.csumMismatch l)) ∨
    ∃ l, .block l ∈ (r.program env fs).trace dev.answer ∧
      DamagedAt env fs.chunkMap dev dev' fs.geometry.nodesize l ∧
      (r.program env fs).run dev'.answer = err (.csumMismatch l) := by
  -- the parts are block reads, and both runs put the same ones
  have halike : Alike (fun q q' : ReadM TreeBlock => q' = q ∧
      ∃ l, q = readTreeBlock env fs.chunkMap fs.geometry.nodesize l)
      (r.program env fs) (r.program env fs) :=
    structural_alike (SameVolume.refl fs) (fun l => alike_part ⟨rfl, l, rfl⟩) hr
  have hreveals : Reveals Mismatch (PointsAt env fs.chunkMap dev dev' fs.geometry.nodesize)
      ((r.program env fs).trace dev.answer) ((r.program env fs).run dev.answer)
      ((r.program env fs).run dev'.answer) := by
    refine halike.reveals (P := fun e => ∀ l, e = .block l →
      BurstAt env fs.chunkMap dev dev' fs.geometry.nodesize l) (fun q q' hq hP => ?_)
      fun e he l hl => hburst l (hl ▸ he)
    obtain ⟨rfl, l, rfl⟩ := hq
    refine readTreeBlock_reveals h64 hcrc fs.geometry.validNodesize hserves (hP (.block l) ?_ l rfl)
    unfold readTreeBlock
    rw [Prog.trace_bind]
    exact List.mem_append_left _ (List.mem_singleton_self _)
  rcases hreveals with h | ⟨x, h, l, rfl⟩ | ⟨e, he, x, h, l, rfl, hdamaged, rfl⟩
  · exact .inl h
  · exact .inr (.inl ⟨l, h⟩)
  · exact .inr (.inr ⟨l, he, hdamaged, h⟩)

end Btrfs

theorem SliceDevice.serves_eq {s s' : SliceDevice} (h : s'.size = s.size) :
    s'.device.serves = s.device.serves := by
  show s'.inBounds = s.inBounds
  unfold SliceDevice.inBounds
  rw [h]

/-- Two bytes of the sample's tree block overwritten. -/
def scratchedVolume : SliceDevice where
  size := sampleVolume.size
  byte i := if i = 0x1800 ∨ i = 0x1801 then 0x5a else sampleVolume.byte i
  size_lt := sampleVolume.size_lt

/-- Where the first chunk of the sample lies. -/
theorem sampleMap_resolve {i : ℕ} (hi : i < 0x1000) : ∃ r,
    sampleMap.resolve referenceEnv (0x100000 + i) = .ok r ∧ r.physical = 0x1000 + i := by
  obtain ⟨m, hm, hlogical, hlength, s, hs, hoffset⟩ : ∃ m ∈ sampleMap.mappings,
      m.logical = 0x100000 ∧ m.length = 0x1000 ∧
        ∃ s, m.pickStripe sampleMap.localDevid = .ok s ∧ s.offset = 0x1000 :=
    ⟨sampleMap.mappings.head (by decide), by decide, by decide, by decide,
      ⟨1, 0x1000, List.replicate 16 0⟩, by decide, rfl⟩
  have hcov : m.Covers (0x100000 + i) := by
    refine ⟨by omega, ?_⟩
    show 0x100000 + i < m.logical + m.length
    omega
  rw [ChunkMap.resolve_of_covers referenceEnv hm hcov]
  refine ⟨_, (ChunkMapping.resolveAt_eq_ok hcov).mpr ⟨s, hs, by omega, rfl⟩, ?_⟩
  show s.offset + (0x100000 + i - m.logical) = _
  omega

namespace Btrfs

set_option maxRecDepth 100000 in
/-- The scratch is noticed by a call that reads the block. -/
theorem damage_detected_sample : ∃ l,
    ((Request.metadata sampleFile).program referenceEnv (sampleFs sampleMap)).run
      scratchedVolume.device.answer = err (.csumMismatch l) := by
  have hblocks : ∀ e ∈ ((Request.metadata sampleFile).program referenceEnv
      (sampleFs sampleMap)).trace sampleVolume.device.answer, e = .block 0x100000 := by
    decide +kernel
  have hburst : BurstAt referenceEnv sampleMap sampleVolume.device scratchedVolume.device 4096
      0x100000 := by
    refine ⟨0x800, fun i hi hdiff => ?_⟩
    obtain ⟨r, hr, hphysical⟩ := sampleMap_resolve hi
    rw [ChunkMap.byteAt_of_resolve hr, ChunkMap.byteAt_of_resolve hr, hphysical] at hdiff
    by_contra hout
    refine hdiff (congrArg some (if_neg fun h => hout ?_))
    have hcsum : csumLen = 32 := rfl
    omega
  have hserves : scratchedVolume.device.serves = sampleVolume.device.serves :=
    SliceDevice.serves_eq rfl
  have hstructural : (Request.metadata sampleFile).Structural := trivial
  have hintact : ((Request.metadata sampleFile).program referenceEnv (sampleFs sampleMap)).run
      sampleVolume.device.answer = .ok (.metadata ⟨5, 0, 0, 0o100644, 0, 0, 0⟩) := by
    decide +kernel
  have hhit : ((Request.metadata sampleFile).program referenceEnv (sampleFs sampleMap)).run
      scratchedVolume.device.answer ≠ .ok (.metadata ⟨5, 0, 0, 0o100644, 0, 0, 0⟩) := by
    decide +kernel
  rcases damage_detected referenceEnv_usize64 crc32c_iscsi (sampleFs sampleMap) hserves
    hstructural fun l hl => by
      cases hblocks _ hl
      exact hburst with h | ⟨l, h⟩ | ⟨l, -, -, h⟩
  · exact absurd (h.trans hintact) hhit
  · rw [hintact] at h
    cases h
  · exact ⟨l, h⟩

end Btrfs

/-! ### Superblock copies -/

section Copies

variable {env : Env} {dev dev' : Device}

/-- The copy at `offset` is as it was, or was whole and has been hit by a burst. -/
def AtMostBurst (env : Env) (dev dev' : Device) (offset : ℕ) : Prop :=
  dev'.bytes offset superblockSize = dev.bytes offset superblockSize ∨
    Matches env (dev.bytes offset superblockSize) ∧
      Burst (dev.bytes offset superblockSize) (dev'.bytes offset superblockSize)

/-- The valid copies that no damage has reached. -/
def survivors (env : Env) (dev dev' : Device) (size : ℕ) : List ValidSuperblock :=
  ((addressable size).filter fun offset =>
    dev'.bytes offset superblockSize = dev.bytes offset superblockSize).filterMap
      (validCopy env dev)

/-- A copy that a burst has changed is not taken for a superblock. -/
theorem not_genuine_of_burst (hcrc : Iscsi env.checksum) {offset : ℕ}
    (h : AtMostBurst env dev dev' offset)
    (hne : dev'.bytes offset superblockSize ≠ dev.bytes offset superblockSize) :
    ¬ GenuineCopy env (dev'.bytes offset superblockSize) := by
  rcases h with h | ⟨hmatch, hburst⟩
  · exact absurd h hne
  · intro hgenuine
    refine burst_unchecks hcrc ?_ hburst hne hmatch hgenuine.csum
    rw [Device.length_bytes, Device.length_bytes]

theorem ValidCopy.superblock_congr {buf buf' : List UInt8} (h : buf' = buf)
    (hv : ValidCopy env buf) (hv' : ValidCopy env buf') : hv'.superblock = hv.superblock := by
  subst h
  rfl

theorem validCopy_same (hserves : dev'.serves = dev.serves) {offset : ℕ}
    (h : dev'.bytes offset superblockSize = dev.bytes offset superblockSize) :
    validCopy env dev' offset = validCopy env dev offset := by
  have hcopy : CopyAt (ValidCopy env) dev' offset ↔ CopyAt (ValidCopy env) dev offset := by
    unfold CopyAt
    rw [hserves, h]
  unfold validCopy
  by_cases hv : CopyAt (ValidCopy env) dev offset
  · rw [dif_pos (hcopy.mpr hv), dif_pos hv]
    exact congrArg some (ValidCopy.superblock_congr h hv.2 (hcopy.mpr hv).2)
  · rw [dif_neg fun hv' => hv (hcopy.mp hv'), dif_neg hv]

/-- The superblock survives as long as one of its copies does: of the valid copies that
damage has not reached, the newest is loaded. -/
theorem load_survives (hcrc : Iscsi env.checksum) {size : ℕ} (hserves : dev'.serves = dev.serves)
    (hdamage : ∀ offset ∈ addressable size, AtMostBurst env dev dev' offset)
    (haccepted : ∀ offset ∈ addressable size, ¬ CopyAt (RefusedCopy env) dev offset) :
    (survivors env dev dev' size ≠ [] → ∃ sb, NewestOf (survivors env dev dev' size) sb ∧
      (load env size).run dev'.answer = .ok sb) ∧
    ∀ e, (load env size).run dev'.answer = .error e → survivors env dev dev' size = [] := by
  have hvalid : validCopies env dev' size = survivors env dev dev' size := by
    unfold validCopies survivors
    rw [List.filterMap_filter]
    refine List.filterMap_congr fun offset hoffset => ?_
    by_cases hsame : dev'.bytes offset superblockSize = dev.bytes offset superblockSize
    · rw [if_pos (decide_eq_true hsame)]
      exact validCopy_same hserves hsame
    · rw [if_neg (by simpa using hsame)]
      exact dif_neg fun h => not_genuine_of_burst hcrc (hdamage offset hoffset) hsame
        h.2.toGenuineCopy
  have hnone : ∀ offset ∈ addressable size, ¬ CopyAt (RefusedCopy env) dev' offset := by
    intro offset hoffset h
    by_cases hsame : dev'.bytes offset superblockSize = dev.bytes offset superblockSize
    · refine haccepted offset hoffset ⟨hserves ▸ h.1, ?_⟩
      rw [← hsame]
      exact h.2
    · exact not_genuine_of_burst hcrc (hdamage offset hoffset) hsame h.2.toGenuineCopy
  rw [← hvalid]
  rcases @run_load env dev' size with ⟨⟨offset, hoffset, h⟩, -⟩ | ⟨-, hrun⟩
  · exact absurd h (hnone offset hoffset)
  cases hmax : (validCopies env dev' size).argmax (fun c => c.generation) with
  | some sb =>
    rw [hmax] at hrun
    refine ⟨fun _ => ⟨sb, newestOf_argmax hmax, hrun⟩, fun e he => ?_⟩
    rw [hrun] at he
    cases he
  | none =>
    have hempty : validCopies env dev' size = [] := List.argmax_eq_none.mp hmax
    exact ⟨fun hne => absurd hempty hne, fun _ _ => hempty⟩

end Copies

theorem backedSize_lt : 0x4001000 < 2 ^ 64 := by decide

/-- A copy of generation 2 and a backup of generation 1. -/
def backedVolume : SliceDevice where
  size := 0x4001000
  byte i :=
    if i < 0x4000000 then
      UInt8.ofNat (Nat.shiftRight (image [(0, 3569611290), (0x40, btrfsMagic), (0x48, 2),
        (0x90, 4096), (0x94, 4096)]) (Nat.mul 8 (Nat.sub i 0x10000)))
    else
      UInt8.ofNat (Nat.shiftRight (image [(0, 3119051147), (0x40, btrfsMagic), (0x48, 1),
        (0x90, 4096), (0x94, 4096)]) (Nat.mul 8 (Nat.sub i 0x4000000)))
  size_lt := backedSize_lt

/-- The device with the root address of its first copy overwritten. -/
def scratchedCopy : SliceDevice where
  size := backedVolume.size
  byte i := if i = 0x10050 then 0x5a else backedVolume.byte i
  size_lt := backedVolume.size_lt

theorem scratchedCopy_byte {i : ℕ} (h : i ≠ 0x10050) :
    scratchedCopy.device.byte i = backedVolume.device.byte i := if_neg h

theorem scratchedCopy_bytes {offset : ℕ} (h : 0x10051 ≤ offset) :
    scratchedCopy.device.bytes offset superblockSize =
      backedVolume.device.bytes offset superblockSize :=
  List.map_congr_left fun i _ => scratchedCopy_byte (by omega)

theorem backed_offsets : addressable 0x4001000 = [0x10000, 0x4000000] := by decide

set_option maxRecDepth 100000 in
theorem backed_matches :
    Matches referenceEnv (backedVolume.device.bytes 0x10000 superblockSize) := by
  unfold Matches
  decide +kernel

theorem scratched_atMostBurst : ∀ offset ∈ addressable 0x4001000,
    AtMostBurst referenceEnv backedVolume.device scratchedCopy.device offset := by
  rw [backed_offsets]
  intro offset hoffset
  rcases List.mem_cons.mp hoffset with rfl | hoffset
  · refine .inr ⟨backed_matches, 0x50, fun i hi => ?_⟩
    by_cases hlt : i < superblockSize
    · rw [Device.getElem?_bytes _ hlt, Device.getElem?_bytes _ hlt] at hi
      by_contra hout
      refine hi (congrArg some (scratchedCopy_byte fun h => hout ?_))
      have hcsum : csumLen = 32 := rfl
      omega
    · refine absurd ?_ hi
      rw [List.getElem?_eq_none (by rw [Device.length_bytes]; omega),
        List.getElem?_eq_none (by rw [Device.length_bytes]; omega)]
  · rw [List.mem_singleton.mp hoffset]
    exact .inl (scratchedCopy_bytes (by decide))

set_option maxRecDepth 100000 in
theorem scratched_survivors : ∃ sb, sb.generation = 1 ∧
    survivors referenceEnv backedVolume.device scratchedCopy.device 0x4001000 = [sb] := by
  obtain ⟨sb, hvalid, hgeneration⟩ : ∃ sb,
      validCopy referenceEnv backedVolume.device 0x4000000 = some sb ∧ sb.generation = 1 := by
    have hmap : (validCopy referenceEnv backedVolume.device 0x4000000).map
        (fun sb => sb.generation) = some 1 := by
      decide +kernel
    exact Option.map_eq_some_iff.mp hmap
  have hfirst : scratchedCopy.device.bytes 0x10000 superblockSize ≠
      backedVolume.device.bytes 0x10000 superblockSize := by
    intro h
    have hbyte := congrArg (fun l : List UInt8 => l[0x50]?) h
    rw [Device.getElem?_bytes _ (by decide), Device.getElem?_bytes _ (by decide)] at hbyte
    exact absurd hbyte (by decide +kernel)
  have hsecond := scratchedCopy_bytes (show 0x10051 ≤ 0x4000000 by decide)
  refine ⟨sb, hgeneration, ?_⟩
  unfold survivors
  rw [backed_offsets, List.filter_cons_of_neg (by simpa using hfirst),
    List.filter_cons_of_pos (by simpa using hsecond), List.filter_nil,
    List.filterMap_cons_some hvalid, List.filterMap_nil]

set_option maxRecDepth 100000 in
/-- The backup is loaded in place of the scratched copy. -/
theorem load_survives_sample : ∃ sb,
    (load referenceEnv 0x4001000).run scratchedCopy.device.answer = .ok sb ∧
      sb.generation = 1 := by
  have hserves : scratchedCopy.device.serves = backedVolume.device.serves :=
    SliceDevice.serves_eq rfl
  have haccepted : ∀ offset ∈ addressable 0x4001000,
      ¬ CopyAt (RefusedCopy referenceEnv) backedVolume.device offset := by
    decide +kernel
  obtain ⟨sb, hgeneration, hsurvivors⟩ := scratched_survivors
  obtain ⟨sb', hnewest, hload⟩ :=
    (load_survives crc32c_iscsi hserves scratched_atMostBurst haccepted).1 (by
      rw [hsurvivors]
      exact List.cons_ne_nil _ _)
  obtain ⟨pre, post, hsplit, -, -⟩ := hnewest
  have hmem : sb' ∈ [sb] := by
    rw [← hsurvivors, hsplit]
    simp
  obtain rfl := List.mem_singleton.mp hmem
  exact ⟨sb', hload, hgeneration⟩
