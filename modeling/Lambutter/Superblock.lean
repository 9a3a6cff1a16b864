/-
The superblock: load and validate the four canonical copies.

`load` keeps the valid copy of highest generation.  A `ValidSuperblock` carries what
the validation has checked of the two block sizes, which everything after it relies
on; `load_ensures` adds what the parser guarantees of the other fields.

What makes a copy valid is said again, without the order of the checks, as `ValidCopy`.
`newestWins_iff` is when the newest of the valid copies is the one returned: a copy
with an incompat bit that the crate refuses ends the loop, wherever it stands.
-/
import Lambutter.Btree
import Lambutter.Compression
import Lambutter.Descent
import Lambutter.Reference
import Mathlib.Data.List.MinMax

def isPowerOfTwo (v : ℕ) : Bool := v == 2 ^ Nat.log2 v

def isPow2InRange (value min max : ℕ) : Bool :=
  decide (min ≤ value) && decide (value ≤ max) && isPowerOfTwo value

/-- A superblock whose block sizes have been checked. -/
structure ValidSuperblock extends Superblock where
  validSectorsize : isPow2InRange sectorsize minSectorSize maxSectorSize = true
  validNodesize : isPow2InRange nodesize minNodeSize maxNodeSize = true

/-- What came of one canonical location. -/
inductive CopyOutcome
  | valid (sb : ValidSuperblock)
  | badMagic
  | badCsum
  | unsupportedCsumType (token : String)
  | unsupportedIncompat (token : String)
  | badGeometry
  | ioError

/-- The checks of the incompat bits: the token of the first one refused. -/
def refusedIncompat (flags : ℕ) : Option String :=
  let rejected := flags &&& (incompatZoned ||| incompatRaidStripeTree ||| incompatRemapTree)
  if flags &&& ((2 ^ 64 - 1) ^^^ incompatAll) ≠ 0 then some "feat_unknown_incompat"
  else if rejected &&& incompatZoned = incompatZoned then some "feat_zoned"
  else if rejected &&& incompatRaidStripeTree = incompatRaidStripeTree then
    some "feat_raid_stripe_tree"
  else if rejected &&& incompatRemapTree = incompatRemapTree then some "feat_remap_tree"
  else none

/-- The checks of `try_load_one` on the bytes it has read. -/
def checkCopy (env : Env) (buf : List UInt8) : Outcome CopyOutcome := do
  match ← Superblock.parse buf with
  | none => return .badMagic
  | some sb =>
    if sb.magic ≠ btrfsMagic then return .badMagic
    else if sb.csumType = csumTypeXxhash then return .unsupportedCsumType "csum_xxhash"
    else if sb.csumType = csumTypeSha256 then return .unsupportedCsumType "csum_sha256"
    else if sb.csumType = csumTypeBlake2 then return .unsupportedCsumType "csum_blake2"
    else if sb.csumType ≠ csumTypeCrc32c then return .unsupportedCsumType "csum_unknown"
    else do
      let body ← slice buf csumLen buf.length
      if ¬ verifyCrc32c env body sb.csum then return .badCsum
      else
        match refusedIncompat sb.incompatFlags with
        | some token => return .unsupportedIncompat token
        | none =>
          if h : isPow2InRange sb.sectorsize minSectorSize maxSectorSize = true ∧
              isPow2InRange sb.nodesize minNodeSize maxNodeSize = true then
            return .valid { sb with validSectorsize := h.1, validNodesize := h.2 }
          else return .badGeometry

def tryLoadOne (env : Env) (offset : ℕ) : ReadM CopyOutcome := do
  match ← tryReadAt offset superblockSize with
  | none => return .ioError
  | some buf => checkCopy env buf

/-- What `load` remembers of the copies it has seen. -/
structure Seen where
  lastSpecificReason : Option SuperblockReason := none
  unsupportedCsum : Option String := none
  best : Option ValidSuperblock := none

/-- Keep the copy of higher generation, the earlier one on a tie. -/
def Seen.better (seen : Seen) (sb : ValidSuperblock) : Seen :=
  match seen.best with
  | none => { seen with best := some sb }
  | some current =>
    if current.generation < sb.generation then { seen with best := some sb } else seen

def Seen.reason (seen : Seen) (reason : SuperblockReason) : Seen :=
  { seen with lastSpecificReason := some (seen.lastSpecificReason.getD reason) }

def load.loop (env : Env) (deviceSizeBytes : ℕ) : List ℕ → Seen → ReadM Seen
  | [], seen => return seen
  | offset :: rest, seen =>
    if deviceSizeBytes ≤ offset then loop env deviceSizeBytes rest seen
    else do
      match ← tryLoadOne env offset with
      | .valid sb => loop env deviceSizeBytes rest (seen.better sb)
      | .badMagic => loop env deviceSizeBytes rest (seen.reason .badMagic)
      | .badCsum => loop env deviceSizeBytes rest (seen.reason .badCsum)
      | .unsupportedCsumType token =>
        loop env deviceSizeBytes rest
          { seen with unsupportedCsum := some (seen.unsupportedCsum.getD token) }
      | .unsupportedIncompat token => (err (.unsupportedFeature token) : Outcome Seen)
      | .badGeometry => loop env deviceSizeBytes rest (seen.reason .badGeometry)
      | .ioError => loop env deviceSizeBytes rest seen

/-- Try each canonical location and pick the valid copy of highest generation. -/
def load (env : Env) (deviceSizeBytes : ℕ) : ReadM ValidSuperblock := do
  let seen ← load.loop env deviceSizeBytes superblockOffsets {}
  match seen.best with
  | some sb => return sb
  | none =>
    match seen.unsupportedCsum with
    | some token => (err (.unsupportedChecksum token) : Outcome ValidSuperblock)
    | none =>
      (err (.badSuperblock (seen.lastSpecificReason.getD .noValidCopy)) : Outcome ValidSuperblock)

/-! ### What a loaded superblock is -/

theorem isPow2InRange_bounds {value min max : ℕ} (h : isPow2InRange value min max = true) :
    min ≤ value ∧ value ≤ max := by
  unfold isPow2InRange at h
  simp only [Bool.and_eq_true, decide_eq_true_eq] at h
  exact h.1

namespace ValidSuperblock

theorem nodesize_valid (sb : ValidSuperblock) : ValidNodesize sb.nodesize :=
  isPow2InRange_bounds sb.validNodesize

theorem sectorsize_valid (sb : ValidSuperblock) : ValidSectorsize sb.sectorsize :=
  isPow2InRange_bounds sb.validSectorsize

/-- What the parser guarantees: the array is whole and its size field a `u32`. -/
structure Parsed (sb : ValidSuperblock) : Prop where
  array_length : sb.sysChunkArray.length = 2048
  size_lt : sb.sysChunkArraySize < 2 ^ 32

end ValidSuperblock

section Ensures

variable {env : Env}

theorem checkCopy_ok {buf : List UInt8} (hlen : buf.length = superblockSize) :
    ∃ r, checkCopy env buf = .ok r ∧ ∀ sb, r = .valid sb → sb.Parsed := by
  have hsz : superblockSize = 4096 := rfl
  have hcl : csumLen = 32 := rfl
  unfold checkCopy
  rw [Superblock.parse_eq, if_neg (by omega), Except.ok_bind]
  dsimp only
  have hnone : ∀ {r : CopyOutcome}, (∀ sb, r ≠ .valid sb) →
      ∃ r', (pure r : Outcome CopyOutcome) = .ok r' ∧ ∀ sb, r' = .valid sb → sb.Parsed :=
    fun hr => ⟨_, rfl, fun sb hsb => absurd hsb (hr sb)⟩
  rw [slice_ok (by omega) le_rfl, Except.ok_bind]
  split_ifs
  · exact hnone (by simp)
  · exact hnone (by simp)
  · exact hnone (by simp)
  · exact hnone (by simp)
  · exact hnone (by simp)
  · cases refusedIncompat (Superblock.readAt buf).incompatFlags with
    | some token => exact hnone (by simp)
    | none =>
      refine ⟨_, rfl, ?_⟩
      rintro sb ⟨⟩
      refine ⟨?_, leAt_lt buf 160 4⟩
      show ((buf.drop 811).take 2048).length = 2048
      rw [List.length_take, List.length_drop]
      omega
  · cases refusedIncompat (Superblock.readAt buf).incompatFlags with
    | some token => exact hnone (by simp)
    | none => exact hnone (by simp)
  · exact hnone (by simp)

/-- The best copy is the one just seen or the best one before. -/
theorem Seen.mem_better {seen : Seen} {sb sb' : ValidSuperblock}
    (h : sb' ∈ (seen.better sb).best) : sb' = sb ∨ sb' ∈ seen.best := by
  unfold Seen.better at h
  cases hbest : seen.best with
  | none =>
    rw [hbest] at h
    cases h
    exact .inl rfl
  | some current =>
    simp only [hbest] at h
    split_ifs at h
    · cases h
      exact .inl rfl
    · rw [hbest] at h
      exact .inr h

theorem load_loop_ensures (deviceSizeBytes : ℕ) (offsets : List ℕ) {seen : Seen}
    (hseen : ∀ sb ∈ seen.best, sb.Parsed) :
    Prog.Ensures Stop.Typed (load.loop env deviceSizeBytes offsets seen)
      fun seen => ∀ sb ∈ seen.best, sb.Parsed := by
  induction offsets generalizing seen with
  | nil => exact Prog.Ensures.pure hseen
  | cons offset rest ih =>
    rw [load.loop]
    split_ifs
    · exact ih hseen
    -- a copy that is valid has parsed, whatever comes of the others
    have hcopy : Prog.Ensures Stop.Typed (tryLoadOne env offset)
        fun r => ∀ sb, r = .valid sb → sb.Parsed := by
      refine Prog.Ensures.bind (tryReadAt_ensures offset superblockSize) fun a ha => ?_
      cases a with
      | none => exact Prog.Ensures.pure (by simp)
      | some buf =>
        obtain ⟨r, hr, hvalid⟩ := @checkCopy_ok env _ (ha buf (by simp))
        dsimp only
        rw [hr]
        exact Prog.Ensures.pure hvalid
    refine Prog.Ensures.bind hcopy fun r hr => ?_
    cases r with
    | valid sb =>
      refine ih fun sb' hsb' => ?_
      rcases Seen.mem_better hsb' with rfl | hsb'
      · exact hr sb' rfl
      · exact hseen sb' hsb'
    | badMagic => exact ih hseen
    | badCsum => exact ih hseen
    | unsupportedCsumType token => exact ih hseen
    | unsupportedIncompat token => exact trivial
    | badGeometry => exact ih hseen
    | ioError => exact ih hseen

/-- `load` ends without a panic, with a superblock whose fields are in range. -/
theorem load_ensures (deviceSizeBytes : ℕ) :
    Prog.Ensures Stop.Typed (load env deviceSizeBytes) ValidSuperblock.Parsed := by
  refine Prog.Ensures.bind (load_loop_ensures deviceSizeBytes _ (by simp)) fun seen hseen => ?_
  cases hbest : seen.best with
  | some sb => exact Prog.Ensures.pure (hseen sb (by simp [hbest]))
  | none =>
    cases seen.unsupportedCsum with
    | some token => exact trivial
    | none => exact trivial

end Ensures

/-! ### The newest copy -/

/-- Only bits the crate knows, and none of the three it turns down: zoned, the RAID
stripe tree and the remap tree. -/
structure SupportedIncompat (flags : ℕ) : Prop where
  known : ∀ i, flags.testBit i = true → incompatAll.testBit i = true
  rejected : ∀ i ∈ [12, 14, 17], flags.testBit i = false

theorem and_eq_zero_iff_testBit {x mask : ℕ} :
    x &&& mask = 0 ↔ ∀ i, x.testBit i = true → mask.testBit i = false := by
  constructor
  · intro h i hi
    have hbit : (x &&& mask).testBit i = false := by rw [h, Nat.zero_testBit]
    rwa [Nat.testBit_and, hi, Bool.true_and] at hbit
  · intro h
    refine Nat.eq_of_testBit_eq fun i => ?_
    rw [Nat.testBit_and, Nat.zero_testBit]
    cases hi : x.testBit i with
    | false => rfl
    | true => exact h i hi

/-- `contains` of a flag of one bit, on a set cut down to a mask that has the bit. -/
theorem contains_bit {flags mask k : ℕ} (hk : mask.testBit k = true) :
    (flags &&& mask) &&& 1 <<< k = 1 <<< k ↔ flags.testBit k = true := by
  have hpos : 0 < 2 ^ k := Nat.two_pow_pos k
  rw [Nat.one_shiftLeft, Nat.and_two_pow, Nat.testBit_and, hk, Bool.and_true]
  cases flags.testBit k with
  | false =>
    show 0 * 2 ^ k = 2 ^ k ↔ _
    simp only [Bool.false_eq_true, iff_false]
    omega
  | true => simp

theorem unknown_bits_eq_zero {flags : ℕ} (hflags : flags < 2 ^ 64) :
    flags &&& ((2 ^ 64 - 1) ^^^ incompatAll) = 0 ↔
      ∀ i, flags.testBit i = true → incompatAll.testBit i = true := by
  rw [and_eq_zero_iff_testBit]
  refine forall_congr' fun i => imp_congr_right fun hi => ?_
  have hlt : i < 64 := by
    by_contra hge
    have hpow : 2 ^ 64 ≤ 2 ^ i := Nat.pow_le_pow_right (by omega) (by omega)
    rw [Nat.testBit_lt_two_pow (by omega)] at hi
    cases hi
  rw [Nat.testBit_xor, Nat.testBit_two_pow_sub_one, decide_eq_true hlt]
  cases incompatAll.testBit i <;> decide

/-- The crate refuses exactly the other flags. -/
theorem refusedIncompat_eq_none {flags : ℕ} (hflags : flags < 2 ^ 64) :
    refusedIncompat flags = none ↔ SupportedIncompat flags := by
  unfold refusedIncompat
  dsimp only
  by_cases hknown : flags &&& ((2 ^ 64 - 1) ^^^ incompatAll) = 0
  swap
  · rw [if_pos hknown]
    constructor
    · intro h
      cases h
    · intro h
      exact absurd ((unknown_bits_eq_zero hflags).mpr h.known) hknown
  rw [if_neg (not_not.mpr hknown)]
  -- the known flags but three: each mask test is a test of its one bit
  have hmask : ∀ k ∈ [12, 14, 17],
      (incompatZoned ||| incompatRaidStripeTree ||| incompatRemapTree).testBit k = true := by
    decide
  have hzoned := @contains_bit flags _ 12 (hmask 12 (by simp))
  have hstripe := @contains_bit flags _ 14 (hmask 14 (by simp))
  have hremap := @contains_bit flags _ 17 (hmask 17 (by simp))
  constructor
  · intro h
    split_ifs at h with h12 h14 h17
    refine ⟨(unknown_bits_eq_zero hflags).mp hknown, ?_⟩
    simp only [List.forall_mem_cons, List.not_mem_nil, false_implies, implies_true, and_true,
      ← Bool.not_eq_true]
    exact ⟨fun hf => h12 (hzoned.mpr hf), fun hf => h14 (hstripe.mpr hf),
      fun hf => h17 (hremap.mpr hf)⟩
  · intro h
    have hclear : ∀ k ∈ [12, 14, 17], ¬ flags.testBit k = true := by
      intro k hk
      rw [h.rejected k hk]
      exact Bool.false_ne_true
    rw [if_neg fun hc => hclear 12 (by simp) (hzoned.mp hc),
      if_neg fun hc => hclear 14 (by simp) (hstripe.mp hc),
      if_neg fun hc => hclear 17 (by simp) (hremap.mp hc)]

/-- A block size a valid superblock may have. -/
def BlockSize (v : ℕ) : Prop := 4096 ≤ v ∧ v ≤ 65536 ∧ ∃ k, v = 2 ^ k

theorem isPow2InRange_iff (v : ℕ) : isPow2InRange v 4096 65536 = true ↔ BlockSize v := by
  unfold isPow2InRange isPowerOfTwo BlockSize
  simp only [Bool.and_eq_true, decide_eq_true_eq, beq_iff_eq, and_assoc]
  refine and_congr_right fun _ => and_congr_right fun _ => ?_
  constructor
  · intro h
    exact ⟨_, h⟩
  · rintro ⟨k, rfl⟩
    rw [Nat.log2_two_pow]

/-- A block that passes for a superblock, up to its incompat bits and block sizes. -/
structure GenuineCopy (env : Env) (buf : List UInt8) : Prop where
  magic : (Superblock.readAt buf).magic = btrfsMagic
  csumType : (Superblock.readAt buf).csumType = csumTypeCrc32c
  csum : env.checksum (buf.drop 32) = leAt buf 0 4

/-- A block that is a valid superblock. -/
structure ValidCopy (env : Env) (buf : List UInt8) : Prop extends GenuineCopy env buf where
  incompat : SupportedIncompat (Superblock.readAt buf).incompatFlags
  sectorsize : BlockSize (Superblock.readAt buf).sectorsize
  nodesize : BlockSize (Superblock.readAt buf).nodesize

/-- A block that is a superblock with incompat bits the crate refuses. -/
structure RefusedCopy (env : Env) (buf : List UInt8) : Prop extends GenuineCopy env buf where
  incompat : ¬ SupportedIncompat (Superblock.readAt buf).incompatFlags

/-- The superblock in a valid block. -/
def ValidCopy.superblock {env : Env} {buf : List UInt8} (h : ValidCopy env buf) :
    ValidSuperblock where
  toSuperblock := Superblock.readAt buf
  validSectorsize := (isPow2InRange_iff _).mpr h.sectorsize
  validNodesize := (isPow2InRange_iff _).mpr h.nodesize

section Decide

variable {env : Env} {buf : List UInt8}

theorem genuineCopy_iff : GenuineCopy env buf ↔ (Superblock.readAt buf).magic = btrfsMagic ∧
    (Superblock.readAt buf).csumType = csumTypeCrc32c ∧
    env.checksum (buf.drop 32) = leAt buf 0 4 :=
  ⟨fun h => ⟨h.magic, h.csumType, h.csum⟩, fun ⟨hm, ht, hc⟩ => ⟨hm, ht, hc⟩⟩

instance : Decidable (GenuineCopy env buf) := decidable_of_iff _ genuineCopy_iff.symm

theorem refusedIncompat_readAt : refusedIncompat (Superblock.readAt buf).incompatFlags = none ↔
    SupportedIncompat (Superblock.readAt buf).incompatFlags :=
  refusedIncompat_eq_none (leAt_lt buf 188 8)

theorem validCopy_iff : ValidCopy env buf ↔ GenuineCopy env buf ∧
    refusedIncompat (Superblock.readAt buf).incompatFlags = none ∧
    isPow2InRange (Superblock.readAt buf).sectorsize minSectorSize maxSectorSize = true ∧
    isPow2InRange (Superblock.readAt buf).nodesize minNodeSize maxNodeSize = true := by
  constructor
  · intro h
    exact ⟨h.toGenuineCopy, refusedIncompat_readAt.mpr h.incompat,
      (isPow2InRange_iff _).mpr h.sectorsize, (isPow2InRange_iff _).mpr h.nodesize⟩
  · rintro ⟨hg, hi, hs, hn⟩
    exact ⟨hg, refusedIncompat_readAt.mp hi, (isPow2InRange_iff _).mp hs,
      (isPow2InRange_iff _).mp hn⟩

instance : Decidable (ValidCopy env buf) := decidable_of_iff _ validCopy_iff.symm

theorem refusedCopy_iff : RefusedCopy env buf ↔ GenuineCopy env buf ∧
    refusedIncompat (Superblock.readAt buf).incompatFlags ≠ none := by
  constructor
  · intro h
    exact ⟨h.toGenuineCopy, fun hn => h.incompat (refusedIncompat_readAt.mp hn)⟩
  · rintro ⟨hg, hr⟩
    exact ⟨hg, fun hs => hr (refusedIncompat_readAt.mpr hs)⟩

instance : Decidable (RefusedCopy env buf) := decidable_of_iff _ refusedCopy_iff.symm

end Decide

section Newest

variable {env : Env}

/-- The outcome of a copy: valid, refused, or passed over. -/
theorem checkCopy_cases {buf : List UInt8} (hlen : buf.length = superblockSize) :
    (∃ h : ValidCopy env buf, checkCopy env buf = .ok (.valid h.superblock)) ∨
    (RefusedCopy env buf ∧ ∃ token, checkCopy env buf = .ok (.unsupportedIncompat token)) ∨
    (¬ ValidCopy env buf ∧ ¬ RefusedCopy env buf ∧ ∃ r, checkCopy env buf = .ok r ∧
      (∀ sb, r ≠ .valid sb) ∧ ∀ token, r ≠ .unsupportedIncompat token) := by
  have hsz : superblockSize = 4096 := rfl
  have hcl : csumLen = 32 := rfl
  -- a copy that is not genuine is passed over, whatever it was found to be
  have hpass : ∀ {r : CopyOutcome}, ¬ GenuineCopy env buf → (∀ sb, r ≠ .valid sb) →
      (∀ token, r ≠ .unsupportedIncompat token) →
      ¬ ValidCopy env buf ∧ ¬ RefusedCopy env buf ∧ ∃ r', (pure r : Outcome CopyOutcome) = .ok r' ∧
        (∀ sb, r' ≠ .valid sb) ∧ ∀ token, r' ≠ .unsupportedIncompat token :=
    fun hno hv hr => ⟨fun h => hno h.toGenuineCopy, fun h => hno h.toGenuineCopy, _, rfl, hv, hr⟩
  unfold checkCopy
  rw [Superblock.parse_eq, if_neg (by omega), Except.ok_bind]
  dsimp only
  by_cases hmagic : (Superblock.readAt buf).magic = btrfsMagic
  swap
  · rw [if_pos hmagic]
    exact .inr (.inr (hpass (fun h => hmagic h.magic) (by simp) (by simp)))
  rw [if_neg (not_not.mpr hmagic)]
  by_cases htype : (Superblock.readAt buf).csumType = csumTypeCrc32c
  swap
  · refine .inr (.inr ?_)
    have hno : ¬ GenuineCopy env buf := fun h => htype h.csumType
    split_ifs
    · exact hpass hno (by simp) (by simp)
    · exact hpass hno (by simp) (by simp)
    · exact hpass hno (by simp) (by simp)
    · exact hpass hno (by simp) (by simp)
  rw [if_neg (by rw [htype]; decide), if_neg (by rw [htype]; decide),
    if_neg (by rw [htype]; decide), if_neg (not_not.mpr htype),
    slice_ok (by omega) le_rfl, Except.ok_bind]
  have hbody : (buf.drop csumLen).take (buf.length - csumLen) = buf.drop 32 := by
    rw [hcl, List.take_of_length_le (by rw [List.length_drop])]
  have hstored : (Superblock.readAt buf).csum = buf.take 32 := rfl
  have hverify : verifyCrc32c env (buf.drop 32) (buf.take 32) = true ↔
      env.checksum (buf.drop 32) = leAt buf 0 4 := by
    have hlt : ¬ (buf.take 32).length < 4 := by
      rw [List.length_take]
      omega
    have hfield : leAt (buf.take 32) 0 4 = leAt buf 0 4 := by
      show leValue (((buf.take 32).drop 0).take 4) = leValue ((buf.drop 0).take 4)
      rw [List.drop_zero, List.drop_zero, List.take_take]
      rfl
    unfold verifyCrc32c
    rw [if_neg hlt, beq_iff_eq, hfield]
  rw [hbody, hstored]
  by_cases hcsum : verifyCrc32c env (buf.drop 32) (buf.take 32) = true
  swap
  · rw [if_pos hcsum]
    exact .inr (.inr (hpass (fun h => hcsum (hverify.mpr h.csum)) (by simp) (by simp)))
  rw [if_neg (not_not.mpr hcsum)]
  have hgenuine : GenuineCopy env buf := ⟨hmagic, htype, hverify.mp hcsum⟩
  cases hrefused : refusedIncompat (Superblock.readAt buf).incompatFlags with
  | some token =>
    refine .inr (.inl ⟨⟨hgenuine, fun h => ?_⟩, token, rfl⟩)
    rw [refusedIncompat_readAt.mpr h] at hrefused
    cases hrefused
  | none =>
    have hsupported := refusedIncompat_readAt.mp hrefused
    dsimp only
    by_cases hgeometry : isPow2InRange (Superblock.readAt buf).sectorsize minSectorSize
        maxSectorSize = true ∧ isPow2InRange (Superblock.readAt buf).nodesize minNodeSize
        maxNodeSize = true
    · rw [dif_pos hgeometry]
      exact .inl ⟨⟨hgenuine, hsupported, (isPow2InRange_iff _).mp hgeometry.1,
        (isPow2InRange_iff _).mp hgeometry.2⟩, rfl⟩
    · rw [dif_neg hgeometry]
      refine .inr (.inr ⟨fun h => hgeometry ⟨(isPow2InRange_iff _).mpr h.sectorsize,
        (isPow2InRange_iff _).mpr h.nodesize⟩, fun h => h.incompat hsupported, _, rfl, ?_, ?_⟩)
      · simp
      · simp

variable (env)

/-- The copy at `offset` can be read and satisfies `P`. -/
def CopyAt (P : List UInt8 → Prop) (dev : Device) (offset : ℕ) : Prop :=
  dev.serves offset superblockSize = true ∧ P (dev.bytes offset superblockSize)

instance {P : List UInt8 → Prop} [DecidablePred P] (dev : Device) (offset : ℕ) :
    Decidable (CopyAt P dev offset) :=
  inferInstanceAs (Decidable (_ ∧ _))

/-- The superblock of the copy at `offset`, when the copy is valid. -/
def validCopy (dev : Device) (offset : ℕ) : Option ValidSuperblock :=
  if h : CopyAt (ValidCopy env) dev offset then some h.2.superblock else none

variable {env} in
theorem validCopy_of_bytes {dev : Device} {offset : ℕ} {buf : List UInt8}
    (hserves : dev.serves offset superblockSize = true)
    (hbytes : dev.bytes offset superblockSize = buf) (h : ValidCopy env buf) :
    validCopy env dev offset = some h.superblock := by
  subst hbytes
  exact dif_pos ⟨hserves, h⟩

/-- The canonical locations below the device's size. -/
def addressable (size : ℕ) : List ℕ := superblockOffsets.filter fun offset => offset < size

/-- The valid copies below the device's size, in the order of their offsets. -/
def validCopies (dev : Device) (size : ℕ) : List ValidSuperblock :=
  (addressable size).filterMap (validCopy env dev)

/-- Of these copies the one of greatest generation, and the first of them on a tie. -/
def NewestOf (copies : List ValidSuperblock) (sb : ValidSuperblock) : Prop :=
  ∃ pre post, copies = pre ++ sb :: post ∧ (∀ c ∈ pre, c.generation < sb.generation) ∧
    ∀ c ∈ post, c.generation ≤ sb.generation

/-- The newest valid superblock wins, and none is found only when there is none. -/
structure NewestWins (dev : Device) (size : ℕ) : Prop where
  newest : validCopies env dev size ≠ [] →
    ∃ sb, NewestOf (validCopies env dev size) sb ∧ (load env size).run dev.answer = .ok sb
  fails : ∀ e, (load env size).run dev.answer = .error e → validCopies env dev size = []

variable {env}

/-- Mathlib's `argmax` of a non-empty list is what it says. -/
theorem newestOf_argmax {copies : List ValidSuperblock} {sb : ValidSuperblock}
    (h : copies.argmax (fun c => c.generation) = some sb) : NewestOf copies sb := by
  induction copies generalizing sb with
  | nil => cases h
  | cons c rest ih =>
    rw [List.argmax_cons] at h
    cases hrest : rest.argmax (fun c => c.generation) with
    | none =>
      rw [hrest] at h
      cases h
      rw [List.argmax_eq_none.mp hrest]
      exact ⟨[], [], rfl, by simp, by simp⟩
    | some best =>
      rw [hrest] at h
      dsimp only at h
      split_ifs at h with hlt
      · cases h
        obtain ⟨pre, post, rfl, hpre, hpost⟩ := ih hrest
        refine ⟨c :: pre, post, rfl, ?_, hpost⟩
        rintro c' (_ | ⟨_, hc'⟩)
        · exact hlt
        · exact hpre c' hc'
      · cases h
        refine ⟨[], rest, rfl, by simp, fun c' hc' => ?_⟩
        exact (List.le_of_mem_argmax hc' hrest).trans (not_lt.mp hlt)

theorem Seen.better_best (seen : Seen) (sb : ValidSuperblock) :
    (seen.better sb).best =
      List.argAux (fun b c => c.generation < b.generation) seen.best sb := by
  unfold Seen.better List.argAux
  cases hbest : seen.best with
  | none => rfl
  | some current =>
    dsimp only
    split_ifs
    · rfl
    · exact hbest

/-- One copy: what it holds, and what `load` makes of it. -/
theorem run_tryLoadOne (dev : Device) (offset : ℕ) :
    (∃ h : CopyAt (ValidCopy env) dev offset,
      (tryLoadOne env offset).run dev.answer = .ok (.valid h.2.superblock)) ∨
    (CopyAt (RefusedCopy env) dev offset ∧
      ∃ token, (tryLoadOne env offset).run dev.answer = .ok (.unsupportedIncompat token)) ∨
    (¬ CopyAt (ValidCopy env) dev offset ∧ ¬ CopyAt (RefusedCopy env) dev offset ∧
      ∃ r, (tryLoadOne env offset).run dev.answer = .ok r ∧
        (∀ sb, r ≠ .valid sb) ∧ ∀ token, r ≠ .unsupportedIncompat token) := by
  have hrun : (tryLoadOne env offset).run dev.answer =
      if dev.serves offset superblockSize then checkCopy env (dev.bytes offset superblockSize)
      else .ok .ioError := by
    unfold tryLoadOne
    rw [Prog.run_bind, Device.run_tryReadAt, Except.ok_bind]
    split_ifs
    · exact Prog.run_liftM _ _
    · rfl
  by_cases hserves : dev.serves offset superblockSize = true
  swap
  · rw [hrun, if_neg hserves]
    exact .inr (.inr ⟨fun h => hserves h.1, fun h => hserves h.1, _, rfl, by simp, by simp⟩)
  rw [hrun, if_pos hserves]
  rcases @checkCopy_cases env _ (dev.length_bytes offset superblockSize) with
    ⟨h, hr⟩ | ⟨h, hr⟩ | ⟨hv, hr, hpass⟩
  · exact .inl ⟨⟨hserves, h⟩, hr⟩
  · exact .inr (.inl ⟨⟨hserves, h⟩, hr⟩)
  · exact .inr (.inr ⟨fun h => hv h.2, fun h => hr h.2, hpass⟩)

/-- The loop stops at the first refused copy, and without one keeps the newest. -/
theorem run_load_loop (dev : Device) (size : ℕ) (offsets : List ℕ) (seen : Seen) :
    ((∃ offset ∈ offsets.filter (fun offset => offset < size),
        CopyAt (RefusedCopy env) dev offset) ∧
      ∃ token, (load.loop env size offsets seen).run dev.answer =
        err (.unsupportedFeature token)) ∨
    ((∀ offset ∈ offsets.filter (fun offset => offset < size),
        ¬ CopyAt (RefusedCopy env) dev offset) ∧
      ∃ seen', (load.loop env size offsets seen).run dev.answer = .ok seen' ∧
        seen'.best = ((offsets.filter (fun offset => offset < size)).filterMap
          (validCopy env dev)).foldl (List.argAux fun b c => c.generation < b.generation)
            seen.best) := by
  induction offsets generalizing seen with
  | nil => exact .inr ⟨by simp, seen, rfl, rfl⟩
  | cons offset rest ih =>
    rw [load.loop]
    by_cases hsize : size ≤ offset
    · rw [if_pos hsize, List.filter_cons_of_neg (by simpa using hsize)]
      exact ih seen
    have hin : offset < size := not_le.mp hsize
    rw [if_neg hsize, List.filter_cons_of_pos (by simpa using hin), Prog.run_bind]
    rcases @run_tryLoadOne env dev offset with ⟨h, hr⟩ | ⟨h, token, hr⟩ | ⟨hv, hno, r, hr, hne, hni⟩
    · have hvalid : validCopy env dev offset = some h.2.superblock := dif_pos h
      have hgenuine : ¬ CopyAt (RefusedCopy env) dev offset :=
        fun hc => hc.2.incompat h.2.incompat
      rw [hr, Except.ok_bind, List.filterMap_cons_some hvalid, List.foldl_cons,
        ← Seen.better_best]
      rcases ih (seen.better h.2.superblock) with ⟨⟨o, ho, hc⟩, hrun⟩ | ⟨hall, hrun⟩
      · exact .inl ⟨⟨o, List.mem_cons_of_mem _ ho, hc⟩, hrun⟩
      · exact .inr ⟨List.forall_mem_cons.mpr ⟨hgenuine, hall⟩, hrun⟩
    · rw [hr, Except.ok_bind]
      exact .inl ⟨⟨offset, List.mem_cons_self, h⟩, token, rfl⟩
    · have hvalid : validCopy env dev offset = none := dif_neg hv
      rw [hr, Except.ok_bind, List.filterMap_cons_none hvalid]
      -- the other outcomes leave the best copy alone
      have hstep : ∀ seen' : Seen, seen'.best = seen.best →
          ((∃ o ∈ offset :: rest.filter (fun offset => offset < size),
              CopyAt (RefusedCopy env) dev o) ∧
            ∃ token, (load.loop env size rest seen').run dev.answer =
              err (.unsupportedFeature token)) ∨
          ((∀ o ∈ offset :: rest.filter (fun offset => offset < size),
              ¬ CopyAt (RefusedCopy env) dev o) ∧
            ∃ seen'', (load.loop env size rest seen').run dev.answer = .ok seen'' ∧
              seen''.best = ((rest.filter (fun offset => offset < size)).filterMap
                (validCopy env dev)).foldl (List.argAux fun b c => c.generation < b.generation)
                  seen.best) := by
        intro seen' hbest
        rw [← hbest]
        rcases ih seen' with ⟨⟨o, ho, hc⟩, hrun⟩ | ⟨hall, hrun⟩
        · exact .inl ⟨⟨o, List.mem_cons_of_mem _ ho, hc⟩, hrun⟩
        · exact .inr ⟨List.forall_mem_cons.mpr ⟨hno, hall⟩, hrun⟩
      cases r with
      | valid sb => exact absurd rfl (hne sb)
      | unsupportedIncompat token => exact absurd rfl (hni token)
      | badMagic => exact hstep _ rfl
      | badCsum => exact hstep _ rfl
      | unsupportedCsumType token => exact hstep _ rfl
      | badGeometry => exact hstep _ rfl
      | ioError => exact hstep _ rfl

/-- `load` fails on a refused copy, and otherwise returns the newest valid one. -/
theorem run_load (dev : Device) (size : ℕ) :
    ((∃ offset ∈ addressable size, CopyAt (RefusedCopy env) dev offset) ∧
      ∃ token, (load env size).run dev.answer = err (.unsupportedFeature token)) ∨
    ((∀ offset ∈ addressable size, ¬ CopyAt (RefusedCopy env) dev offset) ∧
      match (validCopies env dev size).argmax (fun c => c.generation) with
      | some sb => (load env size).run dev.answer = .ok sb
      | none => ∃ e, (load env size).run dev.answer = err e) := by
  unfold load
  rw [Prog.run_bind]
  rcases @run_load_loop env dev size superblockOffsets {} with
    ⟨hrefused, token, hrun⟩ | ⟨hall, seen, hrun, hbest⟩
  · rw [hrun]
    exact .inl ⟨hrefused, token, rfl⟩
  · refine .inr ⟨hall, ?_⟩
    have hmax : seen.best = (validCopies env dev size).argmax (fun c => c.generation) := hbest
    rw [hrun, Except.ok_bind, ← hmax]
    cases seen.best with
    | some sb => rfl
    | none =>
      cases seen.unsupportedCsum with
      | some token => exact ⟨_, rfl⟩
      | none => exact ⟨_, rfl⟩

/-- The newest valid copy wins exactly when no addressable copy is refused for its
incompat bits, or no addressable copy is valid in the first place. -/
theorem newestWins_iff (env : Env) (dev : Device) (size : ℕ) :
    NewestWins env dev size ↔
      (∀ offset ∈ addressable size, ¬ CopyAt (RefusedCopy env) dev offset) ∨
        ∀ offset ∈ addressable size, ¬ CopyAt (ValidCopy env) dev offset := by
  have hnone : validCopies env dev size = [] ↔
      ∀ offset ∈ addressable size, ¬ CopyAt (ValidCopy env) dev offset := by
    unfold validCopies
    rw [List.filterMap_eq_nil_iff]
    refine forall_congr' fun offset => imp_congr_right fun _ => ?_
    unfold validCopy
    by_cases h : CopyAt (ValidCopy env) dev offset
    · rw [dif_pos h]
      exact iff_of_false (by simp) (not_not.mpr h)
    · rw [dif_neg h]
      exact iff_of_true rfl h
  rw [← hnone]
  -- a refused copy ends the load with its own token; otherwise argmax decides
  rcases @run_load env dev size with ⟨⟨offset, hoffset, hrefused⟩, token, hrun⟩ | ⟨hall, hrun⟩
  · constructor
    · intro h
      exact .inr (h.fails _ hrun)
    · rintro (h | h)
      · exact absurd hrefused (h offset hoffset)
      · exact ⟨fun hne => absurd h hne, fun _ _ => h⟩
  · refine iff_of_true ?_ (.inl hall)
    cases hmax : (validCopies env dev size).argmax (fun c => c.generation) with
    | some sb =>
      rw [hmax] at hrun
      refine ⟨fun _ => ⟨sb, newestOf_argmax hmax, hrun⟩, fun e he => ?_⟩
      rw [hrun] at he
      cases he
    | none =>
      have hempty : validCopies env dev size = [] := List.argmax_eq_none.mp hmax
      exact ⟨fun hne => absurd hempty hne, fun _ _ => hempty⟩

end Newest

/-- A valid primary copy of generation 2, and a backup of generation 1 that says zoned. -/
def staleBackup : SliceDevice where
  size := 0x4001000
  byte i :=
    if i < 0x4000000 then
      UInt8.ofNat (Nat.shiftRight (image [(0, 3569611290), (0x40, btrfsMagic), (0x48, 2),
        (0x90, 4096), (0x94, 4096)]) (Nat.mul 8 (Nat.sub i 0x10000)))
    else
      UInt8.ofNat (Nat.shiftRight (image [(0, 2732124878), (0x40, btrfsMagic), (0x48, 1),
        (0x90, 4096), (0x94, 4096), (0xbc, incompatZoned)]) (Nat.mul 8 (Nat.sub i 0x4000000)))
  size_lt := by decide

set_option maxRecDepth 100000 in
/-- The stale backup keeps the volume from loading. -/
theorem stale_backup_refused : ¬ NewestWins referenceEnv staleBackup.device 0x4001000 := by
  intro h
  have hrefused : CopyAt (RefusedCopy referenceEnv) staleBackup.device 0x4000000 := by
    decide +kernel
  have hvalid : CopyAt (ValidCopy referenceEnv) staleBackup.device 0x10000 := by
    decide +kernel
  have hmem : validCopies referenceEnv staleBackup.device 0x4001000 ≠ [] := by
    intro hempty
    have hnone := List.filterMap_eq_nil_iff.mp hempty 0x10000 (by decide)
    unfold validCopy at hnone
    rw [dif_pos hvalid] at hnone
    cases hnone
  rcases @run_load referenceEnv staleBackup.device 0x4001000 with ⟨-, token, hrun⟩ | ⟨hall, -⟩
  · exact hmem (h.fails _ hrun)
  · exact hall 0x4000000 (by decide) hrefused
