/-
What one EXTENT_DATA item says, and what the two readers do with it.

`Extent` is an item's meaning apart from any request: how many bytes of the file
it declares and what backs them.  `Extent.byte` is the byte it stores at a position,
if it holds one: a zero of a hole, a byte of the payload, of the image, or of the
decoded data.  The three functions of `file.rs` that take an item apart are shown
equal to functions of its `Extent` (`extentLogicalLength_eq`, `copyExtentSlice_eq`,
`applyExtent_eq`), and what these deliver is compared with `Extent.byte`:

* `copy_extent_slice` delivers stored bytes only, but for a position that wraps in
  the compressed branch (`Extent.copy_sound`);
* `apply_extent` delivers stored bytes only, but may deliver fewer than an inline
  item declares (`Extent.apply_sound`);
* both deliver all that is backed (`Extent.copy_complete`, `Extent.apply_complete`).
-/
import Lambutter.File

/-! ### The image seen through the chunk map -/

namespace ChunkMap

/-- The bytes of the image that `len` logical addresses stand for. -/
def bytesAt (env : Env) (map : ChunkMap) (dev : Device) : ℕ → ℕ → Option (List UInt8)
  | _, 0 => some []
  | start, len + 1 => do
    let b ← byteAt env map dev start
    let bs ← bytesAt env map dev (start + 1) len
    return b :: bs

variable {env : Env} {map : ChunkMap} {dev : Device}

theorem bytesAt_eq_some {start : ℕ} {bs : List UInt8}
    (h : ∀ i (hi : i < bs.length), byteAt env map dev (start + i) = some bs[i]) :
    bytesAt env map dev start bs.length = some bs := by
  induction bs generalizing start with
  | nil => rfl
  | cons b bs ih =>
    have h0 : byteAt env map dev start = some b := h 0 (by simp)
    have hrest : bytesAt env map dev (start + 1) bs.length = some bs := by
      refine ih fun i hi => ?_
      have heq : start + 1 + i = start + (i + 1) := by omega
      rw [heq]
      exact h (i + 1) (by simpa using hi)
    rw [List.length_cons, bytesAt, h0, hrest]
    rfl

end ChunkMap

section Logical

variable {env : Env} (h64 : env.usizeBits = 64) {map : ChunkMap} {dev : Device}

include h64

/-- A logical read that succeeds returns the bytes its addresses stand for. -/
theorem readThroughChunks_sound {start len : ℕ} (hlen : len < 2 ^ 64) {out : List UInt8}
    (h : (readThroughChunks env map start len).run dev.answer = .ok out) :
    out.length = len ∧
      ∀ i (hi : i < out.length), ChunkMap.byteAt env map dev (start + i) = some out[i] := by
  rw [readThroughChunks_eq h64 hlen] at h
  obtain ⟨hlength, hbytes⟩ := run_fetch h
  refine ⟨hlength, fun i hi => ?_⟩
  obtain ⟨r, offset, k, hr, -, -, -, hb⟩ := hbytes i hi
  rw [ChunkMap.byteAt_of_resolve hr, hb]

/-- A logical read of addresses that are mapped and readable succeeds. -/
theorem readThroughChunks_complete (hdev : dev.Bytewise) {start len : ℕ} (hlen : len < 2 ^ 64)
    (h : ∀ i < len, ChunkMap.Readable env map dev (start + i)) :
    ∃ out, (readThroughChunks env map start len).run dev.answer = .ok out := by
  rw [readThroughChunks_eq h64 hlen]
  exact exists_run_fetch hdev _ _ _ _ (Nat.lt_succ_self len) h

end Logical

/-! ### Extents -/

/-- What stands behind an extent's bytes. -/
inductive Backing
  /-- A hole or a prealloc extent. -/
  | zeros
  | inline (compression : ℕ) (payload : List UInt8)
  | plain (diskBytenr offset : ℕ)
  | packed (compression : ℕ) (regular : ExtentDataRegular)
  deriving DecidableEq, Repr

structure Extent where
  declared : ℕ
  backing : Backing
  deriving DecidableEq, Repr

namespace Extent

def ofRegular (header : ExtentDataHeader) (regular : ExtentDataRegular) : Extent where
  declared := regular.numBytes
  backing :=
    if regular.diskBytenr = 0 ∨ header.ty = fileExtentPrealloc then .zeros
    else if header.compression = compressNone then .plain regular.diskBytenr regular.offset
    else .packed header.compression regular

/-- The extent an item's data describes. -/
def parse (data : List UInt8) : Outcome Extent :=
  let header := ExtentDataHeader.readAt data 0
  if data.length < 21 then err (.corruptBtree "extent_header_short" 0)
  else if header.encryption ≠ 0 then err (.unsupportedFeature "feat_encryption")
  else if header.ty = fileExtentInline then
    .ok ⟨header.ramBytes, .inline header.compression (data.drop 21)⟩
  else if header.ty = fileExtentReg ∨ header.ty = fileExtentPrealloc then
    if data.length < 53 then err (.corruptBtree "extent_tail_short" 0)
    else .ok (ofRegular header (ExtentDataRegular.readAt data 21))
  else err (.corruptBtree "extent_type_unknown" 0)

/-- The plaintext behind a compressed extent. -/
def packedPlain (env : Env) (map : ChunkMap) (sectorsize : ℕ) (dev : Device) (compression : ℕ)
    (regular : ExtentDataRegular) : Option (List UInt8) := do
  let compressed ← map.bytesAt env dev regular.diskBytenr regular.diskNumBytes
  (decode env compression compressed [] sectorsize).toOption

/-- The byte the extent stores at position `i`, if it holds one there. -/
def byte (env : Env) (map : ChunkMap) (sectorsize : ℕ) (dev : Device) (e : Extent) (i : ℕ) :
    Option UInt8 :=
  match e.backing with
  | .zeros => some 0
  | .inline compression payload =>
    (inlinePlain env sectorsize compression payload).toOption.bind (·[i]?)
  | .plain diskBytenr offset => map.byteAt env dev (diskBytenr + offset + i)
  | .packed compression regular =>
    (packedPlain env map sectorsize dev compression regular).bind (·[regular.offset + i]?)

section Functions

variable (env : Env) (map : ChunkMap) (sectorsize : ℕ)

/-- `copy_extent_slice` after the item has been taken apart. -/
def copy (e : Extent) (inExtentOffset len : ℕ) : ReadM (List UInt8) :=
  match e.backing with
  | .zeros => return List.replicate len 0
  | .inline compression payload => do
    let src ← inlinePlain env sectorsize compression payload
    let off := env.asUsize inExtentOffset
    let stop ← okOr (checkedAdd env.usizeBits off len) (.corruptBtree "extent_overflow" 0)
    if src.length < stop then (err (.corruptBtree "extent_underdecoded" 0) : Outcome (List UInt8))
    else slice src off stop
  | .plain diskBytenr offset => do
    let logicalAt ← okOr ((checkedAdd 64 diskBytenr offset).bind
      fun v => checkedAdd 64 v inExtentOffset) (.corruptBtree "extent_overflow" diskBytenr)
    readThroughChunks env map logicalAt len
  | .packed compression regular => do
    let decoded ← readCompressed env map sectorsize compression regular
    let position ← env.addU64 regular.offset inExtentOffset
    let off ← env.tryIntoUsize position (.outOfMemory "extent_offset")
    let stop ← okOr (checkedAdd env.usizeBits off len)
      (.corruptBtree "extent_overflow" regular.diskBytenr)
    if decoded.length < stop then
      (err (.corruptBtree "extent_underdecoded" regular.diskBytenr) : Outcome (List UInt8))
    else slice decoded off stop

/-- What `apply_extent` appends for a regular extent of which `emit` bytes are wanted. -/
def emitted (e : Extent) (emit : ℕ) : ReadM (List UInt8) :=
  match e.backing with
  | .zeros => return List.replicate emit 0
  | .inline compression payload => do
    let plain ← inlinePlain env sectorsize compression payload
    slice plain 0 (min (env.asUsize e.declared) plain.length)
  | .plain diskBytenr offset => do
    let diskAt ← okOr (checkedAdd 64 diskBytenr offset) (.corruptBtree "extent_overflow" diskBytenr)
    readThroughChunks env map diskAt emit
  | .packed compression regular => do
    let decoded ← readCompressed env map sectorsize compression regular
    let off ← env.tryIntoUsize regular.offset (.outOfMemory "extent_offset")
    let stop ← okOr (checkedAdd env.usizeBits off emit)
      (.corruptBtree "extent_overflow" regular.diskBytenr)
    if decoded.length < stop then
      (err (.corruptBtree "extent_underdecoded" regular.diskBytenr) : Outcome (List UInt8))
    else slice decoded off stop

def isInline (e : Extent) : Bool := match e.backing with
  | .inline _ _ => true
  | _ => false

/-- `apply_extent` after the item has been taken apart. -/
def apply (e : Extent) (out : List UInt8) (fileSize : ℕ) : ReadM (List UInt8) :=
  let emit := min e.declared (fileSize - out.length)
  if e.isInline = false ∧ emit = 0 then return out
  else do
    let bytes ← e.emitted env map sectorsize emit
    return out ++ bytes

end Functions

end Extent

/-! ### Taking an item apart -/

section Parse

variable {env : Env} (hw : 32 ≤ env.usizeBits) {map : ChunkMap} {sectorsize : ℕ}

include hw

theorem extentHeader_eq (data : List UInt8) (logical : ℕ) :
    extentHeader env data logical =
      if data.length < 21 then err (.corruptBtree "extent_header_short" logical)
      else if (ExtentDataHeader.readAt data 0).encryption ≠ 0 then
        err (.unsupportedFeature "feat_encryption")
      else .ok (ExtentDataHeader.readAt data 0) := by
  unfold extentHeader
  rw [ExtentDataHeader.parse_eq hw, Except.ok_bind]
  by_cases hshort : data.length < 21
  · rw [if_pos hshort, if_pos hshort, okOr_none]
    rfl
  · rw [if_neg hshort, if_neg hshort, okOr_some, Except.ok_bind]
    rfl

theorem extentTail_eq (data : List UInt8) :
    extentTail env data = if data.length < 53 then err (.corruptBtree "extent_tail_short" 0)
      else .ok (ExtentDataRegular.readAt data 21) := by
  unfold extentTail
  rw [ExtentDataRegular.parse_eq hw, Except.ok_bind]
  by_cases hshort : data.length < 53
  · rw [if_pos hshort, if_pos hshort, okOr_none]
  · rw [if_neg hshort, if_neg hshort, okOr_some]

theorem extentLogicalLength_eq (data : List UInt8) :
    extentLogicalLength env data = Extent.declared <$> Extent.parse data := by
  unfold extentLogicalLength Extent.parse
  rw [extentHeader_eq hw, extentTail_eq hw]
  dsimp only
  by_cases hshort : data.length < 21
  · rw [if_pos hshort, if_pos hshort]
    rfl
  rw [if_neg hshort, if_neg hshort]
  by_cases henc : (ExtentDataHeader.readAt data 0).encryption ≠ 0
  · rw [if_pos henc, if_pos henc]
    rfl
  rw [if_neg henc, if_neg henc, Except.ok_bind]
  split_ifs <;> rfl

/-- The shape that `copy_extent_slice` and `apply_extent` share. -/
theorem takeApart_eq {α : Type} (data : List UInt8) {inline : ExtentDataHeader → ReadM α}
    {regular : ExtentDataHeader → ExtentDataRegular → ReadM α} {f : Extent → ReadM α}
    (hinline : ∀ header, 21 ≤ data.length →
      inline header = f ⟨header.ramBytes, .inline header.compression (data.drop 21)⟩)
    (hregular : ∀ header tail, regular header tail = f (Extent.ofRegular header tail)) :
    (do let header ← (extentHeader env data 0 : Outcome _)
        if header.ty = fileExtentInline then inline header
        else if header.ty = fileExtentReg ∨ header.ty = fileExtentPrealloc then do
          let tail ← (extentTail env data : Outcome _)
          regular header tail
        else (err (.corruptBtree "extent_type_unknown" 0) : Outcome α) : ReadM α) =
      (do let e ← (Extent.parse data : Outcome _)
          f e) := by
  unfold Extent.parse
  rw [extentHeader_eq hw, extentTail_eq hw]
  dsimp only
  -- header, encryption, kind and tail are checked in this order on both sides
  by_cases hshort : data.length < 21
  · rw [if_pos hshort, if_pos hshort]
    rfl
  rw [if_neg hshort, if_neg hshort]
  by_cases henc : (ExtentDataHeader.readAt data 0).encryption ≠ 0
  · rw [if_pos henc, if_pos henc]
    rfl
  rw [if_neg henc, if_neg henc, liftM_ok_bind]
  by_cases hi : (ExtentDataHeader.readAt data 0).ty = fileExtentInline
  · rw [if_pos hi, if_pos hi, liftM_ok_bind]
    exact hinline _ (not_lt.mp hshort)
  rw [if_neg hi, if_neg hi]
  by_cases hreg : (ExtentDataHeader.readAt data 0).ty = fileExtentReg ∨
      (ExtentDataHeader.readAt data 0).ty = fileExtentPrealloc
  · rw [if_pos hreg, if_pos hreg]
    by_cases htail : data.length < 53
    · rw [if_pos htail, if_pos htail]
      rfl
    · rw [if_neg htail, if_neg htail, liftM_ok_bind, liftM_ok_bind]
      exact hregular _ _
  · rw [if_neg hreg, if_neg hreg]
    rfl

theorem copyExtentSlice_eq (data : List UInt8) (inExtentOffset len : ℕ) :
    copyExtentSlice env map sectorsize data inExtentOffset len = (do
      note (.slice data inExtentOffset)
      let e ← (Extent.parse data : Outcome _)
      e.copy env map sectorsize inExtentOffset len) := by
  refine congrArg _ (funext fun _ => takeApart_eq hw data (fun header hlen => ?_)
    fun header regular => ?_)
  · rw [slice_ok hlen le_rfl, liftM_ok_bind,
      List.take_of_length_le (by simp)]
    rfl
  · unfold Extent.copy Extent.ofRegular
    dsimp only
    split_ifs <;> rfl

omit hw in
theorem applyExtent_eq (h64 : env.usizeBits = 64) (out data : List UInt8) {fileSize : ℕ}
    (hsize : fileSize < 2 ^ 64) :
    applyExtent env map sectorsize out data fileSize = (do
      let e ← (Extent.parse data : Outcome _)
      e.apply env map sectorsize out fileSize) := by
  refine takeApart_eq (Env.usize_ge h64) data (fun header hlen => ?_) fun header regular => ?_
  · rw [slice_ok hlen le_rfl, liftM_ok_bind,
      List.take_of_length_le (by simp), Extent.apply, Extent.emitted,
      if_neg (by simp [Extent.isInline])]
    simp only [bind_assoc]
  · have hdeclared : (Extent.ofRegular header regular).declared = regular.numBytes := rfl
    have hkind : (Extent.ofRegular header regular).isInline = false := by
      unfold Extent.ofRegular Extent.isInline
      split_ifs <;> rfl
    rw [Extent.apply, hdeclared, hkind]
    dsimp only
    set emit := min regular.numBytes (fileSize - out.length) with hemit
    by_cases hzero : emit = 0
    · rw [if_pos hzero, if_pos ⟨rfl, hzero⟩]
    rw [if_neg hzero, if_neg (by simp [hzero]), Env.tryIntoUsize_ok h64 (by omega), liftM_ok_bind,
      Env.addUsize_ok h64 (by omega), liftM_ok_bind, liftM_ok_bind, Nat.add_sub_cancel_left]
    unfold Extent.emitted Extent.ofRegular
    dsimp only
    split_ifs
    · rfl
    · simp only [bind_assoc]
    · simp only [bind_assoc]
      refine congrArg _ (funext fun decoded => congrArg _ (funext fun off =>
        congrArg _ (funext fun stop => ?_)))
      split_ifs <;> rfl

end Parse

/-! ### What is delivered -/

namespace Extent

/-- The position leaves `u64` in the compressed branch. -/
def Overflows (e : Extent) (i : ℕ) : Prop :=
  ∃ compression regular, e.backing = .packed compression regular ∧ 2 ^ 64 ≤ regular.offset + i

/-- The payload of an inline extent ends before position `i`. -/
def Short (env : Env) (sectorsize : ℕ) (e : Extent) (i : ℕ) : Prop :=
  ∃ compression payload plain, e.backing = .inline compression payload ∧
    inlinePlain env sectorsize compression payload = .ok plain ∧ plain.length ≤ i

/-- The first `limit` bytes of the extent can be had: they are there, they can be read
and decoded, and the allocator grants what that takes. -/
def Backed (env : Env) (map : ChunkMap) (sectorsize : ℕ) (dev : Device) (e : Extent)
    (limit : ℕ) : Prop :=
  match e.backing with
  | .zeros => True
  | .inline compression payload =>
    ∃ plain, inlinePlain env sectorsize compression payload = .ok plain ∧ limit ≤ plain.length
  | .plain diskBytenr offset => ∀ i < limit, map.Readable env dev (diskBytenr + offset + i)
  | .packed compression regular =>
    regular.diskNumBytes ≤ maxDecompressedExtentBytes ∧ env.Grants regular.diskNumBytes ∧
      (∀ i < regular.diskNumBytes, map.Readable env dev (regular.diskBytenr + i)) ∧
      ∃ decoded, packedPlain env map sectorsize dev compression regular = some decoded ∧
        regular.offset + limit ≤ decoded.length

section Delivered

variable {env : Env} (h64 : env.usizeBits = 64) {map : ChunkMap} {sectorsize : ℕ}
  {dev : Device} {e : Extent}

theorem declared_lt {data : List UInt8} (h : parse data = .ok e) : e.declared < 2 ^ 64 := by
  unfold parse at h
  dsimp only at h
  split_ifs at h <;> first
    | exact absurd h err_ne_ok
    | (cases h; exact leAt_lt data _ 8)

/-- A compressed extent names a decoder, and its fields are in `u64`. -/
theorem packed_fields {data : List UInt8} (h : parse data = .ok e) {compression : ℕ}
    {regular : ExtentDataRegular} (hb : e.backing = .packed compression regular) :
    compression ≠ compressNone ∧ regular.diskNumBytes < 2 ^ 64 ∧ regular.offset < 2 ^ 64 := by
  unfold parse at h
  dsimp only at h
  split_ifs at h <;> first
    | exact absurd h err_ne_ok
    | skip
  · cases h
    cases hb
  · cases h
    unfold ofRegular at hb
    dsimp only at hb
    split_ifs at hb with h1 h2
    cases hb
    exact ⟨h2, leAt_lt data _ 8, leAt_lt data _ 8⟩

include h64

/-- What reading a compressed extent returns is its plaintext. -/
theorem readCompressed_sound (hsector : ValidSectorsize sectorsize) {compression : ℕ}
    {regular : ExtentDataRegular} (hc : compression ≠ compressNone) {decoded : List UInt8}
    (h : (readCompressed env map sectorsize compression regular).run dev.answer = .ok decoded) :
    packedPlain env map sectorsize dev compression regular = some decoded ∧
      decoded.length ≤ maxDecompressedExtentBytes := by
  unfold readCompressed at h
  simp only [Prog.run_bind, Prog.run_liftM, Except.bind_eq_ok] at h
  obtain ⟨diskSize, hsize, h⟩ := h
  unfold Env.tryIntoUsize at hsize
  split_ifs at hsize with hlt
  · cases hsize
    split_ifs at h with hbig
    · exact absurd h err_ne_ok
    · simp only [Prog.run_bind, Prog.run_liftM, Except.bind_eq_ok] at h
      obtain ⟨-, -, compressed, hread, hdecode⟩ := h
      obtain ⟨hlen, hbytes⟩ := readThroughChunks_sound h64 (by rwa [h64] at hlt) hread
      refine ⟨?_, (decode_bounded h64 hc compressed (Nat.zero_le _) hsector).length_le _ hdecode⟩
      unfold packedPlain
      rw [← hlen, ChunkMap.bytesAt_eq_some hbytes]
      simp [hdecode, Except.toOption]
  · exact absurd hsize err_ne_ok

/-- A compressed extent that is backed can be read. -/
theorem readCompressed_complete (hdev : dev.Bytewise) {compression : ℕ}
    {regular : ExtentDataRegular} (hcap : regular.diskNumBytes ≤ maxDecompressedExtentBytes)
    (hgrant : env.Grants regular.diskNumBytes)
    (hread : ∀ i < regular.diskNumBytes, map.Readable env dev (regular.diskBytenr + i))
    {decoded : List UInt8}
    (hplain : packedPlain env map sectorsize dev compression regular = some decoded) :
    (readCompressed env map sectorsize compression regular).run dev.answer = .ok decoded := by
  have hmax : maxDecompressedExtentBytes = 16777216 := rfl
  obtain ⟨compressed, hc⟩ := readThroughChunks_complete h64 hdev (by omega) hread
  obtain ⟨hlen, hbytes⟩ := readThroughChunks_sound h64 (by omega) hc
  unfold packedPlain at hplain
  rw [← hlen, ChunkMap.bytesAt_eq_some hbytes] at hplain
  have hdecode : decode env compression compressed [] sectorsize = .ok decoded := by
    cases hd : decode env compression compressed [] sectorsize with
    | ok d =>
      simp only [Option.bind_eq_bind, Option.bind_some, hd, Except.toOption] at hplain
      rw [Option.some.inj hplain]
    | error x => simp [hd, Except.toOption] at hplain
  unfold readCompressed
  rw [Env.tryIntoUsize_ok h64 (by omega), liftM_ok_bind, if_neg (by omega),
    (Env.tryReserve_eq_ok env).mpr hgrant, liftM_ok_bind, Prog.run_bind, hc, Except.ok_bind,
    hdecode]
  rfl

/-- `copy_extent_slice` delivers as many bytes as asked for, each of them stored there,
but for positions that wrap in a build without overflow checks. -/
theorem copy_sound (hsector : ValidSectorsize sectorsize) {data : List UInt8}
    (hparse : parse data = .ok e) {i len : ℕ} (hi : i < 2 ^ 64) (hlen : len < 2 ^ 64)
    {bytes : List UInt8}
    (h : (e.copy env map sectorsize i len).run dev.answer = .ok bytes) :
    bytes.length = len ∧ ∀ j (hj : j < bytes.length),
      e.byte env map sectorsize dev (i + j) = some bytes[j] ∨
        env.overflowChecks = false ∧ e.Overflows (i + j) := by
  unfold copy at h
  unfold byte
  cases hb : e.backing with
  | zeros =>
    rw [hb] at h
    cases h
    exact ⟨List.length_replicate, fun j hj => .inl (by rw [List.getElem_replicate])⟩
  | inline compression payload =>
    rw [hb] at h
    simp only [Prog.run_bind, Prog.run_liftM, Except.bind_eq_ok, okOr_eq_ok, checkedAdd_eq_some,
      Env.asUsize_eq h64 hi] at h
    obtain ⟨src, hsrc, stop, ⟨-, rfl⟩, h⟩ := h
    split_ifs at h with hshort
    · exact absurd h err_ne_ok
    · rw [Prog.run_liftM] at h
      obtain ⟨-, -, hlength, hbytes⟩ := slice_eq_ok h
      refine ⟨by omega, fun j hj => .inl ?_⟩
      simp only [hsrc, Except.toOption, Option.bind_some]
      exact hbytes j hj
  | plain diskBytenr offset =>
    rw [hb] at h
    simp only [Prog.run_bind, Prog.run_liftM, Except.bind_eq_ok, okOr_eq_ok,
      Option.bind_eq_some_iff, checkedAdd_eq_some] at h
    obtain ⟨at', ⟨v, ⟨-, rfl⟩, -, rfl⟩, hread⟩ := h
    obtain ⟨hlength, hbytes⟩ := readThroughChunks_sound h64 hlen hread
    refine ⟨hlength, fun j hj => .inl ?_⟩
    dsimp only
    rw [← Nat.add_assoc]
    exact hbytes j hj
  | packed compression regular =>
    rw [hb] at h
    obtain ⟨hc, -, -⟩ := packed_fields hparse hb
    simp only [Prog.run_bind, Prog.run_liftM, Except.bind_eq_ok, okOr_eq_ok,
      checkedAdd_eq_some] at h
    obtain ⟨decoded, hread, position, hposition, off, hoff, stop, ⟨-, rfl⟩, h⟩ := h
    unfold Env.tryIntoUsize at hoff
    split_ifs at hoff with hfits
    · cases hoff
      split_ifs at h with hshort
      · exact absurd h err_ne_ok
      · rw [Prog.run_liftM] at h
        obtain ⟨-, -, hlength, hbytes⟩ := slice_eq_ok h
        refine ⟨by omega, fun j hj => ?_⟩
        unfold Env.addU64 Env.plain at hposition
        split_ifs at hposition with hlt hchecks
        · cases hposition
          refine .inl ?_
          dsimp only
          rw [(readCompressed_sound h64 hsector hc hread).1, Option.bind_some, ← Nat.add_assoc]
          exact hbytes j hj
        · exact absurd hposition fault_ne_ok
        · -- the position wrapped
          exact .inr ⟨by simpa using hchecks, compression, regular, hb, by omega⟩
    · exact absurd hoff err_ne_ok

/-- `copy_extent_slice` delivers what is backed. -/
theorem copy_complete (hdev : dev.Bytewise) (hsector : ValidSectorsize sectorsize)
    {data : List UInt8} (hparse : parse data = .ok e) {i len limit : ℕ} (hlen : len < 2 ^ 64)
    (hin : i + len ≤ limit) (hpos : 0 < len)
    (hlimit : limit < 2 ^ 64) (hbacked : e.Backed env map sectorsize dev limit) :
    ∃ bytes, (e.copy env map sectorsize i len).run dev.answer = .ok bytes := by
  have hmax : maxDecompressedExtentBytes = 16777216 := rfl
  unfold Backed at hbacked
  unfold copy
  cases hb : e.backing with
  | zeros => exact ⟨_, rfl⟩
  | inline compression payload =>
    rw [hb] at hbacked
    obtain ⟨plain, hplain, hle⟩ := hbacked
    dsimp only
    rw [hplain, liftM_ok_bind, Env.asUsize_eq h64 (by omega), h64, checkedAdd, if_pos (by omega),
      okOr_some, liftM_ok_bind, if_neg (by omega), slice_ok (by omega) (by omega)]
    exact ⟨_, rfl⟩
  | plain diskBytenr offset =>
    rw [hb] at hbacked
    dsimp only
    -- the last byte wanted is mapped, so its address is in `u64`
    have hlast : diskBytenr + offset + i < 2 ^ 64 := by
      obtain ⟨r, hr, -⟩ := hbacked i (by omega)
      have := (ChunkMap.contiguous_bounds hr).2
      omega
    have hadd : (checkedAdd 64 diskBytenr offset).bind (fun v => checkedAdd 64 v i) =
        some (diskBytenr + offset + i) := by
      rw [checkedAdd, if_pos (by omega), Option.bind_some, checkedAdd, if_pos hlast]
    rw [hadd, okOr_some, liftM_ok_bind]
    refine readThroughChunks_complete h64 hdev hlen fun j hj => ?_
    have := hbacked (i + j) (by omega)
    rwa [← Nat.add_assoc] at this
  | packed compression regular =>
    rw [hb] at hbacked
    obtain ⟨hcap, hgrant, hread, decoded, hplain, hle⟩ := hbacked
    obtain ⟨hc, -, -⟩ := packed_fields hparse hb
    have hrun := readCompressed_complete h64 hdev hcap hgrant hread hplain
    have hdecoded := (readCompressed_sound h64 hsector hc hrun).2
    dsimp only
    rw [Prog.run_bind, hrun, Except.ok_bind, Env.addU64_ok env (by omega), liftM_ok_bind,
      Env.tryIntoUsize_ok h64 (by omega), liftM_ok_bind, h64, checkedAdd, if_pos (by omega),
      okOr_some, liftM_ok_bind, if_neg (by omega), slice_ok (by omega) (by omega)]
    exact ⟨_, rfl⟩

/-- `apply_extent` appends stored bytes only, no more than declared, and leaves a byte
below the file's size out only where an inline payload ends before it. -/
theorem apply_sound (hsector : ValidSectorsize sectorsize) {data : List UInt8}
    (hparse : parse data = .ok e) {out out' : List UInt8} {fileSize : ℕ}
    (h : (e.apply env map sectorsize out fileSize).run dev.answer = .ok out') :
    ∃ bytes, out' = out ++ bytes ∧ bytes.length ≤ e.declared ∧
      (∀ j (hj : j < bytes.length), e.byte env map sectorsize dev j = some bytes[j]) ∧
      ∀ j, bytes.length ≤ j → j < e.declared → out.length + j < fileSize →
        e.Short env sectorsize j := by
  have hdeclared := declared_lt hparse
  unfold apply at h
  dsimp only at h
  set emit := min e.declared (fileSize - out.length) with hemit
  by_cases hnone : e.isInline = false ∧ emit = 0
  · rw [if_pos hnone] at h
    cases h
    exact ⟨[], (List.append_nil out).symm, Nat.zero_le _, fun j hj => absurd hj (Nat.not_lt_zero j),
      fun j _ hj hlt => by omega⟩
  rw [if_neg hnone] at h
  simp only [Prog.run_bind, Prog.run_pure, Except.bind_eq_ok] at h
  obtain ⟨bytes, h, hout⟩ := h
  cases hout
  -- regular extents bring all that is wanted of them
  have hfull : bytes.length = emit →
      (∀ j (hj : j < bytes.length), e.byte env map sectorsize dev j = some bytes[j]) →
      ∃ bytes', out ++ bytes = out ++ bytes' ∧ bytes'.length ≤ e.declared ∧
        (∀ j (hj : j < bytes'.length), e.byte env map sectorsize dev j = some bytes'[j]) ∧
        ∀ j, bytes'.length ≤ j → j < e.declared → out.length + j < fileSize →
          e.Short env sectorsize j :=
    fun hlen hbytes => ⟨bytes, rfl, by omega, hbytes, fun j hle hj hlt => by omega⟩
  unfold emitted at h
  cases hb : e.backing with
  | zeros =>
    rw [hb] at h
    cases h
    refine hfull List.length_replicate fun j hj => ?_
    rw [byte, hb, List.getElem_replicate]
  | inline compression payload =>
    rw [hb] at h
    simp only [Prog.run_bind, Prog.run_liftM, Except.bind_eq_ok, Env.asUsize_eq h64 hdeclared] at h
    obtain ⟨plain, hplain, h⟩ := h
    obtain ⟨-, -, hlength, hbytes⟩ := slice_eq_ok h
    refine ⟨bytes, rfl, by omega, fun j hj => ?_, fun j hle hj _ =>
      ⟨compression, payload, plain, hb, hplain, by omega⟩⟩
    have hget := hbytes j hj
    rw [Nat.zero_add] at hget
    simp only [byte, hb, hplain, Except.toOption, Option.bind_some, hget]
  | plain diskBytenr offset =>
    rw [hb] at h
    simp only [Prog.run_bind, Prog.run_liftM, Except.bind_eq_ok, okOr_eq_ok,
      checkedAdd_eq_some] at h
    obtain ⟨at', ⟨-, rfl⟩, hread⟩ := h
    obtain ⟨hlength, hbytes⟩ := readThroughChunks_sound h64 (by omega) hread
    refine hfull hlength fun j hj => ?_
    rw [byte, hb]
    exact hbytes j hj
  | packed compression regular =>
    rw [hb] at h
    obtain ⟨hc, -, -⟩ := packed_fields hparse hb
    simp only [Prog.run_bind, Prog.run_liftM, Except.bind_eq_ok, okOr_eq_ok,
      checkedAdd_eq_some] at h
    obtain ⟨decoded, hread, off, hoff, stop, ⟨-, rfl⟩, h⟩ := h
    unfold Env.tryIntoUsize at hoff
    split_ifs at hoff with hfits
    · cases hoff
      split_ifs at h with hshort
      · exact absurd h err_ne_ok
      · rw [Prog.run_liftM] at h
        obtain ⟨-, -, hlength, hbytes⟩ := slice_eq_ok h
        refine hfull (by omega) fun j hj => ?_
        simp only [byte, hb, (readCompressed_sound h64 hsector hc hread).1, Option.bind_some,
          hbytes j hj]
    · exact absurd hoff err_ne_ok

/-- `apply_extent` succeeds when what it is to bring is backed. -/
theorem apply_complete (hdev : dev.Bytewise) (hsector : ValidSectorsize sectorsize)
    {data : List UInt8} (hparse : parse data = .ok e) {out : List UInt8} {fileSize : ℕ}
    (hbacked : (e.isInline = false ∧ fileSize ≤ out.length) ∨
      e.Backed env map sectorsize dev (min e.declared (fileSize - out.length))) :
    ∃ out', (e.apply env map sectorsize out fileSize).run dev.answer = .ok out' := by
  have hdeclared := declared_lt hparse
  unfold apply
  dsimp only
  set emit := min e.declared (fileSize - out.length) with hemit
  -- an extent past the end of the file emits nothing and needs no backing
  by_cases hnone : e.isInline = false ∧ emit = 0
  · rw [if_pos hnone]
    exact ⟨_, rfl⟩
  rw [if_neg hnone]
  have hbacked : e.Backed env map sectorsize dev emit := by
    rcases hbacked with ⟨hkind, hle⟩ | hbacked
    · exact absurd ⟨hkind, by omega⟩ hnone
    · exact hbacked
  suffices hsuff : ∃ bytes, (e.emitted env map sectorsize emit).run dev.answer = .ok bytes by
    obtain ⟨bytes, hbytes⟩ := hsuff
    exact ⟨out ++ bytes, by rw [Prog.run_bind, hbytes]; rfl⟩
  unfold Backed at hbacked
  unfold emitted
  -- what backs the bytes decides what has to be read for them
  cases hb : e.backing with
  | zeros => exact ⟨_, rfl⟩
  | inline compression payload =>
    rw [hb] at hbacked
    obtain ⟨plain, hplain, -⟩ := hbacked
    dsimp only
    rw [hplain, liftM_ok_bind, slice_ok (Nat.zero_le _) (by omega)]
    exact ⟨_, rfl⟩
  | plain diskBytenr offset =>
    rw [hb] at hbacked
    -- the first byte that is backed bounds the start, so the checked addition passes
    have hpos : 0 < emit := by
      rcases Nat.eq_zero_or_pos emit with hz | hz
      · exact absurd ⟨by simp [isInline, hb], hz⟩ hnone
      · exact hz
    have hstart : diskBytenr + offset < 2 ^ 64 := by
      obtain ⟨r, hr, -⟩ := hbacked 0 hpos
      have := (ChunkMap.contiguous_bounds hr).2
      omega
    dsimp only
    rw [checkedAdd, if_pos hstart, okOr_some, liftM_ok_bind]
    exact readThroughChunks_complete h64 hdev (by omega) hbacked
  | packed compression regular =>
    rw [hb] at hbacked
    obtain ⟨hcap, hgrant, hread, decoded, hplain, hle⟩ := hbacked
    obtain ⟨hc, -, hoffset⟩ := packed_fields hparse hb
    have hrun := readCompressed_complete h64 hdev hcap hgrant hread hplain
    have hmax : maxDecompressedExtentBytes = 16777216 := rfl
    have hdecoded := (readCompressed_sound h64 hsector hc hrun).2
    dsimp only
    rw [Prog.run_bind, hrun, Except.ok_bind, Env.tryIntoUsize_ok h64 (by omega), liftM_ok_bind,
      h64, checkedAdd, if_pos (by omega), okOr_some, liftM_ok_bind, if_neg (by omega),
      slice_ok (by omega) (by omega)]
    exact ⟨_, rfl⟩

end Delivered

/-! ### Panics -/

section Panics

variable {env : Env} (h64 : env.usizeBits = 64) {map : ChunkMap} {sectorsize : ℕ} {e : Extent}

theorem parse_safe (data : List UInt8) : Outcome.Safe (parse data) := by
  unfold parse
  dsimp only
  split_ifs
  all_goals first
    | exact Outcome.safe_err _
    | exact Outcome.safe_ok _

include h64

theorem inlinePlain_safe (hsector : ValidSectorsize sectorsize) (compression : ℕ)
    (payload : List UInt8) : Outcome.Safe (inlinePlain env sectorsize compression payload) := by
  unfold inlinePlain
  split_ifs with hc
  · exact Outcome.safe_ok _
  · exact (decode_bounded h64 hc payload (Nat.zero_le _) hsector).safe

theorem readThroughChunks_ensures {start len : ℕ} (hlen : len < 2 ^ 64) :
    Prog.Ensures Stop.Typed (readThroughChunks env map start len) fun bs => bs.length = len := by
  rw [readThroughChunks_eq h64 hlen]
  exact fetch_ensures _ _ _ _ (Nat.lt_succ_self len)

theorem readCompressed_ensures (hsector : ValidSectorsize sectorsize) {compression : ℕ}
    (hc : compression ≠ compressNone) (regular : ExtentDataRegular) :
    Prog.Ensures Stop.Typed (readCompressed env map sectorsize compression regular)
      fun decoded => decoded.length ≤ maxDecompressedExtentBytes := by
  have hmax : maxDecompressedExtentBytes = 16777216 := rfl
  unfold readCompressed
  refine Prog.Ensures.bind (ensures_lift (env.tryIntoUsize_safe _ _) fun n _ => trivial)
    fun diskSize _ => ?_
  split_ifs with hbig
  · exact trivial
  refine Prog.Ensures.bind (ensures_lift (env.tryReserve_safe _ _) fun _ _ => trivial) fun _ _ => ?_
  refine Prog.Ensures.bind (readThroughChunks_ensures h64 (by omega)) fun compressed _ => ?_
  have hempty : ([] : List UInt8).length ≤ maxDecompressedExtentBytes := Nat.zero_le _
  have hbounded := decode_bounded h64 hc compressed hempty hsector
  exact ensures_lift hbounded.safe hbounded.length_le

omit h64 in
/-- The checks on the end of a slice of decoded data. -/
theorem sliceDecoded_ensures (decoded : List UInt8) (off len : ℕ) (overflow short : Error) :
    Prog.Ensures Stop.Typed (do
      let stop ← (okOr (checkedAdd env.usizeBits off len) overflow : Outcome ℕ)
      if decoded.length < stop then (err short : Outcome (List UInt8))
      else slice decoded off stop : ReadM (List UInt8)) fun bs => bs.length = len := by
  refine Prog.Ensures.bind (ensures_lift (Outcome.safe_okOr _ _) fun stop hstop =>
    (checkedAdd_eq_some.mp (okOr_eq_ok.mp hstop)).2) fun stop hstop => ?_
  subst hstop
  split_ifs with hshort
  · exact trivial
  · rw [slice_ok (Nat.le_add_right _ _) (not_lt.mp hshort)]
    refine Prog.Ensures.pure ?_
    rw [List.length_take, List.length_drop]
    omega

/-- The plain addition of `copy_extent_slice`, as a reason to stop. -/
def OverflowStop (env : Env) (e : Extent) (i : ℕ) (x : Stop) : Prop :=
  x = .fault .overflow ∧ env.overflowChecks = true ∧ e.Overflows i

/-- The one way `copy_extent_slice` can panic. -/
theorem copy_ensures (hsector : ValidSectorsize sectorsize) {data : List UInt8}
    (hparse : parse data = .ok e) (i : ℕ) {len : ℕ} (hlen : len < 2 ^ 64) :
    Prog.Ensures (fun x => x.Typed ∨ e.OverflowStop env i x)
      (e.copy env map sectorsize i len) fun bs => bs.length = len := by
  have htyped : ∀ {α : Type} {p : ReadM α} {P : α → Prop}, Prog.Ensures Stop.Typed p P →
      Prog.Ensures (fun x => x.Typed ∨ e.OverflowStop env i x) p P :=
    fun h => h.weaken fun _ => .inl
  unfold copy
  cases hb : e.backing with
  | zeros => exact Prog.Ensures.pure List.length_replicate
  | inline compression payload =>
    exact htyped (Prog.Ensures.bind (ensures_lift (inlinePlain_safe h64 hsector _ _)
      fun _ _ => trivial) fun src (_ : True) => sliceDecoded_ensures src _ len _ _)
  | plain diskBytenr offset =>
    exact htyped (Prog.Ensures.bind (ensures_lift (Outcome.safe_okOr _ _) fun _ _ => trivial)
      fun _ (_ : True) => readThroughChunks_ensures h64 hlen)
  | packed compression regular =>
    obtain ⟨hc, -, -⟩ := packed_fields hparse hb
    refine Prog.Ensures.bind (htyped (readCompressed_ensures h64 hsector hc regular))
      fun decoded _ => ?_
    have hadd : Prog.Ensures (fun x => x.Typed ∨ e.OverflowStop env i x)
        (liftM (env.addU64 regular.offset i) : ReadM ℕ) fun _ => True := by
      refine Prog.Ensures.lift (fun _ _ => trivial) fun x hx => ?_
      unfold Env.addU64 Env.plain at hx
      split_ifs at hx with hlt hchecks
      · cases hx
        exact .inr ⟨rfl, hchecks, compression, regular, hb, by omega⟩
    refine Prog.Ensures.bind hadd fun position _ => htyped ?_
    exact Prog.Ensures.bind (ensures_lift (env.tryIntoUsize_safe _ _) fun _ _ => trivial)
      fun off (_ : True) => sliceDecoded_ensures decoded off len _ _

/-- With fixed answers: when `copy_extent_slice` panics. -/
theorem copy_fault_iff (g : (q : ReadReq) → Ans q) (hchecks : env.overflowChecks = true)
    (hsector : ValidSectorsize sectorsize) {data : List UInt8} (hparse : parse data = .ok e)
    (i : ℕ) {len : ℕ} (hlen : len < 2 ^ 64) (f : Fault) :
    (e.copy env map sectorsize i len).run g = fault f ↔ f = .overflow ∧
      ∃ compression regular decoded, e.backing = .packed compression regular ∧
        2 ^ 64 ≤ regular.offset + i ∧
        (readCompressed env map sectorsize compression regular).run g = .ok decoded := by
  constructor
  · intro h
    -- the one stop that is not typed is the addition behind a compressed read
    rcases (copy_ensures h64 hsector hparse i hlen).stops _ () h with ht | ⟨hx, -, ho⟩
    · exact absurd ht id
    · obtain ⟨compression, regular, hb, hle⟩ := ho
      cases hx
      refine ⟨rfl, compression, regular, ?_⟩
      unfold copy at h
      rw [hb] at h
      dsimp only at h
      rw [Prog.run_bind] at h
      cases hread : (readCompressed env map sectorsize compression regular).run g with
      | ok decoded => exact ⟨decoded, hb, hle, rfl⟩
      | error x =>
        rw [hread] at h
        obtain ⟨hc, -, -⟩ := packed_fields hparse hb
        have := (readCompressed_ensures h64 hsector hc regular).stops _ () hread
        cases h
        exact absurd this id
  · rintro ⟨rfl, compression, regular, decoded, hb, hle, hread⟩
    unfold copy
    rw [hb]
    dsimp only
    rw [Prog.run_bind, hread, Except.ok_bind, Env.addU64, Env.plain, if_neg (by omega),
      if_pos hchecks]
    rfl

/-- `apply_extent` does not panic. -/
theorem apply_ensures (hsector : ValidSectorsize sectorsize) {data : List UInt8}
    (hparse : parse data = .ok e) (out : List UInt8) (fileSize : ℕ) :
    Prog.Ensures Stop.Typed (e.apply env map sectorsize out fileSize)
      fun out' => out.length ≤ out'.length := by
  have hdeclared := declared_lt hparse
  unfold apply
  dsimp only
  split_ifs
  · exact Prog.Ensures.pure le_rfl
  suffices hsuff : Prog.Ensures Stop.Typed
      (e.emitted env map sectorsize (min e.declared (fileSize - out.length))) fun _ => True from
    Prog.Ensures.bind hsuff fun bytes _ => Prog.Ensures.pure (by simp)
  unfold emitted
  cases hb : e.backing with
  | zeros => exact trivial
  | inline compression payload =>
    refine Prog.Ensures.bind (ensures_lift (inlinePlain_safe h64 hsector _ _)
      fun _ _ => trivial) fun plain (_ : True) => ?_
    rw [slice_ok (Nat.zero_le _) (Nat.min_le_right _ _)]
    exact trivial
  | plain diskBytenr offset =>
    exact Prog.Ensures.bind (ensures_lift (Outcome.safe_okOr _ _) fun _ _ => trivial)
      fun _ (_ : True) => (readThroughChunks_ensures h64 (by omega)).mono fun _ _ => trivial
  | packed compression regular =>
    obtain ⟨hc, -, -⟩ := packed_fields hparse hb
    refine Prog.Ensures.bind (readCompressed_ensures h64 hsector hc regular) fun decoded _ => ?_
    exact Prog.Ensures.bind (ensures_lift (env.tryIntoUsize_safe _ _) fun _ _ => trivial)
      fun off (_ : True) => (sliceDecoded_ensures decoded off _ _ _).mono fun _ _ => trivial

end Panics

end Extent
