/-
The decoders: dispatch by algorithm, and the framing around the crates.

Each decoder appends to `dst` and keeps it within 16 MiB, whether it succeeds or
not, and none of them panics, whatever the source bytes are (`decodeInto_capped`);
the LZO framing is the one that indexes them.
-/
import Lambutter.Format

/-- The sector sizes a validated superblock can name. -/
def ValidSectorsize (n : ℕ) : Prop := minSectorSize ≤ n ∧ n ≤ maxSectorSize

/-! ### zlib -/

namespace Zlib

def bad : Error := .badCompression "comp_zlib"

def decode (env : Env) (src dst : List UInt8) : Outcome (List UInt8) :=
  let max := maxDecompressedExtentBytes - dst.length
  if max = 0 then err bad
  else do
    let decoded ← okOr (env.decoders.inflate src max) bad
    return dst ++ decoded

end Zlib

/-! ### LZO -/

namespace Lzo

abbrev segmentHeader : ℕ := 4

def bad : Error := .badCompression "comp_lzo"

/-- Where the header at `p` stands: too close to the sector's end, in the next sector. -/
def skipPadding (env : Env) (p leftInSector : ℕ) : Outcome ℕ :=
  if leftInSector < segmentHeader then env.addUsize p leftInSector else .ok p

/-- The segment loop from position `p` on. -/
def decode.loop (env : Env) (src : List UInt8) (total sectorsize : ℕ) :
    ℕ → ℕ → List UInt8 → List UInt8 → Outcome (List UInt8)
  | 0, _, _, _ => fault .fuel
  | n + 1, p, dst, scratch =>
    if p < total then do
      let leftInSector ← env.sub env.usizeBits sectorsize (p % sectorsize)
      let at' ← skipPadding env p leftInSector
      if leftInSector < segmentHeader ∧ total ≤ at' then .ok dst
      else if total < (← env.addUsize at' segmentHeader) then err bad
      else
        let segmentLen ← readLeU32 src at'
        let start ← env.addUsize at' segmentHeader
        if env.asUsize segmentLen = 0 then .ok dst
        else
          let stop ← okOr (checkedAdd env.usizeBits start (env.asUsize segmentLen)) bad
          if total < stop then err bad
          else
            let segment ← slice src start stop
            if maxDecompressedExtentBytes < (← env.addUsize dst.length sectorsize) then err bad
            else
              let (k, scratch) ← okOr (env.decoders.lzokay segment scratch) bad
              let bytes ← slice scratch 0 k
              loop env src total sectorsize n stop (dst ++ bytes) scratch
    else .ok dst

def decode (env : Env) (src dst : List UInt8) (sectorsize : ℕ) : Outcome (List UInt8) := do
  if src.length < 4 then err bad
  else
    let totalCompressed ← readLeU32 src 0
    let total := env.asUsize totalCompressed
    if src.length < total ∨ total < 4 then err bad
    else
      decode.loop env src total sectorsize (total + 1) 4 dst (List.replicate sectorsize 0)

end Lzo

/-! ### zstd -/

namespace Zstd

abbrev zstdFrameMagic : ℕ := 0xFD2FB528

def bad : Error := .badCompression "comp_zstd"

/-- Read one frame to its end, 4096 bytes at a time; the output and the input left. -/
def drain (env : Env) :
    ℕ → env.decoders.Streaming → List UInt8 → List UInt8 → Outcome (List UInt8 × List UInt8)
  | 0, _, _, _ => fault .fuel
  | n + 1, decoder, input, dst => do
    let (bytes, decoder, input) ← okOr (env.decoders.streamingRead decoder input 4096) bad
    if bytes.length = 0 then return (dst, input)
    else if maxDecompressedExtentBytes < (← env.addUsize dst.length bytes.length) then err bad
    else drain env n decoder input (dst ++ bytes)

/-- Frame after frame, until what is left is no frame. -/
def decode.loop (env : Env) : ℕ → List UInt8 → List UInt8 → Outcome (List UInt8)
  | 0, _, _ => fault .fuel
  | n + 1, input, dst =>
    if input.length < 4 then .ok dst
    else do
      let magic ← readLeU32 input 0
      if magic ≠ zstdFrameMagic then return dst
      else
        let (decoder, input) ← okOr (env.decoders.streamingNew input) bad
        let (dst, input) ← drain env (maxDecompressedExtentBytes + 1) decoder input dst
        loop env n input dst

def decode (env : Env) (src dst : List UInt8) : Outcome (List UInt8) :=
  decode.loop env (src.length + 1) src dst

end Zstd

/-! ### Dispatch -/

def decodeZlib (env : Env) (src dst : List UInt8) : Outcome (List UInt8) :=
  if env.zlib then Zlib.decode env src dst else err (.badCompression "comp_zlib")

def decodeLzo (env : Env) (src dst : List UInt8) (sectorsize : ℕ) : Outcome (List UInt8) :=
  if env.lzo then Lzo.decode env src dst sectorsize else err (.badCompression "comp_lzo")

def decodeZstd (env : Env) (src dst : List UInt8) : Outcome (List UInt8) :=
  if env.zstd then Zstd.decode env src dst else err (.badCompression "comp_zstd")

/-- `compression::decode`: append the plaintext of `src` to `dst`. -/
def decode (env : Env) (algorithm : ℕ) (src dst : List UInt8) (sectorsize : ℕ) :
    Outcome (List UInt8) :=
  if algorithm = compressNone then .ok (dst ++ src)
  else if algorithm = compressZlib then decodeZlib env src dst
  else if algorithm = compressLzo then decodeLzo env src dst (env.asUsize sectorsize)
  else if algorithm = compressZstd then decodeZstd env src dst
  else err (.badCompression "comp_unknown")

/-! ### The output vector when a decoder fails

`decode` forgets what had been appended to `dst` when it fails.  `decodeInto` is the
same decoder with `dst` as the caller finds it afterwards, in either case. -/

/-- What a decoder that returns a whole vector makes of such an outcome. -/
def finished (r : Outcome Unit × List UInt8) : Outcome (List UInt8) := r.1.map fun _ => r.2

def Zlib.decodeInto (env : Env) (src dst : List UInt8) : Outcome Unit × List UInt8 :=
  let max := maxDecompressedExtentBytes - dst.length
  if max = 0 then (err Zlib.bad, dst)
  else
    match env.decoders.inflate src max with
    | none => (err Zlib.bad, dst)
    | some decoded => (.ok (), dst ++ decoded)

/-- A segment from `p` on: where it stops, its plaintext and the scratch buffer. -/
def Lzo.nextSegment (env : Env) (src : List UInt8) (total sectorsize p dstLen : ℕ)
    (scratch : List UInt8) : Outcome (Option (ℕ × List UInt8 × List UInt8)) := do
  let leftInSector ← env.sub env.usizeBits sectorsize (p % sectorsize)
  let at' ← Lzo.skipPadding env p leftInSector
  if leftInSector < Lzo.segmentHeader ∧ total ≤ at' then return none
  else if total < (← env.addUsize at' Lzo.segmentHeader) then err Lzo.bad
  else
    let segmentLen ← readLeU32 src at'
    let start ← env.addUsize at' Lzo.segmentHeader
    if env.asUsize segmentLen = 0 then return none
    else
      let stop ← okOr (checkedAdd env.usizeBits start (env.asUsize segmentLen)) Lzo.bad
      if total < stop then err Lzo.bad
      else
        let segment ← slice src start stop
        if maxDecompressedExtentBytes < (← env.addUsize dstLen sectorsize) then err Lzo.bad
        else
          let (k, scratch) ← okOr (env.decoders.lzokay segment scratch) Lzo.bad
          let bytes ← slice scratch 0 k
          return some (stop, bytes, scratch)

def Lzo.decodeInto.loop (env : Env) (src : List UInt8) (total sectorsize : ℕ) :
    ℕ → ℕ → List UInt8 → List UInt8 → Outcome Unit × List UInt8
  | 0, _, dst, _ => (fault .fuel, dst)
  | n + 1, p, dst, scratch =>
    if p < total then
      match Lzo.nextSegment env src total sectorsize p dst.length scratch with
      | .error x => (.error x, dst)
      | .ok none => (.ok (), dst)
      | .ok (some (stop, bytes, scratch)) =>
        loop env src total sectorsize n stop (dst ++ bytes) scratch
    else (.ok (), dst)

def Lzo.decodeInto (env : Env) (src dst : List UInt8) (sectorsize : ℕ) :
    Outcome Unit × List UInt8 :=
  if src.length < 4 then (err Lzo.bad, dst)
  else
    let total := env.asUsize (leAt src 0 4)
    if src.length < total ∨ total < 4 then (err Lzo.bad, dst)
    else
      Lzo.decodeInto.loop env src total sectorsize (total + 1) 4 dst (List.replicate sectorsize 0)

/-- `drain` with its output; the outcome is the input left. -/
def Zstd.drainInto (env : Env) : ℕ → env.decoders.Streaming → List UInt8 → List UInt8 →
    Outcome (List UInt8) × List UInt8
  | 0, _, _, dst => (fault .fuel, dst)
  | n + 1, decoder, input, dst =>
    match env.decoders.streamingRead decoder input 4096 with
    | none => (err Zstd.bad, dst)
    | some (bytes, decoder, input) =>
      if bytes.length = 0 then (.ok input, dst)
      else
        match env.addUsize dst.length bytes.length with
        | .error x => (.error x, dst)
        | .ok length =>
          if maxDecompressedExtentBytes < length then (err Zstd.bad, dst)
          else drainInto env n decoder input (dst ++ bytes)

def Zstd.decodeInto.loop (env : Env) : ℕ → List UInt8 → List UInt8 → Outcome Unit × List UInt8
  | 0, _, dst => (fault .fuel, dst)
  | n + 1, input, dst =>
    if input.length < 4 then (.ok (), dst)
    else if leAt input 0 4 ≠ Zstd.zstdFrameMagic then (.ok (), dst)
    else
      match env.decoders.streamingNew input with
      | none => (err Zstd.bad, dst)
      | some (decoder, input) =>
        match Zstd.drainInto env (maxDecompressedExtentBytes + 1) decoder input dst with
        | (.error x, dst) => (.error x, dst)
        | (.ok input, dst) => loop env n input dst

def Zstd.decodeInto (env : Env) (src dst : List UInt8) : Outcome Unit × List UInt8 :=
  Zstd.decodeInto.loop env (src.length + 1) src dst

/-- `compression::decode`, and what `dst` holds when it returns. -/
def decodeInto (env : Env) (algorithm : ℕ) (src dst : List UInt8) (sectorsize : ℕ) :
    Outcome Unit × List UInt8 :=
  if algorithm = compressNone then (.ok (), dst ++ src)
  else if algorithm = compressZlib then
    if env.zlib then Zlib.decodeInto env src dst else (err (.badCompression "comp_zlib"), dst)
  else if algorithm = compressLzo then
    if env.lzo then Lzo.decodeInto env src dst (env.asUsize sectorsize)
    else (err (.badCompression "comp_lzo"), dst)
  else if algorithm = compressZstd then
    if env.zstd then Zstd.decodeInto env src dst else (err (.badCompression "comp_zstd"), dst)
  else (err (.badCompression "comp_unknown"), dst)

section Into

variable (env : Env)

theorem Zlib.finished_decodeInto (src dst : List UInt8) :
    finished (Zlib.decodeInto env src dst) = Zlib.decode env src dst := by
  unfold Zlib.decodeInto Zlib.decode
  dsimp only
  split_ifs
  · rfl
  · cases env.decoders.inflate src (maxDecompressedExtentBytes - dst.length) with
    | none => rfl
    | some decoded => rfl

/-- One pass of the segment loop. -/
theorem Lzo.loop_succ (src : List UInt8) (total sectorsize n p : ℕ) (dst scratch : List UInt8) :
    Lzo.decode.loop env src total sectorsize (n + 1) p dst scratch =
      if p < total then do
        match ← Lzo.nextSegment env src total sectorsize p dst.length scratch with
        | none => .ok dst
        | some (stop, bytes, scratch) =>
          Lzo.decode.loop env src total sectorsize n stop (dst ++ bytes) scratch
      else .ok dst := by
  rw [Lzo.decode.loop]
  unfold Lzo.nextSegment
  by_cases hp : p < total
  swap
  · rw [if_neg hp, if_neg hp]
  rw [if_pos hp, if_pos hp, bind_assoc]
  refine congrArg _ (funext fun left => ?_)
  rw [bind_assoc]
  refine congrArg _ (funext fun at' => ?_)
  split_ifs with hbreak
  · rfl
  rw [bind_assoc]
  refine congrArg _ (funext fun headerEnd => ?_)
  split_ifs with hshort
  · rfl
  rw [bind_assoc]
  refine congrArg _ (funext fun segmentLen => ?_)
  rw [bind_assoc]
  refine congrArg _ (funext fun start => ?_)
  split_ifs with hzero
  · rfl
  rw [bind_assoc]
  refine congrArg _ (funext fun stop => ?_)
  split_ifs with hpast
  · rfl
  rw [bind_assoc]
  refine congrArg _ (funext fun segment => ?_)
  rw [bind_assoc]
  refine congrArg _ (funext fun length => ?_)
  split_ifs with hfull
  · rfl
  rw [bind_assoc]
  refine congrArg _ (funext fun r => ?_)
  rw [bind_assoc]
  rfl

theorem Lzo.finished_loop (src : List UInt8) (total sectorsize n p : ℕ)
    (dst scratch : List UInt8) :
    finished (Lzo.decodeInto.loop env src total sectorsize n p dst scratch) =
      Lzo.decode.loop env src total sectorsize n p dst scratch := by
  induction n generalizing p dst scratch with
  | zero => rfl
  | succ n ih =>
    rw [Lzo.decodeInto.loop, Lzo.loop_succ]
    split_ifs
    · rcases Lzo.nextSegment env src total sectorsize p dst.length scratch with
        x | _ | ⟨stop, bytes, scratch'⟩
      · rfl
      · rfl
      · exact ih _ _ _
    · rfl

theorem Lzo.finished_decodeInto (src dst : List UInt8) (sectorsize : ℕ) :
    finished (Lzo.decodeInto env src dst sectorsize) = Lzo.decode env src dst sectorsize := by
  unfold Lzo.decodeInto Lzo.decode
  by_cases hshort : src.length < 4
  · rw [if_pos hshort, if_pos hshort]
    rfl
  rw [if_neg hshort, if_neg hshort, readLeU32, readLe_ok (by omega), Except.ok_bind]
  dsimp only
  split_ifs
  · rfl
  · exact Lzo.finished_loop env _ _ _ _ _ _ _

theorem Zstd.finished_drainInto (n : ℕ) (decoder : env.decoders.Streaming)
    (input dst : List UInt8) :
    ((Zstd.drainInto env n decoder input dst).1.map fun rest =>
      ((Zstd.drainInto env n decoder input dst).2, rest)) =
      Zstd.drain env n decoder input dst := by
  induction n generalizing decoder input dst with
  | zero => rfl
  | succ n ih =>
    rw [Zstd.drainInto, Zstd.drain]
    rcases env.decoders.streamingRead decoder input 4096 with _ | ⟨bytes, decoder', input'⟩
    · rfl
    rw [okOr_some, Except.ok_bind]
    dsimp only
    split_ifs
    · rfl
    cases env.addUsize dst.length bytes.length with
    | error x => rfl
    | ok length =>
      rw [Except.ok_bind]
      dsimp only
      split_ifs
      · rfl
      · exact ih decoder' input' (dst ++ bytes)

theorem Zstd.finished_loop (n : ℕ) (input dst : List UInt8) :
    finished (Zstd.decodeInto.loop env n input dst) = Zstd.decode.loop env n input dst := by
  induction n generalizing input dst with
  | zero => rfl
  | succ n ih =>
    rw [Zstd.decodeInto.loop, Zstd.decode.loop]
    by_cases hshort : input.length < 4
    · rw [if_pos hshort, if_pos hshort]
      rfl
    rw [if_neg hshort, if_neg hshort, readLeU32, readLe_ok (by omega), Except.ok_bind]
    split_ifs
    · rfl
    rcases env.decoders.streamingNew input with _ | ⟨decoder, rest⟩
    · rfl
    rw [okOr_some, Except.ok_bind]
    dsimp only
    rw [← Zstd.finished_drainInto]
    rcases Zstd.drainInto env (maxDecompressedExtentBytes + 1) decoder rest dst with ⟨x | left, out⟩
    · rfl
    · exact ih left out

/-- `decodeInto` is `decode`, with the vector kept on failure. -/
theorem finished_decodeInto (algorithm : ℕ) (src dst : List UInt8) (sectorsize : ℕ) :
    finished (decodeInto env algorithm src dst sectorsize) =
      decode env algorithm src dst sectorsize := by
  unfold decodeInto decode decodeZlib decodeLzo decodeZstd
  split_ifs
  · rfl
  · exact Zlib.finished_decodeInto env src dst
  · rfl
  · exact Lzo.finished_decodeInto env src dst _
  · rfl
  · exact Zstd.finished_loop env _ _ _
  · rfl
  · rfl

end Into

/-! ### Caps -/

/-- A decoder did not panic, only appended to `dst`, and kept it within 16 MiB. -/
structure Capped (dst : List UInt8) (r : Outcome Unit × List UInt8) : Prop where
  safe : Outcome.Safe r.1
  keeps : dst <+: r.2
  length_le : r.2.length ≤ maxDecompressedExtentBytes

namespace Capped

variable {dst : List UInt8}

/-- A decoder that stops where it stands. -/
theorem stay {r : Outcome Unit} (hr : Outcome.Safe r)
    (hdst : dst.length ≤ maxDecompressedExtentBytes) : Capped dst (r, dst) :=
  ⟨hr, List.prefix_refl dst, hdst⟩

/-- A decoder that goes on after appending. -/
theorem append {bytes : List UInt8} {r : Outcome Unit × List UInt8}
    (h : Capped (dst ++ bytes) r) : Capped dst r :=
  ⟨h.safe, (List.prefix_append dst bytes).trans h.keeps, h.length_le⟩

end Capped

theorem Zlib.decodeInto_capped (env : Env) (src : List UInt8) {dst : List UInt8}
    (hdst : dst.length ≤ maxDecompressedExtentBytes) :
    Capped dst (Zlib.decodeInto env src dst) := by
  unfold Zlib.decodeInto
  dsimp only
  split_ifs with hmax
  · exact .stay (Outcome.safe_err _) hdst
  cases hinflate : env.decoders.inflate src (maxDecompressedExtentBytes - dst.length) with
  | none => exact .stay (Outcome.safe_err _) hdst
  | some decoded =>
    have hlen := env.decoders.inflate_length hinflate
    refine Capped.append (.stay (Outcome.safe_ok _) ?_)
    rw [List.length_append]
    omega

section Caps

variable {env : Env}

/-- A segment without the machine arithmetic, which does not leave `usize`. -/
theorem Lzo.nextSegment_eq {src : List UInt8} {total sectorsize : ℕ}
    (hsector : ValidSectorsize sectorsize) (htotal : total ≤ src.length)
    (hfit : total + 2 ^ 17 < 2 ^ env.usizeBits) (hcap : 2 ^ 32 ≤ 2 ^ env.usizeBits) {p : ℕ}
    (hp : p < total) {dstLen : ℕ} (hdst : dstLen ≤ maxDecompressedExtentBytes)
    {scratch : List UInt8} (hscratch : scratch.length = sectorsize) {left at' : ℕ}
    (hleft : left = sectorsize - p % sectorsize)
    (hat : at' = if left < Lzo.segmentHeader then p + left else p) :
    Lzo.nextSegment env src total sectorsize p dstLen scratch =
      if left < Lzo.segmentHeader ∧ total ≤ at' then .ok none
      else if total < at' + 4 then err Lzo.bad
      else if leAt src at' 4 = 0 then .ok none
      else if total < at' + 4 + leAt src at' 4 then err Lzo.bad
      else if maxDecompressedExtentBytes < dstLen + sectorsize then err Lzo.bad
      else (okOr (env.decoders.lzokay ((src.drop (at' + 4)).take (leAt src at' 4)) scratch)
        Lzo.bad).map fun r => some (at' + 4 + leAt src at' 4, r.2.take r.1, r.2) := by
  obtain ⟨hlo, hhi⟩ := hsector
  have hlo : 4096 ≤ sectorsize := hlo
  have hhi : sectorsize ≤ 65536 := hhi
  have h4 : Lzo.segmentHeader = 4 := rfl
  have hmax : maxDecompressedExtentBytes = 16777216 := rfl
  have hmod := Nat.mod_lt p (by omega : 0 < sectorsize)
  -- the padding at the end of a sector is skipped without leaving usize
  have hskip : Lzo.skipPadding env p left = .ok at' := by
    unfold Lzo.skipPadding
    split_ifs at hat ⊢
    · rw [hat]
      exact Env.addUsize_fits (by omega)
    · rw [hat]
  have hat' : at' < p + 4 := by
    split_ifs at hat <;> omega
  unfold Lzo.nextSegment
  rw [Env.sub_ok env hmod.le, Except.ok_bind, ← hleft, hskip, Except.ok_bind]
  by_cases hbreak : left < Lzo.segmentHeader ∧ total ≤ at'
  · rw [if_pos hbreak, if_pos hbreak]
    rfl
  rw [if_neg hbreak, if_neg hbreak, Env.addUsize_fits (by omega), Except.ok_bind, h4]
  by_cases hshort : total < at' + 4
  · rw [if_pos hshort, if_pos hshort]
  -- the length field is below 2^32, so the cast to usize keeps it
  have hseg := leAt_lt src at' 4
  have hlen : env.asUsize (leAt src at' 4) = leAt src at' 4 := Nat.mod_eq_of_lt (by omega)
  rw [if_neg hshort, if_neg hshort, readLeU32, readLe_ok (by omega), Except.ok_bind,
    Except.ok_bind, hlen]
  by_cases hzero : leAt src at' 4 = 0
  · rw [if_pos hzero, if_pos hzero]
    rfl
  rw [if_neg hzero, if_neg hzero]
  -- a length whose sum leaves usize also lies past the end, so both sides reject it
  by_cases hover : at' + 4 + leAt src at' 4 < 2 ^ env.usizeBits
  swap
  · rw [checkedAdd, if_neg hover, if_pos (by omega)]
    rfl
  rw [checkedAdd, if_pos hover, okOr_some, Except.ok_bind]
  by_cases hpast : total < at' + 4 + leAt src at' 4
  · rw [if_pos hpast, if_pos hpast]
  rw [if_neg hpast, if_neg hpast, slice_ok (by omega) (by omega), Except.ok_bind,
    Env.addUsize_fits (by omega), Except.ok_bind]
  by_cases hfull : maxDecompressedExtentBytes < dstLen + sectorsize
  · rw [if_pos hfull, if_pos hfull]
  rw [if_neg hfull, if_neg hfull, Nat.add_sub_cancel_left]
  -- the decoder never claims more bytes than the scratch buffer holds
  rcases hlzo : env.decoders.lzokay ((src.drop (at' + 4)).take (leAt src at' 4)) scratch with
    _ | ⟨k, scratch'⟩
  · rfl
  · obtain ⟨hk, hlen'⟩ := env.decoders.lzokay_length hlzo
    rw [okOr_some, Except.ok_bind]
    dsimp only
    rw [slice_ok (Nat.zero_le k) (by omega), Except.ok_bind]
    rfl

/-- A segment: a typed error, the end of the stream, or one to append and go on from. -/
theorem Lzo.nextSegment_cases {src : List UInt8} {total sectorsize : ℕ}
    (hsector : ValidSectorsize sectorsize) (htotal : total ≤ src.length)
    (hfit : total + 2 ^ 17 < 2 ^ env.usizeBits) (hcap : 2 ^ 32 ≤ 2 ^ env.usizeBits) {p : ℕ}
    (hp : p < total) {dstLen : ℕ} (hdst : dstLen ≤ maxDecompressedExtentBytes)
    {scratch : List UInt8} (hscratch : scratch.length = sectorsize) :
    (∃ e, Lzo.nextSegment env src total sectorsize p dstLen scratch = err e) ∨
    Lzo.nextSegment env src total sectorsize p dstLen scratch = .ok none ∨
    ∃ stop bytes scratch', p < stop ∧ stop ≤ total ∧ bytes.length ≤ sectorsize ∧
      dstLen + sectorsize ≤ maxDecompressedExtentBytes ∧ scratch'.length = sectorsize ∧
      Lzo.nextSegment env src total sectorsize p dstLen scratch =
        .ok (some (stop, bytes, scratch')) := by
  rw [Lzo.nextSegment_eq hsector htotal hfit hcap hp hdst hscratch rfl rfl]
  set left := sectorsize - p % sectorsize with hleft
  set at' := if left < Lzo.segmentHeader then p + left else p with hat
  have hle : p ≤ at' := by
    rw [hat]
    split_ifs <;> omega
  split_ifs with hbreak hshort hzero hpast hfull
  · exact .inr (.inl rfl)
  · exact .inl ⟨_, rfl⟩
  · exact .inr (.inl rfl)
  · exact .inl ⟨_, rfl⟩
  · exact .inl ⟨_, rfl⟩
  rcases hlzo : env.decoders.lzokay ((src.drop (at' + 4)).take (leAt src at' 4)) scratch with
    _ | ⟨k, scratch'⟩
  · exact .inl ⟨_, rfl⟩
  · obtain ⟨hk, hlen⟩ := env.decoders.lzokay_length hlzo
    have hscratch' : scratch'.length = sectorsize := hlen.trans hscratch
    refine .inr (.inr ⟨_, _, _, by omega, not_lt.mp hpast, ?_, not_lt.mp hfull, hscratch', rfl⟩)
    rw [List.length_take]
    omega

theorem Lzo.loop_capped {src : List UInt8} {total sectorsize : ℕ}
    (hsector : ValidSectorsize sectorsize) (htotal : total ≤ src.length)
    (hfit : total + 2 ^ 17 < 2 ^ env.usizeBits) (hcap : 2 ^ 32 ≤ 2 ^ env.usizeBits) {n p : ℕ}
    (hn : total < n + p) (hpos : 0 < n) {dst scratch : List UInt8}
    (hdst : dst.length ≤ maxDecompressedExtentBytes) (hscratch : scratch.length = sectorsize) :
    Capped dst (Lzo.decodeInto.loop env src total sectorsize n p dst scratch) := by
  induction n generalizing p dst scratch with
  | zero => omega
  | succ n ih =>
    rw [Lzo.decodeInto.loop]
    by_cases hp : p < total
    swap
    · rw [if_neg hp]
      exact .stay (Outcome.safe_ok _) hdst
    rw [if_pos hp]
    rcases Lzo.nextSegment_cases hsector htotal hfit hcap hp hdst hscratch with
      ⟨e, hnext⟩ | hnext | ⟨stop, bytes, scratch', hstop, hin, hbytes, hroom, hscratch', hnext⟩
    · rw [hnext]
      exact .stay (Outcome.safe_err e) hdst
    · rw [hnext]
      exact .stay (Outcome.safe_ok _) hdst
    · rw [hnext]
      refine Capped.append (ih (by omega) (by omega) ?_ hscratch')
      rw [List.length_append]
      omega

theorem Lzo.decodeInto_capped {src : List UInt8} {sectorsize : ℕ}
    (hsector : ValidSectorsize sectorsize) (husize : 32 ≤ env.usizeBits)
    (hsrc : min src.length (2 ^ 32) + 2 ^ 17 < 2 ^ env.usizeBits) {dst : List UInt8}
    (hdst : dst.length ≤ maxDecompressedExtentBytes) :
    Capped dst (Lzo.decodeInto env src dst sectorsize) := by
  have hcap : 2 ^ 32 ≤ 2 ^ env.usizeBits := Nat.pow_le_pow_right (by omega) husize
  have htotal := leAt_lt src 0 4
  have heq : env.asUsize (leAt src 0 4) = leAt src 0 4 := Nat.mod_eq_of_lt (by omega)
  unfold Lzo.decodeInto
  dsimp only
  rw [heq]
  split_ifs with hshort hbad
  · exact .stay (Outcome.safe_err _) hdst
  · exact .stay (Outcome.safe_err _) hdst
  · exact Lzo.loop_capped hsector (by omega) (by omega) hcap (by omega) (by omega) hdst (by simp)

theorem Zstd.drainInto_capped (husize : 32 ≤ env.usizeBits) {n : ℕ}
    {decoder : env.decoders.Streaming} {input dst : List UInt8}
    (hdst : dst.length ≤ maxDecompressedExtentBytes)
    (hn : maxDecompressedExtentBytes < n + dst.length) :
    Capped dst ((Zstd.drainInto env n decoder input dst).1.map fun _ => (),
      (Zstd.drainInto env n decoder input dst).2) ∧
    ∀ rest, (Zstd.drainInto env n decoder input dst).1 = .ok rest →
      rest.length ≤ input.length := by
  have hcap : 2 ^ 32 ≤ 2 ^ env.usizeBits := Nat.pow_le_pow_right (by omega) husize
  have hmax : maxDecompressedExtentBytes = 16777216 := rfl
  -- on the reads left, more of them than bytes to the cap: each that goes on appends one
  induction n generalizing decoder input dst with
  | zero => omega
  | succ n ih =>
    rw [Zstd.drainInto]
    cases hread : env.decoders.streamingRead decoder input 4096 with
    | none => exact ⟨.stay (Outcome.safe_err _) hdst, fun rest h => absurd h err_ne_ok⟩
    | some r =>
      obtain ⟨bytes, decoder', input'⟩ := r
      obtain ⟨hbytes, hinput⟩ := env.decoders.streamingRead_length hread
      dsimp only
      -- an empty read ends the drain, and a read past the cap is refused before it is kept
      by_cases hempty : bytes.length = 0
      · rw [if_pos hempty]
        refine ⟨.stay (Outcome.safe_ok _) hdst, fun rest h => ?_⟩
        cases h
        exact hinput
      rw [if_neg hempty, Env.addUsize_fits (by omega)]
      dsimp only
      by_cases hfull : maxDecompressedExtentBytes < dst.length + bytes.length
      · rw [if_pos hfull]
        exact ⟨.stay (Outcome.safe_err _) hdst, fun rest h => absurd h err_ne_ok⟩
      rw [if_neg hfull]
      have hlen : (dst ++ bytes).length = dst.length + bytes.length := List.length_append
      obtain ⟨hcapped, hrest⟩ :=
        @ih decoder' input' (dst ++ bytes) (by omega) (by omega)
      exact ⟨hcapped.append, fun rest h => (hrest rest h).trans hinput⟩

theorem Zstd.loop_capped (husize : 32 ≤ env.usizeBits) {n : ℕ} {input dst : List UInt8}
    (hn : input.length < n) (hdst : dst.length ≤ maxDecompressedExtentBytes) :
    Capped dst (Zstd.decodeInto.loop env n input dst) := by
  induction n generalizing input dst with
  | zero => omega
  | succ n ih =>
    rw [Zstd.decodeInto.loop]
    split_ifs
    · exact .stay (Outcome.safe_ok _) hdst
    · exact .stay (Outcome.safe_ok _) hdst
    cases hnew : env.decoders.streamingNew input with
    | none => exact .stay (Outcome.safe_err _) hdst
    | some r =>
      obtain ⟨decoder, rest⟩ := r
      have hrest := env.decoders.streamingNew_length hnew
      dsimp only
      obtain ⟨hcapped, hleft⟩ := @Zstd.drainInto_capped env husize
        (maxDecompressedExtentBytes + 1) decoder rest dst hdst (by omega)
      rcases hdrain : Zstd.drainInto env (maxDecompressedExtentBytes + 1) decoder rest dst with
        ⟨x | left, out⟩
      · rw [hdrain] at hcapped
        exact ⟨hcapped.safe, hcapped.keeps, hcapped.length_le⟩
      · rw [hdrain] at hcapped hleft
        have hshorter : left.length ≤ rest.length := hleft left rfl
        have hcapped' := @ih left out (by omega) hcapped.length_le
        exact ⟨hcapped'.safe, hcapped.keeps.trans hcapped'.keeps, hcapped'.length_le⟩

/-- No decoder panics, takes anything away from `dst`, or lets it grow past the cap. -/
theorem decodeInto_capped {algorithm : ℕ} (halg : algorithm ≠ compressNone)
    (husize : 32 ≤ env.usizeBits) {src : List UInt8}
    (hsrc : min src.length (2 ^ 32) + 2 ^ 17 < 2 ^ env.usizeBits) {dst : List UInt8}
    (hdst : dst.length ≤ maxDecompressedExtentBytes) {sectorsize : ℕ}
    (hsector : ValidSectorsize sectorsize) :
    Capped dst (decodeInto env algorithm src dst sectorsize) := by
  have hcap : 2 ^ 32 ≤ 2 ^ env.usizeBits := Nat.pow_le_pow_right (by omega) husize
  have hhi : sectorsize ≤ 65536 := hsector.2
  have heq : env.asUsize sectorsize = sectorsize := Nat.mod_eq_of_lt (by omega)
  unfold decodeInto
  rw [if_neg halg, heq]
  split_ifs
  · exact Zlib.decodeInto_capped env src hdst
  · exact .stay (Outcome.safe_err _) hdst
  · exact Lzo.decodeInto_capped hsector husize hsrc hdst
  · exact .stay (Outcome.safe_err _) hdst
  · exact Zstd.loop_capped husize (Nat.lt_succ_self _) hdst
  · exact .stay (Outcome.safe_err _) hdst
  · exact .stay (Outcome.safe_err _) hdst

/-- A decoder outcome: no panic, and no more output than the cap. -/
structure Bounded (r : Outcome (List UInt8)) : Prop where
  safe : Outcome.Safe r
  length_le : ∀ out, r = .ok out → out.length ≤ maxDecompressedExtentBytes

/-- No decoder panics, and none returns more than the cap. -/
theorem decode_bounded (h64 : env.usizeBits = 64) {algorithm : ℕ}
    (halg : algorithm ≠ compressNone) (src : List UInt8) {dst : List UInt8}
    (hdst : dst.length ≤ maxDecompressedExtentBytes) {sectorsize : ℕ}
    (hsector : ValidSectorsize sectorsize) : Bounded (decode env algorithm src dst sectorsize) := by
  have hcapped := @decodeInto_capped env algorithm halg (by omega) src (by rw [h64]; omega) dst hdst
    sectorsize hsector
  rw [← finished_decodeInto]
  rcases hinto : decodeInto env algorithm src dst sectorsize with ⟨x | u, out⟩
  · rw [hinto] at hcapped
    refine ⟨fun f hf => hcapped.safe f ?_, fun out' h => by cases h⟩
    cases hf
    rfl
  · rw [hinto] at hcapped
    refine ⟨Outcome.safe_ok _, fun out' h => ?_⟩
    cases h
    exact hcapped.length_le

end Caps
