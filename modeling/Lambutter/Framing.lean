/-
The LZO framing, written and read back.

`Lzo.extent` lays segments out the way the file system does: a total length, then for
each segment its length and its bytes, with zeros before a header that would cross
the end of a sector.  Where such padding stands depends on everything before it, so
the layout is defined from a position on, and the decoder's loop is followed from the
same position (`loop_layout`).

What the LZO1X decoder makes of a segment is an assumption about that crate
(`Lzo.Expands`).
-/
import Lambutter.Superblock

namespace Lzo

/-! ### The writer -/

/-- The zeros before a header at `p`. -/
def padding (sectorsize p : ℕ) : ℕ :=
  if sectorsize - p % sectorsize < segmentHeader then sectorsize - p % sectorsize else 0

/-- Segments from position `p` of the extent on. -/
def layout (sectorsize : ℕ) : ℕ → List (List UInt8) → List UInt8
  | _, [] => []
  | p, segment :: rest =>
    List.replicate (padding sectorsize p) 0 ++ (leBytes 4 segment.length ++ (segment ++
      layout sectorsize (p + padding sectorsize p + 4 + segment.length) rest))

/-- A compressed extent: the total length, this field included, and the segments. -/
def extent (sectorsize : ℕ) (segments : List (List UInt8)) : List UInt8 :=
  leBytes 4 (4 + (layout sectorsize 4 segments).length) ++ layout sectorsize 4 segments

/-- The crate's decoder expands the segment to this plaintext. -/
def Expands (env : Env) (sectorsize : ℕ) (segment plain : List UInt8) : Prop :=
  ∀ scratch : List UInt8, scratch.length = sectorsize → ∃ scratch',
    env.decoders.lzokay segment scratch = some (plain.length, scratch') ∧
      scratch'.take plain.length = plain

/-- A segment with its plaintext, as the file system writes them. -/
structure Written (env : Env) (sectorsize : ℕ) (segment plain : List UInt8) : Prop where
  nonempty : segment ≠ []
  length_le : plain.length ≤ sectorsize
  expands : Expands env sectorsize segment plain

/-! ### The reader -/

section Reader

variable {env : Env} {sectorsize : ℕ}

/-- One segment of a layout is read as it was written. -/
theorem nextSegment_layout (hsector : ValidSectorsize sectorsize)
    (hwidth : 2 ^ 32 ≤ 2 ^ env.usizeBits) {src segment plain rest : List UInt8} {total p : ℕ}
    (hfit : total + 2 ^ 17 < 2 ^ env.usizeBits) (htotal : total ≤ src.length)
    (hsrc : src.drop p = List.replicate (padding sectorsize p) 0 ++
      (leBytes 4 segment.length ++ (segment ++ rest)))
    (hin : p + padding sectorsize p + 4 + segment.length ≤ total) (h32 : total < 2 ^ 32)
    (hwritten : Written env sectorsize segment plain) {dstLen : ℕ}
    (hroom : dstLen + sectorsize ≤ maxDecompressedExtentBytes) {scratch : List UInt8}
    (hscratch : scratch.length = sectorsize) :
    ∃ scratch', scratch'.length = sectorsize ∧
      nextSegment env src total sectorsize p dstLen scratch =
        .ok (some (p + padding sectorsize p + 4 + segment.length, plain, scratch')) := by
  have hlen : 0 < segment.length := List.length_pos_of_ne_nil hwritten.nonempty
  obtain ⟨scratch', hlzo, htake⟩ := hwritten.expands scratch hscratch
  obtain ⟨hplain, hscratch'⟩ := env.decoders.lzokay_length hlzo
  -- the header stands behind the padding
  set at' := p + padding sectorsize p with hat
  have hskip : at' = if sectorsize - p % sectorsize < segmentHeader
      then p + (sectorsize - p % sectorsize) else p := by
    rw [hat]
    unfold padding
    split_ifs <;> rfl
  have hheader : src.drop at' = leBytes 4 segment.length ++ (segment ++ rest) := by
    rw [hat, ← List.drop_drop, hsrc, List.drop_left' List.length_replicate]
  have hfield : leAt src at' 4 = segment.length := by
    have hshift := leAt_drop src at' 0 4
    rw [Nat.add_zero, hheader, leAt_leBytes (by omega)] at hshift
    exact hshift
  have hbody : (src.drop (at' + 4)).take segment.length = segment := by
    rw [← List.drop_drop, hheader, List.drop_left' (length_leBytes 4 _), List.take_left' rfl]
  refine ⟨scratch', hscratch'.trans hscratch, ?_⟩
  rw [nextSegment_eq hsector htotal hfit hwidth (by omega) (by omega) hscratch rfl hskip, hfield,
    if_neg (by omega), if_neg (by omega), if_neg (by omega), if_neg (by omega),
    if_neg (by omega), hbody, hlzo, okOr_some]
  show Except.ok (some (_, scratch'.take plain.length, scratch')) = _
  rw [htake]

/-- From a position on, the loop reads back what is laid out there. -/
theorem loop_layout (hsector : ValidSectorsize sectorsize)
    (hwidth : 2 ^ 32 ≤ 2 ^ env.usizeBits) {src trailing : List UInt8} {total : ℕ}
    (hfit : total + 2 ^ 17 < 2 ^ env.usizeBits) (htotal : total ≤ src.length)
    (h32 : total < 2 ^ 32) {segments : List (List UInt8 × List UInt8)}
    (hwritten : ∀ s ∈ segments, Written env sectorsize s.1 s.2) {n p : ℕ}
    (hsrc : src.drop p = layout sectorsize p (segments.map Prod.fst) ++ trailing)
    (hend : p + (layout sectorsize p (segments.map Prod.fst)).length = total)
    (hn : total < n + p) {dst scratch : List UInt8}
    (hroom : dst.length + (segments.flatMap Prod.snd).length + sectorsize ≤
      maxDecompressedExtentBytes) (hscratch : scratch.length = sectorsize) :
    decode.loop env src total sectorsize n p dst scratch =
      .ok (dst ++ segments.flatMap Prod.snd) := by
  -- on the segments still to read: each pass takes one off the layout and moves p past it
  induction segments generalizing n p dst scratch with
  | nil =>
    have hp : p = total := hend
    cases n with
    | zero => omega
    | succ n =>
      rw [loop_succ, if_neg (by omega), List.flatMap_nil, List.append_nil]
  | cons s segments ih =>
    obtain ⟨segment, plain⟩ := s
    obtain ⟨hfirst, hwritten⟩ := List.forall_mem_cons.mp hwritten
    simp only [List.map_cons, layout, List.append_assoc] at hsrc
    simp only [List.map_cons, layout, List.length_append, List.length_replicate,
      length_leBytes] at hend
    rw [List.flatMap_cons, List.length_append] at hroom
    have hroom : dst.length + (plain.length + (segments.flatMap Prod.snd).length) + sectorsize ≤
      maxDecompressedExtentBytes := hroom
    have hlen : 0 < segment.length := List.length_pos_of_ne_nil hfirst.nonempty
    cases n with
    | zero => omega
    | succ n =>
      obtain ⟨scratch', hscratch', hnext⟩ := nextSegment_layout hsector hwidth hfit htotal hsrc
        (by omega) h32 hfirst (by omega : dst.length + sectorsize ≤ _) hscratch
      rw [loop_succ, if_pos (by omega), hnext, Except.ok_bind]
      dsimp only
      rw [List.flatMap_cons, ← List.append_assoc]
      -- behind the padding, the length and the segment stands the layout of the rest
      have hdrop : (src.drop p).drop (padding sectorsize p + (4 + segment.length)) =
          layout sectorsize (p + padding sectorsize p + 4 + segment.length)
            (segments.map Prod.fst) ++ trailing := by
        rw [hsrc, ← List.drop_drop, List.drop_left' List.length_replicate, ← List.drop_drop,
          List.drop_left' (length_leBytes 4 _), List.drop_left' rfl]
      rw [List.drop_drop, show p + (padding sectorsize p + (4 + segment.length)) =
        p + padding sectorsize p + 4 + segment.length by omega] at hdrop
      refine ih hwritten hdrop (by omega) (by omega) ?_ hscratch'
      rw [List.length_append]
      omega

/-- De-framing undoes framing, whatever follows the extent. -/
theorem decode_extent (husize : 32 ≤ env.usizeBits)
    (hsector : isPow2InRange sectorsize 4096 65536)
    {segments : List (List UInt8 × List UInt8)}
    (hwritten : ∀ s ∈ segments, Written env sectorsize s.1 s.2)
    (h32 : (extent sectorsize (segments.map Prod.fst)).length < 2 ^ 32)
    (hroom : (segments.flatMap Prod.snd).length + sectorsize ≤ 16 * 1024 * 1024)
    (trailing : List UInt8)
    (hsrc : (extent sectorsize (segments.map Prod.fst) ++ trailing).length <
      2 ^ (env.usizeBits - 1)) :
    decode env (extent sectorsize (segments.map Prod.fst) ++ trailing) [] sectorsize =
      .ok (segments.flatMap Prod.snd) := by
  have hwidth : 2 ^ 32 ≤ 2 ^ env.usizeBits := Nat.pow_le_pow_right (by omega) husize
  have hhalf : 2 ^ 31 ≤ 2 ^ (env.usizeBits - 1) := Nat.pow_le_pow_right (by omega) (by omega)
  have hdouble : 2 ^ env.usizeBits = 2 * 2 ^ (env.usizeBits - 1) := by
    rw [← Nat.pow_succ', Nat.succ_eq_add_one, Nat.sub_add_cancel (by omega)]
  set body := layout sectorsize 4 (segments.map Prod.fst) with hbody
  have hextent : extent sectorsize (segments.map Prod.fst) = leBytes 4 (4 + body.length) ++ body :=
    rfl
  rw [hextent, List.length_append, length_leBytes] at h32
  rw [hextent, List.length_append, List.length_append, length_leBytes] at hsrc
  rw [hextent, List.append_assoc]
  -- the total length in front reads back, and the segments start right behind it
  have htotal : leAt (leBytes 4 (4 + body.length) ++ (body ++ trailing)) 0 4 = 4 + body.length :=
    leAt_leBytes (by omega) _
  have hlen : (leBytes 4 (4 + body.length) ++ (body ++ trailing)).length =
      4 + (body.length + trailing.length) := by
    rw [List.length_append, List.length_append, length_leBytes]
  have hasUsize : env.asUsize (4 + body.length) = 4 + body.length := Nat.mod_eq_of_lt (by omega)
  unfold decode
  rw [if_neg (by omega), readLeU32, readLe_ok (by omega), Except.ok_bind, htotal, hasUsize]
  dsimp only
  rw [if_neg (by omega)]
  have hsrc : (leBytes 4 (4 + body.length) ++ (body ++ trailing)).drop 4 = body ++ trailing :=
    List.drop_left' (length_leBytes 4 _)
  have hempty : ([] : List UInt8).length = 0 := rfl
  have hmax : maxDecompressedExtentBytes = 16777216 := rfl
  exact @loop_layout env sectorsize (isPow2InRange_bounds hsector) hwidth _ trailing
    (4 + body.length) (by omega) (by omega) (by omega) segments hwritten _ 4 hsrc rfl (by omega)
    [] _ (by omega) List.length_replicate

end Reader

/-! ### A stream of literals -/

/-- The LZO1X streams that are one run of at least four literals and the end marker. -/
def literalRun (segment scratch : List UInt8) : Option (ℕ × List UInt8) :=
  match segment with
  | [] => none
  | first :: rest =>
    let n := first.toNat - 17
    if 21 ≤ first.toNat ∧ rest.drop n = [0x11, 0, 0] ∧ n ≤ scratch.length then
      some (n, rest.take n ++ scratch.drop n)
    else none

theorem literalRun_length {segment scratch scratch' : List UInt8} {n : ℕ}
    (h : literalRun segment scratch = some (n, scratch')) :
    n ≤ scratch.length ∧ scratch'.length = scratch.length := by
  unfold literalRun at h
  cases segment with
  | nil => cases h
  | cons first rest =>
    dsimp only at h
    split_ifs at h with hrun
    obtain ⟨-, hmark, hroom⟩ := hrun
    have hlen := congrArg List.length hmark
    rw [List.length_drop] at hlen
    have hlen : rest.length - (first.toNat - 17) = 3 := hlen
    cases h
    refine ⟨hroom, ?_⟩
    rw [List.length_append, List.length_take, List.length_drop]
    omega

/-- The reference environment with that much of LZO. -/
def literalEnv : Env :=
  { referenceEnv with
    lzo := true
    decoders := { referenceDecoders with
      lzokay := literalRun
      lzokay_length := literalRun_length } }

/-- The stream of one run of `n` literals. -/
def literals (n fill : UInt8) : List UInt8 :=
  (n + 17) :: (List.replicate n.toNat fill ++ [0x11, 0, 0])

/-- Two runs of literals, with three bytes after the extent. -/
theorem decode_extent_sample :
    decode literalEnv (extent 4096 [literals 5 97, literals 4 98] ++ [1, 2, 3]) [] 4096 =
      .ok [97, 97, 97, 97, 97, 98, 98, 98, 98] := by
  have hrun : ∀ s ∈ [(literals 5 97, List.replicate 5 97), (literals 4 98, List.replicate 4 98)],
      Written literalEnv 4096 s.1 s.2 := by
    have hexpands : ∀ n fill : UInt8, n = 5 ∨ n = 4 →
        Expands literalEnv 4096 (literals n fill) (List.replicate n.toNat fill) := by
      rintro n fill hn scratch hscratch
      refine ⟨List.replicate n.toNat fill ++ scratch.drop n.toNat, ?_, ?_⟩
      · show literalRun (literals n fill) scratch = _
        unfold literalRun literals
        rcases hn with rfl | rfl
        · exact if_pos ⟨by decide, rfl, by rw [hscratch]; decide⟩
        · exact if_pos ⟨by decide, rfl, by rw [hscratch]; decide⟩
      · exact List.take_left' (by rw [List.length_replicate])
    rintro s (_ | ⟨_, _ | ⟨_, hs⟩⟩)
    · exact ⟨by decide, by decide, hexpands 5 97 (.inl rfl)⟩
    · exact ⟨by decide, by decide, hexpands 4 98 (.inr rfl)⟩
    · cases hs
  exact decode_extent (by decide) (by decide) hrun (by decide) (by decide) [1, 2, 3] (by decide)

end Lzo
