/-
Builds for targets of different pointer widths.

`Env.width` is one build of the crate made for a `usize` of that many bits.  The parts
that work on one tree block or on one capped buffer stay below `2 ^ 32` in whatever they
add up, and so do not notice the width: reading a block and descending to a leaf are the
same program from 32 bits on (`findFirstGe_width`), and a decoder returns the same
(`decode_width`).

For the rest, which narrows what it found on the image, `Prog.Narrows` compares two
runs: the narrower one stops with an error of the crate, or comes out like the other.
-/
import Lambutter.Extents

namespace Env

/-- The same build for a target whose `usize` has `bits` bits. -/
def width (env : Env) (bits : ℕ) : Env := { env with usizeBits := bits }

section Width

variable (env : Env) (bits : ℕ)

theorem usizeBits_width : (env.width bits).usizeBits = bits := rfl

@[simp] theorem sub_width : (env.width bits).sub = env.sub := rfl

@[simp] theorem addU32_width : (env.width bits).addU32 = env.addU32 := rfl

@[simp] theorem addU64_width : (env.width bits).addU64 = env.addU64 := rfl

@[simp] theorem nextOffset_width : (env.width bits).nextOffset = env.nextOffset := rfl

@[simp] theorem decoders_width : (env.width bits).decoders = env.decoders := rfl

end Width

end Env

@[simp] theorem verifyCrc32c_width (env : Env) (bits : ℕ) :
    verifyCrc32c (env.width bits) = verifyCrc32c env := rfl

@[simp] theorem ChunkMap.resolve_width (env : Env) (bits : ℕ) (map : ChunkMap) :
    map.resolve (env.width bits) = map.resolve env := rfl

/-! ### Tree blocks -/

/-- Two passes over keys that agree up to one that neither can read. -/
theorem ascendFrom_congr {key key' : ℕ → Outcome DiskKey} {last : ℕ}
    (hsame : ∀ i ≤ last, key i = key' i) {x : Stop} (hlast : key last = .error x)
    (disorder : Error) (n i : ℕ) (hi : i ≤ last) (prev : DiskKey) :
    ascendFrom key disorder n i prev = ascendFrom key' disorder n i prev := by
  induction n generalizing i prev with
  | zero => rfl
  | succ n ih =>
    rw [ascendFrom, ascendFrom, ← hsame i hi]
    by_cases heq : i = last
    · rw [heq, hlast, Except.error_bind, Except.error_bind]
    · refine congrArg _ (funext fun cur => ?_)
      by_cases hle : cur ≤ prev
      · rw [if_pos hle, if_pos hle]
      · rw [if_neg hle, if_neg hle]
        exact ih (i + 1) (by omega) cur

section Blocks

variable {env : Env} {m n : ℕ} (hm : 32 ≤ m) (hn : 32 ≤ n)

include hm in
theorem Env.lt_usize {x : ℕ} (h : x < 2 ^ 32) : x < 2 ^ (env.width m).usizeBits :=
  h.trans_le (Nat.pow_le_pow_right (by omega) hm)

include hm hn

theorem TreeBlock.leafItem_width (b : TreeBlock) {i : ℕ} (hi : i ≤ maxNodeSize) :
    b.leafItem (env.width m) i = b.leafItem (env.width n) i := by
  have hmax : maxNodeSize = 65536 := rfl
  rw [leafItem_eq (Env.lt_usize hm (by omega)), leafItem_eq (Env.lt_usize hn (by omega))]

theorem TreeBlock.keyPtr_width (b : TreeBlock) {i : ℕ} (hi : i ≤ maxNodeSize) :
    b.keyPtr (env.width m) i = b.keyPtr (env.width n) i := by
  have hmax : maxNodeSize = 65536 := rfl
  rw [keyPtr_eq (Env.lt_usize hm (by omega)), keyPtr_eq (Env.lt_usize hn (by omega))]

/-- The pass over the keys stops inside the body, where every index is small. -/
theorem validate_width {b : TreeBlock} (hlen : b.body.length ≤ maxNodeSize) :
    validateKeysStrictlyAscending (env.width m) b =
      validateKeysStrictlyAscending (env.width n) b := by
  have hmax : maxNodeSize = 65536 := rfl
  unfold validateKeysStrictlyAscending
  dsimp only
  by_cases htwo : b.header.nritems < 2
  · rw [if_pos htwo, if_pos htwo]
  rw [if_neg htwo, if_neg htwo]
  by_cases hl : b.header.level = 0
  · rw [if_pos hl, if_pos hl, b.leafItem_width hm hn (Nat.zero_le _)]
    refine congrArg _ (funext fun first => ?_)
    -- slot maxNodeSize lies outside every body, so no pass gets to an index that wraps
    have hlast : ∃ x, b.leafItem (env.width m) maxNodeSize = .error x := by
      rw [TreeBlock.leafItem_eq (Env.lt_usize hm (by omega))]
      split_ifs
      · exact ⟨_, rfl⟩
      · exact ⟨_, rfl⟩
      · omega
    obtain ⟨x, hx⟩ := hlast
    exact ascendFrom_congr (fun i hi => by rw [b.leafItem_width hm hn hi])
      (by rw [hx]; rfl) _ _ _ (by omega) _
  · rw [if_neg hl, if_neg hl, b.keyPtr_width hm hn (Nat.zero_le _)]
    refine congrArg _ (funext fun first => ?_)
    have hlast : ∃ x, b.keyPtr (env.width m) maxNodeSize = .error x := by
      rw [TreeBlock.keyPtr_eq (Env.lt_usize hm (by omega))]
      split_ifs
      · exact ⟨_, rfl⟩
      · exact ⟨_, rfl⟩
      · omega
    obtain ⟨x, hx⟩ := hlast
    exact ascendFrom_congr (fun i hi => by rw [b.keyPtr_width hm hn hi])
      (by rw [hx]; rfl) _ _ _ (by omega) _

theorem acceptBlock_width (logical : ℕ) {body : List UInt8} (hlen : body.length ≤ maxNodeSize) :
    acceptBlock (env.width m) logical body = acceptBlock (env.width n) logical body := by
  unfold acceptBlock
  refine congrArg _ (funext fun parsed => congrArg _ (funext fun header =>
    congrArg _ (funext fun covered => ?_)))
  dsimp only
  rw [@validate_width env m n hm hn ⟨header, body⟩ hlen, verifyCrc32c_width, verifyCrc32c_width]

end Blocks

/-! ### The way down -/

section Descent

variable {env : Env} {m n : ℕ} (hm : 32 ≤ m) (hn : 32 ≤ n) {map : ChunkMap} {nodesize : ℕ}
  (hnode : ValidNodesize nodesize)

theorem fetch_width (io : ℕ → Error) (k len cursor : ℕ) :
    fetch (env.width m) map io k len cursor = fetch (env.width n) map io k len cursor := by
  induction k generalizing len cursor with
  | zero => rfl
  | succ k ih =>
    rw [fetch, fetch, ChunkMap.resolve_width, ChunkMap.resolve_width]
    by_cases hlen : 0 < len
    · rw [if_pos hlen, if_pos hlen]
      refine congrArg _ (funext fun resolved => congrArg _ (funext fun bytes => ?_))
      rw [ih]
    · rw [if_neg hlen, if_neg hlen]

include hm hn hnode in
theorem readTreeBlock_width (logical : ℕ) :
    readTreeBlock (env.width m) map nodesize logical =
      readTreeBlock (env.width n) map nodesize logical := by
  obtain ⟨-, hmax⟩ := hnode
  have h65536 : maxNodeSize = 65536 := rfl
  refine congrArg _ (funext fun _ => ?_)
  rw [readBody_eq (Env.lt_usize hm (by omega)), readBody_eq (Env.lt_usize hn (by omega)),
    fetch_width]
  refine (fetch_ensures _ _ _ _ (Nat.lt_succ_self _)).bind_congr fun body hbody => ?_
  rw [acceptBlock_width hm hn logical (hbody.trans_le hmax)]

theorem bisect_width (below : ℕ → Outcome Bool) (k lo hi : ℕ) :
    bisect (env.width m) below k lo hi = bisect (env.width n) below k lo hi := by
  induction k generalizing lo hi with
  | zero => rfl
  | succ k ih =>
    rw [bisect, bisect]
    simp only [Env.sub_width, Env.addU32_width]
    by_cases hlt : lo < hi
    · rw [if_pos hlt, if_pos hlt]
      refine congrArg _ (funext fun width => congrArg _ (funext fun mid =>
        congrArg _ (funext fun isBelow => ?_)))
      cases isBelow with
      | true => exact congrArg _ (funext fun lo => ih lo hi)
      | false => exact ih lo mid
    · rw [if_neg hlt, if_neg hlt]

section Accepted

variable {b : TreeBlock} (hb : b.Accepted)

include hm hn hb

theorem TreeBlock.Accepted.leafItem_width (hl : b.header.level = 0) (i : ℕ) :
    b.leafItem (env.width m) i = b.leafItem (env.width n) i := by
  have hfit := hb.leaf_fits hl
  have hlen := hb.length_le
  by_cases hi : b.header.nritems ≤ i
  · rw [TreeBlock.leafItem, TreeBlock.leafItem, if_pos hi, if_pos hi]
  · exact b.leafItem_width hm hn (by omega)

theorem TreeBlock.Accepted.keyPtr_width (hl : b.header.level ≠ 0) (i : ℕ) :
    b.keyPtr (env.width m) i = b.keyPtr (env.width n) i := by
  have hfit := hb.node_fits hl
  have hlen := hb.length_le
  by_cases hi : b.header.nritems ≤ i
  · rw [TreeBlock.keyPtr, TreeBlock.keyPtr, if_pos hi, if_pos hi]
  · exact b.keyPtr_width hm hn (by omega)

theorem binarySearchInterior_width (hl : b.header.level ≠ 0) (target : DiskKey) :
    binarySearchInterior (env.width m) b target = binarySearchInterior (env.width n) b target := by
  unfold binarySearchInterior
  simp only [hb.keyPtr_width hm hn hl]
  rw [bisect_width]

theorem binarySearchLeaf_width (hl : b.header.level = 0) (target : DiskKey) :
    binarySearchLeaf (env.width m) b target = binarySearchLeaf (env.width n) b target := by
  unfold binarySearchLeaf
  simp only [hb.leafItem_width hm hn hl]
  rw [bisect_width]

end Accepted

include hm hnode

theorem descendToLeaf_loop_width (target : DiskKey) (k : ℕ) {b : TreeBlock} (hb : b.Accepted)
    (nextKey : Option DiskKey) (depth : ℕ) :
    descendToLeaf.loop (env.width m) map nodesize target k b nextKey depth =
      descendToLeaf.loop (env.width 64) map nodesize target k b nextKey depth := by
  induction k generalizing b nextKey depth with
  | zero => rfl
  | succ k ih =>
    rw [descendToLeaf.loop, descendToLeaf.loop]
    by_cases hl : 0 < b.header.level
    swap
    · rw [if_neg hl, if_neg hl]
    rw [if_pos hl, if_pos hl]
    dsimp only
    rw [binarySearchInterior_width hm (by omega : 32 ≤ 64) hb hl.ne' target]
    simp only [hb.keyPtr_width hm (by omega : 32 ≤ 64) hl.ne',
      readTreeBlock_width hm (by omega : 32 ≤ 64) hnode, Env.addU32_width]
    by_cases hd : maxTreeDepth < min (depth + 1) 255
    · rw [if_pos hd, if_pos hd, liftM_err_bind, liftM_err_bind]
    by_cases hzero : b.header.nritems = 0
    · rw [if_neg hd, if_neg hd, if_pos hzero, if_pos hzero, liftM_err_bind, liftM_err_bind]
    rw [if_neg hd, if_neg hd, if_neg hzero, if_neg hzero]
    refine congrArg _ (funext fun childIdx => congrArg _ (funext fun nextIdx =>
      congrArg _ (funext fun nextKey => congrArg _ (funext fun kp => ?_))))
    exact (readTreeBlock_ensures (Env.usizeBits_width env 64) hnode kp.blockptr).bind_congr
      fun child hchild => ih hchild.1 nextKey _

theorem descendToLeaf_width (root : ℕ) (target : DiskKey) :
    descendToLeaf (env.width m) map nodesize root target =
      descendToLeaf (env.width 64) map nodesize root target := by
  unfold descendToLeaf
  rw [readTreeBlock_width hm (by omega : 32 ≤ 64) hnode]
  exact (readTreeBlock_ensures (Env.usizeBits_width env 64) hnode root).bind_congr
    fun block hblock => descendToLeaf_loop_width hm hnode target _ hblock.1 none 0

omit hnode in
theorem firstPast_width {next : TreeBlock} (hb : next.Accepted) (hl : next.header.level = 0)
    (target : DiskKey) :
    firstPast (env.width m) next target = firstPast (env.width 64) next target := by
  unfold firstPast
  rw [hb.leafItem_width hm (by omega : 32 ≤ 64) hl]

/-- The search of a tree is the same program at every width. -/
theorem findFirstGe_width (root : ℕ) (target : DiskKey) :
    findFirstGe (env.width m) map nodesize root target =
      findFirstGe (env.width 64) map nodesize root target := by
  have hreach := @descendToLeaf_ensures (env.width 64) rfl map nodesize hnode root
  unfold findFirstGe
  rw [descendToLeaf_width hm hnode]
  refine (hreach target).bind_congr fun r hr => ?_
  obtain ⟨leaf, nextKey⟩ := r
  obtain ⟨hb, hl⟩ := hr
  dsimp only at hb hl ⊢
  rw [binarySearchLeaf_width hm (by omega : 32 ≤ 64) hb hl]
  refine congrArg _ (funext fun found => ?_)
  cases found with
  | some idx => rfl
  | none =>
    cases nextKey with
    | none => rfl
    | some nextKey =>
      dsimp only
      rw [descendToLeaf_width hm hnode]
      refine (hreach nextKey).bind_congr fun r hr => ?_
      rw [firstPast_width hm hr.1 hr.2]

end Descent

/-! ### Decoders -/

section Decoders

variable {env : Env} {m n : ℕ} (hm : 32 ≤ m) (hn : 32 ≤ n)

include hm hn

theorem Lzo.nextSegment_width {src : List UInt8} {total sectorsize : ℕ}
    (hsector : ValidSectorsize sectorsize) (htotal : total ≤ src.length)
    (hfit : total + 2 ^ 17 < 2 ^ 32) {p : ℕ} (hp : p < total) {dstLen : ℕ}
    (hdst : dstLen ≤ maxDecompressedExtentBytes) {scratch : List UInt8}
    (hscratch : scratch.length = sectorsize) :
    Lzo.nextSegment (env.width m) src total sectorsize p dstLen scratch =
      Lzo.nextSegment (env.width n) src total sectorsize p dstLen scratch := by
  rw [Lzo.nextSegment_eq hsector htotal (Env.lt_usize hm hfit)
      (Nat.pow_le_pow_right (by omega) hm) hp hdst hscratch rfl rfl,
    Lzo.nextSegment_eq hsector htotal (Env.lt_usize hn hfit)
      (Nat.pow_le_pow_right (by omega) hn) hp hdst hscratch rfl rfl]
  rfl

theorem Lzo.loop_width {src : List UInt8} {total sectorsize : ℕ}
    (hsector : ValidSectorsize sectorsize) (htotal : total ≤ src.length)
    (hfit : total + 2 ^ 17 < 2 ^ 32) (k p : ℕ) {dst scratch : List UInt8}
    (hdst : dst.length ≤ maxDecompressedExtentBytes) (hscratch : scratch.length = sectorsize) :
    Lzo.decodeInto.loop (env.width m) src total sectorsize k p dst scratch =
      Lzo.decodeInto.loop (env.width n) src total sectorsize k p dst scratch := by
  induction k generalizing p dst scratch with
  | zero => rfl
  | succ k ih =>
    rw [Lzo.decodeInto.loop, Lzo.decodeInto.loop]
    by_cases hp : p < total
    swap
    · rw [if_neg hp, if_neg hp]
    rw [if_pos hp, if_pos hp, Lzo.nextSegment_width hm hn hsector htotal hfit hp hdst hscratch]
    rcases Lzo.nextSegment_cases hsector htotal (Env.lt_usize hn hfit)
        (Nat.pow_le_pow_right (by omega) hn) hp hdst hscratch with
      ⟨e, hnext⟩ | hnext | ⟨stop, bytes, scratch', -, -, hbytes, hroom, hscratch', hnext⟩
    · rw [hnext, err]
    · rw [hnext]
    · rw [hnext]
      refine ih stop ?_ hscratch'
      rw [List.length_append]
      omega

theorem Lzo.decodeInto_width {src : List UInt8} {sectorsize : ℕ}
    (hsector : ValidSectorsize sectorsize) (hsrc : src.length + 2 ^ 17 < 2 ^ 32)
    {dst : List UInt8} (hdst : dst.length ≤ maxDecompressedExtentBytes) :
    Lzo.decodeInto (env.width m) src dst sectorsize =
      Lzo.decodeInto (env.width n) src dst sectorsize := by
  have htotal := leAt_lt src 0 4
  have heq : ∀ {b}, 32 ≤ b → (env.width b).asUsize (leAt src 0 4) = leAt src 0 4 :=
    fun hb => Nat.mod_eq_of_lt (Env.lt_usize hb (by omega))
  unfold Lzo.decodeInto
  dsimp only
  rw [heq hm, heq hn]
  by_cases hshort : src.length < 4
  · rw [if_pos hshort, if_pos hshort]
  rw [if_neg hshort, if_neg hshort]
  by_cases hbad : src.length < leAt src 0 4 ∨ leAt src 0 4 < 4
  · rw [if_pos hbad, if_pos hbad]
  rw [if_neg hbad, if_neg hbad]
  exact Lzo.loop_width hm hn hsector (by omega) (by omega) _ _ hdst (by simp)

theorem Zstd.drainInto_width (k : ℕ) (decoder : env.decoders.Streaming)
    {input dst : List UInt8} (hdst : dst.length ≤ maxDecompressedExtentBytes) :
    Zstd.drainInto (env.width m) k decoder input dst =
      Zstd.drainInto (env.width n) k decoder input dst := by
  have hmax : maxDecompressedExtentBytes = 16777216 := rfl
  induction k generalizing decoder input dst with
  | zero => rfl
  | succ k ih =>
    have hpass := fun b => Zstd.drainInto.eq_2 (env.width b) decoder input dst k
    rw [hpass m, hpass n]
    simp only [Env.decoders_width]
    rcases hread : env.decoders.streamingRead decoder input 4096 with _ | ⟨bytes, decoder', input'⟩
    · rfl
    obtain ⟨hbytes, -⟩ := env.decoders.streamingRead_length hread
    dsimp only
    by_cases hempty : bytes.length = 0
    · rw [if_pos hempty, if_pos hempty]
    rw [if_neg hempty, if_neg hempty, Env.addUsize_small hm (by omega),
      Env.addUsize_small hn (by omega)]
    dsimp only
    by_cases hfull : maxDecompressedExtentBytes < dst.length + bytes.length
    · rw [if_pos hfull, if_pos hfull]
    · rw [if_neg hfull, if_neg hfull]
      refine ih decoder' ?_
      rw [List.length_append]
      omega

theorem Zstd.loop_width (k : ℕ) {input dst : List UInt8}
    (hdst : dst.length ≤ maxDecompressedExtentBytes) :
    Zstd.decodeInto.loop (env.width m) k input dst =
      Zstd.decodeInto.loop (env.width n) k input dst := by
  induction k generalizing input dst with
  | zero => rfl
  | succ k ih =>
    rw [Zstd.decodeInto.loop, Zstd.decodeInto.loop]
    simp only [Env.decoders_width]
    by_cases hshort : input.length < 4
    · rw [if_pos hshort, if_pos hshort]
    rw [if_neg hshort, if_neg hshort]
    by_cases hmagic : leAt input 0 4 ≠ Zstd.zstdFrameMagic
    · rw [if_pos hmagic, if_pos hmagic]
    rw [if_neg hmagic, if_neg hmagic]
    rcases env.decoders.streamingNew input with _ | ⟨decoder, rest⟩
    · rfl
    dsimp only
    have hdrain := (@Zstd.drainInto_capped (env.width n) hn (maxDecompressedExtentBytes + 1)
      decoder rest dst hdst (by omega)).1.length_le
    rw [Zstd.drainInto_width hm hn _ _ hdst]
    revert hdrain
    rcases Zstd.drainInto (env.width n) (maxDecompressedExtentBytes + 1) decoder rest dst with
      ⟨x | left, out⟩
    · exact fun _ => rfl
    · exact fun hdrain => ih hdrain

/-- A decoder given less than four gigabytes returns the same at every width. -/
theorem decode_width (algorithm : ℕ) {src : List UInt8} (hsrc : src.length + 2 ^ 17 < 2 ^ 32)
    {sectorsize : ℕ} (hsector : ValidSectorsize sectorsize) :
    decode (env.width m) algorithm src [] sectorsize =
      decode (env.width n) algorithm src [] sectorsize := by
  have hhi : sectorsize ≤ 65536 := hsector.2
  have heq : ∀ {b}, 32 ≤ b → (env.width b).asUsize sectorsize = sectorsize :=
    fun hb => Nat.mod_eq_of_lt (Env.lt_usize hb (by omega))
  rw [← finished_decodeInto, ← finished_decodeInto]
  unfold decodeInto
  rw [heq hm, heq hn, Lzo.decodeInto_width hm hn hsector hsrc (Nat.zero_le _)]
  unfold Zstd.decodeInto
  rw [Zstd.loop_width hm hn _ (Nat.zero_le _)]
  rfl

end Decoders

/-! ### Runs on two targets -/

namespace Outcome

variable {α β : Type}

/-- A typed error, or the same outcome. -/
def Narrows (r r' : Outcome α) : Prop := (∃ e, r = err e) ∨ r = r'

theorem Narrows.refl (r : Outcome α) : Narrows r r := .inr rfl

theorem Narrows.of_err (e : Error) (r : Outcome α) : Narrows (err e) r := .inl ⟨e, rfl⟩

theorem Narrows.bind {r r' : Outcome α} {f f' : α → Outcome β} (h : Narrows r r')
    (hf : ∀ a, r = .ok a → Narrows (f a) (f' a)) : Narrows (r >>= f) (r' >>= f') := by
  rcases h with ⟨e, rfl⟩ | rfl
  · exact .inl ⟨e, rfl⟩
  cases r with
  | error x => exact .refl _
  | ok a => exact hf a rfl

/-- What the narrower run returns, the other returns. -/
theorem Narrows.ok {r r' : Outcome α} (h : Narrows r r') {a : α} (ha : r = .ok a) :
    r' = .ok a := by
  rcases h with ⟨e, he⟩ | rfl
  · rw [he] at ha
    exact absurd ha err_ne_ok
  · exact ha

end Outcome

namespace Prog

variable {α β : Type} {g : (q : ReadReq) → Ans q}

/-- Run with the same answers, `p` stops with a typed error or comes out like `p'`. -/
def Narrows (g : (q : ReadReq) → Ans q) (p p' : ReadM α) : Prop :=
  Outcome.Narrows (p.run g) (p'.run g)

theorem Narrows.refl (p : ReadM α) : Narrows g p p := Outcome.Narrows.refl _

theorem Narrows.lift {r r' : Outcome α} (h : Outcome.Narrows r r') :
    Narrows g (liftM r : ReadM α) (liftM r' : ReadM α) := by
  unfold Narrows
  rwa [run_liftM, run_liftM]

theorem Narrows.bind {p p' : ReadM α} {f f' : α → ReadM β} (h : Narrows g p p')
    (hf : ∀ a, p.run g = .ok a → Narrows g (f a) (f' a)) : Narrows g (p >>= f) (p' >>= f') := by
  unfold Narrows
  rw [run_bind, run_bind]
  exact Outcome.Narrows.bind h hf

end Prog

section Narrowing

variable (env : Env)

theorem checkedAdd_narrows (x y : ℕ) (e : Error) :
    Outcome.Narrows (okOr (checkedAdd 32 x y) e) (okOr (checkedAdd 64 x y) e) := by
  by_cases h : x + y < 2 ^ 32
  · rw [checkedAdd, checkedAdd, if_pos h, if_pos (by omega)]
    exact .refl _
  · rw [checkedAdd, if_neg h]
    exact .of_err _ _

theorem Env.tryIntoUsize_narrows (x : ℕ) (e : Error) :
    Outcome.Narrows ((env.width 32).tryIntoUsize x e) ((env.width 64).tryIntoUsize x e) := by
  unfold tryIntoUsize
  rw [usizeBits_width, usizeBits_width]
  by_cases h : x < 2 ^ 32
  · rw [if_pos h, if_pos (by omega)]
    exact .refl _
  · rw [if_neg h]
    exact .of_err _ _

theorem Env.tryReserve_narrows (x : ℕ) (e : Error) :
    Outcome.Narrows ((env.width 32).tryReserve x e) ((env.width 64).tryReserve x e) := by
  unfold tryReserve
  rw [usizeBits_width, usizeBits_width]
  by_cases h : x = 0 ∨ x < 2 ^ (32 - 1) ∧ (env.width 32).allocates x = true
  · rw [if_pos h, if_pos (h.imp id fun h => ⟨by omega, h.2⟩)]
    exact .refl _
  · rw [if_neg h]
    exact .of_err _ _

/-- The data of an item whose place fits both address spaces. -/
theorem TreeBlock.leafItemData_narrows {b : TreeBlock} {item : LeafItem}
    (ho : Header.size + item.offset < 2 ^ 32) (hs : item.size < 2 ^ 32) :
    Outcome.Narrows (b.leafItemData (env.width 32) item) (b.leafItemData (env.width 64) item) := by
  have hsize : Header.size = 101 := rfl
  have heq : ∀ {bits x}, 32 ≤ bits → x < 2 ^ 32 → (env.width bits).asUsize x = x :=
    fun hb hx => Nat.mod_eq_of_lt (Env.lt_usize hb hx)
  unfold leafItemData
  rw [heq le_rfl (by omega), heq le_rfl hs, heq (by omega) (by omega), heq (by omega) hs,
    Env.addUsize_small le_rfl ho, Env.addUsize_small (by rw [Env.usizeBits_width]; omega) ho]
  refine .bind (.refl _) fun start _ => ?_
  exact .bind (checkedAdd_narrows _ _ _) fun stop _ => .refl _

end Narrowing
