/-
The machine the reader runs on: errors, panics, integers and the crates it calls.

A computation of the crate ends in one of three ways, and `Outcome` keeps them
apart: a value, a typed `Error`, or a `Fault`, which is what a Rust program does
when it panics, wraps an integer it did not mean to wrap, or never returns.
Safety of the crate is the absence of faults.

Everything the result may depend on besides the image is gathered in `Env`: the
width of `usize`, whether the build checks plain arithmetic, which reservations
the allocator grants, the enabled decoders and the third-party crates.  The
crates' documented behaviour stands in `Decoders` next to the functions, so that
no theorem has to repeat it.
-/
import Mathlib.Data.List.Basic
import Mathlib.Tactic.Linarith

/-! ### Errors and faults -/

inductive SuperblockReason
  | badMagic
  | badCsum
  | generationSkew
  | noValidCopy
  | unsupportedCsumType
  | unsupportedIncompat
  | badGeometry
  deriving DecidableEq, Repr

/-- The crate's error type; tokens are the source's `&'static str`s. -/
inductive Error
  | io (token : String) (offset : ℕ)
  | badSuperblock (reason : SuperblockReason)
  | unsupportedFeature (token : String)
  | unsupportedProfile (token : String)
  | unsupportedChecksum (token : String)
  | csumMismatch (logical : ℕ)
  | corruptBtree (token : String) (logical : ℕ)
  | notFound
  | notARegularFile
  | notASymlink
  | notASubvolume
  | badCompression (algorithm : String)
  | outOfMemory (token : String)
  deriving DecidableEq, Repr

/-- What the source rules out by reasoning, not by a check. -/
inductive Fault
  /-- A plain `+`, `-` or `*` left its type. -/
  | overflow
  /-- The increment of the key a loop searches for next left its type. -/
  | nextKey
  /-- An index or a slice outside its array. -/
  | index
  /-- A loop that does not end. -/
  | fuel
  deriving DecidableEq, Repr

inductive Stop
  | err (e : Error)
  | fault (f : Fault)
  deriving DecidableEq, Repr

abbrev Outcome := Except Stop

variable {α β : Type}

def err (e : Error) : Outcome α := .error (.err e)

def fault (f : Fault) : Outcome α := .error (.fault f)

/-- `Option::ok_or`. -/
def okOr : Option α → Error → Outcome α
  | some a, _ => .ok a
  | none, e => err e

theorem Except.bind_eq_ok {ε : Type} {x : Except ε α} {f : α → Except ε β} {b : β} :
    (x >>= f) = .ok b ↔ ∃ a, x = .ok a ∧ f a = .ok b := by
  constructor
  · intro h
    cases x with
    | ok a => exact ⟨a, rfl, h⟩
    | error e => cases h
  · rintro ⟨a, rfl, h⟩
    exact h

theorem Except.map_eq_ok {ε : Type} {x : Except ε α} {f : α → β} {b : β} :
    f <$> x = .ok b ↔ ∃ a, x = .ok a ∧ f a = b := by
  cases x with
  | ok a =>
    show (Except.ok (f a) : Except ε β) = .ok b ↔ _
    simp
  | error e =>
    show (Except.error e : Except ε β) = .ok b ↔ _
    simp

theorem Except.ok_bind {ε : Type} (a : α) (f : α → Except ε β) :
    ((.ok a : Except ε α) >>= f) = f a := rfl

theorem Except.error_bind {ε : Type} (e : ε) (f : α → Except ε β) :
    ((.error e : Except ε α) >>= f) = .error e := rfl

theorem err_bind (e : Error) (f : α → Outcome β) : ((err e : Outcome α) >>= f) = err e := rfl

@[simp] theorem okOr_some (a : α) (e : Error) : okOr (some a) e = .ok a := rfl

@[simp] theorem okOr_none (e : Error) : okOr (none : Option α) e = err e := rfl

theorem okOr_eq_ok {o : Option α} {e : Error} {a : α} : okOr o e = .ok a ↔ o = some a := by
  cases o <;> simp [okOr, err]

theorem err_ne_ok {e : Error} {a : α} : (err e : Outcome α) ≠ .ok a := by simp [err]

theorem fault_ne_ok {f : Fault} {a : α} : (fault f : Outcome α) ≠ .ok a := by simp [fault]

/-- A stop that is an error of the crate, not a fault. -/
def Stop.Typed : Stop → Prop
  | .err _ => True
  | .fault _ => False

/-- The outcome is a value or a typed error. -/
def Outcome.Safe (r : Outcome α) : Prop := ∀ f, r ≠ fault f

theorem Outcome.safe_ok (a : α) : Outcome.Safe (.ok a : Outcome α) := by
  intro f h; cases h

theorem Outcome.safe_err (e : Error) : Outcome.Safe (err e : Outcome α) := by
  intro f h; cases h

theorem Outcome.safe_okOr (o : Option α) (e : Error) : Outcome.Safe (okOr o e) := by
  cases o with
  | none => exact Outcome.safe_err e
  | some a => exact Outcome.safe_ok a

theorem Outcome.Safe.bind {x : Outcome α} {f : α → Outcome β} (hx : Outcome.Safe x)
    (hf : ∀ a, x = .ok a → Outcome.Safe (f a)) : Outcome.Safe (x >>= f) := by
  cases x with
  | ok a => exact hf a rfl
  | error s =>
    cases s with
    | err e => exact Outcome.safe_err e
    | fault g => exact absurd rfl (hx g)

theorem Outcome.Safe.typed {r : Outcome α} (h : Outcome.Safe r) {x : Stop}
    (hx : r = .error x) : x.Typed := by
  cases x with
  | err e => trivial
  | fault f => exact absurd hx (h f)

instance (r : Outcome α) : Decidable (Outcome.Safe r) :=
  match r with
  | .ok a => .isTrue (Outcome.safe_ok a)
  | .error (.err e) => .isTrue (Outcome.safe_err e)
  | .error (.fault f) => .isFalse fun h => h f rfl

/-! ### Crates the source calls -/

/-- The decoder crates, with what their documentation promises. -/
structure Decoders where
  /-- `miniz_oxide::inflate::decompress_to_vec_zlib_with_limit(src, max)`. -/
  inflate : List UInt8 → ℕ → Option (List UInt8)
  inflate_length : ∀ {src max out}, inflate src max = some out → out.length ≤ max
  /-- `lzokay::decompress::decompress(segment, scratch)`: the number of bytes
  written and the scratch buffer afterwards. -/
  lzokay : List UInt8 → List UInt8 → Option (ℕ × List UInt8)
  lzokay_length : ∀ {segment scratch n scratch'},
    lzokay segment scratch = some (n, scratch') →
      n ≤ scratch.length ∧ scratch'.length = scratch.length
  /-- `ruzstd::decoding::StreamingDecoder`. -/
  Streaming : Type
  /-- `StreamingDecoder::new(&mut input)`: the decoder and the input left. -/
  streamingNew : List UInt8 → Option (Streaming × List UInt8)
  streamingNew_length : ∀ {input d rest},
    streamingNew input = some (d, rest) → rest.length < input.length
  /-- `decoder.read(&mut buf)` with a buffer of `n` bytes: the bytes produced,
  the decoder and the input left. -/
  streamingRead : Streaming → List UInt8 → ℕ → Option (List UInt8 × Streaming × List UInt8)
  streamingRead_length : ∀ {d input n bs d' rest},
    streamingRead d input n = some (bs, d', rest) →
      bs.length ≤ n ∧ rest.length ≤ input.length

/-- Build, allocator and crates. -/
structure Env where
  /-- Width of `usize`: 64, or 32 on the embedded targets. -/
  usizeBits : ℕ
  /-- Whether plain arithmetic panics (a debug build) or wraps (a release build). -/
  overflowChecks : Bool
  /-- Which `try_reserve`s of this many bytes the allocator grants. -/
  allocates : ℕ → Bool
  /-- `crc::Crc::<u32>::new(&CRC_32_ISCSI).checksum`. -/
  checksum : List UInt8 → ℕ
  /-- The cargo features of the three decoders. -/
  zlib : Bool
  lzo : Bool
  zstd : Bool
  decoders : Decoders

namespace Env

variable (env : Env)

/-! ### Integers -/

/-- The result `v` of plain arithmetic in an unsigned type of `bits` bits. -/
def plain (f : Fault) (bits v : ℕ) : Outcome ℕ :=
  if v < 2 ^ bits then .ok v
  else if env.overflowChecks then fault f
  else .ok (v % 2 ^ bits)

def addU64 (x y : ℕ) : Outcome ℕ := env.plain .overflow 64 (x + y)

def addU32 (x y : ℕ) : Outcome ℕ := env.plain .overflow 32 (x + y)

def addUsize (x y : ℕ) : Outcome ℕ := env.plain .overflow env.usizeBits (x + y)

def mulUsize (x y : ℕ) : Outcome ℕ := env.plain .overflow env.usizeBits (x * y)

/-- `key.offset + 1` for the search that follows an item. -/
def nextOffset (x : ℕ) : Outcome ℕ := env.plain .nextKey 64 (x + 1)

/-- Plain `x - y` in an unsigned type of `bits` bits. -/
def sub (bits x y : ℕ) : Outcome ℕ :=
  if y ≤ x then .ok (x - y)
  else if env.overflowChecks then fault .overflow
  else .ok (x + 2 ^ bits - y)

/-- `x as usize`. -/
def asUsize (x : ℕ) : ℕ := x % 2 ^ env.usizeBits

/-- `usize::try_from(x)` with the error the caller maps to. -/
def tryIntoUsize (x : ℕ) (e : Error) : Outcome ℕ :=
  if x < 2 ^ env.usizeBits then .ok x else err e

/-- `Vec::try_reserve(_exact)` of `n` bytes on an empty vector: nothing is allocated
for none, and above `isize::MAX` it always fails. -/
def tryReserve (n : ℕ) (e : Error) : Outcome Unit :=
  if n = 0 ∨ n < 2 ^ (env.usizeBits - 1) ∧ env.allocates n = true then .ok () else err e

/-- `Vec::try_reserve(additional)` on a vector of `len` bytes with room for `capacity`. -/
def tryReserveMore (capacity len additional : ℕ) (e : Error) : Outcome Unit :=
  if len + additional ≤ capacity then .ok () else env.tryReserve (len + additional) e

theorem plain_ok {f : Fault} {bits v : ℕ} (h : v < 2 ^ bits) : env.plain f bits v = .ok v :=
  if_pos h

theorem addU64_ok {x y : ℕ} (h : x + y < 2 ^ 64) : env.addU64 x y = .ok (x + y) :=
  env.plain_ok h

theorem addU32_ok {x y : ℕ} (h : x + y < 2 ^ 32) : env.addU32 x y = .ok (x + y) :=
  env.plain_ok h

theorem nextOffset_ok {x : ℕ} (h : x + 1 < 2 ^ 64) : env.nextOffset x = .ok (x + 1) :=
  env.plain_ok h

theorem sub_ok {bits x y : ℕ} (h : y ≤ x) : env.sub bits x y = .ok (x - y) := if_pos h

theorem tryIntoUsize_safe (x : ℕ) (e : Error) : Outcome.Safe (env.tryIntoUsize x e) := by
  unfold tryIntoUsize
  split
  · exact Outcome.safe_ok _
  · exact Outcome.safe_err _

/-- The allocator grants `n` bytes. -/
def Grants (n : ℕ) : Prop := n = 0 ∨ n < 2 ^ (env.usizeBits - 1) ∧ env.allocates n = true

instance (n : ℕ) : Decidable (env.Grants n) := inferInstanceAs (Decidable (_ ∨ _ ∧ _))

theorem tryReserve_eq_ok {n : ℕ} {e : Error} : env.tryReserve n e = .ok () ↔ env.Grants n := by
  unfold tryReserve Grants
  split
  · simpa
  · rename_i h
    exact ⟨fun hc => absurd hc err_ne_ok, fun hc => absurd hc h⟩

theorem tryReserve_safe (n : ℕ) (e : Error) : Outcome.Safe (env.tryReserve n e) := by
  unfold tryReserve
  split
  · exact Outcome.safe_ok _
  · exact Outcome.safe_err _

theorem tryReserveMore_ok {capacity len additional : ℕ} {e : Error}
    (h : len + additional ≤ capacity) : env.tryReserveMore capacity len additional e = .ok () :=
  if_pos h

variable {env} in
theorem addUsize_fits {x y : ℕ} (h : x + y < 2 ^ env.usizeBits) : env.addUsize x y = .ok (x + y) :=
  env.plain_ok h

variable {env} in
theorem mulUsize_fits {x y : ℕ} (h : x * y < 2 ^ env.usizeBits) : env.mulUsize x y = .ok (x * y) :=
  env.plain_ok h

variable {env} in
/-- Sums that fit 32 bits fit every `usize`. -/
theorem addUsize_small (hw : 32 ≤ env.usizeBits) {x y : ℕ} (h : x + y < 2 ^ 32) :
    env.addUsize x y = .ok (x + y) :=
  addUsize_fits (h.trans_le (Nat.pow_le_pow_right (by omega) hw))

section Usize64

variable {env} (h64 : env.usizeBits = 64)
include h64

theorem usize_ge : 32 ≤ env.usizeBits := by omega

theorem addUsize_ok {x y : ℕ} (h : x + y < 2 ^ 64) : env.addUsize x y = .ok (x + y) :=
  env.plain_ok (by rwa [h64])

theorem asUsize_eq {x : ℕ} (h : x < 2 ^ 64) : env.asUsize x = x :=
  Nat.mod_eq_of_lt (by rwa [h64])

theorem tryIntoUsize_ok {x : ℕ} {e : Error} (h : x < 2 ^ 64) :
    env.tryIntoUsize x e = .ok x :=
  if_pos (by rwa [h64])

end Usize64

end Env

/-- `checked_add` in an unsigned type of `bits` bits. -/
def checkedAdd (bits x y : ℕ) : Option ℕ := if x + y < 2 ^ bits then some (x + y) else none

/-- `u64::saturating_add`. -/
def saturatingAddU64 (x y : ℕ) : ℕ := min (x + y) (2 ^ 64 - 1)

theorem checkedAdd_eq_some {bits x y v : ℕ} :
    checkedAdd bits x y = some v ↔ x + y < 2 ^ bits ∧ v = x + y := by
  unfold checkedAdd
  split
  · simp [*, eq_comm]
  · simp [*]

theorem checkedAdd_eq_none {bits x y : ℕ} :
    checkedAdd bits x y = none ↔ 2 ^ bits ≤ x + y := by
  unfold checkedAdd
  split
  · simpa
  · rename_i h
    simpa using h

/-! ### Slices -/

/-- The bounds check of `buf[start..stop]` for a buffer of `len` bytes. -/
def sliceBounds (start stop len : ℕ) : Outcome Unit :=
  if start ≤ stop ∧ stop ≤ len then .ok () else fault .index

/-- `buf[start..stop]`. -/
def slice (buf : List UInt8) (start stop : ℕ) : Outcome (List UInt8) :=
  if start ≤ stop ∧ stop ≤ buf.length then .ok ((buf.drop start).take (stop - start))
  else fault .index

theorem sliceBounds_ok {start stop len : ℕ} (h1 : start ≤ stop) (h2 : stop ≤ len) :
    sliceBounds start stop len = .ok () := if_pos ⟨h1, h2⟩

theorem slice_ok {buf : List UInt8} {start stop : ℕ} (h1 : start ≤ stop)
    (h2 : stop ≤ buf.length) :
    slice buf start stop = .ok ((buf.drop start).take (stop - start)) := if_pos ⟨h1, h2⟩

theorem slice_eq_ok {buf bs : List UInt8} {start stop : ℕ} (h : slice buf start stop = .ok bs) :
    start ≤ stop ∧ stop ≤ buf.length ∧ bs.length = stop - start ∧
      ∀ j (hj : j < bs.length), buf[start + j]? = some bs[j] := by
  unfold slice at h
  split_ifs at h with hb
  · cases h
    have hlen : ((buf.drop start).take (stop - start)).length = stop - start := by
      rw [List.length_take, List.length_drop]
      omega
    refine ⟨hb.1, hb.2, hlen, fun j hj => ?_⟩
    rw [← List.getElem?_eq_getElem hj, List.getElem?_take_of_lt (by omega), List.getElem?_drop]
  · exact absurd h fault_ne_ok
