/-
When a file read chunk by chunk cannot be read to its end.

`read_file_at` goes through an inode's items anew in every call and takes each position
from the first item that ends past it (`reached`), so it never compares two items with
one another.  `Served` says what a position needs for a call to get past it: the items up
to that one can be taken apart, and the bytes it is to bring are there.  Every run of
`read_file_at`, and every run of successive calls, goes through positions in order and
ends at the first that is not served (`readFileAt_scans`, `stream_scans`).

An overlap of two items shows in none of this: `read_file` reports it, `read_file_at`
does not, and a file on which `read_file` does is read to the end chunk by chunk unless
something else is wrong with it (`overlap_streamed_iff`).
-/
import Lambutter.FileLayouts
import Lambutter.FileSafety
import Lambutter.Scans

open Ranges SearchTree

/-! ### Devices that serve bytes -/

/-- A request is served exactly when each of its bytes is. -/
def Device.Exact (dev : Device) : Prop :=
  ∀ offset len, 0 < len →
    (dev.serves offset len = true ↔ ∀ i < len, dev.serves (offset + i) 1 = true)

theorem Device.Exact.bytewise {dev : Device} (h : dev.Exact) : dev.Bytewise :=
  fun offset len hlen hserves => (h offset len hlen).mpr hserves

theorem SliceDevice.exact (s : SliceDevice) : s.device.Exact := by
  intro offset len hlen
  refine ⟨fun h i hi => ?_, s.bytewise offset len hlen⟩
  have hle := serves_iff.mp h
  exact serves_iff.mpr (by omega)

section Logical

variable {env : Env} (h64 : env.usizeBits = 64) {map : ChunkMap} {dev : Device}
  (hdev : dev.Exact)

include h64 hdev

/-- A logical read succeeds exactly when each of its addresses is readable. -/
theorem readThroughChunks_ok_iff {start len : ℕ} (hlen : len < 2 ^ 64) :
    (∃ out, (readThroughChunks env map start len).run dev.answer = .ok out) ↔
      ∀ i < len, ChunkMap.Readable env map dev (start + i) := by
  refine ⟨?_, readThroughChunks_complete h64 hdev.bytewise hlen⟩
  rintro ⟨out, h⟩ i hi
  rw [readThroughChunks_eq h64 hlen] at h
  obtain ⟨hlength, hbytes⟩ := run_fetch h
  obtain ⟨r, offset, k, hr, hserve, hle, hlt, -⟩ := hbytes i (by omega)
  have hone := (hdev offset k (by omega)).mp hserve (r.physical - offset) (by omega)
  rw [Nat.add_sub_cancel' hle] at hone
  exact ⟨r, hr, hone⟩

end Logical

/-! ### One extent -/

namespace Extent

section Delivers

variable (env : Env) (map : ChunkMap) (sectorsize : ℕ) (dev : Device)

/-- What a plain addition in `u64` returns, if it does. -/
theorem addU64_eq_ok {env : Env} {x y v : ℕ} : env.addU64 x y = .ok v ↔
    x + y < 2 ^ 64 ∧ v = x + y ∨
      env.overflowChecks = false ∧ 2 ^ 64 ≤ x + y ∧ v = (x + y) % 2 ^ 64 := by
  unfold Env.addU64 Env.plain
  by_cases hlt : x + y < 2 ^ 64
  · rw [if_pos hlt]
    constructor
    · intro h
      cases h
      exact .inl ⟨hlt, rfl⟩
    · rintro (⟨-, rfl⟩ | ⟨-, hle, -⟩)
      · rfl
      · omega
  rw [if_neg hlt]
  by_cases hchecks : env.overflowChecks = true
  · rw [if_pos hchecks]
    refine iff_of_false fault_ne_ok ?_
    rintro (⟨h, -⟩ | ⟨h, -⟩)
    · exact hlt h
    · rw [h] at hchecks
      cases hchecks
  · rw [if_neg hchecks]
    constructor
    · intro h
      cases h
      exact .inr ⟨by simpa using hchecks, not_lt.mp hlt, rfl⟩
    · rintro (⟨h, -⟩ | ⟨-, -, rfl⟩)
      · exact absurd h hlt
      · rfl

/-- What reading a compressed extent takes, and its plaintext. -/
structure Unpacks (compression : ℕ) (regular : ExtentDataRegular) (decoded : List UInt8) :
    Prop where
  cap : regular.diskNumBytes ≤ maxDecompressedExtentBytes
  grants : env.Grants regular.diskNumBytes
  readable : ∀ i < regular.diskNumBytes, map.Readable env dev (regular.diskBytenr + i)
  plain : packedPlain env map sectorsize dev compression regular = some decoded

/-- The extent has the `len` bytes from position `i` on, and they can be read. -/
def Delivers (e : Extent) (i len : ℕ) : Prop :=
  match e.backing with
  | .zeros => True
  | .inline compression payload =>
    ∃ plain, inlinePlain env sectorsize compression payload = .ok plain ∧ i + len ≤ plain.length
  | .plain diskBytenr offset => diskBytenr + offset + i < 2 ^ 64 ∧
      ∀ j < len, map.Readable env dev (diskBytenr + offset + (i + j))
  | .packed compression regular =>
    ∃ decoded position, Unpacks env map sectorsize dev compression regular decoded ∧
      env.addU64 regular.offset i = .ok position ∧ position + len ≤ decoded.length

/-- Position `i` of a compressed extent leaves `u64`, in a build that panics there. -/
def Trips (e : Extent) (i : ℕ) : Prop :=
  env.overflowChecks = true ∧ ∃ compression regular decoded,
    e.backing = .packed compression regular ∧ 2 ^ 64 ≤ regular.offset + i ∧
      Unpacks env map sectorsize dev compression regular decoded

end Delivers

section Segments

variable {env : Env} (h64 : env.usizeBits = 64) {map : ChunkMap} {sectorsize : ℕ}
  {dev : Device} (hdev : dev.Exact) (hsector : ValidSectorsize sectorsize)
  {e : Extent} {data : List UInt8} (hparse : parse data = .ok e)

theorem Unpacks.unique {compression : ℕ} {regular : ExtentDataRegular}
    {decoded decoded' : List UInt8}
    (h : Unpacks env map sectorsize dev compression regular decoded)
    (h' : Unpacks env map sectorsize dev compression regular decoded') : decoded = decoded' :=
  Option.some.inj (h.plain.symm.trans h'.plain)

include h64

theorem Unpacks.run (hdev : dev.Exact) {compression : ℕ} {regular : ExtentDataRegular}
    {decoded : List UInt8} (h : Unpacks env map sectorsize dev compression regular decoded) :
    (readCompressed env map sectorsize compression regular).run dev.answer = .ok decoded :=
  readCompressed_complete h64 hdev.bytewise h.cap h.grants h.readable h.plain

include hdev hsector

theorem readCompressed_ok_iff {compression : ℕ} (hc : compression ≠ compressNone)
    {regular : ExtentDataRegular} {decoded : List UInt8} :
    (readCompressed env map sectorsize compression regular).run dev.answer = .ok decoded ↔
      Unpacks env map sectorsize dev compression regular decoded := by
  refine ⟨fun h => ?_, Unpacks.run h64 hdev⟩
  have hplain := (readCompressed_sound h64 hsector hc h).1
  unfold readCompressed at h
  simp only [Prog.run_bind, Prog.run_liftM, Except.bind_eq_ok] at h
  obtain ⟨diskSize, hsize, h⟩ := h
  unfold Env.tryIntoUsize at hsize
  split_ifs at hsize with hlt
  · cases hsize
    by_cases hbig : maxDecompressedExtentBytes < regular.diskNumBytes
    · rw [if_pos hbig] at h
      exact absurd h err_ne_ok
    rw [if_neg hbig] at h
    simp only [Prog.run_bind, Prog.run_liftM, Except.bind_eq_ok] at h
    obtain ⟨_, hgrant, compressed, hread, -⟩ := h
    exact ⟨not_lt.mp hbig, (Env.tryReserve_eq_ok env).mp hgrant,
      (readThroughChunks_ok_iff h64 hdev (by rwa [h64] at hlt)).mp ⟨compressed, hread⟩, hplain⟩
  · exact absurd hsize err_ne_ok

theorem Unpacks.length_le {compression : ℕ} (hc : compression ≠ compressNone)
    {regular : ExtentDataRegular} {decoded : List UInt8}
    (h : Unpacks env map sectorsize dev compression regular decoded) :
    decoded.length ≤ maxDecompressedExtentBytes :=
  (readCompressed_sound h64 hsector hc (h.run h64 hdev)).2

omit hdev hsector in
/-- The end of a slice of decoded data, checked against what there is. -/
theorem sliceDecoded_ok_iff {decoded : List UInt8} {off len : ℕ}
    (hfits : off + len ≤ decoded.length → off + len < 2 ^ 64) (overflow short : Error) :
    (∃ bytes, Prog.run dev.answer (do
      let stop ← (okOr (checkedAdd env.usizeBits off len) overflow : Outcome ℕ)
      if decoded.length < stop then (err short : Outcome (List UInt8))
      else slice decoded off stop : ReadM (List UInt8)) = .ok bytes) ↔
        off + len ≤ decoded.length := by
  constructor
  · rintro ⟨bytes, h⟩
    simp only [Prog.run_bind, Prog.run_liftM, Except.bind_eq_ok, okOr_eq_ok,
      checkedAdd_eq_some] at h
    obtain ⟨stop, ⟨-, rfl⟩, h⟩ := h
    by_contra hshort
    rw [if_pos (not_le.mp hshort)] at h
    exact absurd h err_ne_ok
  · intro h
    rw [h64, checkedAdd, if_pos (hfits h), okOr_some, liftM_ok_bind, if_neg (not_lt.mpr h),
      slice_ok (Nat.le_add_right _ _) h]
    exact ⟨_, rfl⟩

include hparse

/-- `copy_extent_slice` succeeds exactly where the extent has the bytes asked for. -/
theorem copy_ok_iff {i len : ℕ} (hend : i + len < 2 ^ 64) :
    (∃ bytes, (e.copy env map sectorsize i len).run dev.answer = .ok bytes) ↔
      e.Delivers env map sectorsize dev i len := by
  have hmax : maxDecompressedExtentBytes = 16777216 := rfl
  unfold copy Delivers
  -- holes always succeed; the other three succeed with the reads that back them
  cases hb : e.backing with
  | zeros => exact iff_of_true ⟨_, rfl⟩ trivial
  | inline compression payload =>
    dsimp only
    cases hplain : inlinePlain env sectorsize compression payload with
    | error x =>
      refine iff_of_false ?_ ?_
      · rintro ⟨bytes, h⟩
        cases h
      · rintro ⟨plain, h, -⟩
        cases h
    | ok plain =>
      rw [liftM_ok_bind, Env.asUsize_eq h64 (by omega), sliceDecoded_ok_iff h64 fun _ => hend]
      constructor
      · exact fun h => ⟨plain, rfl, h⟩
      · rintro ⟨plain', hplain', h⟩
        cases hplain'
        exact h
  | plain diskBytenr offset =>
    dsimp only
    constructor
    · rintro ⟨bytes, h⟩
      simp only [Prog.run_bind, Prog.run_liftM, Except.bind_eq_ok, okOr_eq_ok,
        Option.bind_eq_some_iff, checkedAdd_eq_some] at h
      obtain ⟨at', ⟨v, ⟨-, rfl⟩, hlt, rfl⟩, hread⟩ := h
      refine ⟨hlt, fun j hj => ?_⟩
      rw [← Nat.add_assoc]
      exact (readThroughChunks_ok_iff h64 hdev (by omega)).mp ⟨bytes, hread⟩ j hj
    · rintro ⟨hlt, hread⟩
      have hadd : (checkedAdd 64 diskBytenr offset).bind (fun v => checkedAdd 64 v i) =
          some (diskBytenr + offset + i) := by
        rw [checkedAdd, if_pos (by omega), Option.bind_some, checkedAdd, if_pos hlt]
      rw [hadd, okOr_some, liftM_ok_bind, readThroughChunks_ok_iff h64 hdev (by omega)]
      intro j hj
      rw [Nat.add_assoc]
      exact hread j hj
  | packed compression regular =>
    obtain ⟨hc, -, hoffset⟩ := packed_fields hparse hb
    dsimp only
    constructor
    · rintro ⟨bytes, h⟩
      rw [Prog.run_bind] at h
      obtain ⟨decoded, hread, h⟩ := Except.bind_eq_ok.mp h
      have hunpacks := (readCompressed_ok_iff h64 hdev hsector hc).mp hread
      have hle := hunpacks.length_le h64 hdev hsector hc
      rw [Prog.run_bind, Prog.run_liftM] at h
      obtain ⟨position, hposition, h⟩ := Except.bind_eq_ok.mp h
      rw [Prog.run_bind, Prog.run_liftM] at h
      obtain ⟨off, hoff, h⟩ := Except.bind_eq_ok.mp h
      -- the cast to usize either keeps the offset or is an error
      obtain rfl : position = off := by
        unfold Env.tryIntoUsize at hoff
        split_ifs at hoff
        · cases hoff
          rfl
        · exact absurd hoff err_ne_ok
      exact ⟨decoded, position, hunpacks, hposition,
        (sliceDecoded_ok_iff h64 (by omega) _ _).mp ⟨bytes, h⟩⟩
    · rintro ⟨decoded, position, hunpacks, hposition, hle⟩
      have hlength := hunpacks.length_le h64 hdev hsector hc
      rw [Prog.run_bind, hunpacks.run h64 hdev, Except.ok_bind, hposition, liftM_ok_bind,
        Env.tryIntoUsize_ok h64 (by omega), liftM_ok_bind, sliceDecoded_ok_iff h64 (by omega)]
      exact hle

/-- A segment is delivered exactly when each of its positions is. -/
theorem delivers_iff_forall {i len : ℕ} (hlen : 0 < len) (hend : i + len < 2 ^ 64) :
    e.Delivers env map sectorsize dev i len ↔
      ∀ j < len, e.Delivers env map sectorsize dev (i + j) 1 := by
  have hmax : maxDecompressedExtentBytes = 16777216 := rfl
  unfold Delivers
  cases hb : e.backing with
  | zeros => exact iff_of_true trivial fun _ _ => trivial
  | inline compression payload =>
    dsimp only
    constructor
    · rintro ⟨plain, hplain, hle⟩ j hj
      exact ⟨plain, hplain, by omega⟩
    · intro h
      obtain ⟨plain, hplain, hle⟩ := h (len - 1) (by omega)
      exact ⟨plain, hplain, by omega⟩
  | plain diskBytenr offset =>
    dsimp only
    constructor
    · rintro ⟨hlt, hread⟩ j hj
      have hone := hread j hj
      obtain ⟨r, hr, -⟩ := hone
      have := (ChunkMap.contiguous_bounds hr).2
      refine ⟨by omega, fun k hk => ?_⟩
      obtain rfl : k = 0 := by omega
      exact hread j hj
    · intro h
      refine ⟨(h 0 hlen).1, fun j hj => ?_⟩
      exact (h j hj).2 0 Nat.one_pos
  | packed compression regular =>
    obtain ⟨hc, -, hoffset⟩ := packed_fields hparse hb
    dsimp only
    constructor
    · rintro ⟨decoded, position, hunpacks, hposition, hle⟩ j hj
      have hlength := hunpacks.length_le h64 hdev hsector hc
      refine ⟨decoded, position + j, hunpacks, addU64_eq_ok.mpr ?_, by omega⟩
      rcases addU64_eq_ok.mp hposition with ⟨hlt, rfl⟩ | ⟨hchecks, hwrap, rfl⟩
      · exact .inl ⟨by omega, by omega⟩
      · exact .inr ⟨hchecks, by omega, by omega⟩
    · intro h
      obtain ⟨decoded, position, hunpacks, hposition, hle⟩ := h 0 hlen
      have hlength := hunpacks.length_le h64 hdev hsector hc
      refine ⟨decoded, position, hunpacks, hposition, ?_⟩
      by_contra hshort
      -- the position right behind the decoded data is in the segment
      obtain ⟨decoded', position', hunpacks', hposition', hle'⟩ :=
        h (decoded.length - position) (by omega)
      cases hunpacks.unique hunpacks'
      rcases addU64_eq_ok.mp hposition with ⟨hlt, rfl⟩ | ⟨hchecks, hwrap, rfl⟩
      · rcases addU64_eq_ok.mp hposition' with ⟨-, rfl⟩ | ⟨-, hwrap', -⟩
        · omega
        · omega
      · rcases addU64_eq_ok.mp hposition' with ⟨hlt, -⟩ | ⟨-, -, rfl⟩
        · omega
        · omega

omit h64 hdev hsector hparse in
theorem Trips.not_delivers {i : ℕ} (h : e.Trips env map sectorsize dev i) :
    ¬ e.Delivers env map sectorsize dev i 1 := by
  obtain ⟨hchecks, compression, regular, decoded, hb, hle, -⟩ := h
  unfold Delivers
  rw [hb]
  rintro ⟨decoded', position, -, hposition, -⟩
  rcases addU64_eq_ok.mp hposition with ⟨hlt, -⟩ | ⟨hnot, -⟩
  · omega
  · rw [hnot] at hchecks
    cases hchecks

/-- A call of `copy_extent_slice` panics exactly when its first position trips. -/
theorem copy_trips_iff {i len : ℕ} (hlen : len < 2 ^ 64) :
    (e.copy env map sectorsize i len).run dev.answer = .error (.fault .overflow) ↔
      e.Trips env map sectorsize dev i := by
  by_cases hchecks : env.overflowChecks = true
  · refine (copy_fault_iff h64 dev.answer hchecks hsector hparse i hlen .overflow).trans ?_
    constructor
    · rintro ⟨-, compression, regular, decoded, hb, hle, hread⟩
      have hc := (packed_fields hparse hb).1
      exact ⟨hchecks, compression, regular, decoded, hb, hle,
        (readCompressed_ok_iff h64 hdev hsector hc).mp hread⟩
    · rintro ⟨-, compression, regular, decoded, hb, hle, hunpacks⟩
      exact ⟨rfl, compression, regular, decoded, hb, hle, hunpacks.run h64 hdev⟩
  · refine iff_of_false (fun h => ?_) fun h => hchecks h.1
    rcases (copy_ensures h64 hsector hparse i hlen).stops _ () h with ht | ⟨-, hon, -⟩
    · exact ht
    · exact hchecks hon

/-- Inside an extent positions do not trip once one before them is delivered. -/
theorem Trips.first {i k : ℕ} (h : e.Trips env map sectorsize dev (i + k)) (hk : 0 < k) :
    ¬ e.Delivers env map sectorsize dev (i + (k - 1)) 1 := by
  have hmax : maxDecompressedExtentBytes = 16777216 := rfl
  obtain ⟨hchecks, compression, regular, decoded, hb, hle, hunpacks⟩ := h
  have hlength := hunpacks.length_le h64 hdev hsector (packed_fields hparse hb).1
  unfold Delivers
  rw [hb]
  rintro ⟨decoded', position, hunpacks', hposition, hin⟩
  cases hunpacks.unique hunpacks'
  rcases addU64_eq_ok.mp hposition with ⟨hlt, rfl⟩ | ⟨hnot, -⟩
  · omega
  · rw [hnot] at hchecks
    cases hchecks

/-- `copy_extent_slice` goes through the positions of its segment in order. -/
theorem copy_scans {start p len : ℕ} (hstart : start ≤ p) (hlen : 0 < len)
    (hend : p + len < 2 ^ 64) :
    Scans (fun q => e.Delivers env map sectorsize dev (q - start) 1)
      (fun q => e.Trips env map sectorsize dev (q - start)) (.fault .overflow) Stop.Typed
      p (p + len) ((e.copy env map sectorsize (p - start) len).run dev.answer) where
  ok_iff := by
    rw [copy_ok_iff h64 hdev hsector hparse (by omega),
      delivers_iff_forall h64 hdev hsector hparse hlen (by omega)]
    constructor
    · intro h q hp hq
      have hone := h (q - p) (by omega)
      rwa [show p - start + (q - p) = q - start by omega] at hone
    · intro h j hj
      have hone := h (p + j) (by omega) (by omega)
      rwa [show p + j - start = p - start + j by omega] at hone
  trip_iff := by
    rw [copy_trips_iff h64 hdev hsector hparse (by omega)]
    constructor
    · exact fun h => ⟨p, le_rfl, by omega, fun j hp hlt => absurd hlt (not_lt.mpr hp), h⟩
    · rintro ⟨q, hp, hq, hbefore, htrip⟩
      rcases Nat.eq_or_lt_of_le hp with rfl | hlt
      · exact htrip
      · rw [show q - start = p - start + (q - p) by omega] at htrip
        have hprev := hbefore (q - 1) (by omega) (by omega)
        rw [show q - 1 - start = p - start + (q - p - 1) by omega] at hprev
        exact absurd hprev (htrip.first h64 hdev hsector hparse (by omega))
  stops x hx := by
    rcases (copy_ensures h64 hsector hparse (p - start) (by omega)).stops _ () hx with ht | ⟨h, -⟩
    · exact .inr ht
    · exact .inl h

end Segments

end Extent

/-! ### Positions of a file -/

section Positions

variable (env : Env) (map : ChunkMap) (sectorsize : ℕ) (dev : Device)

/-- The first item that ends past position `p`, where it starts and its extent; `stop` is
how the walk over the items ends. -/
def reached : List Located → Option Stop → ℕ → Outcome (Option (ℕ × Extent))
  | [], stop, _ => ending stop none
  | x :: xs, stop, p => do
    let e ← extentOf env x
    if x.start + e.declared ≤ p then reached xs stop p else return some (x.start, e)

/-- What position `p` needs for a call to get past it; `fresh` if the call starts there. -/
structure Served (items : List Located) (stop : Option Stop) (fresh : Prop) (p : ℕ) : Prop where
  /-- The first item that ends past `p` is found, and has a byte there if it starts
  by then. -/
  byte : ∃ found, reached env items stop p = .ok found ∧ ∀ start e, found = some (start, e) →
    start ≤ p → e.Delivers env map sectorsize dev (p - start) 1
  /-- A call that fills a gap up to `p` opens the item there, even one of no bytes. -/
  entry : ¬ fresh → ∀ e, reached env items stop (p - 1) = .ok (some (p, e)) →
    e.declared = 0 → e.Delivers env map sectorsize dev 0 0

/-- The first item that ends past `p` trips there. -/
def Trips (items : List Located) (stop : Option Stop) (p : ℕ) : Prop :=
  ∃ start e, reached env items stop p = .ok (some (start, e)) ∧ start ≤ p ∧
    e.Trips env map sectorsize dev (p - start)

/-- Of the positions below `size` the first that is not served does not trip; `starts` is
where calls start. -/
def StopsShort (items : List Located) (stop : Option Stop) (starts : List ℕ) (size : ℕ) : Prop :=
  ∃ p < size, (∀ q < p, Served env map sectorsize dev items stop (q ∈ starts) q) ∧
    ¬ Served env map sectorsize dev items stop (p ∈ starts) p ∧
    ¬ Trips env map sectorsize dev items stop p

end Positions

section Reached

variable {env : Env} {map : ChunkMap} {sectorsize : ℕ} {dev : Device} {x : Located}
  {xs : List Located} {stop : Option Stop} {e : Extent} {p : ℕ}

theorem reached_past (he : extentOf env x = .ok e) (h : x.start + e.declared ≤ p) :
    reached env (x :: xs) stop p = reached env xs stop p := by
  rw [reached, he, Except.ok_bind, if_pos h]

theorem reached_here (he : extentOf env x = .ok e) (h : p < x.start + e.declared) :
    reached env (x :: xs) stop p = .ok (some (x.start, e)) := by
  rw [reached, he, Except.ok_bind, if_neg (not_le.mpr h)]
  rfl

theorem reached_mem {start : ℕ} (h : reached env xs stop p = .ok (some (start, e))) :
    ∃ y ∈ xs, y.start = start := by
  induction xs with
  | nil =>
    cases stop with
    | none => cases h
    | some x => cases h
  | cons y ys ih =>
    obtain ⟨e', he, h⟩ := Except.bind_eq_ok.mp h
    by_cases hpast : y.start + e'.declared ≤ p
    · rw [if_pos hpast] at h
      obtain ⟨z, hz, hstart⟩ := ih h
      exact ⟨z, List.mem_cons_of_mem y hz, hstart⟩
    · rw [if_neg hpast] at h
      cases h
      exact ⟨y, List.mem_cons_self, rfl⟩

theorem trips_past (he : extentOf env x = .ok e) (h : x.start + e.declared ≤ p) :
    Trips env map sectorsize dev (x :: xs) stop p ↔ Trips env map sectorsize dev xs stop p := by
  unfold Trips
  rw [reached_past he h]

theorem trips_inside (he : extentOf env x = .ok e) (h1 : x.start ≤ p)
    (h2 : p < x.start + e.declared) : Trips env map sectorsize dev (x :: xs) stop p ↔
      e.Trips env map sectorsize dev (p - x.start) := by
  unfold Trips
  rw [reached_here he h2]
  constructor
  · rintro ⟨start, e', hfound, -, htrip⟩
    cases hfound
    exact htrip
  · exact fun h => ⟨x.start, e, rfl, h1, h⟩

/-- Before the item that is reached next there are zeros. -/
theorem served_before (he : extentOf env x = .ok e) (h : p < x.start) (fresh : Prop) :
    Served env map sectorsize dev (x :: xs) stop fresh p where
  byte := ⟨_, reached_here he (by omega), fun start e' hfound hle => by
    cases hfound
    omega⟩
  entry _ e' hfound := by
    rw [reached_here he (by omega)] at hfound
    cases hfound
    omega

theorem served_inside (he : extentOf env x = .ok e) (h1 : x.start ≤ p)
    (h2 : p < x.start + e.declared) (fresh : Prop) :
    Served env map sectorsize dev (x :: xs) stop fresh p ↔
      e.Delivers env map sectorsize dev (p - x.start) 1 := by
  constructor
  · rintro ⟨⟨found, hfound, hbyte⟩, -⟩
    rw [reached_here he h2] at hfound
    cases hfound
    exact hbyte _ _ rfl h1
  · refine fun h => ⟨⟨_, reached_here he h2, fun start e' hfound _ => ?_⟩, fun _ e' hfound hz => ?_⟩
    · cases hfound
      exact h
    · rw [reached_here he (by omega)] at hfound
      cases hfound
      omega

/-- Past an item only the items after it matter. -/
theorem served_past (he : extentOf env x = .ok e) (h : x.start + e.declared ≤ p) {fresh : Prop}
    (hprev : ¬ fresh → x.start + e.declared ≤ p - 1) :
    Served env map sectorsize dev (x :: xs) stop fresh p ↔
      Served env map sectorsize dev xs stop fresh p := by
  constructor
  · rintro ⟨hbyte, hentry⟩
    rw [reached_past he h] at hbyte
    refine ⟨hbyte, fun hfresh e' hfound => hentry hfresh e' ?_⟩
    rwa [reached_past he (hprev hfresh)]
  · rintro ⟨hbyte, hentry⟩
    refine ⟨by rwa [reached_past he h], fun hfresh e' hfound => hentry hfresh e' ?_⟩
    rwa [reached_past he (hprev hfresh)] at hfound

/-- Where an item ends, inside a call: as if a call started there, once the item has been
opened if it is empty. -/
theorem served_end (he : extentOf env x = .ok e) (hp : 0 < p) (h : x.start + e.declared = p)
    {fresh : Prop} (hfresh : ¬ fresh) : Served env map sectorsize dev (x :: xs) stop fresh p ↔
      (e.declared = 0 → e.Delivers env map sectorsize dev 0 0) ∧
        Served env map sectorsize dev xs stop True p := by
  constructor
  · rintro ⟨hbyte, hentry⟩
    rw [reached_past he h.le] at hbyte
    refine ⟨fun hz => hentry hfresh e ?_ hz, hbyte, fun hnot => absurd trivial hnot⟩
    rw [reached_here he (by omega), ← h, hz]
    rfl
  · rintro ⟨hopens, hbyte, -⟩
    refine ⟨by rwa [reached_past he h.le], fun _ e' hfound hz => ?_⟩
    rw [reached_here he (by omega)] at hfound
    cases hfound
    exact hopens hz

theorem Trips.not_served (h : Trips env map sectorsize dev xs stop p) (fresh : Prop) :
    ¬ Served env map sectorsize dev xs stop fresh p := by
  obtain ⟨start, e, hreached, hle, htrip⟩ := h
  rintro ⟨⟨found, hfound, hbyte⟩, -⟩
  cases hreached.symm.trans hfound
  exact htrip.not_delivers (hbyte start e rfl hle)

end Reached

/-! ### One call -/

section Call

variable {env : Env} (h64 : env.usizeBits = 64) {map : ChunkMap} {geometry : Geometry}
  {fsTreeRoot objectid : ℕ} {dev : Device} (hdev : dev.Exact)

/-- How `read_file_at` goes on once it has the slice of an extent. -/
theorem fold_slice {step : Located → List UInt8 → Outcome (Pace (List UInt8))} {x : Located}
    {xs : List Located} {k : List UInt8 → Outcome (List UInt8)} {written filled : List UInt8}
    {want : ℕ} {copied : Outcome (List UInt8)} (h : step x written = (do
      let bytes ← copied
      return readFileAt.pace want x.2 (filled ++ bytes))) :
    fold step (x :: xs) k written = (do
      let bytes ← copied
      if (filled ++ bytes).length = want then .ok (filled ++ bytes)
      else fold step xs k (filled ++ bytes)) := by
  rw [fold, h]
  cases copied with
  | error y => rfl
  | ok bytes =>
    rw [Except.ok_bind, Except.ok_bind, readFileAt.pace]
    by_cases hdone : (filled ++ bytes).length = want
    · rw [if_pos hdone, if_pos hdone]
      rfl
    · rw [if_neg hdone, if_neg hdone]
      rfl

/-- A part of a call that started at `fresh`: it goes through the positions from `p` up to
`q` in order. -/
abbrev CallScans (env : Env) (map : ChunkMap) (sectorsize : ℕ) (dev : Device)
    (items : List Located) (stop : Option Stop) (fresh p q : ℕ)
    (r : Outcome (List UInt8)) : Prop :=
  Scans (fun i => Served env map sectorsize dev items stop (i ≤ fresh) i)
    (Trips env map sectorsize dev items stop) (.fault .overflow) Stop.Typed p q r

include h64 hdev

/-- The slice of an extent, before the items after it. -/
theorem slice_scans {x : Located} {xs : List Located} (hxs : InOrder objectid (x :: xs))
    {stop : Option Stop} {e : Extent} (he : extentOf env x = .ok e) {fresh position len q : ℕ}
    (hstart : x.start ≤ position) (hlt : position < q) (hle : position + len ≤ q)
    (hq : q < 2 ^ 64) (hinside : position + len ≤ x.start + e.declared)
    (hempty : len = 0 → e.declared = 0 ∧ fresh < position)
    {k : List UInt8 → Outcome (List UInt8)}
    (hk : (e.declared = 0 → e.Delivers env map geometry.sectorsize dev 0 0) →
      ∀ bytes : List UInt8, bytes.length = len →
        CallScans env map geometry.sectorsize dev (x :: xs) stop fresh (position + len) q
          (k bytes)) :
    CallScans env map geometry.sectorsize dev (x :: xs) stop fresh position q (do
      let bytes ← (e.copy env map geometry.sectorsize (position - x.start) len).run dev.answer
      k bytes) := by
  obtain ⟨data, -, hparse⟩ := Except.bind_eq_ok.mp he
  have hensures := @Extent.copy_ensures _ h64 map _ _ geometry.validSectorsize _ hparse
    (position - x.start) len (by omega)
  by_cases hnone : len = 0
  swap
  · refine Scans.bind (fun _ htrip => htrip.not_served _) (Nat.le_add_right _ _) hle ?_
      fun bytes hcopy => hk (fun hz => absurd hz (by omega)) bytes (hensures.returns _ () hcopy)
    refine (Extent.copy_scans h64 hdev geometry.validSectorsize hparse hstart (by omega)
      (by omega)).congr (fun i hp hi => ?_) fun i hp hi => ?_
    · exact served_inside he (by omega) (by omega) _
    · exact trips_inside he (by omega) (by omega)
  -- an item of no bytes is opened all the same, where the gap before it ends
  obtain ⟨hzero, hgap⟩ := hempty hnone
  have hopens := @Extent.copy_ok_iff _ h64 map _ _ hdev geometry.validSectorsize _ _ hparse 0 0
    (by omega)
  have hhere : position - x.start = 0 := by omega
  cases hcopy : (e.copy env map geometry.sectorsize (position - x.start) len).run dev.answer with
  | ok bytes =>
    rw [Except.ok_bind]
    have hrest := hk (fun _ => hopens.mp ⟨bytes, by rwa [hhere, hnone] at hcopy⟩) bytes
      (hensures.returns _ () hcopy)
    rwa [hnone] at hrest
  | error y =>
    rw [Except.error_bind]
    have htyped : y.Typed := by
      rcases hensures.stops _ () hcopy with ht | ⟨-, -, compression, regular, hb, hover⟩
      · exact ht
      · have := (Extent.packed_fields hparse hb).2.2
        omega
    refine Scans.of_stop hlt htyped ?_ ?_ ?_
    · rintro rfl
      exact htyped
    · rw [eq_false (by omega : ¬ position ≤ fresh), served_end he (by omega) (by omega) id]
      rintro ⟨hdelivers, -⟩
      obtain ⟨bytes, hbytes⟩ := hopens.mpr (hdelivers hzero)
      rw [hhere, hnone, hbytes] at hcopy
      cases hcopy
    · -- the items after it start later
      rw [trips_past he (by omega : x.start + e.declared ≤ position)]
      rintro ⟨start, e', hfound, hle', -⟩
      obtain ⟨y, hy, rfl⟩ := reached_mem hfound
      have := (List.pairwise_cons.mp hxs.2).1 y hy
      omega

/-- `read_file_at` over the items goes through the positions asked for in order. -/
theorem readFileAt_fold_scans {offset want : ℕ} (hrange : offset + want < 2 ^ 64)
    {xs : List Located} (hxs : InOrder objectid xs) {stop : Option Stop}
    (hstop : ∀ x, stop = some x → x.Typed) {written : List UInt8}
    (hwritten : written.length < want) :
    CallScans env map geometry.sectorsize dev xs stop (offset + written.length)
      (offset + written.length) (offset + want)
      (fold ((readFileAt.walk env map geometry fsTreeRoot objectid offset want).step dev.answer)
        xs (ending stop) written) := by
  have hexcl : ∀ {xs : List Located} {fresh : ℕ → Prop} p,
      Trips env map geometry.sectorsize dev xs stop p →
        ¬ Served env map geometry.sectorsize dev xs stop (fresh p) p :=
    fun p htrip => htrip.not_served _
  induction xs generalizing written with
  | nil =>
    cases stop with
    | none =>
      refine Scans.of_good hexcl written fun p _ _ => ?_
      exact ⟨⟨none, rfl, fun start e h => by cases h⟩, fun _ e h => by cases h⟩
    | some x =>
      refine Scans.of_stop (by omega) (hstop x rfl) ?_ ?_ ?_
      · rintro rfl
        exact hstop _ rfl
      · rintro ⟨⟨found, hfound, -⟩, -⟩
        cases hfound
      · rintro ⟨start, e, hfound, -⟩
        cases hfound
  | cons x xs ih =>
    obtain ⟨hmine, hitem⟩ := hxs.1 x (by simp)
    have hstep := @readFileAt_step _ h64 map geometry fsTreeRoot _ _ _ dev.answer _ hmine hitem
      hrange _ hwritten
    cases he : extentOf env x with
    | error y =>
      have htyped : y.Typed := by
        refine Outcome.Safe.typed ?_ he
        exact (TreeBlock.leafItemData_safe h64 hitem).bind fun data _ => Extent.parse_safe data
      rw [he, Except.error_bind] at hstep
      rw [fold, hstep]
      refine Scans.of_stop (by omega) htyped ?_ ?_ ?_
      · rintro rfl
        exact htyped
      · rintro ⟨⟨found, hfound, -⟩, -⟩
        rw [reached, he] at hfound
        cases hfound
      · rintro ⟨start, e, hfound, -⟩
        rw [reached, he] at hfound
        cases hfound
    | ok e =>
      rw [he, Except.ok_bind] at hstep
      dsimp only at hstep
      have hkey : x.start < 2 ^ 64 := (TreeBlock.item_bounds hitem).2.2.offset
      set last := min (x.start + e.declared) (2 ^ 64 - 1) with hlast
      by_cases hskip : last ≤ offset + written.length
      · rw [if_pos hskip] at hstep
        rw [fold, hstep]
        refine (ih hxs.tail hwritten).congr (fun p hp hq => ?_) fun p hp hq => ?_
        · exact served_past he (by omega : x.start + e.declared ≤ p) (by omega)
        · exact trips_past he (by omega : x.start + e.declared ≤ p)
      rw [if_neg hskip] at hstep
      have hlen := readFileAt.length_filled offset x.start hwritten.le
      generalize readFileAt.filled offset want x.start written = filled at hstep hlen
      by_cases hfull : filled.length = want
      · -- the gap before the item takes all that is wanted
        rw [if_pos hfull] at hstep
        rw [fold, hstep]
        exact Scans.of_good hexcl filled fun p _ hp => served_before he (by omega) _
      rw [if_neg hfull] at hstep
      rw [fold_slice hstep]
      set position := offset + filled.length with hposition
      refine Scans.after_good hexcl (m := position) (by omega) (by omega)
        (fun p _ hp => served_before he (by omega) _) ?_
      set len := min (last - position) (want - filled.length) with hlenDef
      refine slice_scans h64 hdev hxs he (by omega) (by omega) (by omega) hrange (by omega)
        (by omega) fun hopens bytes hbytes => ?_
      -- what follows the slice is left to the items after this one
      have hmid : (filled ++ bytes).length = filled.length + len := by
        rw [List.length_append, hbytes]
      by_cases hdone : (filled ++ bytes).length = want
      · rw [if_pos hdone]
        exact Scans.of_good hexcl _ fun p _ _ => by omega
      have hnext : position + len = offset + (filled ++ bytes).length := by omega
      rw [if_neg hdone, hnext]
      refine (ih hxs.tail (by omega)).congr (fun p hp hq => ?_) fun p hp hq => ?_
      · rw [eq_false (by omega : ¬ p ≤ offset + written.length)]
        by_cases hend : p = x.start + e.declared
        · rw [eq_true (by omega : p ≤ offset + (filled ++ bytes).length)]
          exact (served_end he (by omega) hend.symm id).trans (and_iff_right hopens)
        · rw [eq_false (by omega : ¬ p ≤ offset + (filled ++ bytes).length)]
          exact served_past he (by omega : x.start + e.declared ≤ p) fun _ => by omega
      · exact trips_past he (by omega : x.start + e.declared ≤ p)

/-- One call of `read_file_at`: it ends at the first position asked for that is not served. -/
theorem readFileAt_scans (hino : objectid < 2 ^ 64) {m : Metadata}
    (hmeta : (readMetadata env map geometry.nodesize fsTreeRoot objectid).run dev.answer = .ok m)
    (hfile : m.isFile = true) (offset : ℕ) (buf : List UInt8) :
    let walk := fileItems env map geometry fsTreeRoot objectid dev.answer
    Scans (fun p => Served env map geometry.sectorsize dev walk.1 walk.2 (p ≤ offset) p)
      (Trips env map geometry.sectorsize dev walk.1 walk.2) (.fault .overflow) Stop.Typed
      offset (offset + min buf.length (m.size - offset))
      ((readFileAt env map geometry fsTreeRoot objectid offset buf).run dev.answer) := by
  have hsize := (readMetadata_ensures h64 geometry.validNodesize).returns _ () hmeta
  have hinOrder := fileItems_inOrder h64 map geometry fsTreeRoot objectid dev.answer
  have htyped : ∀ x, (fileItems env map geometry fsTreeRoot objectid dev.answer).2 = some x →
      x.Typed :=
    passes_typed h64 geometry.validNodesize dev.answer _ (extentsFrom_bounded hino)
      (Nat.le_add_right _ _)
  dsimp only
  have hexcl : ∀ {fresh : ℕ → Prop} p, Trips env map geometry.sectorsize dev
      (fileItems env map geometry fsTreeRoot objectid dev.answer).1
      (fileItems env map geometry fsTreeRoot objectid dev.answer).2 p →
        ¬ Served env map geometry.sectorsize dev
          (fileItems env map geometry fsTreeRoot objectid dev.answer).1
          (fileItems env map geometry fsTreeRoot objectid dev.answer).2 (fresh p) p :=
    fun p htrip => htrip.not_served _
  -- an empty request and one past the end cover no position
  by_cases hbuf : buf = []
  · subst hbuf
    exact Scans.of_good hexcl _ fun p _ _ => by simp only [List.length_nil] at *; omega
  have hlen : 0 < buf.length := List.length_pos_iff.mpr hbuf
  by_cases hoffset : offset < m.size
  · rw [run_readFileAt h64 dev.answer hmeta hfile hbuf hoffset]
    have hnone : ([] : List UInt8).length < min buf.length (m.size - offset) := by
      rw [List.length_nil]
      omega
    exact Scans.map hexcl _ (readFileAt_fold_scans h64 hdev (by omega) hinOrder htyped hnone)
      (by omega)
  · unfold readFileAt
    rw [if_neg (by omega), Prog.run_bind, hmeta, Except.ok_bind, if_neg (by simpa using hfile),
      if_pos (by omega)]
    exact Scans.of_good hexcl _ fun p _ _ => by omega

end Call

/-! ### Call after call -/

/-- Where the calls start that read in chunks of the given sizes. -/
def callStarts : List ℕ → ℕ → List ℕ
  | [], _ => []
  | size :: sizes, offset => offset :: callStarts sizes (offset + size)

theorem le_of_mem_callStarts {sizes : List ℕ} {offset p : ℕ} (h : p ∈ callStarts sizes offset) :
    offset ≤ p := by
  induction sizes generalizing offset with
  | nil => cases h
  | cons size sizes ih =>
    rcases List.mem_cons.mp h with rfl | h
    · exact le_rfl
    · exact (Nat.le_add_right _ _).trans (ih h)

/-- A call starts at `offset`, and then none before the first chunk ends. -/
theorem mem_callStarts_first {first : ℕ} {sizes : List ℕ} {offset p : ℕ} (h1 : offset ≤ p)
    (h2 : p < offset + first) : p ∈ callStarts (first :: sizes) offset ↔ p ≤ offset := by
  rw [callStarts, List.mem_cons]
  constructor
  · rintro (rfl | h)
    · exact le_rfl
    · have := le_of_mem_callStarts h
      omega
  · exact fun h => .inl (Nat.le_antisymm h h1)

theorem mem_callStarts_rest {first : ℕ} {sizes : List ℕ} {offset p : ℕ}
    (h1 : offset + first ≤ p) (h2 : p < offset + first + sizes.sum) :
    p ∈ callStarts (first :: sizes) offset ↔ p ∈ callStarts sizes (offset + first) := by
  rw [callStarts, List.mem_cons]
  refine ⟨?_, .inr⟩
  rintro (rfl | h)
  · -- the first chunk is empty, and the next call starts where it did
    obtain rfl : first = 0 := by omega
    cases sizes with
    | nil => exact absurd h2 (by simp)
    | cons second sizes => exact List.mem_cons_self
  · exact h

/-- Calls that go through the positions in order, one after the other. -/
theorem stream_scans {Good : Prop → ℕ → Prop} {Trip : ℕ → Prop} {tripped : Stop}
    {S : Stop → Prop} (hexcl : ∀ fresh p, Trip p → ¬ Good fresh p)
    {read : ℕ → List UInt8 → Outcome (ℕ × List UInt8)} {size : ℕ}
    (hread : ∀ offset buf, Scans (fun p => Good (p ≤ offset) p) Trip tripped S offset
      (offset + min buf.length (size - offset)) (read offset buf))
    (hcount : ∀ offset buf n buf', read offset buf = .ok (n, buf') →
      n = min buf.length (size - offset)) (sizes : List ℕ) {offset : ℕ} (hoffset : offset ≤ size) :
    Scans (fun p => Good (p ∈ callStarts sizes offset) p) Trip tripped S offset
      (min (offset + sizes.sum) size) (stream read sizes offset) := by
  induction sizes generalizing offset with
  | nil =>
    refine Scans.of_good (fun p htrip => hexcl _ p htrip) _ fun p hp hq => ?_
    rw [List.sum_nil] at hq
    omega
  | cons first sizes ih =>
    rw [stream, List.sum_cons]
    have hfirst := hread offset (List.replicate first 0)
    have hn := hcount offset (List.replicate first 0)
    rw [List.length_replicate] at hfirst hn
    refine Scans.bind (fun p htrip => hexcl _ p htrip) (Nat.le_add_right _ _) (by omega)
      (hfirst.congr (fun p hp hq => ?_) fun _ _ _ => Iff.rfl) fun r hr => ?_
    · rw [propext (mem_callStarts_first hp (by omega : p < offset + first))]
    · obtain ⟨n, buf⟩ := r
      obtain rfl := hn n buf hr
      refine Scans.map (fun p htrip => hexcl _ p htrip) _ ?_ (by omega)
      have hrest := @ih (offset + min first (size - offset)) (by omega)
      by_cases hfit : first ≤ size - offset
      · rw [Nat.min_eq_left hfit] at hrest ⊢
        rw [← Nat.add_assoc]
        refine hrest.congr (fun p hp hq => ?_) fun _ _ _ => Iff.rfl
        rw [propext (mem_callStarts_rest hp (by omega : p < offset + first + sizes.sum))]
      · -- the end of the file has been reached
        have hend : offset + min first (size - offset) = size := by omega
        rw [hend] at hrest ⊢
        rw [Nat.min_eq_right (by omega)] at hrest ⊢
        exact hrest.congr (fun p hp hq => by omega) fun _ _ _ => Iff.rfl

/-! ### An overlap that only one of the readers reports -/

/-- On a file whose items `read_file` finds to overlap, successive calls of `read_file_at`
end in an error exactly when they come to a position that is not served, and does not
trip: the overlap itself is not what they end at. -/
theorem overlap_streamed_iff {env : Env} (h64 : env.usizeBits = 64) {map : ChunkMap}
    {geometry : Geometry} {fsTreeRoot objectid : ℕ} {dev : Device} (hdev : dev.Exact)
    (hino : objectid < 2 ^ 64) {m : Metadata}
    (hmeta : (readMetadata env map geometry.nodesize fsTreeRoot objectid).run dev.answer = .ok m)
    {bytenr : ℕ} (hover : (readFile env map geometry fsTreeRoot objectid).run dev.answer =
      err (.corruptBtree "extent_overlap" bytenr)) {sizes : List ℕ} (hwhole : m.size ≤ sizes.sum) :
    (∃ error, stream (fun offset buf =>
      (readFileAt env map geometry fsTreeRoot objectid offset buf).run dev.answer) sizes 0 =
        err error) ↔
    StopsShort env map geometry.sectorsize dev
      (fileItems env map geometry fsTreeRoot objectid dev.answer).1
      (fileItems env map geometry fsTreeRoot objectid dev.answer).2 (callStarts sizes 0)
      m.size := by
  have hfile : m.isFile = true := by
    by_contra hfile
    unfold readFile at hover
    rw [Prog.run_bind, hmeta, Except.ok_bind, if_pos hfile] at hover
    cases hover
  -- all calls together scan the file from 0 to its size
  have hscans := @stream_scans (Served env map geometry.sectorsize dev
      (fileItems env map geometry fsTreeRoot objectid dev.answer).1
      (fileItems env map geometry fsTreeRoot objectid dev.answer).2) _ _ _
    (fun fresh p htrip => htrip.not_served fresh) _ _
    (fun offset buf => readFileAt_scans h64 hdev hino hmeta hfile offset buf)
    (fun offset buf n buf' h => (readFileAt_sound h64 hmeta h).1) sizes 0 (Nat.zero_le m.size)
  rw [Nat.zero_add, Nat.min_eq_right hwhole] at hscans
  have hstops := hscans.stops_iff (fun p htrip => htrip.not_served _) id
  unfold StopsShort
  constructor
  · rintro ⟨error, h⟩
    obtain ⟨p, -, hlt, hbefore, hrest⟩ :=
      hstops.mp ⟨.err error, (trivial : Stop.Typed (.err error)), h⟩
    exact ⟨p, hlt, fun q hq => hbefore q (Nat.zero_le q) hq, hrest⟩
  · rintro ⟨p, hlt, hbefore, hrest⟩
    obtain ⟨x, hx, hstream⟩ := hstops.mpr ⟨p, Nat.zero_le p, hlt, fun q _ hq => hbefore q hq, hrest⟩
    -- the first stop is typed, and a typed stop is no panic
    cases x with
    | err error => exact ⟨error, hstream⟩
    | fault f => exact absurd hx id

/-! ### A file with two items for one region -/

theorem overlapSize_lt : 0x8000 < 2 ^ 64 := by decide

/-- Eight bytes at the start of a file of twelve, and the same eight from its fifth on. -/
def overlapItems : List SampleItem :=
  [sampleInode 257 12,
   (⟨257, extentDataKey, 0⟩, 53, [(8, 8), (20, fileExtentReg), (21, 0x101000), (29, 8), (45, 8)]),
   (⟨257, extentDataKey, 4⟩, 53, [(8, 8), (20, fileExtentReg), (21, 0x101000), (29, 8), (45, 8)])]

def overlapVolume : SliceDevice :=
  .ofNat (image ((0x4000, 0x4847464544434241) ::
    leafFields 0x1000 4096 1531808517 0x100000 overlapItems)) 0x8000 overlapSize_lt

set_option maxRecDepth 100000 in
theorem overlap_metadata : (readMetadata referenceEnv sampleMap 4096 0x100000 257).run
    overlapVolume.device.answer =
      .ok { size := 12, nbytes := 0, nlink := 0, mode := 0o100644, uid := 0, gid := 0,
            generation := 0 } := by
  decide +kernel

set_option maxRecDepth 100000 in
theorem overlap_reported : (readFile referenceEnv sampleMap sampleGeometry 0x100000 257).run
    overlapVolume.device.answer = err (.corruptBtree "extent_overlap" 0x100000) := by
  decide +kernel

set_option maxRecDepth 100000 in
/-- Two chunks of six bytes. -/
theorem overlap_streamed : stream (fun offset buf =>
    (readFileAt referenceEnv sampleMap sampleGeometry 0x100000 257 offset buf).run
      overlapVolume.device.answer) [6, 6] 0 =
        .ok [65, 66, 67, 68, 69, 70, 71, 72, 69, 70, 71, 72] := by
  decide +kernel

/-- One reader reports the overlap, the other completes every call. -/
theorem overlap_unreported :
    (readFile referenceEnv sampleMap sampleGeometry 0x100000 257).run overlapVolume.device.answer =
      err (.corruptBtree "extent_overlap" 0x100000) ∧
    ∃ m, (readMetadata referenceEnv sampleMap 4096 0x100000 257).run overlapVolume.device.answer =
        .ok m ∧ m.size ≤ [6, 6].sum ∧
      stream (fun offset buf =>
        (readFileAt referenceEnv sampleMap sampleGeometry 0x100000 257 offset buf).run
          overlapVolume.device.answer) [6, 6] 0 =
            .ok [65, 66, 67, 68, 69, 70, 71, 72, 69, 70, 71, 72] :=
  ⟨overlap_reported, _, overlap_metadata, by decide, overlap_streamed⟩

/-- No position of that file gets in the way of the two calls. -/
theorem overlap_streamed_sample : ¬ StopsShort referenceEnv sampleMap 4096 overlapVolume.device
    (fileItems referenceEnv sampleMap sampleGeometry 0x100000 257 overlapVolume.device.answer).1
    (fileItems referenceEnv sampleMap sampleGeometry 0x100000 257 overlapVolume.device.answer).2
    (callStarts [6, 6] 0) 12 := by
  intro hstopped
  obtain ⟨error, herror⟩ := (@overlap_streamed_iff referenceEnv referenceEnv_usize64 sampleMap
    sampleGeometry 0x100000 257 overlapVolume.device overlapVolume.exact (by decide) _
    overlap_metadata _ overlap_reported [6, 6] (by decide)).mpr hstopped
  rw [overlap_streamed] at herror
  cases herror
