/-
Logical reads: `read_through_chunks` and the loop that assembles a tree block.

Both loops split a logical range at chunk boundaries, with a cursor, a count and
arithmetic of their own.  They are one program: `fetch`, the same walk over the
chunks without the machine arithmetic (`readThroughChunks_eq`, `readBody_eq`).
What is proved of `fetch` then holds of both:

* every byte is the one its own address resolves to (`run_fetch`);
* every request lies inside one stripe, on the local device (`fetch_asks`);
* no step panics and the loop ends (`fetch_ensures`).
-/
import Lambutter.Reference

namespace ChunkMap

variable {env : Env} {map : ChunkMap}

/-! ### Addresses next to a resolved one -/

/-- How far the chunk goes on, and that all of it is in `u64`. -/
theorem contiguous_bounds {l : ℕ} {r : Resolved} (h : map.resolve env l = .ok r) :
    0 < r.contiguousBytes ∧ l + r.contiguousBytes < 2 ^ 64 := by
  obtain ⟨m, hm, hcov, hr⟩ := resolve_eq_ok h
  obtain ⟨s, -, -, rfl⟩ := (ChunkMapping.resolveAt_eq_ok hcov).mp hr
  have hstop := map.stop_lt m hm
  obtain ⟨hle, hlt⟩ := hcov
  show 0 < m.stop - l ∧ l + (m.stop - l) < 2 ^ 64
  omega

/-- An address further on in the same chunk resolves to the place as much
further on, as long as that place is in `u64`. -/
theorem resolve_add {l i : ℕ} {r : Resolved} (h : map.resolve env l = .ok r)
    (hi : i < r.contiguousBytes) {r' : Resolved} :
    map.resolve env (l + i) = .ok r' ↔ r.physical + i < 2 ^ 64 ∧
      r' = ⟨r.devid, r.physical + i, r.contiguousBytes - i⟩ := by
  obtain ⟨m, hm, hcov, hr⟩ := resolve_eq_ok h
  obtain ⟨s, hs, -, rfl⟩ := (ChunkMapping.resolveAt_eq_ok hcov).mp hr
  have hcov' : m.Covers (l + i) := by
    obtain ⟨hle, hlt⟩ := hcov
    have hi' : i < m.stop - l := hi
    exact ⟨show m.logical ≤ l + i by omega, show l + i < m.stop by omega⟩
  rw [resolve_of_covers env hm hcov', ChunkMapping.resolveAt_eq_ok hcov']
  have hle : m.logical ≤ l := hcov.1
  have hoff : s.offset + (l + i - m.logical) = s.offset + (l - m.logical) + i := by omega
  have hrem : m.stop - (l + i) = m.stop - l - i := by omega
  constructor
  · rintro ⟨s', hs', hlt, rfl⟩
    rw [hs] at hs'
    cases hs'
    rw [hoff] at hlt
    exact ⟨hlt, by rw [hoff, hrem]⟩
  · rintro ⟨hlt, rfl⟩
    exact ⟨s, hs, by rwa [hoff], by rw [hoff, hrem]⟩

/-- The byte of the image a logical address stands for. -/
def byteAt (env : Env) (map : ChunkMap) (dev : Device) (l : ℕ) : Option UInt8 :=
  match map.resolve env l with
  | .ok r => some (dev.byte r.physical)
  | .error _ => none

/-- The address resolves to a byte the device serves. -/
def Readable (env : Env) (map : ChunkMap) (dev : Device) (l : ℕ) : Prop :=
  ∃ r, map.resolve env l = .ok r ∧ dev.serves r.physical 1 = true

theorem byteAt_of_resolve {dev : Device} {l : ℕ} {r : Resolved}
    (h : map.resolve env l = .ok r) : byteAt env map dev l = some (dev.byte r.physical) := by
  rw [byteAt, h]

end ChunkMap

/-! ### The two loops -/

/-- The loop of `read_through_chunks`, with the first `written` bytes of the buffer. -/
def readThroughChunks.loop (env : Env) (map : ChunkMap) (len : ℕ) :
    ℕ → List UInt8 → ℕ → ReadM (List UInt8)
  | 0, _, _ => (fault .fuel : Outcome _)
  | n + 1, buf, cursor =>
    if buf.length < len then do
      let resolved ← map.resolve env cursor
      let room ← env.sub env.usizeBits len buf.length
      let take := min room (env.asUsize resolved.contiguousBytes)
      let written ← env.addUsize buf.length take
      sliceBounds buf.length written len
      let bytes ← readAt resolved.physical take (.io "extent_read" resolved.physical)
      let cursor ← env.addU64 cursor take
      loop env map len n (buf ++ bytes) cursor
    else pure buf

/-- Read a logical byte range through the chunk map into a buffer of `len` bytes.
A pass that takes no byte repeats itself forever; with one byte a pass the fuel
is enough. -/
def readThroughChunks (env : Env) (map : ChunkMap) (logicalStart len : ℕ) :
    ReadM (List UInt8) :=
  readThroughChunks.loop env map len (len + 1) [] logicalStart

/-- The loop of `read_tree_block`. -/
def readBody.loop (env : Env) (map : ChunkMap) (nodesize logical : ℕ) :
    ℕ → ℕ → List UInt8 → ℕ → ReadM (List UInt8)
  | 0, _, _, _ => (fault .fuel : Outcome _)
  | n + 1, remaining, body, cursor =>
    if 0 < remaining then do
      let resolved ← map.resolve env cursor
      let take := min remaining resolved.contiguousBytes
      let takeUsize ← env.tryIntoUsize take (.corruptBtree "read_chunk_too_large" logical)
      let written ← env.addUsize body.length takeUsize
      sliceBounds body.length written nodesize
      let bytes ← readAt resolved.physical takeUsize (.io "tree_block_read" resolved.physical)
      let cursor ← env.addU64 cursor take
      let remaining ← env.sub 64 remaining take
      loop env map nodesize logical n remaining (body ++ bytes) cursor
    else pure body

/-- The bytes `read_tree_block` assembles before it looks at them. -/
def readBody (env : Env) (map : ChunkMap) (nodesize logical : ℕ) : ReadM (List UInt8) :=
  readBody.loop env map nodesize logical (nodesize + 1) nodesize [] logical

/-! ### The walk over the chunks -/

/-- Read `len` logical bytes from `cursor` on, chunk by chunk. -/
def fetch (env : Env) (map : ChunkMap) (io : ℕ → Error) : ℕ → ℕ → ℕ → ReadM (List UInt8)
  | 0, _, _ => (fault .fuel : Outcome _)
  | n + 1, len, cursor =>
    if 0 < len then do
      let resolved ← map.resolve env cursor
      let take := min len resolved.contiguousBytes
      let bytes ← readAt resolved.physical take (io resolved.physical)
      let rest ← fetch env map io n (len - take) (cursor + take)
      return bytes ++ rest
    else pure []

-- no bytes asked for, nothing read
example (env : Env) (map : ChunkMap) (io : ℕ → Error) (n cursor : ℕ) :
    fetch env map io (n + 1) 0 cursor = pure [] := by
  rw [fetch, if_neg (Nat.lt_irrefl 0)]

section Fetch

variable {env : Env} {map : ChunkMap}

/-- Two programs that agree on every answer of one read agree. -/
theorem readAt_bind_congr {α : Type} {offset len : ℕ} {e : Error} {f f' : List UInt8 → ReadM α}
    (h : ∀ bs, bs.length = len → f bs = f' bs) :
    (readAt offset len e >>= f) = (readAt offset len e >>= f') := by
  refine congrArg (Prog.ask _) (funext fun a => ?_)
  cases a with
  | none => rfl
  | some bs => exact h bs.1 bs.2

theorem lift_bind_congr {α β : Type} {r : Outcome α} {f f' : α → ReadM β}
    (h : ∀ a, r = .ok a → f a = f' a) :
    ((liftM r : ReadM α) >>= f) = ((liftM r : ReadM α) >>= f') := by
  cases r with
  | ok a => exact h a rfl
  | error x => rfl

theorem liftM_ok_bind {α β : Type} (a : α) (f : α → ReadM β) :
    ((liftM (.ok a : Outcome α) : ReadM α) >>= f) = f a := rfl

theorem liftM_err_bind {α β : Type} (e : Error) (f : α → ReadM β) :
    ((liftM (err e : Outcome α) : ReadM α) >>= f) = liftM (err e : Outcome β) := rfl

theorem readThroughChunks_loop_eq (h64 : env.usizeBits = 64) {len : ℕ} (hlen : len < 2 ^ 64)
    (n : ℕ) (buf : List UInt8) (cursor : ℕ) (hbuf : buf.length ≤ len) :
    readThroughChunks.loop env map len n buf cursor =
      (buf ++ ·) <$> fetch env map (.io "extent_read") n (len - buf.length) cursor := by
  induction n generalizing buf cursor with
  | zero => rfl
  | succ n ih =>
    rw [readThroughChunks.loop, fetch]
    by_cases hlt : buf.length < len
    · rw [if_pos hlt, if_pos (by omega), map_bind]
      refine lift_bind_congr fun r hr => ?_
      obtain ⟨hpos, hend⟩ := ChunkMap.contiguous_bounds hr
      rw [Env.asUsize_eq h64 (by omega), Env.sub_ok env hbuf, liftM_ok_bind]
      dsimp only
      set take := min (len - buf.length) r.contiguousBytes with htake
      rw [Env.addUsize_ok h64 (by omega), liftM_ok_bind, sliceBounds_ok (by omega) (by omega),
        liftM_ok_bind, map_bind]
      refine readAt_bind_congr fun bs hbs => ?_
      rw [Env.addU64_ok env (by omega), liftM_ok_bind]
      have hroom : len - (buf ++ bs).length = len - buf.length - take := by
        rw [List.length_append]
        omega
      rw [ih (buf ++ bs) (cursor + take) (by rw [List.length_append]; omega), hroom, map_bind,
        map_eq_pure_bind]
      simp [List.append_assoc]
    · rw [if_neg hlt, if_neg (by omega)]
      simp

theorem readBody_loop_eq {nodesize : ℕ} (hnode : nodesize < 2 ^ env.usizeBits)
    (logical n : ℕ) (body : List UInt8) (cursor : ℕ) (hbody : body.length ≤ nodesize) :
    readBody.loop env map nodesize logical n (nodesize - body.length) body cursor =
      (body ++ ·) <$>
        fetch env map (.io "tree_block_read") n (nodesize - body.length) cursor := by
  induction n generalizing body cursor with
  | zero => rfl
  | succ n ih =>
    rw [readBody.loop, fetch]
    by_cases hlt : 0 < nodesize - body.length
    · rw [if_pos hlt, if_pos hlt, map_bind]
      refine lift_bind_congr fun r hr => ?_
      obtain ⟨hpos, hend⟩ := ChunkMap.contiguous_bounds hr
      dsimp only
      set take := min (nodesize - body.length) r.contiguousBytes with htake
      rw [Env.tryIntoUsize, if_pos (by omega), liftM_ok_bind, Env.addUsize_fits (by omega),
        liftM_ok_bind, sliceBounds_ok (by omega) (by omega), liftM_ok_bind, map_bind]
      refine readAt_bind_congr fun bs hbs => ?_
      rw [Env.addU64_ok env (by omega), liftM_ok_bind, Env.sub_ok env (by omega), liftM_ok_bind]
      have hroom : nodesize - body.length - take = nodesize - (body ++ bs).length := by
        rw [List.length_append]
        omega
      rw [hroom, ih (body ++ bs) (cursor + take) (by rw [List.length_append]; omega), map_bind,
        map_eq_pure_bind]
      simp [List.append_assoc]
    · rw [if_neg hlt, if_neg hlt]
      simp

theorem readThroughChunks_eq (h64 : env.usizeBits = 64) {len : ℕ} (hlen : len < 2 ^ 64)
    (start : ℕ) : readThroughChunks env map start len =
      fetch env map (.io "extent_read") (len + 1) len start := by
  rw [readThroughChunks, readThroughChunks_loop_eq h64 hlen _ _ _ (Nat.zero_le _)]
  simp

theorem readBody_eq {nodesize : ℕ} (hnode : nodesize < 2 ^ env.usizeBits) (logical : ℕ) :
    readBody env map nodesize logical =
      fetch env map (.io "tree_block_read") (nodesize + 1) nodesize logical := by
  have h := @readBody_loop_eq _ map _ hnode logical (nodesize + 1) [] logical
    (Nat.zero_le _)
  simpa [readBody] using h

/-- The walk ends, returns as many bytes as asked for and stops for typed errors only. -/
theorem fetch_ensures (io : ℕ → Error) (n len cursor : ℕ) (h : len < n) :
    Prog.Ensures Stop.Typed (fetch env map io n len cursor) fun bs => bs.length = len := by
  induction n generalizing len cursor with
  | zero => omega
  | succ n ih =>
    rw [fetch]
    by_cases hpos : 0 < len
    · rw [if_pos hpos]
      refine Prog.Ensures.bind (P := fun r => map.resolve env cursor = .ok r)
        (Prog.Ensures.lift (fun a ha => ha) fun x hx => (ChunkMap.resolve_safe env map _).typed hx)
        fun r hr => ?_
      have hc := (ChunkMap.contiguous_bounds hr).1
      refine Prog.Ensures.bind (readAt_ensures _ _ _) fun bs hbs => ?_
      refine Prog.Ensures.bind (ih _ _ (by omega)) fun rest hrest => Prog.Ensures.pure ?_
      rw [List.length_append]
      omega
    · rw [if_neg hpos]
      exact Prog.Ensures.pure (by simp; omega)

/-- A request made for one of the addresses `[start, start + len)`: it lies inside
one stripe of a linear chunk, on the local device, at the stripe's offset plus the
address's offset in the chunk. -/
def InStripe (map : ChunkMap) (start len : ℕ) (q : ReadReq) : Prop :=
  ∃ i < len, ∃ m ∈ map.mappings, m.Covers (start + i) ∧ m.Linear ∧ ∃ s ∈ m.stripes,
    (∀ devid ∈ map.localDevid, s.devid = devid) ∧
    q.offset = s.offset + (start + i - m.logical) ∧ start + i - m.logical + q.len ≤ m.length

theorem fetch_asks (io : ℕ → Error) (n len cursor : ℕ) :
    (fetch env map io n len cursor).Asks (InStripe map cursor len) := by
  induction n generalizing len cursor with
  | zero => trivial
  | succ n ih =>
    rw [fetch]
    by_cases hpos : 0 < len
    · rw [if_pos hpos]
      refine Prog.Asks.bind_lift fun r hr => ?_
      obtain ⟨m, hm, hcov, hat⟩ := ChunkMap.resolve_eq_ok hr
      obtain ⟨s, hs, -, rfl⟩ := (ChunkMapping.resolveAt_eq_ok hcov).mp hat
      obtain ⟨hlin, hmem, hdev⟩ := ChunkMapping.pickStripe_eq_ok hs
      have hle : m.logical ≤ cursor := hcov.1
      have hlt : cursor < m.stop := hcov.2
      have hstop : m.stop = m.logical + m.length := rfl
      have hin : InStripe map cursor len
          ⟨s.offset + (cursor - m.logical), min len (m.stop - cursor)⟩ := by
        refine ⟨0, hpos, m, hm, hcov, hlin, s, hmem, hdev, rfl, ?_⟩
        show cursor + 0 - m.logical + min len (m.stop - cursor) ≤ m.length
        omega
      refine Prog.Asks.bind (readAt_asks hin _) fun bs => ?_
      refine Prog.Asks.bind ((ih _ _).mono fun q hq => ?_) fun rest => Prog.asks_pure _
      -- the addresses of the rest are the later ones of this range
      obtain ⟨i, hi, hrest⟩ := hq
      change i < len - min len (m.stop - cursor) at hi
      refine ⟨min len (m.stop - cursor) + i, by omega, ?_⟩
      rwa [← Nat.add_assoc]
    · rw [if_neg hpos]
      exact Prog.asks_pure _

/-! ### Against a device -/

variable {dev : Device}

/-- Where a byte at `l` came from: the address resolves, the place lies in a
request the device served, and the byte is the image's there. -/
def ServedByte (env : Env) (map : ChunkMap) (dev : Device) (l : ℕ) (b : UInt8) : Prop :=
  ∃ r offset len, map.resolve env l = .ok r ∧ dev.serves offset len = true ∧
    offset ≤ r.physical ∧ r.physical < offset + len ∧ b = dev.byte r.physical

/-- What a walk over the chunks returns, byte by byte. -/
theorem run_fetch {io : ℕ → Error} {n len cursor : ℕ} {out : List UInt8}
    (h : (fetch env map io n len cursor).run dev.answer = .ok out) :
    out.length = len ∧
      ∀ i (hi : i < out.length), ServedByte env map dev (cursor + i) out[i] := by
  induction n generalizing len cursor out with
  | zero => cases h
  | succ n ih =>
    rw [fetch] at h
    by_cases hpos : 0 < len
    · rw [if_pos hpos] at h
      simp only [Prog.run_bind, Prog.run_liftM, Prog.run_pure, Except.bind_eq_ok] at h
      obtain ⟨r, hr, bs, hbs, rest, hrest, hout⟩ := h
      cases hout
      set take := min len r.contiguousBytes with htake
      rw [Device.run_readAt] at hbs
      split_ifs at hbs with hserve
      · cases hbs
        obtain ⟨hlen, hbytes⟩ := ih hrest
        have hcont := (ChunkMap.contiguous_bounds hr).1
        have htl : (dev.bytes r.physical take).length = take := dev.length_bytes _ _
        refine ⟨by rw [List.length_append]; omega, fun i hi => ?_⟩
        rw [List.length_append] at hi
        by_cases hit : i < take
        · -- the first piece: one request, one chunk
          have hle := dev.serves_le hserve
          refine ⟨⟨r.devid, r.physical + i, r.contiguousBytes - i⟩, r.physical, take,
            (ChunkMap.resolve_add hr (by omega)).mpr ⟨by omega, rfl⟩, hserve,
            Nat.le_add_right _ _, ?_, ?_⟩
          · show r.physical + i < r.physical + take
            omega
          · rw [List.getElem_append_left (by omega)]
            exact List.getElem_eq_iff (by omega) |>.mpr (dev.getElem?_bytes hit)
        · have hshift : cursor + i = cursor + take + (i - take) := by omega
          rw [hshift, List.getElem_append_right (by omega)]
          simpa [htl] using hbytes (i - take) (by omega)
      · exact absurd hbs err_ne_ok
    · rw [if_neg hpos] at h
      cases h
      exact ⟨by simp; omega, fun i hi => absurd hi (by simp)⟩

/-- A walk over readable addresses succeeds. -/
theorem exists_run_fetch (hdev : dev.Bytewise) (io : ℕ → Error) (n len cursor : ℕ)
    (hn : len < n) (h : ∀ i < len, map.Readable env dev (cursor + i)) :
    ∃ out, (fetch env map io n len cursor).run dev.answer = .ok out := by
  induction n generalizing len cursor with
  | zero => omega
  | succ n ih =>
    rw [fetch]
    by_cases hpos : 0 < len
    · rw [if_pos hpos]
      obtain ⟨r, hr, hserve⟩ := h 0 hpos
      have hcont := (ChunkMap.contiguous_bounds hr).1
      set take := min len r.contiguousBytes with htake
      have hall : ∀ i < take, dev.serves (r.physical + i) 1 = true := by
        intro i hi
        obtain ⟨r', hr', hs'⟩ := h i (by omega)
        obtain ⟨-, rfl⟩ := (ChunkMap.resolve_add hr (by omega : i < r.contiguousBytes)).mp hr'
        exact hs'
      have hread : dev.serves r.physical take = true := hdev _ _ (by omega) hall
      obtain ⟨rest, hrest⟩ := ih (len - take) (cursor + take) (by omega) fun i hi => by
        have := h (take + i) (by omega)
        rwa [← Nat.add_assoc] at this
      refine ⟨dev.bytes r.physical take ++ rest, ?_⟩
      have hr0 : map.resolve env cursor = .ok r := hr
      simp only [Prog.run_bind, Prog.run_liftM, hr0, Except.ok_bind, ← htake, Device.run_readAt,
        if_pos hread, hrest, Prog.run_pure]
    · rw [if_neg hpos]
      exact ⟨[], rfl⟩

end Fetch

/-! ### Multi-chunk reads -/

/-- On a byte slice a logical read is byte-by-byte translation. -/
theorem run_fetch_slice {env : Env} {map : ChunkMap} (s : SliceDevice) (io : ℕ → Error)
    {n len : ℕ} (start : ℕ) (hn : len < n) :
    ((∃ buf, (fetch env map io n len start).run s.device.answer = .ok buf) ↔
      ∀ i < len, start + i < 2 ^ 64 ∧
        ∃ r, map.resolve env (start + i) = .ok r ∧ r.physical < s.size) ∧
    ∀ buf, (fetch env map io n len start).run s.device.answer = .ok buf →
      buf.length = len ∧ ∀ i (hi : i < buf.length),
        ∃ r, map.resolve env (start + i) = .ok r ∧ buf[i] = s.byte r.physical := by
  refine ⟨⟨?_, fun h => ?_⟩, fun buf hbuf => ?_⟩
  · rintro ⟨buf, hbuf⟩ i hi
    obtain ⟨hlen, hbytes⟩ := run_fetch hbuf
    obtain ⟨r, offset, k, hr, hserve, hle, hlt, -⟩ := hbytes i (by omega)
    have hend := (ChunkMap.contiguous_bounds hr).2
    have hsize := SliceDevice.serves_iff.mp hserve
    exact ⟨by omega, r, hr, by omega⟩
  · refine exists_run_fetch s.bytewise io n len start hn fun i hi => ?_
    obtain ⟨-, r, hr, hsize⟩ := h i hi
    exact ⟨r, hr, SliceDevice.serves_iff.mpr hsize⟩
  · obtain ⟨hlen, hbytes⟩ := run_fetch hbuf
    refine ⟨hlen, fun i hi => ?_⟩
    obtain ⟨r, offset, k, hr, -, -, -, hb⟩ := hbytes i hi
    exact ⟨r, hr, hb⟩

/-- Multi-chunk logical reads equal byte-by-byte translation, stay on the local
device, and end without a panic, in both loops that make them. -/
theorem logical_reads_spec {env : Env} (h64 : env.usizeBits = 64) {map : ChunkMap} {devid : ℕ}
    (hdevid : map.localDevid = some devid) (s : SliceDevice) (start len : ℕ)
    (hlen : len < 2 ^ 64) (read : ReadM (List UInt8))
    (hread : read = readThroughChunks env map start len ∨ read = readBody env map len start) :
    ((∃ buf, read.run s.device.answer = .ok buf) ↔ ∀ i < len, start + i < 2 ^ 64 ∧
      ∃ r, map.resolve env (start + i) = .ok r ∧ r.physical < s.size) ∧
    (∀ buf, read.run s.device.answer = .ok buf → buf.length = len ∧
      ∀ i (hi : i < buf.length), ∃ r, map.resolve env (start + i) = .ok r ∧
        buf[i] = s.byte r.physical) ∧
    read.Asks (fun q => ∃ i < len, ∃ m ∈ map.mappings, m.Covers (start + i) ∧ m.Linear ∧
      ∃ stripe ∈ m.stripes, stripe.devid = devid ∧
        q.offset = stripe.offset + (start + i - m.logical) ∧
        start + i - m.logical + q.len ≤ m.length) ∧
    Prog.Ensures Stop.Typed read fun buf => buf.length = len := by
  have hfetch : ∃ io, read = fetch env map io (len + 1) len start := by
    rcases hread with rfl | rfl
    · exact ⟨_, readThroughChunks_eq h64 hlen start⟩
    · exact ⟨_, readBody_eq (by rwa [h64]) start⟩
  obtain ⟨io, rfl⟩ := hfetch
  obtain ⟨hiff, hbytes⟩ := @run_fetch_slice env map s io _ _ start
    (Nat.lt_succ_self len)
  refine ⟨hiff, hbytes, ?_, fetch_ensures io _ _ _ (Nat.lt_succ_self len)⟩
  refine (fetch_asks io (len + 1) len start).mono fun q hq => ?_
  obtain ⟨i, hi, m, hm, hcov, hlin, stripe, hmem, hdev, hin⟩ := hq
  exact ⟨i, hi, m, hm, hcov, hlin, stripe, hmem, hdev devid (by simp [hdevid]), hin⟩

/-- A read across the two chunks of the sample volume, which lie apart on it. -/
theorem logical_reads_sample : ∃ buf,
    (readThroughChunks referenceEnv sampleMap 0x100ffe 4).run sampleVolume.device.answer =
      .ok buf ∧ buf.length = 4 := by
  have hdevid : sampleMap.localDevid = some 1 := rfl
  obtain ⟨hiff, hbytes, -, -⟩ := logical_reads_spec referenceEnv_usize64 hdevid
    sampleVolume 0x100ffe 4 (by decide) _ (.inl rfl)
  have hresolves : ∀ i < 4, ∃ r, sampleMap.resolve referenceEnv (0x100ffe + i) = .ok r ∧
      r.physical < 0x8000 := by
    intro i hi
    have : ∀ i < 4, (sampleMap.resolve referenceEnv (0x100ffe + i)).toOption.any
        (fun r => decide (r.physical < 0x8000)) = true := by decide +kernel
    have := this i hi
    cases h : sampleMap.resolve referenceEnv (0x100ffe + i) with
    | error x => simp [h, Except.toOption] at this
    | ok r => exact ⟨r, rfl, by simpa [h, Except.toOption] using this⟩
  obtain ⟨buf, hbuf⟩ := hiff.mpr fun i hi => ⟨by omega, hresolves i hi⟩
  exact ⟨buf, hbuf, (hbytes buf hbuf).1⟩
