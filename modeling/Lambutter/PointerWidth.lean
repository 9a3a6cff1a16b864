/-
`read_file_at` on targets of different pointer widths.

The lengths of a gap, of what is left of an extent and of what is left of a chunk are
`u64`s, and `read_file_at` casts each of them to `usize` before it takes the minimum
with the room in the buffer.  On a 32-bit target a length of `2 ^ 32` or more loses its
high bits there, and the pass goes wrong: it takes no byte, skips what it should have
copied, or subtracts an extent's start from a smaller offset.

`ReadCall.passes` lists the passes a call makes, with the numbers they work on, and
`pointer_width` shows that nothing but such lengths, an inline extent read from
`2 ^ 32` on and an item placed at the end of the address space makes a difference.
-/
import Lambutter.FileAgreement
import Lambutter.Width

/-! ### What a walk takes -/

namespace Walk

variable {σ : Type} (env : Env) (w : Walk σ) (g : (q : ReadReq) → Ans q)

/-- The items of a leaf the body is run on, each with the state it is run in. -/
def leafTaken (block : TreeBlock) : ℕ → ℕ → σ → List (Located × σ)
  | 0, _, _ => []
  | n + 1, idx, s =>
    match block.leafItem env idx with
    | .error _ => []
    | .ok item => ((block, item), s) ::
      match (w.item block item s).run g with
      | .ok (.more s _) => leafTaken block n (idx + 1) s
      | _ => []

/-- All of them, in the order a run takes them. -/
def taken : ℕ → DiskKey → σ → List (Located × σ)
  | 0, _, _ => []
  | fuel + 1, target, s =>
    if w.proceed s then
      match (findFirstGe env (w.chunkMap s) w.nodesize w.root target).run g with
      | .ok (some (block, idx)) =>
        w.leafTaken env g block (block.header.nritems - idx) idx s ++
          match (w.leaf env block (block.header.nritems - idx) idx s none).run g with
          | .ok (.more s (some target)) => taken fuel target s
          | _ => []
      | _ => []
    else []

end Walk

/-! ### The passes of a call -/

/-- A pass over an extent that ends past the request: where the extent lies in the file,
where the request stands and how much of the buffer is left. -/
structure Pass where
  start : ℕ
  stop : ℕ
  extent : Extent
  position : ℕ
  room : ℕ
  deriving DecidableEq, Repr

namespace Pass

variable (env : Env) (p : Pass)

def gap : ℕ := p.start - p.position

/-- The zeros before the extent. -/
def fill : ℕ := min (env.asUsize p.gap) p.room

/-- The pass does not end with the gap. -/
def Copies : Prop := ¬(p.position < p.start ∧ p.fill env = p.room)

instance : Decidable (p.Copies env) := inferInstanceAs (Decidable (¬_))

/-- `request_start`, once the gap is filled. -/
def resumed : ℕ := p.position + p.fill env

def inExtentOffset : ℕ := p.resumed env - p.start

def extentRemaining : ℕ := p.stop - p.resumed env

def wantHere : ℕ := min (env.asUsize (p.extentRemaining env)) (p.room - p.fill env)

end Pass

/-- The logical range `copy_extent_slice` reads, if it reads one. -/
def Extent.reads (env : Env) (e : Extent) (inExtentOffset len : ℕ) : Option (ℕ × ℕ) :=
  match e.backing with
  | .plain diskBytenr offset =>
    if diskBytenr + offset + inExtentOffset < 2 ^ 64
    then some (diskBytenr + offset + inExtentOffset, len) else none
  | .packed _ regular =>
    if regular.diskNumBytes ≤ maxDecompressedExtentBytes ∧ env.Grants regular.diskNumBytes
    then some (regular.diskBytenr, regular.diskNumBytes) else none
  | _ => none

/-- A pass of `read_through_chunks`: how much of its buffer is left, and how far the
chunk goes on. -/
structure ChunkPass where
  room : ℕ
  contiguousBytes : ℕ
  deriving DecidableEq, Repr

/-- The passes that read `room` bytes from `cursor` on. -/
def chunkPasses (env : Env) (map : ChunkMap) (dev : Device) : ℕ → ℕ → ℕ → List ChunkPass
  | 0, _, _ => []
  | n + 1, room, cursor =>
    if 0 < room then
      match map.resolve env cursor with
      | .error _ => []
      | .ok resolved =>
        let take := min room (env.asUsize resolved.contiguousBytes)
        ⟨room, resolved.contiguousBytes⟩ ::
          if dev.serves resolved.physical take
          then chunkPasses env map dev n (room - take) (cursor + take) else []
    else []

/-- The arguments of `read_file_at`.  The narrower target has no longer buffer. -/
structure ReadCall where
  map : ChunkMap
  geometry : Geometry
  fsTreeRoot : ℕ
  objectid : ℕ
  offset : ℕ
  buf : List UInt8
  buf_lt : buf.length < 2 ^ 32

namespace ReadCall

variable (call : ReadCall) (env : Env) (dev : Device)

def run : Outcome (ℕ × List UInt8) :=
  (readFileAt env call.map call.geometry call.fsTreeRoot call.objectid call.offset call.buf).run
    dev.answer

/-- How many bytes the call is to fill, once the file is known to have some. -/
def want : Option ℕ :=
  match (readMetadata env call.map call.geometry.nodesize call.fsTreeRoot call.objectid).run
      dev.answer with
  | .ok metadata =>
    if metadata.isFile = true ∧ call.offset < metadata.size
    then some (min call.buf.length (metadata.size - call.offset)) else none
  | .error _ => none

/-- The inode item, if one is read. -/
def inodeItem : Option LeafItem :=
  match (findFirstGe env call.map call.geometry.nodesize call.fsTreeRoot
      ⟨call.objectid, inodeItemKey, 0⟩).run dev.answer with
  | .ok (some (leaf, idx)) =>
    match leaf.leafItem env idx with
    | .ok item =>
      if item.key.objectid = call.objectid ∧ item.key.itemType = inodeItemKey then some item
      else none
    | .error _ => none
  | _ => none

/-- The items the copy loop is run on, with the bytes written before. -/
def taken (want : ℕ) : List (Located × List UInt8) :=
  (readFileAt.walk env call.map call.geometry call.fsTreeRoot call.objectid call.offset
    want).taken env dev.answer Walk.fuel (extentsFrom call.objectid) []

/-- The pass over an item, unless the item is not the inode's, is refused, or ends before
the request. -/
def passOf (want : ℕ) (x : Located × List UInt8) : Option Pass :=
  if isExtentOf call.objectid x.1.2 then
    match x.1.1.leafItemData env x.1.2 >>= Extent.parse with
    | .error _ => none
    | .ok e =>
      let stop := saturatingAddU64 x.1.2.key.offset e.declared
      if stop ≤ call.offset + x.2.length then none
      else some ⟨x.1.2.key.offset, stop, e, call.offset + x.2.length, want - x.2.length⟩
  else none

/-- All items of the inode the loop takes. -/
def items : List LeafItem :=
  match call.want env dev with
  | none => []
  | some want => ((call.taken env dev want).map fun x => x.1.2).filter (isExtentOf call.objectid)

/-- All passes of the copy loop. -/
def passes : List Pass :=
  match call.want env dev with
  | none => []
  | some want => (call.taken env dev want).filterMap (call.passOf env want)

/-- The passes of `read_through_chunks` below a pass of the copy loop. -/
def chunksOf (p : Pass) : List ChunkPass :=
  if p.Copies env then
    match p.extent.reads env (p.inExtentOffset env) (p.wantHere env) with
    | none => []
    | some (start, len) => chunkPasses env call.map dev (len + 1) len start
  else []

end ReadCall

/-! ### Sound passes -/

/-- No cast of the pass loses bits, none of its subtractions underflows, and it gains a
byte. -/
structure Pass.Sound (env : Env) (p : Pass) : Prop where
  gap : env.asUsize p.gap = p.gap
  fill_le : p.fill env ≤ p.room
  inExtentOffset : p.Copies env → p.start ≤ p.resumed env
  resumed_le : p.Copies env → p.resumed env ≤ p.stop
  extentRemaining : p.Copies env → env.asUsize (p.extentRemaining env) = p.extentRemaining env
  advances : 0 < p.fill env ∨ p.Copies env ∧ 0 < p.wantHere env

structure ChunkPass.Sound (env : Env) (c : ChunkPass) : Prop where
  contiguousBytes : env.asUsize c.contiguousBytes = c.contiguousBytes
  advances : 0 < min c.room (env.asUsize c.contiguousBytes)

namespace ReadCall

variable (call : ReadCall) (env : Env) (dev : Device)

/-- The 32-bit build returns what the 64-bit build does or a typed error, and all its
passes are sound. -/
structure WidthFree : Prop where
  result : Outcome.Narrows (call.run (env.width 32) dev) (call.run (env.width 64) dev)
  passes : ∀ p ∈ call.passes (env.width 32) dev, p.Sound (env.width 32)
  chunks : ∀ p ∈ call.passes (env.width 32) dev, ∀ c ∈ call.chunksOf (env.width 32) dev p,
    c.Sound (env.width 32)

/-- No length that a pass narrows has more than 32 bits. -/
structure ShortLengths : Prop where
  gap : ∀ p ∈ call.passes (env.width 32) dev, p.gap < 2 ^ 32
  extentRemaining : ∀ p ∈ call.passes (env.width 32) dev, p.Copies (env.width 32) →
    p.extentRemaining (env.width 32) < 2 ^ 32
  contiguousBytes : ∀ p ∈ call.passes (env.width 32) dev,
    ∀ c ∈ call.chunksOf (env.width 32) dev p, c.contiguousBytes < 2 ^ 32

/-- No item the call reads lies at the end of the address space, and no inline extent is
read from `2 ^ 32` on. -/
structure ShortOffsets : Prop where
  inodeItem : ∀ item ∈ call.inodeItem (env.width 32) dev, Header.size + item.offset < 2 ^ 32
  items : ∀ item ∈ call.items (env.width 32) dev, Header.size + item.offset < 2 ^ 32
  inline : ∀ p ∈ call.passes (env.width 32) dev, p.extent.isInline = true →
    p.Copies (env.width 32) → p.inExtentOffset (env.width 32) < 2 ^ 32

end ReadCall

/-! ### Walks of two bodies -/

namespace Walk

variable {σ : Type} {env : Env} {w : Walk σ} {g : (q : ReadReq) → Ans q} {Inv : σ → Prop}
  {body : TreeBlock → LeafItem → σ → ReadM (Pace σ)} {m : ℕ}

/-- Where it is run, a body keeps the invariant and narrows the other one. -/
def Narrowed (w : Walk σ) (g : (q : ReadReq) → Ans q) (Inv : σ → Prop)
    (body : TreeBlock → LeafItem → σ → ReadM (Pace σ)) (x : Located × σ) : Prop :=
  x.1.1.Accepted → x.1.1.header.level = 0 → x.1.2 ∈ x.1.1.items → Inv x.2 →
    Prog.Narrows g (w.item x.1.1 x.1.2 x.2) (body x.1.1 x.1.2 x.2) ∧
      ∀ s next, (w.item x.1.1 x.1.2 x.2).run g = .ok (.more s next) → Inv s

/-- An item of an accepted block, taken with the invariant. -/
structure Proper (Inv : σ → Prop) (x : Located × σ) : Prop where
  accepted : x.1.1.Accepted
  mem : x.1.2 ∈ x.1.1.items
  inv : Inv x.2

theorem leaf_narrows (hm : 32 ≤ m) {block : TreeBlock} (hb : block.Accepted)
    (hl : block.header.level = 0) (n idx : ℕ) (hidx : idx + n = block.header.nritems) {s : σ}
    (hs : Inv s) (next : Option DiskKey)
    (hbody : ∀ x ∈ w.leafTaken (env.width m) g block n idx s, Narrowed w g Inv body x) :
    Prog.Narrows g (w.leaf (env.width m) block n idx s next)
        ({ w with item := body }.leaf (env.width 64) block n idx s next) ∧
      (∀ x ∈ w.leafTaken (env.width m) g block n idx s, Proper Inv x) ∧
      ∀ s' next', (w.leaf (env.width m) block n idx s next).run g = .ok (.more s' next') →
        Inv s' := by
  -- on the slots left; only the item of the first slot is looked at, then the state it leaves
  induction n generalizing idx s next with
  | zero =>
    refine ⟨.refl _, by simp [leafTaken], fun s' next' h => ?_⟩
    cases h
    exact hs
  | succ n ih =>
    have hlen := block.length_items
    have hlt : idx < block.items.length := by omega
    have hn := hb.nritems_lt
    have hread : block.leafItem (env.width 64) idx = .ok block.items[idx] :=
      hb.leafItem_ok rfl hl (List.getElem?_eq_getElem hlt)
    have hread' : block.leafItem (env.width m) idx = .ok block.items[idx] := by
      rw [hb.leafItem_width hm (by omega : 32 ≤ 64) hl, hread]
    have hmem : block.items[idx] ∈ block.items := List.getElem_mem hlt
    generalize block.items[idx] = item at hread hread' hmem
    rw [leafTaken, hread'] at hbody ⊢
    dsimp only at hbody ⊢
    obtain ⟨hnarrow, hkeep⟩ := hbody _ List.mem_cons_self hb hl hmem hs
    rw [leaf, leaf, hread, hread', liftM_ok_bind, liftM_ok_bind]
    have hfirst : Proper Inv ((block, item), s) := ⟨hb, hmem, hs⟩
    -- the narrow body stops, goes on to the next slot, or leaves the leaf
    rcases hrun : (w.item block item s).run g with x | ⟨s', next'⟩ | s'
    · refine ⟨.bind (.refl _) fun _ _ => .bind hnarrow fun pace hpace => ?_, ?_, ?_⟩
      · rw [hrun] at hpace
        cases hpace
      · exact fun y hy => List.mem_singleton.mp hy ▸ hfirst
      · intro s' next' h
        simp only [Prog.run_bind, run_note_event, Except.ok_bind, hrun] at h
        cases h
    · have hs' := hkeep s' next' hrun
      rw [hrun] at hbody
      obtain ⟨hrest, hproper, hlast⟩ := ih (idx + 1) (by omega) hs' next' fun y hy =>
        hbody y (List.mem_cons_of_mem _ hy)
      have hnext : ∀ b, (env.width b).addU32 idx 1 = .ok (idx + 1) :=
        fun b => Env.addU32_ok _ (by omega)
      refine ⟨.bind (.refl _) fun _ _ => .bind hnarrow fun pace hpace => ?_, ?_, ?_⟩
      · rw [hrun] at hpace
        cases hpace
        dsimp only
        rw [hnext, hnext, liftM_ok_bind, liftM_ok_bind]
        exact hrest
      · intro y hy
        rcases List.mem_cons.mp hy with rfl | hy
        · exact hfirst
        · exact hproper y hy
      · intro s'' next'' h
        simp only [Prog.run_bind, run_note_event, Except.ok_bind, hrun, Prog.run_liftM,
          hnext m] at h
        exact hlast s'' next'' h
    · refine ⟨.bind (.refl _) fun _ _ => .bind hnarrow fun pace hpace => ?_, ?_, ?_⟩
      · rw [hrun] at hpace
        cases hpace
        exact .refl _
      · exact fun y hy => List.mem_singleton.mp hy ▸ hfirst
      · intro s'' next'' h
        simp only [Prog.run_bind, run_note_event, Except.ok_bind, hrun] at h
        cases h

/-- Two walks narrow one another when their bodies do, wherever the first runs its own. -/
theorem run_narrows (hm : 32 ≤ m) (hnode : ValidNodesize w.nodesize) (fuel : ℕ)
    (target : DiskKey) {s : σ} (hs : Inv s)
    (hbody : ∀ x ∈ w.taken (env.width m) g fuel target s, Narrowed w g Inv body x) :
    Prog.Narrows g (w.run (env.width m) fuel target s)
        ({ w with item := body }.run (env.width 64) fuel target s) ∧
      ∀ x ∈ w.taken (env.width m) g fuel target s, Proper Inv x := by
  induction fuel generalizing target s with
  | zero => exact ⟨.refl _, by simp [taken]⟩
  | succ fuel ih =>
    rw [taken] at hbody ⊢
    rw [run, run]
    dsimp only
    by_cases hp : w.proceed s = true
    swap
    · rw [if_neg hp, if_neg hp, if_neg hp]
      exact ⟨.refl _, by simp⟩
    rw [if_pos hp] at hbody
    rw [if_pos hp, if_pos hp, if_pos hp]
    rw [findFirstGe_width hm hnode] at hbody ⊢
    rcases hfind : (findFirstGe (env.width 64) (w.chunkMap s) w.nodesize w.root target).run g with
      x | _ | ⟨block, idx⟩
    · refine ⟨.bind (.refl _) fun found hfound => ?_, by simp⟩
      rw [hfind] at hfound
      cases hfound
    · refine ⟨.bind (.refl _) fun found hfound => ?_, by simp⟩
      rw [hfind] at hfound
      cases hfound
      exact .refl _
    rw [hfind] at hbody
    dsimp only at hbody ⊢
    have hfirst := run_findFirstGe_first (Env.usizeBits_width env 64) hnode w.root g hfind
    have hlt := hfirst.lt
    obtain ⟨hleaf, hproper, hlast⟩ := leaf_narrows hm hfirst.accepted hfirst.level
      (block.header.nritems - idx) idx (by omega) hs none
      fun y hy => hbody y (List.mem_append_left _ hy)
    refine ⟨.bind (.refl _) fun found hfound => ?_, fun y hy => ?_⟩
    · rw [hfind] at hfound
      cases hfound
      refine .bind (.refl _) fun _ _ => .bind hleaf fun pace hpace => ?_
      rw [hpace] at hbody
      rcases pace with ⟨s', _ | target'⟩ | s'
      · exact .refl _
      · exact (ih target' (hlast _ _ hpace) fun y hy => hbody y (List.mem_append_right _ hy)).1
      · exact .refl _
    · rcases List.mem_append.mp hy with hy | hy
      · exact hproper y hy
      -- only a pass that goes on takes more
      rcases hrun : (w.leaf (env.width m) block (block.header.nritems - idx) idx s none).run g with
        x | ⟨s', _ | target'⟩ | s'
      · rw [hrun] at hy
        cases hy
      · rw [hrun] at hy
        cases hy
      · rw [hrun] at hy hbody
        exact (ih target' (hlast _ _ hrun) fun y hy =>
          hbody y (List.mem_append_right _ hy)).2 y hy
      · rw [hrun] at hy
        cases hy

end Walk

/-! ### One extent -/

section Extents

variable {env : Env} {map : ChunkMap} {dev : Device}

theorem mem_chunkPasses {n room cursor : ℕ} {c : ChunkPass}
    (hc : c ∈ chunkPasses env map dev n room cursor) : 0 < c.room ∧ 0 < c.contiguousBytes := by
  induction n generalizing room cursor with
  | zero => cases hc
  | succ n ih =>
    rw [chunkPasses] at hc
    split_ifs at hc with hroom
    · rcases hr : map.resolve env cursor with x | resolved
      · rw [hr] at hc
        cases hc
      · rw [hr] at hc
        dsimp only at hc
        rcases List.mem_cons.mp hc with rfl | hc
        · exact ⟨hroom, (ChunkMap.contiguous_bounds hr).1⟩
        · split_ifs at hc
          · exact ih hc
          · cases hc
    · cases hc

/-- As long as no chunk goes on for `2 ^ 32` bytes, a logical read is the same. -/
theorem readThroughChunks_loop_width {len : ℕ} (hlen : len < 2 ^ 32) (n : ℕ) (buf : List UInt8)
    (cursor : ℕ) (hbuf : buf.length ≤ len)
    (hshort : ∀ c ∈ chunkPasses (env.width 32) map dev n (len - buf.length) cursor,
      c.contiguousBytes < 2 ^ 32) :
    (readThroughChunks.loop (env.width 32) map len n buf cursor).run dev.answer =
      (readThroughChunks.loop (env.width 64) map len n buf cursor).run dev.answer := by
  induction n generalizing buf cursor with
  | zero => rfl
  | succ n ih =>
    rw [readThroughChunks.loop, readThroughChunks.loop]
    by_cases hlt : buf.length < len
    swap
    · rw [if_neg hlt, if_neg hlt]
    rw [if_pos hlt, if_pos hlt]
    rw [chunkPasses, if_pos (by omega)] at hshort
    rw [ChunkMap.resolve_width] at hshort ⊢
    rw [ChunkMap.resolve_width]
    rcases hr : map.resolve env cursor with x | resolved
    · rw [Prog.run_bind, Prog.run_bind, Prog.run_liftM, Except.error_bind, Except.error_bind]
    obtain ⟨hpos, hend⟩ := ChunkMap.contiguous_bounds hr
    rw [hr] at hshort
    -- each pass asks for less than 2^32 bytes, where the two casts and additions agree
    have hcast : ∀ b, 32 ≤ b →
        (env.width b).asUsize resolved.contiguousBytes = resolved.contiguousBytes :=
      fun b hb => Nat.mod_eq_of_lt (Env.lt_usize hb (hshort _ List.mem_cons_self))
    have hadd : ∀ b, 32 ≤ b → ∀ take, take ≤ len - buf.length →
        (env.width b).addUsize buf.length take = .ok (buf.length + take) :=
      fun b hb take htake => Env.addUsize_small hb (by omega)
    rw [liftM_ok_bind, liftM_ok_bind, Env.sub_ok _ hbuf, Env.sub_ok _ hbuf, liftM_ok_bind,
      liftM_ok_bind, hcast 32 le_rfl, hcast 64 (by omega)]
    dsimp only at hshort ⊢
    rw [hcast 32 le_rfl] at hshort
    set take := min (len - buf.length) resolved.contiguousBytes with htake
    rw [hadd 32 le_rfl _ (by omega), hadd 64 (by omega) _ (by omega), liftM_ok_bind, liftM_ok_bind,
      sliceBounds_ok (by omega) (by omega), liftM_ok_bind, liftM_ok_bind, Env.addU64_width,
      Env.addU64_width, Env.addU64_ok env (by omega), Prog.run_bind, Prog.run_bind,
      Device.run_readAt]
    by_cases hserves : dev.serves resolved.physical take = true
    swap
    · rw [if_neg hserves, err_bind, err_bind]
    rw [if_pos hserves] at hshort ⊢
    rw [Except.ok_bind, Except.ok_bind, liftM_ok_bind, liftM_ok_bind]
    have hroom : len - (buf ++ dev.bytes resolved.physical take).length =
        len - buf.length - take := by
      rw [List.length_append, Device.length_bytes]
      omega
    refine ih _ _ ?_ ?_
    · rw [List.length_append, Device.length_bytes]
      omega
    · rw [hroom]
      exact fun c hc => hshort c (List.mem_cons_of_mem _ hc)

theorem readThroughChunks_width {len : ℕ} (hlen : len < 2 ^ 32) (start : ℕ)
    (hshort : ∀ c ∈ chunkPasses (env.width 32) map dev (len + 1) len start,
      c.contiguousBytes < 2 ^ 32) :
    (readThroughChunks (env.width 32) map start len).run dev.answer =
      (readThroughChunks (env.width 64) map start len).run dev.answer :=
  readThroughChunks_loop_width hlen _ _ _ (Nat.zero_le _) hshort

/-- The payload of an inline extent lies in the item's data. -/
theorem Extent.payload_length {data : List UInt8} {e : Extent} (hparse : Extent.parse data = .ok e)
    {compression : ℕ} {payload : List UInt8} (hback : e.backing = .inline compression payload) :
    payload.length ≤ data.length := by
  unfold Extent.parse at hparse
  dsimp only at hparse
  split_ifs at hparse
  · cases hparse
  · cases hparse
  · cases hparse
    cases hback
    rw [List.length_drop]
    omega
  · cases hparse
  · cases hparse
    unfold ofRegular at hback
    dsimp only at hback
    split_ifs at hback
  · cases hparse

theorem inlinePlain_width {sectorsize : ℕ} (hsector : ValidSectorsize sectorsize)
    (compression : ℕ) {payload : List UInt8} (hlen : payload.length + 2 ^ 17 < 2 ^ 32) :
    inlinePlain (env.width 32) sectorsize compression payload =
      inlinePlain (env.width 64) sectorsize compression payload := by
  unfold inlinePlain
  rw [decode_width le_rfl (by omega : 32 ≤ 64) compression hlen hsector]

theorem readCompressed_narrows {sectorsize : ℕ} (hsector : ValidSectorsize sectorsize)
    (compression : ℕ) (regular : ExtentDataRegular)
    (hshort : regular.diskNumBytes ≤ maxDecompressedExtentBytes →
      (env.width 32).Grants regular.diskNumBytes →
      ∀ c ∈ chunkPasses (env.width 32) map dev (regular.diskNumBytes + 1) regular.diskNumBytes
        regular.diskBytenr, c.contiguousBytes < 2 ^ 32) :
    Prog.Narrows dev.answer (readCompressed (env.width 32) map sectorsize compression regular)
      (readCompressed (env.width 64) map sectorsize compression regular) := by
  have hmax : maxDecompressedExtentBytes = 16777216 := rfl
  unfold readCompressed
  refine .bind (.lift (Env.tryIntoUsize_narrows env _ _)) fun diskSize hdisk => ?_
  -- past the conversion the size is the same number on both targets
  have hdisk : diskSize = regular.diskNumBytes := by
    rw [Prog.run_liftM, Env.tryIntoUsize] at hdisk
    split_ifs at hdisk
    · cases hdisk
      rfl
    · exact absurd hdisk err_ne_ok
  rw [hdisk]
  by_cases hover : maxDecompressedExtentBytes < regular.diskNumBytes
  · rw [if_pos hover, if_pos hover]
    exact .refl _
  rw [if_neg hover, if_neg hover]
  refine .bind (.lift (Env.tryReserve_narrows env _ _)) fun _ hgrant => ?_
  rw [Prog.run_liftM, Env.tryReserve_eq_ok] at hgrant
  have hread := readThroughChunks_width (by omega) _ (hshort (not_lt.mp hover) hgrant)
  refine .bind (.inr hread) fun compressed hcompressed => ?_
  have hlen : compressed.length = regular.diskNumBytes := by
    rw [hread] at hcompressed
    exact (Extent.readThroughChunks_ensures (Env.usizeBits_width env 64) (by omega)).returns _ ()
      hcompressed
  rw [decode_width le_rfl (by omega : 32 ≤ 64) compression (by omega) hsector]
  exact .refl _

/-- `copy_extent_slice` at a position below `2 ^ 32`, or of an extent that is not inline. -/
theorem Extent.copy_narrows {sectorsize : ℕ} (hsector : ValidSectorsize sectorsize) {e : Extent}
    (hpayload : ∀ compression payload, e.backing = .inline compression payload →
      payload.length ≤ maxNodeSize)
    {i len : ℕ} (hlen : len < 2 ^ 32) (hinline : e.isInline = true → i < 2 ^ 32)
    (hshort : ∀ start n, e.reads (env.width 32) i len = some (start, n) →
      ∀ c ∈ chunkPasses (env.width 32) map dev (n + 1) n start, c.contiguousBytes < 2 ^ 32) :
    Prog.Narrows dev.answer (e.copy (env.width 32) map sectorsize i len)
      (e.copy (env.width 64) map sectorsize i len) := by
  have hnode : maxNodeSize = 65536 := rfl
  unfold Extent.copy
  unfold Extent.reads at hshort
  unfold Extent.isInline at hinline
  -- an inline extent casts its position; the others cast what they read through chunks
  cases hback : e.backing with
  | zeros => exact .refl _
  | inline compression payload =>
    rw [hback] at hinline
    have hpayload := hpayload compression payload hback
    have hcast : ∀ b, 32 ≤ b → (env.width b).asUsize i = i :=
      fun b hb => Nat.mod_eq_of_lt (Env.lt_usize hb (hinline rfl))
    dsimp only
    rw [inlinePlain_width hsector compression (by omega), hcast 32 le_rfl, hcast 64 (by omega)]
    refine .bind (.refl _) fun src _ => ?_
    exact .bind (.lift (checkedAdd_narrows _ _ _)) fun stop _ => .refl _
  | plain diskBytenr offset =>
    rw [hback] at hshort
    refine .bind (.refl _) fun logicalAt hlogical => .inr (readThroughChunks_width hlen _ ?_)
    rw [Prog.run_liftM, okOr_eq_ok, Option.bind_eq_some_iff] at hlogical
    obtain ⟨v, hv, hlogical⟩ := hlogical
    obtain ⟨-, rfl⟩ := checkedAdd_eq_some.mp hv
    obtain ⟨hlt, rfl⟩ := checkedAdd_eq_some.mp hlogical
    exact hshort _ _ (if_pos hlt)
  | packed compression regular =>
    rw [hback] at hshort
    refine .bind (readCompressed_narrows hsector compression regular fun hle hgrant =>
      hshort _ _ (if_pos ⟨hle, hgrant⟩)) fun decoded _ => ?_
    refine .bind (.refl _) fun position _ => ?_
    refine .bind (.lift (Env.tryIntoUsize_narrows env _ _)) fun off _ => ?_
    exact .bind (.lift (checkedAdd_narrows _ _ _)) fun stop _ => .refl _

end Extents

/-! ### A whole call -/

theorem Pass.sound_of_short {bits : ℕ} {env : Env} {p : Pass} (hroom : 0 < p.room)
    (hlive : p.position < p.stop) (hstart : p.start ≤ p.stop)
    (hgap : p.gap < 2 ^ (env.width bits).usizeBits)
    (hrem : p.Copies (env.width bits) →
      p.extentRemaining (env.width bits) < 2 ^ (env.width bits).usizeBits) :
    p.Sound (env.width bits) := by
  have hcast : (env.width bits).asUsize p.gap = p.gap := Nat.mod_eq_of_lt hgap
  have hfill : p.fill (env.width bits) = min p.gap p.room := by rw [fill, hcast]
  have hg : p.gap = p.start - p.position := rfl
  have hres : p.resumed (env.width bits) = p.position + min p.gap p.room := by
    rw [resumed, hfill]
  have hcopies : p.Copies (env.width bits) ↔
      ¬(p.position < p.start ∧ min p.gap p.room = p.room) := by
    rw [Copies, hfill]
  have hrest : p.Copies (env.width bits) →
      (env.width bits).asUsize (p.extentRemaining (env.width bits)) =
        p.extentRemaining (env.width bits) := fun h => Nat.mod_eq_of_lt (hrem h)
  refine ⟨hcast, ?_, fun h => ?_, fun h => ?_, hrest, ?_⟩
  · omega
  · rw [hcopies] at h
    omega
  · rw [hcopies] at h
    omega
  · by_cases hpos : 0 < p.fill (env.width bits)
    · exact .inl hpos
    have hc : p.Copies (env.width bits) := by
      rw [hcopies]
      omega
    refine .inr ⟨hc, ?_⟩
    rw [wantHere, hrest hc, extentRemaining]
    omega

section Call

variable {call : ReadCall} {env : Env} {dev : Device}

/-- The metadata, when the inode item's data is not placed at the end of the address space. -/
theorem ReadCall.readMetadata_narrows
    (hplace : ∀ item ∈ call.inodeItem (env.width 32) dev, Header.size + item.offset < 2 ^ 32) :
    Prog.Narrows dev.answer
      (readMetadata (env.width 32) call.map call.geometry.nodesize call.fsTreeRoot call.objectid)
      (readMetadata (env.width 64) call.map call.geometry.nodesize call.fsTreeRoot
        call.objectid) := by
  have hnode := call.geometry.validNodesize
  unfold readMetadata
  by_cases hempty : call.objectid = emptySubvolDirObjectid
  · rw [if_pos hempty, if_pos hempty]
    exact .refl _
  rw [if_neg hempty, if_neg hempty, findFirstGe_width le_rfl hnode]
  unfold ReadCall.inodeItem at hplace
  rw [findFirstGe_width le_rfl hnode] at hplace
  refine .bind (.refl _) fun found hfound => ?_
  rw [hfound] at hplace
  rcases found with _ | ⟨leaf, idx⟩
  · exact .refl _
  have hfirst := run_findFirstGe_first (Env.usizeBits_width env 64) hnode _ _ hfound
  obtain ⟨item, hmem, -, hitem⟩ := hfirst.exists_item (Env.usizeBits_width env 64)
  -- the search agrees, so both look at one item; only its data's place can differ
  have hwidth : leaf.leafItem (env.width 32) idx = leaf.leafItem (env.width 64) idx :=
    hfirst.accepted.leafItem_width le_rfl (by omega) hfirst.level idx
  dsimp only at hplace ⊢
  rw [hwidth, hitem] at hplace
  rw [hwidth, hitem, liftM_ok_bind, liftM_ok_bind]
  by_cases hkey : item.key.objectid ≠ call.objectid ∨ item.key.itemType ≠ inodeItemKey
  · rw [if_pos hkey, if_pos hkey]
    exact .refl _
  rw [if_neg hkey, if_neg hkey]
  dsimp only at hplace
  rw [if_pos (by simpa [not_or] using hkey)] at hplace
  have hoffset := hplace item rfl
  refine .bind (.lift (TreeBlock.leafItemData_narrows env hoffset
    (TreeBlock.item_bounds hmem).2.1)) fun data _ => ?_
  rw [InodeItem.parse_eq le_rfl, InodeItem.parse_eq (by rw [Env.usizeBits_width]; omega)]
  exact .refl _

/-- The pass over an extent, in the terms of the body. -/
theorem Pass.filled (env : Env) {e : Extent} {offset want start stop : ℕ} {written : List UInt8}
    (hwritten : written.length < want)
    (hgap : start - (offset + written.length) < 2 ^ env.usizeBits) {p : Pass}
    (hp : p = ⟨start, stop, e, offset + written.length, want - written.length⟩) :
    p.resumed env = offset + (readFileAt.filled offset want start written).length ∧
      p.room - p.fill env = want - (readFileAt.filled offset want start written).length ∧
      (p.Copies env ↔ (readFileAt.filled offset want start written).length ≠ want) := by
  have hcast : env.asUsize p.gap = p.gap := by
    rw [hp]
    exact Nat.mod_eq_of_lt hgap
  have hg : p.gap = start - (offset + written.length) := by
    rw [hp]
    rfl
  have hroom : p.room = want - written.length := by rw [hp]
  have hpos : p.position = offset + written.length := by rw [hp]
  have hstart : p.start = start := by rw [hp]
  have hlen := readFileAt.length_filled offset start hwritten.le
  rw [Copies, resumed, fill, hcast, hg, hroom, hpos, hstart]
  omega

theorem ReadCall.passOf_eq {want : ℕ} {leaf : TreeBlock} {item : LeafItem} {written : List UInt8}
    {data : List UInt8} {e : Extent} (hmine : isExtentOf call.objectid item = true)
    (hdata : leaf.leafItemData env item = .ok data) (hparse : Extent.parse data = .ok e)
    (hstop : call.offset + written.length < min (item.key.offset + e.declared) (2 ^ 64 - 1)) :
    call.passOf env want ((leaf, item), written) =
      some ⟨item.key.offset, min (item.key.offset + e.declared) (2 ^ 64 - 1), e,
        call.offset + written.length, want - written.length⟩ := by
  unfold ReadCall.passOf
  rw [if_pos hmine, hdata, Except.ok_bind, hparse]
  exact if_neg (not_le.mpr hstop)

/-- What a call is to fill fits its buffer and the file. -/
theorem ReadCall.want_bounds {want : ℕ} (hwant : call.want (env.width 32) dev = some want)
    (hplace : ∀ item ∈ call.inodeItem (env.width 32) dev, Header.size + item.offset < 2 ^ 32) :
    want < 2 ^ 32 ∧ call.offset + want < 2 ^ 64 := by
  have hbuf := call.buf_lt
  unfold ReadCall.want at hwant
  rcases hmeta : (readMetadata (env.width 32) call.map call.geometry.nodesize call.fsTreeRoot
      call.objectid).run dev.answer with x | metadata
  · rw [hmeta] at hwant
    cases hwant
  · have hsize := (readMetadata_ensures (Env.usizeBits_width env 64)
      call.geometry.validNodesize).returns _ () ((call.readMetadata_narrows hplace).ok hmeta)
    rw [hmeta] at hwant
    dsimp only at hwant
    split_ifs at hwant with hfile
    cases hwant
    omega

theorem ReadCall.mem_passes {want : ℕ} (hwant : call.want env dev = some want) {p : Pass} :
    p ∈ call.passes env dev ↔
      ∃ x ∈ call.taken env dev want, call.passOf env want x = some p := by
  unfold ReadCall.passes
  rw [hwant]
  exact List.mem_filterMap

theorem ReadCall.mem_items {want : ℕ} (hwant : call.want env dev = some want)
    {x : Located × List UInt8} (hx : x ∈ call.taken env dev want)
    (hmine : isExtentOf call.objectid x.1.2 = true) : x.1.2 ∈ call.items env dev := by
  unfold ReadCall.items
  rw [hwant]
  exact List.mem_filter.mpr ⟨List.mem_map_of_mem hx, hmine⟩

/-- On a call of short lengths and offsets each pass of the 32-bit build is narrowed. -/
theorem ReadCall.item_narrowed (hlengths : call.ShortLengths env dev)
    (hoffsets : call.ShortOffsets env dev) {want : ℕ}
    (hwant : call.want (env.width 32) dev = some want) :
    ∀ x ∈ call.taken (env.width 32) dev want,
      (readFileAt.walk (env.width 32) call.map call.geometry call.fsTreeRoot call.objectid
        call.offset want).Narrowed dev.answer (fun written => written.length < want)
        (readFileAt.item (env.width 64) call.map call.geometry call.objectid call.offset want)
        x := by
  intro x hx hacc hlevel hmem hinv
  obtain ⟨⟨leaf, item⟩, written⟩ := x
  dsimp only at hacc hlevel hmem hinv ⊢
  obtain ⟨hwant32, hrange⟩ := want_bounds hwant hoffsets.inodeItem
  show Prog.Narrows dev.answer (readFileAt.item (env.width 32) call.map call.geometry
    call.objectid call.offset want leaf item written) _ ∧ ∀ s next, (readFileAt.item
      (env.width 32) call.map call.geometry call.objectid call.offset want leaf item written).run
        dev.answer = .ok (.more s next) → _
  by_cases hmine : isExtentOf call.objectid item = true
  swap
  · have hforeign : isExtentOf call.objectid item = false := by simpa using hmine
    rw [readFileAt_item_foreign hforeign, readFileAt_item_foreign hforeign]
    refine ⟨.refl _, fun s next h => ?_⟩
    cases h
  have hkey := (TreeBlock.item_bounds hmem).2.2.offset
  have hplace : Header.size + item.offset < 2 ^ 32 :=
    hoffsets.items item (mem_items hwant hx hmine)
  -- the pass this is, when the extent ends past the request
  have hpass : ∀ {data e}, leaf.leafItemData (env.width 32) item = .ok data →
      Extent.parse data = .ok e →
      call.offset + written.length < min (item.key.offset + e.declared) (2 ^ 64 - 1) →
      (⟨item.key.offset, min (item.key.offset + e.declared) (2 ^ 64 - 1), e,
        call.offset + written.length, want - written.length⟩ : Pass) ∈
          call.passes (env.width 32) dev :=
    fun hdata hparse hstop => (mem_passes hwant).mpr ⟨_, hx, passOf_eq hmine hdata hparse hstop⟩
  have hfit : readFileAt.Fits (env.width 32) call.offset want leaf item written := by
    intro data e hdata hparse
    dsimp only
    intro hstop
    have hp := hpass hdata hparse hstop
    have hgap := hlengths.gap _ hp
    obtain ⟨hresumed, -, hcopies⟩ := Pass.filled (env.width 32) hinv hgap rfl
    refine ⟨hgap, fun hfull => ?_⟩
    have hrem := hlengths.extentRemaining _ hp (hcopies.mpr hfull)
    rwa [Pass.extentRemaining, hresumed] at hrem
  have hnarrow : Prog.Narrows dev.answer
      (readFileAt.item (env.width 32) call.map call.geometry call.objectid call.offset want leaf
        item written)
      (readFileAt.item (env.width 64) call.map call.geometry call.objectid call.offset want leaf
        item written) := by
    rw [readFileAt_item_fits le_rfl hkey hmine hrange hwant32 hinv hfit,
      readFileAt_item_eq (Env.usizeBits_width env 64) hkey hmine hrange hinv]
    refine .bind (.lift (TreeBlock.leafItemData_narrows env hplace
      (TreeBlock.item_bounds hmem).2.1)) fun data hdata => ?_
    rw [Prog.run_liftM] at hdata
    refine .bind (.refl _) fun e hparse => ?_
    rw [Prog.run_liftM] at hparse
    dsimp only
    by_cases hskip : min (item.key.offset + e.declared) (2 ^ 64 - 1) ≤ call.offset + written.length
    · rw [if_pos hskip, if_pos hskip]
      exact .refl _
    rw [if_neg hskip, if_neg hskip]
    have hp := hpass hdata hparse (not_le.mp hskip)
    obtain ⟨hresumed, hleft, hcopies⟩ := Pass.filled (env.width 32) hinv
      (hlengths.gap _ hp) rfl
    set filled := readFileAt.filled call.offset want item.key.offset written
    by_cases hfull : filled.length = want
    · rw [if_pos hfull, if_pos hfull]
      exact .refl _
    rw [if_neg hfull, if_neg hfull]
    refine .bind (.refl _) fun _ _ => .bind (Extent.copy_narrows call.geometry.validSectorsize
      (fun compression payload hback => ?_) (by omega) (fun hkind => ?_)
      fun start n hreads c hc => ?_) fun bytes _ => .refl _
    · exact (Extent.payload_length hparse hback).trans (hacc.leafItemData_length hdata)
    · have hi := hoffsets.inline _ hp hkind (hcopies.mpr hfull)
      rwa [Pass.inExtentOffset, hresumed] at hi
    · refine hlengths.contiguousBytes _ hp c ?_
      have hrem := hlengths.extentRemaining _ hp (hcopies.mpr hfull)
      have hcast : (env.width 32).asUsize (Pass.extentRemaining (env.width 32) _) = _ :=
        Nat.mod_eq_of_lt hrem
      rw [chunksOf, if_pos (hcopies.mpr hfull), Pass.wantHere, hcast, hleft, Pass.inExtentOffset,
        Pass.extentRemaining, hresumed, hreads]
      exact hc
  refine ⟨hnarrow, fun s next h => ?_⟩
  have hsteady : (readFileAt.walk (env.width 64) call.map call.geometry call.fsTreeRoot
      call.objectid call.offset want).Steady (env.width 64) call.map (isExtentOf call.objectid)
        dev.answer fun written => written.length < want :=
    readFileAt_steady rfl hrange call.fsTreeRoot dev.answer
  exact (hsteady.more leaf item written s next hacc hlevel hmem hmine hinv (hnarrow.ok h)).1

/-- The copy loop of such a call, entered with room in the buffer. -/
theorem ReadCall.walk_narrows (hlengths : call.ShortLengths env dev)
    (hoffsets : call.ShortOffsets env dev) {want : ℕ}
    (hwant : call.want (env.width 32) dev = some want) (hpos : 0 < want) :
    Prog.Narrows dev.answer
        ((readFileAt.walk (env.width 32) call.map call.geometry call.fsTreeRoot call.objectid
          call.offset want).run (env.width 32) Walk.fuel (extentsFrom call.objectid) [])
        ((readFileAt.walk (env.width 64) call.map call.geometry call.fsTreeRoot call.objectid
          call.offset want).run (env.width 64) Walk.fuel (extentsFrom call.objectid) []) ∧
      ∀ x ∈ call.taken (env.width 32) dev want,
        Walk.Proper (fun written : List UInt8 => written.length < want) x :=
  @Walk.run_narrows _ env _ dev.answer (fun written : List UInt8 => written.length < want)
    (readFileAt.item (env.width 64) call.map call.geometry call.objectid call.offset want) 32
    le_rfl call.geometry.validNodesize Walk.fuel (extentsFrom call.objectid) [] hpos
    (item_narrowed hlengths hoffsets hwant)

/-- The end of the request behind the last extent. -/
theorem fillTail_width {want : ℕ} (hwant : want < 2 ^ 32) (written : List UInt8) :
    fillTail (env.width 32) want written = fillTail (env.width 64) want written := by
  unfold fillTail
  by_cases hlt : written.length < want
  · rw [if_pos hlt, if_pos hlt, Env.sub_ok _ hlt.le, Env.sub_ok _ hlt.le, Except.ok_bind,
      Except.ok_bind, Env.addUsize_small le_rfl (by omega),
      Env.addUsize_small (by rw [Env.usizeBits_width]; omega) (by omega)]
  · rw [if_neg hlt, if_neg hlt]

/-- A call of short lengths and offsets comes out as on the wider target. -/
theorem ReadCall.run_narrows (hlengths : call.ShortLengths env dev)
    (hoffsets : call.ShortOffsets env dev) :
    Outcome.Narrows (call.run (env.width 32) dev) (call.run (env.width 64) dev) := by
  have hbuf := call.buf_lt
  show Prog.Narrows dev.answer (readFileAt (env.width 32) call.map call.geometry call.fsTreeRoot
    call.objectid call.offset call.buf) _
  unfold readFileAt
  by_cases hempty : call.buf.length = 0
  · rw [if_pos hempty, if_pos hempty]
    exact .refl _
  rw [if_neg hempty, if_neg hempty]
  refine .bind (call.readMetadata_narrows hoffsets.inodeItem) fun metadata hmeta => ?_
  by_cases hfile : ¬metadata.isFile = true
  · rw [if_pos hfile, if_pos hfile]
    exact .refl _
  rw [if_neg hfile, if_neg hfile]
  by_cases hend : metadata.size ≤ call.offset
  · rw [if_pos hend, if_pos hend]
    exact .refl _
  rw [if_neg hend, if_neg hend]
  set want := min call.buf.length (metadata.size - call.offset) with hwantDef
  -- the returns before the walk read no length; the walk is handed the same request
  have hwant : call.want (env.width 32) dev = some want := by
    unfold ReadCall.want
    rw [hmeta]
    exact if_pos ⟨not_not.mp hfile, not_le.mp hend⟩
  have hwant32 := (want_bounds hwant hoffsets.inodeItem).1
  have hfits : ∀ b, 32 ≤ b → (env.width b).tryIntoUsize want (.outOfMemory "read_at_overflow") =
      .ok want := fun b hb => if_pos (Env.lt_usize hb hwant32)
  rw [Env.sub_ok _ (not_le.mp hend).le, Env.sub_ok _ (not_le.mp hend).le, liftM_ok_bind,
    liftM_ok_bind, ← hwantDef, hfits 32 le_rfl, hfits 64 (by omega), liftM_ok_bind, liftM_ok_bind]
  refine .bind (.refl _) fun _ _ => ?_
  refine .bind (walk_narrows hlengths hoffsets hwant (by omega)).1 fun written _ => ?_
  rw [fillTail_width hwant32]
  exact .refl _

/-- What the loop takes, it takes with room in the buffer. -/
theorem ReadCall.taken_proper (hlengths : call.ShortLengths env dev)
    (hoffsets : call.ShortOffsets env dev) {want : ℕ}
    (hwant : call.want (env.width 32) dev = some want) :
    ∀ x ∈ call.taken (env.width 32) dev want,
      Walk.Proper (fun written : List UInt8 => written.length < want) x := by
  by_cases hpos : 0 < want
  · exact (walk_narrows hlengths hoffsets hwant hpos).2
  · intro x hx
    -- the loop is not entered
    unfold ReadCall.taken at hx
    obtain ⟨fuel, hfuel⟩ : ∃ fuel, Walk.fuel = fuel + 1 := ⟨2 ^ 136 - 1, rfl⟩
    have hstay : (readFileAt.walk (env.width 32) call.map call.geometry call.fsTreeRoot
        call.objectid call.offset want).proceed [] = false := decide_eq_false hpos
    rw [hfuel, Walk.taken, hstay] at hx
    cases hx

/-- Every pass of a call of short lengths and offsets is sound. -/
theorem ReadCall.passes_sound (hlengths : call.ShortLengths env dev)
    (hoffsets : call.ShortOffsets env dev) :
    ∀ p ∈ call.passes (env.width 32) dev, p.Sound (env.width 32) := by
  intro p hp
  rcases hwant : call.want (env.width 32) dev with _ | want
  · unfold ReadCall.passes at hp
    rw [hwant] at hp
    cases hp
  obtain ⟨x, hx, hpass⟩ := (mem_passes hwant).mp hp
  obtain ⟨-, hmem, hroom⟩ := taken_proper hlengths hoffsets hwant x hx
  have hkey := (TreeBlock.item_bounds hmem).2.2.offset
  have hgap := hlengths.gap p hp
  have hrem := hlengths.extentRemaining p hp
  unfold ReadCall.passOf at hpass
  split_ifs at hpass with hmine
  rcases hread : x.1.1.leafItemData (env.width 32) x.1.2 >>= Extent.parse with s | e
  · rw [hread] at hpass
    cases hpass
  rw [hread] at hpass
  dsimp only at hpass
  split_ifs at hpass with hstop
  cases hpass
  refine Pass.sound_of_short (Nat.sub_pos_of_lt hroom) (not_le.mp hstop) ?_ hgap hrem
  show x.1.2.key.offset ≤ min (x.1.2.key.offset + e.declared) (2 ^ 64 - 1)
  omega

theorem ReadCall.chunks_sound (hlengths : call.ShortLengths env dev) {p : Pass}
    (hp : p ∈ call.passes (env.width 32) dev) {c : ChunkPass}
    (hc : c ∈ call.chunksOf (env.width 32) dev p) : c.Sound (env.width 32) := by
  have hcast : (env.width 32).asUsize c.contiguousBytes = c.contiguousBytes :=
    Nat.mod_eq_of_lt (hlengths.contiguousBytes p hp c hc)
  have hpos : 0 < c.room ∧ 0 < c.contiguousBytes := by
    unfold ReadCall.chunksOf at hc
    split_ifs at hc
    · rcases hreads : p.extent.reads (env.width 32) (p.inExtentOffset (env.width 32))
          (p.wantHere (env.width 32)) with _ | ⟨start, len⟩
      · rw [hreads] at hc
        cases hc
      · rw [hreads] at hc
        exact mem_chunkPasses hc
    · cases hc
  refine ⟨hcast, ?_⟩
  rw [hcast]
  omega

end Call

/-! ### Every width -/

/-- A call does not depend on the pointer width if the lengths and offsets it meets are
short; and if a length is not short, a pass of the call is unsound. -/
theorem pointer_width (env : Env) (call : ReadCall) (dev : Device) :
    (call.ShortLengths env dev ∧ call.ShortOffsets env dev → call.WidthFree env dev) ∧
      (call.WidthFree env dev → call.ShortLengths env dev) := by
  have hlow : ∀ x, (env.width 32).asUsize x = x → x < 2 ^ 32 := by
    intro x hx
    rw [← hx]
    exact Nat.mod_lt x (Nat.two_pow_pos 32)
  constructor
  · rintro ⟨hlengths, hoffsets⟩
    exact ⟨call.run_narrows hlengths hoffsets, call.passes_sound hlengths hoffsets,
      fun p hp c hc => call.chunks_sound hlengths hp hc⟩
  · intro h
    exact ⟨fun p hp => hlow _ (h.passes p hp).gap,
      fun p hp hcopies => hlow _ ((h.passes p hp).extentRemaining hcopies),
      fun p hp c hc => hlow _ (h.chunks p hp c hc).contiguousBytes⟩

/-! ### Samples -/

/-- Three files behind a data chunk of four gigabytes: at its very start, a file whose
extent is four gigabytes long, and a small one. -/
def wideItems : List SampleItem :=
  [sampleInode 257 5,
   (⟨257, extentDataKey, 0⟩, 53, [(8, 4096), (20, fileExtentReg),
     (21, 0x101000), (29, 4096), (45, 4096)]),
   sampleInode 258 (2 ^ 32),
   (⟨258, extentDataKey, 0⟩, 53, [(8, 2 ^ 32), (20, fileExtentReg),
     (21, 0x101800), (29, 2 ^ 32), (45, 2 ^ 32)]),
   sampleInode 259 5,
   (⟨259, extentDataKey, 0⟩, 53, [(8, 4096), (20, fileExtentReg),
     (21, 0x101800), (29, 4096), (45, 4096)])]

def wideVolume : SliceDevice :=
  .ofNat (image ((0x4800, 0x6f6c6c6568) :: (0x4000, 0x646c726f77) ::
    leafFields 0x1000 4096 1183135801 0x100000 wideItems)) 0x8000 sampleSize_lt

def wideMap : ChunkMap := (ChunkMap.empty.setLocalDevid 1).insertAll
  [{ logical := 0x100000, length := 0x1000, ty := 0, stripeLen := 65536, numStripes := 1,
     subStripes := 1, stripes := [⟨1, 0x1000, List.replicate 16 0⟩] },
   { logical := 0x101000, length := 2 ^ 32, ty := 0, stripeLen := 65536, numStripes := 1,
     subStripes := 1, stripes := [⟨1, 0x4000, List.replicate 16 0⟩] }]

/-- Five bytes from the start of a file. -/
def wideCall (objectid : ℕ) : ReadCall where
  map := wideMap
  geometry := sampleGeometry
  fsTreeRoot := 0x100000
  objectid := objectid
  offset := 0
  buf := [1, 2, 3, 4, 5]
  buf_lt := by decide

set_option maxRecDepth 100000 in
/-- The small file meets the conditions. -/
theorem pointer_width_sample : (wideCall 259).WidthFree referenceEnv wideVolume.device := by
  refine (pointer_width referenceEnv (wideCall 259) wideVolume.device).1 ⟨⟨?_, ?_, ?_⟩, ?_, ?_, ?_⟩
  all_goals decide +kernel

set_option maxRecDepth 100000 in
/-- Zeros for the data of the long extent, and no end to the read at the chunk's start. -/
theorem pointer_width_fails :
    ((wideCall 258).run (referenceEnv.width 64) wideVolume.device =
        .ok (5, [104, 101, 108, 108, 111]) ∧
      (wideCall 258).run (referenceEnv.width 32) wideVolume.device = .ok (5, [0, 0, 0, 0, 0]) ∧
      ¬(wideCall 258).WidthFree referenceEnv wideVolume.device) ∧
    ((wideCall 257).run (referenceEnv.width 64) wideVolume.device =
        .ok (5, [119, 111, 114, 108, 100]) ∧
      (wideCall 257).run (referenceEnv.width 32) wideVolume.device = fault .fuel ∧
      ¬(wideCall 257).WidthFree referenceEnv wideVolume.device) := by
  have hzeros : (wideCall 258).run (referenceEnv.width 32) wideVolume.device =
      .ok (5, [0, 0, 0, 0, 0]) := by decide +kernel
  have hdata : (wideCall 258).run (referenceEnv.width 64) wideVolume.device =
      .ok (5, [104, 101, 108, 108, 111]) := by decide +kernel
  have hendless : (wideCall 257).run (referenceEnv.width 32) wideVolume.device =
      fault .fuel := by decide +kernel
  have hends : (wideCall 257).run (referenceEnv.width 64) wideVolume.device =
      .ok (5, [119, 111, 114, 108, 100]) := by decide +kernel
  refine ⟨⟨hdata, hzeros, fun h => ?_⟩, hends, hendless, fun h => ?_⟩
  · have hsame := h.result.ok hzeros
    rw [hdata] at hsame
    simp at hsame
  · rcases h.result with ⟨e, he⟩ | hsame
    · rw [hendless] at he
      cases he
    · rw [hendless, hends] at hsame
      cases hsame
