/-
Memory caps: how long the buffers of a decoder and of a file read can get.

For the decoders this is `decodeInto_capped`.  For `read_file` the functions of
`file.rs` that grow a buffer are written out once more under `Metered`, with a note
of the new length after each place that grows one; without these notes they are the
functions themselves (`readFile_without`).

Nothing here needs `usize` to be 64 bits wide, nor the reads to succeed: the bounds
hold of every note of every run.
-/
import Lambutter.FileSafety
import Lambutter.Superblock

/-- The notes of buffer lengths. -/
def Event.isGauge : Event → Bool
  | .output _ => true
  | .compressed _ => true
  | _ => false

/-! ### The functions with their notes -/

namespace Metered

section Extents

variable (env : Env) (map : ChunkMap) (sectorsize : ℕ)

/-- The output is this vector now. -/
def grown (out : List UInt8) : ReadM (List UInt8) := do
  note (.output out.length)
  return out

def readCompressed (compression : ℕ) (regular : ExtentDataRegular) : ReadM (List UInt8) := do
  let diskSize ← env.tryIntoUsize regular.diskNumBytes (.outOfMemory "compressed_disk")
  if maxDecompressedExtentBytes < diskSize then
    (err (.badCompression "comp_oversized") : Outcome (List UInt8))
  else
    env.tryReserve diskSize (.outOfMemory "compressed_disk")
    note (.compressed diskSize)
    let compressed ← readThroughChunks env map regular.diskBytenr diskSize
    decode env compression compressed [] sectorsize

def applyExtent (out data : List UInt8) (fileSize : ℕ) : ReadM (List UInt8) := do
  let header ← extentHeader env data 0
  if header.ty = fileExtentInline then
    let payload ← slice data ExtentDataHeader.size data.length
    let plain ← inlinePlain env sectorsize header.compression payload
    let take := min (env.asUsize header.ramBytes) plain.length
    let bytes ← slice plain 0 take
    grown (out ++ bytes)
  else if header.ty = fileExtentReg ∨ header.ty = fileExtentPrealloc then
    let regular ← extentTail env data
    let remaining := fileSize - out.length
    let emit := min regular.numBytes remaining
    if emit = 0 then return out
    else
      let emitUsize ← env.tryIntoUsize emit (.outOfMemory "extent_emit")
      if regular.diskBytenr = 0 ∨ header.ty = fileExtentPrealloc then
        let newLen ← env.addUsize out.length emitUsize
        grown (out ++ List.replicate (newLen - out.length) 0)
      else if header.compression = compressNone then
        let newLen ← env.addUsize out.length emitUsize
        -- the vector has its new length before the bytes are there
        note (.output newLen)
        let diskAt ← okOr (checkedAdd 64 regular.diskBytenr regular.offset)
          (.corruptBtree "extent_overflow" regular.diskBytenr)
        let bytes ← readThroughChunks env map diskAt (newLen - out.length)
        return out ++ bytes
      else
        let decoded ← readCompressed env map sectorsize header.compression regular
        let off ← env.tryIntoUsize regular.offset (.outOfMemory "extent_offset")
        let stop ← okOr (checkedAdd env.usizeBits off emitUsize)
          (.corruptBtree "extent_overflow" regular.diskBytenr)
        if decoded.length < stop then
          (err (.corruptBtree "extent_underdecoded" regular.diskBytenr) : Outcome (List UInt8))
        else
          let bytes ← slice decoded off stop
          grown (out ++ bytes)
  else (err (.corruptBtree "extent_type_unknown" 0) : Outcome (List UInt8))

end Extents

section Readers

variable (env : Env) (map : ChunkMap) (geometry : Geometry) (fsTreeRoot objectid : ℕ)

def readFile.item (fileSize : ℕ) (leaf : TreeBlock) (item : LeafItem) (out : List UInt8) :
    ReadM (Pace (List UInt8)) :=
  if ¬ isExtentOf objectid item then return .leave out
  else do
    let extentOffsetInFile := item.key.offset
    if extentOffsetInFile < out.length then
      (err (.corruptBtree "extent_overlap" leaf.header.bytenr) : Outcome (Pace (List UInt8)))
    else if fileSize < extentOffsetInFile then
      (err (.corruptBtree "extent_past_eof" leaf.header.bytenr) : Outcome (Pace (List UInt8)))
    else
      let gap ← env.sub 64 extentOffsetInFile out.length
      let filled ← fillHole env fileSize gap out
      let out ← grown filled
      let data ← leaf.leafItemData env item
      let out ← applyExtent env map geometry.sectorsize out data fileSize
      let next ← env.nextOffset extentOffsetInFile
      if fileSize ≤ out.length then return .leave out
      else return .more out (some ⟨objectid, extentDataKey, next⟩)

def readFile.walk (fileSize : ℕ) : Walk (List UInt8) where
  nodesize := geometry.nodesize
  root := fsTreeRoot
  chunkMap _ := map
  proceed out := decide (out.length < fileSize)
  item := readFile.item env map geometry objectid fileSize

def readFile : ReadM (List UInt8) := do
  let metadata ← readMetadata env map geometry.nodesize fsTreeRoot objectid
  if ¬ metadata.isFile then (err .notARegularFile : Outcome (List UInt8))
  else
    let fileSize := metadata.size
    let fileSizeUsize ← env.tryIntoUsize fileSize (.outOfMemory "file_size_overflow")
    env.tryReserve fileSizeUsize (.outOfMemory "file_buffer")
    let out ← (readFile.walk env map geometry fsTreeRoot objectid fileSize).run env Walk.fuel
      (extentsFrom objectid) []
    let whole ← finalize env out fileSize
    grown whole

end Readers

end Metered

/-! ### Without the notes -/

section Without

variable {env : Env} {map : ChunkMap} {sectorsize : ℕ}

theorem without_liftM {α : Type} (r : Outcome α) :
    Prog.without Event.isGauge (liftM r : ReadM α) = liftM r :=
  Prog.without_lift r

theorem without_gauge {α : Type} {e : Event} (he : e.isGauge = true) (f : Unit → ReadM α) :
    Prog.without Event.isGauge (note e >>= f) = Prog.without Event.isGauge (f ()) := by
  show (if e.isGauge then _ else _) = _
  rw [if_pos he]
  rfl

theorem grown_without (out : List UInt8) :
    Prog.without Event.isGauge (Metered.grown out) = pure out :=
  without_gauge rfl _

theorem quiet_without {α : Type} {p : ReadM α} (h : p.Notes fun e => e.isGauge = false) :
    Prog.without Event.isGauge p = p :=
  h.without_eq

theorem readCompressed_without (compression : ℕ) (regular : ExtentDataRegular) :
    Prog.without Event.isGauge (Metered.readCompressed env map sectorsize compression regular) =
      readCompressed env map sectorsize compression regular := by
  unfold Metered.readCompressed readCompressed
  rw [Prog.without_bind, without_liftM]
  refine congrArg _ (funext fun diskSize => ?_)
  split_ifs
  · exact without_liftM _
  rw [Prog.without_bind, without_liftM]
  refine congrArg _ (funext fun _ => ?_)
  rw [without_gauge rfl, Prog.without_bind, quiet_without (readThroughChunks_notes _ _ _)]
  exact congrArg _ (funext fun compressed => without_liftM _)

theorem applyExtent_without (out data : List UInt8) (fileSize : ℕ) :
    Prog.without Event.isGauge (Metered.applyExtent env map sectorsize out data fileSize) =
      applyExtent env map sectorsize out data fileSize := by
  -- branch by branch, the metered body is the plain one with gauges that are erased here
  unfold Metered.applyExtent applyExtent
  rw [Prog.without_bind, without_liftM]
  refine congrArg _ (funext fun header => ?_)
  by_cases hinline : header.ty = fileExtentInline
  · rw [if_pos hinline, if_pos hinline, Prog.without_bind, without_liftM]
    refine congrArg _ (funext fun payload => ?_)
    rw [Prog.without_bind, without_liftM]
    refine congrArg _ (funext fun plain => ?_)
    dsimp only
    rw [Prog.without_bind, without_liftM]
    exact congrArg _ (funext fun bytes => grown_without _)
  rw [if_neg hinline, if_neg hinline]
  by_cases hregular : header.ty = fileExtentReg ∨ header.ty = fileExtentPrealloc
  swap
  · rw [if_neg hregular, if_neg hregular]
    exact without_liftM _
  rw [if_pos hregular, if_pos hregular, Prog.without_bind, without_liftM]
  refine congrArg _ (funext fun regular => ?_)
  dsimp only
  by_cases hempty : min regular.numBytes (fileSize - out.length) = 0
  · rw [if_pos hempty, if_pos hempty]
    rfl
  rw [if_neg hempty, if_neg hempty, Prog.without_bind, without_liftM]
  refine congrArg _ (funext fun emitUsize => ?_)
  by_cases hzeros : regular.diskBytenr = 0 ∨ header.ty = fileExtentPrealloc
  · rw [if_pos hzeros, if_pos hzeros, Prog.without_bind, without_liftM]
    exact congrArg _ (funext fun newLen => grown_without _)
  rw [if_neg hzeros, if_neg hzeros]
  by_cases hplain : header.compression = compressNone
  · rw [if_pos hplain, if_pos hplain, Prog.without_bind, without_liftM]
    refine congrArg _ (funext fun newLen => ?_)
    rw [without_gauge rfl, Prog.without_bind, without_liftM]
    refine congrArg _ (funext fun diskAt => ?_)
    rw [Prog.without_bind, quiet_without (readThroughChunks_notes _ _ _)]
    rfl
  · rw [if_neg hplain, if_neg hplain, Prog.without_bind, readCompressed_without]
    refine congrArg _ (funext fun decoded => ?_)
    rw [Prog.without_bind, without_liftM]
    refine congrArg _ (funext fun off => ?_)
    rw [Prog.without_bind, without_liftM]
    refine congrArg _ (funext fun stop => ?_)
    split_ifs
    · exact without_liftM _
    rw [Prog.without_bind, without_liftM]
    exact congrArg _ (funext fun bytes => grown_without _)

theorem reading_without {α : Type} {p : ReadM α} (h : p.Notes Reading) :
    Prog.without Event.isGauge p = p := by
  refine quiet_without (h.mono fun e he => ?_)
  cases e <;> first | rfl | exact absurd he id

/-- A walk whose bodies differ in these notes only. -/
theorem Walk.run_without {σ : Type} {w w' : Walk σ} (hnodesize : w'.nodesize = w.nodesize)
    (hroot : w'.root = w.root) (hmap : w'.chunkMap = w.chunkMap) (hproceed : w'.proceed = w.proceed)
    (hitem : ∀ block item s, Prog.without Event.isGauge (w'.item block item s) =
      w.item block item s) (fuel : ℕ) (target : DiskKey) (s : σ) :
    Prog.without Event.isGauge (w'.run env fuel target s) = w.run env fuel target s := by
  -- the walk's own notes are no gauges, so erasing leaves them in place
  have hkeep : ∀ {α : Type} {e : Event}, e.isGauge = false → ∀ f : Unit → ReadM α,
      Prog.without Event.isGauge (note e >>= f) =
        note e >>= fun u => Prog.without Event.isGauge (f u) := by
    intro α e he f
    show (if e.isGauge then _ else _) = _
    rw [if_neg (by simp [he])]
    rfl
  -- the inner loop: the two walks take the same pace at every slot
  have hleaf : ∀ block n idx s next, Prog.without Event.isGauge (w'.leaf env block n idx s next) =
      w.leaf env block n idx s next := by
    intro block n
    induction n with
    | zero => exact fun _ _ _ => rfl
    | succ n ih =>
      intro idx s next
      rw [Walk.leaf, Walk.leaf, Prog.without_bind, without_liftM]
      refine congrArg _ (funext fun item => ?_)
      rw [hkeep rfl]
      refine congrArg _ (funext fun _ => ?_)
      rw [Prog.without_bind, hitem]
      refine congrArg _ (funext fun pace => ?_)
      cases pace with
      | leave s' => rfl
      | more s' next' =>
        rw [Prog.without_bind, without_liftM]
        exact congrArg _ (funext fun idx' => ih idx' s' next')
  -- the outer loop: the same descents, then the leaf loops above
  induction fuel generalizing target s with
  | zero => rfl
  | succ fuel ih =>
    rw [Walk.run, Walk.run, hproceed]
    split_ifs
    swap
    · rfl
    rw [Prog.without_bind, reading_without (findFirstGe_notes _ _), hnodesize, hroot, hmap]
    refine congrArg _ (funext fun found => ?_)
    cases found with
    | none => rfl
    | some r =>
      dsimp only
      rw [hkeep rfl]
      refine congrArg _ (funext fun _ => ?_)
      rw [Prog.without_bind, hleaf]
      refine congrArg _ (funext fun pace => ?_)
      rcases pace with ⟨s', _ | target'⟩ | s'
      · rfl
      · exact ih target' s'
      · rfl

theorem readFile_item_without (geometry : Geometry) (objectid fileSize : ℕ) (leaf : TreeBlock)
    (item : LeafItem) (out : List UInt8) : Prog.without Event.isGauge
      (Metered.readFile.item env map geometry objectid fileSize leaf item out) =
        readFile.item env map geometry objectid fileSize leaf item out := by
  unfold Metered.readFile.item readFile.item
  by_cases hmine : ¬ isExtentOf objectid item
  · rw [if_pos hmine, if_pos hmine]
    rfl
  rw [if_neg hmine, if_neg hmine]
  dsimp only
  split_ifs
  · exact without_liftM _
  · exact without_liftM _
  rw [Prog.without_bind, without_liftM]
  refine congrArg _ (funext fun gap => ?_)
  rw [Prog.without_bind, without_liftM]
  refine congrArg _ (funext fun filled => ?_)
  rw [Prog.without_bind, grown_without, pure_bind, Prog.without_bind, without_liftM]
  refine congrArg _ (funext fun data => ?_)
  rw [Prog.without_bind, applyExtent_without]
  refine congrArg _ (funext fun out' => ?_)
  rw [Prog.without_bind, without_liftM]
  refine congrArg _ (funext fun next => ?_)
  split_ifs
  · rfl
  · rfl

/-- Without its notes this is `read_file`. -/
theorem readFile_without (geometry : Geometry) (fsTreeRoot objectid : ℕ) :
    Prog.without Event.isGauge (Metered.readFile env map geometry fsTreeRoot objectid) =
      readFile env map geometry fsTreeRoot objectid := by
  unfold Metered.readFile readFile
  rw [Prog.without_bind, reading_without (readMetadata_notes geometry.nodesize)]
  refine congrArg _ (funext fun metadata => ?_)
  by_cases hfile : ¬ metadata.isFile
  · rw [if_pos hfile, if_pos hfile]
    exact without_liftM _
  rw [if_neg hfile, if_neg hfile]
  dsimp only
  rw [Prog.without_bind, without_liftM]
  refine congrArg _ (funext fun fileSizeUsize => ?_)
  rw [Prog.without_bind, without_liftM]
  refine congrArg _ (funext fun _ => ?_)
  rw [Prog.without_bind, @Walk.run_without env _
    (readFile.walk env map geometry fsTreeRoot objectid metadata.size)
    (Metered.readFile.walk env map geometry fsTreeRoot objectid metadata.size) rfl rfl rfl rfl
    (readFile_item_without geometry objectid metadata.size)]
  refine congrArg _ (funext fun out => ?_)
  rw [Prog.without_bind, without_liftM]
  rw [show (fun whole => Prog.without Event.isGauge (Metered.grown whole)) = pure from
    funext grown_without]
  exact bind_pure _

end Without

/-! ### What a returned block or buffer is, on any width of `usize` -/

section Lengths

variable {env : Env} {map : ChunkMap}

/-- Every run of the program that returns does so with a value in `P`. -/
abbrev Returns {α : Type} (p : ReadM α) (P : α → Prop) : Prop :=
  Prog.Ensures (fun _ => True) p P

theorem returns_lift {α : Type} {r : Outcome α} {P : α → Prop} (h : ∀ a, r = .ok a → P a) :
    Returns (liftM r) P :=
  Prog.Ensures.lift h fun _ _ => trivial

theorem returns_any {α : Type} (p : ReadM α) : Returns p fun _ => True := by
  induction p with
  | pure a => trivial
  | stop x => trivial
  | ask q k ih => exact fun a => ih a
  | note e p ih => exact ih

theorem readAt_returns (offset len : ℕ) (e : Error) :
    Returns (readAt offset len e) fun bs => bs.length = len :=
  (readAt_ensures offset len e).weaken fun _ _ => trivial

theorem plain_le {f : Fault} {bits v r : ℕ} (h : env.plain f bits v = .ok r) : r ≤ v := by
  unfold Env.plain at h
  split_ifs at h
  · cases h
    exact le_rfl
  · exact absurd h fault_ne_ok
  · cases h
    exact Nat.mod_le _ _

theorem sub_eq {bits x y r : ℕ} (hle : y ≤ x) (h : env.sub bits x y = .ok r) : r = x - y := by
  rw [Env.sub_ok env hle] at h
  cases h
  rfl

/-- A read through the chunks fills its buffer or does not return. -/
theorem readThroughChunks_returns (start len : ℕ) :
    Returns (readThroughChunks env map start len) fun bs => bs.length = len := by
  have hloop : ∀ n (buf : List UInt8) cursor, buf.length ≤ len →
      Returns (readThroughChunks.loop env map len n buf cursor) fun bs => bs.length = len := by
    intro n
    induction n with
    | zero => exact fun _ _ _ => trivial
    | succ n ih =>
      intro buf cursor hbuf
      rw [readThroughChunks.loop]
      by_cases hmore : buf.length < len
      swap
      · rw [if_neg hmore]
        exact Prog.Ensures.pure (by omega)
      rw [if_pos hmore]
      refine Prog.Ensures.bind (returns_any _) fun resolved _ => ?_
      refine Prog.Ensures.bind (returns_lift fun room hroom => sub_eq hbuf hroom)
        fun room hroom => ?_
      refine Prog.Ensures.bind (returns_any _) fun written _ => ?_
      refine Prog.Ensures.bind (returns_any _) fun _ _ => ?_
      refine Prog.Ensures.bind (readAt_returns _ _ _) fun bytes hbytes => ?_
      refine Prog.Ensures.bind (returns_any _) fun cursor' _ => ih _ _ ?_
      rw [List.length_append]
      omega
  exact hloop _ _ _ (Nat.zero_le _)

theorem readBody_returns (nodesize logical : ℕ) :
    Returns (readBody env map nodesize logical) fun body => body.length = nodesize := by
  -- what is read and what remains add up to the node at every turn
  have hloop : ∀ n remaining (body : List UInt8) cursor, body.length + remaining = nodesize →
      Returns (readBody.loop env map nodesize logical n remaining body cursor)
        fun body => body.length = nodesize := by
    intro n
    induction n with
    | zero => exact fun _ _ _ _ => trivial
    | succ n ih =>
      intro remaining body cursor hbody
      rw [readBody.loop]
      by_cases hmore : 0 < remaining
      swap
      · rw [if_neg hmore]
        exact Prog.Ensures.pure (by omega)
      rw [if_pos hmore]
      refine Prog.Ensures.bind (returns_any _) fun resolved _ => ?_
      refine Prog.Ensures.bind (P := fun take => take = min remaining resolved.contiguousBytes)
        (returns_lift fun take htake => ?_) fun takeUsize htake => ?_
      · unfold Env.tryIntoUsize at htake
        split_ifs at htake
        · cases htake
          rfl
        · exact absurd htake err_ne_ok
      refine Prog.Ensures.bind (returns_any _) fun written _ => ?_
      refine Prog.Ensures.bind (returns_any _) fun _ _ => ?_
      refine Prog.Ensures.bind (readAt_returns _ _ _) fun bytes hbytes => ?_
      refine Prog.Ensures.bind (returns_any _) fun cursor' _ => ?_
      refine Prog.Ensures.bind (returns_lift fun rest hrest =>
        sub_eq (Nat.min_le_left _ _) hrest) fun rest hrest => ih _ _ _ ?_
      rw [List.length_append]
      omega
  exact hloop _ _ _ _ (Nat.zero_add _)

variable {nodesize : ℕ}

theorem readTreeBlock_returns (logical : ℕ) :
    Returns (readTreeBlock env map nodesize logical) fun b => b.body.length = nodesize := by
  refine Prog.Ensures.bind (returns_any _) fun _ _ => ?_
  refine Prog.Ensures.bind (readBody_returns _ _) fun body hbody => returns_lift fun b hb => ?_
  unfold acceptBlock at hb
  obtain ⟨parsed, -, hb⟩ := Except.bind_eq_ok.mp hb
  obtain ⟨header, -, hb⟩ := Except.bind_eq_ok.mp hb
  obtain ⟨covered, -, hb⟩ := Except.bind_eq_ok.mp hb
  by_cases hverify : ¬ verifyCrc32c env covered header.csum
  · rw [if_pos hverify] at hb
    exact absurd hb err_ne_ok
  rw [if_neg hverify] at hb
  by_cases hbytenr : header.bytenr ≠ logical
  · rw [if_pos hbytenr] at hb
    exact absurd hb err_ne_ok
  rw [if_neg hbytenr] at hb
  obtain ⟨_, -, hb⟩ := Except.bind_eq_ok.mp hb
  cases hb
  exact hbody

theorem descendToLeaf_returns (root : ℕ) (target : DiskKey) :
    Returns (descendToLeaf env map nodesize root target) fun r => r.1.body.length = nodesize := by
  have hloop : ∀ n (b : TreeBlock) nextKey depth, b.body.length = nodesize →
      Returns (descendToLeaf.loop env map nodesize target n b nextKey depth)
        fun r => r.1.body.length = nodesize := by
    intro n
    induction n with
    | zero => exact fun _ _ _ _ => trivial
    | succ n ih =>
      intro b nextKey depth hb
      rw [descendToLeaf.loop]
      by_cases hlevel : 0 < b.header.level
      swap
      · rw [if_neg hlevel]
        exact Prog.Ensures.pure hb
      rw [if_pos hlevel]
      dsimp only
      by_cases hdepth : maxTreeDepth < min (depth + 1) 255
      · rw [if_pos hdepth]
        trivial
      by_cases hempty : b.header.nritems = 0
      · rw [if_neg hdepth, if_pos hempty]
        trivial
      rw [if_neg hdepth, if_neg hempty]
      refine Prog.Ensures.bind (returns_any _) fun childIdx _ => ?_
      refine Prog.Ensures.bind (returns_any _) fun nextIdx _ => ?_
      refine Prog.Ensures.bind (returns_any _) fun nextKey _ => ?_
      refine Prog.Ensures.bind (returns_any _) fun kp _ => ?_
      exact Prog.Ensures.bind (readTreeBlock_returns _) fun child hchild => ih _ _ _ hchild
  exact Prog.Ensures.bind (readTreeBlock_returns _) fun b hb => hloop _ _ _ _ hb

theorem findFirstGe_returns (root : ℕ) (target : DiskKey) :
    Returns (findFirstGe env map nodesize root target)
      fun r => ∀ b i, r = some (b, i) → b.body.length = nodesize := by
  refine Prog.Ensures.bind (descendToLeaf_returns _ _) fun r hr => ?_
  refine Prog.Ensures.bind (returns_any _) fun found _ => ?_
  cases found with
  | some idx =>
    refine Prog.Ensures.pure fun b i h => ?_
    cases h
    exact hr
  | none =>
    cases r.2 with
    | none => exact Prog.Ensures.pure fun b i h => by cases h
    | some nextKey =>
      refine Prog.Ensures.bind (descendToLeaf_returns _ _) fun r' hr' => ?_
      refine Prog.Ensures.bind (returns_any _) fun past _ => ?_
      split_ifs
      · refine Prog.Ensures.pure fun b i h => ?_
        cases h
        exact hr'
      · exact trivial

theorem findExact_returns (root : ℕ) (target : DiskKey) :
    Returns (findExact env map nodesize root target)
      fun r => ∀ b i, r = some (b, i) → b.body.length = nodesize := by
  refine Prog.Ensures.bind (descendToLeaf_returns _ _) fun r hr => ?_
  dsimp only
  split_ifs
  · exact Prog.Ensures.pure fun b i h => by cases h
  refine Prog.Ensures.bind (returns_any _) fun found _ => ?_
  cases found with
  | none => exact Prog.Ensures.pure fun b i h => by cases h
  | some idx =>
    refine Prog.Ensures.bind (returns_any _) fun item _ => Prog.Ensures.pure fun b i h => ?_
    split_ifs at h
    cases h
    exact hr

end Lengths

/-! ### The bounds -/

/-- A note of a buffer within its cap, in a read of a file of `size` bytes. -/
def Event.Capped (size : ℕ) : Event → Prop
  | .output n => n ≤ size + maxDecompressedExtentBytes
  | .compressed n => n ≤ maxDecompressedExtentBytes
  | _ => True

section Bounds

variable {env : Env} (husize : 32 ≤ env.usizeBits) {map : ChunkMap} {sectorsize : ℕ}
  (hsector : ValidSectorsize sectorsize) {size : ℕ}

theorem within_liftM {α : Type} {P : Event → Prop} {r : Outcome α} {F : α → Prop}
    (h : ∀ a, r = .ok a → F a) : Prog.Within P (liftM r : ReadM α) F :=
  Prog.within_lift h

theorem within_any {α : Type} {P : Event → Prop} (r : Outcome α) :
    Prog.Within P (liftM r : ReadM α) fun _ => True :=
  Prog.within_lift fun _ _ => trivial

theorem within_note {α : Type} {P : Event → Prop} {e : Event} (he : P e) {f : Unit → ReadM α}
    {F : α → Prop} (hf : Prog.Within P (f ()) F) : Prog.Within P (note e >>= f) F := by
  refine Prog.Within.bind (F := fun _ => True) ⟨?_, fun _ _ => trivial⟩ fun _ _ => hf
  intro e' he'
  cases List.mem_singleton.mp he'
  exact he

theorem reading_within {α : Type} {p : ReadM α} (h : p.Notes Reading) {F : α → Prop}
    (hF : Returns p F) : Prog.Within (Event.Capped size) p F := by
  refine Prog.Notes.within (h.mono fun e he => ?_) hF
  cases e with
  | output n => exact absurd he id
  | compressed n => exact absurd he id
  | block logical => trivial
  | leaf block => trivial
  | item block item => trivial
  | slice data i => trivial

theorem grown_within {out : List UInt8} (h : out.length ≤ size + maxDecompressedExtentBytes) :
    Prog.Within (Event.Capped size) (Metered.grown out) fun out' => out' = out :=
  within_note h (Prog.within_pure rfl)

theorem tryIntoUsize_eq {x r : ℕ} {e : Error} (h : env.tryIntoUsize x e = .ok r) :
    r = x ∧ x < 2 ^ env.usizeBits := by
  unfold Env.tryIntoUsize at h
  split_ifs at h with hlt
  · cases h
    exact ⟨rfl, hlt⟩
  · exact absurd h err_ne_ok

theorem slice_length {buf bs : List UInt8} {start stop : ℕ} (h : slice buf start stop = .ok bs) :
    bs.length = stop - start ∧ stop ≤ buf.length :=
  ⟨(slice_eq_ok h).2.2.1, (slice_eq_ok h).2.1⟩

/-- An item's data lies in the block. -/
theorem leafItemData_length_le {b : TreeBlock} {item : LeafItem} {data : List UInt8}
    (h : b.leafItemData env item = .ok data) : data.length ≤ b.body.length := by
  unfold TreeBlock.leafItemData at h
  obtain ⟨start, -, h⟩ := Except.bind_eq_ok.mp h
  obtain ⟨stop, -, h⟩ := Except.bind_eq_ok.mp h
  split_ifs at h
  · exact absurd h err_ne_ok
  · obtain ⟨hlen, hin⟩ := slice_length h
    omega

include husize hsector

/-- The plaintext of a source that is not too long for any width. -/
theorem decode_length {algorithm : ℕ} (halg : algorithm ≠ compressNone) {src out : List UInt8}
    (hsrc : src.length ≤ maxDecompressedExtentBytes)
    (h : decode env algorithm src [] sectorsize = .ok out) :
    out.length ≤ maxDecompressedExtentBytes := by
  have hcap : 2 ^ 32 ≤ 2 ^ env.usizeBits := Nat.pow_le_pow_right (by omega) husize
  have hmax : maxDecompressedExtentBytes = 16777216 := rfl
  have hcapped := @decodeInto_capped env _ halg husize src (by omega) [] (Nat.zero_le _) _ hsector
  rw [← finished_decodeInto] at h
  rcases hinto : decodeInto env algorithm src [] sectorsize with ⟨x | u, out'⟩
  · rw [hinto] at h
    cases h
  · rw [hinto] at h hcapped
    cases h
    exact hcapped.length_le

theorem inlinePlain_length {compression : ℕ} {payload plain : List UInt8}
    (hpayload : payload.length ≤ maxDecompressedExtentBytes)
    (h : inlinePlain env sectorsize compression payload = .ok plain) :
    plain.length ≤ maxDecompressedExtentBytes := by
  unfold inlinePlain at h
  split_ifs at h with hc
  · cases h
    exact hpayload
  · exact decode_length husize hsector hc hpayload h

theorem readCompressed_within {compression : ℕ} (hc : compression ≠ compressNone)
    (regular : ExtentDataRegular) : Prog.Within (Event.Capped size)
      (Metered.readCompressed env map sectorsize compression regular)
        fun decoded => decoded.length ≤ maxDecompressedExtentBytes := by
  unfold Metered.readCompressed
  refine Prog.Within.bind (within_any _) fun diskSize _ => ?_
  by_cases hbig : maxDecompressedExtentBytes < diskSize
  · rw [if_pos hbig]
    exact within_liftM fun _ h => absurd h err_ne_ok
  rw [if_neg hbig]
  have hnote : Event.Capped size (.compressed diskSize) := not_lt.mp hbig
  refine Prog.Within.bind (within_any _) fun _ _ => within_note hnote ?_
  refine Prog.Within.bind (Prog.Notes.within (readThroughChunks_notes _ _ _)
    (readThroughChunks_returns _ _)) fun compressed hlen => within_liftM fun decoded h => ?_
  exact decode_length husize hsector hc (by omega) h

/-- One extent: the output stays within the file and one decompressed extent. -/
theorem applyExtent_within {out data : List UInt8} (hsize : size < 2 ^ env.usizeBits)
    (hout : out.length ≤ size) (hdata : data.length ≤ maxNodeSize) :
    Prog.Within (Event.Capped size) (Metered.applyExtent env map sectorsize out data size)
      fun out' => out'.length ≤ size + maxDecompressedExtentBytes := by
  have hmax : maxDecompressedExtentBytes = 16777216 := rfl
  have hnode : maxNodeSize = 65536 := rfl
  unfold Metered.applyExtent
  refine Prog.Within.bind (within_any _) fun header _ => ?_
  -- an inline extent adds at most one node of bytes, or one decompressed extent
  by_cases hinline : header.ty = fileExtentInline
  · rw [if_pos hinline]
    refine Prog.Within.bind (within_liftM fun payload h => slice_length h)
      fun payload hpayload => ?_
    refine Prog.Within.bind (within_liftM fun plain h =>
      inlinePlain_length husize hsector (by omega) h) fun plain hplain => ?_
    dsimp only
    refine Prog.Within.bind (within_liftM fun bytes h => slice_length h) fun bytes hbytes => ?_
    have hlen : (out ++ bytes).length ≤ size + maxDecompressedExtentBytes := by
      rw [List.length_append]
      omega
    exact (grown_within hlen).mono fun out' h => by rwa [h]
  rw [if_neg hinline]
  by_cases hregular : header.ty = fileExtentReg ∨ header.ty = fileExtentPrealloc
  swap
  · rw [if_neg hregular]
    exact within_liftM fun _ h => absurd h err_ne_ok
  rw [if_pos hregular]
  refine Prog.Within.bind (within_any _) fun regular _ => ?_
  dsimp only
  by_cases hempty : min regular.numBytes (size - out.length) = 0
  · rw [if_pos hempty]
    exact Prog.within_pure (by omega)
  rw [if_neg hempty]
  refine Prog.Within.bind (within_liftM fun emit h => (tryIntoUsize_eq h).1) fun emit hemit => ?_
  -- any other extent adds emit bytes, which the file still has room for; each branch below
  -- produces exactly that many
  have hroom : out.length + emit ≤ size := by omega
  have hadd : env.addUsize out.length emit = .ok (out.length + emit) :=
    Env.addUsize_fits (by omega)
  have hgrow : ∀ {bytes : List UInt8}, bytes.length = emit →
      (out ++ bytes).length ≤ size + maxDecompressedExtentBytes := by
    intro bytes hbytes
    rw [List.length_append]
    omega
  by_cases hzeros : regular.diskBytenr = 0 ∨ header.ty = fileExtentPrealloc
  · rw [if_pos hzeros, hadd, liftM_ok_bind]
    have hlen := hgrow (List.length_replicate (n := out.length + emit - out.length)
      (a := (0 : UInt8)) |>.trans (by omega))
    exact (grown_within hlen).mono fun out' h => by rwa [h]
  rw [if_neg hzeros]
  by_cases hplain : header.compression = compressNone
  · rw [if_pos hplain, hadd, liftM_ok_bind]
    have hnote : Event.Capped size (.output (out.length + emit)) :=
      show out.length + emit ≤ size + maxDecompressedExtentBytes by omega
    refine within_note hnote ?_
    refine Prog.Within.bind (within_any _) fun diskAt _ => ?_
    refine Prog.Within.bind (Prog.Notes.within (readThroughChunks_notes _ _ _)
      (readThroughChunks_returns _ _)) fun bytes hbytes => Prog.within_pure (hgrow (by omega))
  · rw [if_neg hplain]
    refine Prog.Within.bind (readCompressed_within husize hsector hplain regular)
      fun decoded _ => ?_
    refine Prog.Within.bind (within_any _) fun off _ => ?_
    refine Prog.Within.bind (within_liftM fun stop h =>
      (checkedAdd_eq_some.mp (okOr_eq_ok.mp h)).2) fun stop hstop => ?_
    by_cases hshort : decoded.length < stop
    · rw [if_pos hshort]
      exact within_liftM fun _ h => absurd h err_ne_ok
    rw [if_neg hshort]
    refine Prog.Within.bind (within_liftM fun bytes h => (slice_length h).1) fun bytes hbytes => ?_
    have hlen := hgrow (hbytes.trans (by omega))
    exact (grown_within hlen).mono fun out' h => by rwa [h]

end Bounds

section Walks

variable {env : Env}

/-- What holds of the state after an item: to go on with, or to end with. -/
def Pace.Then {σ : Type} (Inv Fin : σ → Prop) : Pace σ → Prop
  | .more s _ => Inv s
  | .leave s => Fin s

/-- A walk whose searches and bodies stay within `P` does. -/
theorem Walk.run_within {σ : Type} {w : Walk σ} {P : Event → Prop} {B : TreeBlock → Prop}
    {Inv Fin : σ → Prop} (hleaf : ∀ b, P (.leaf b)) (hnote : ∀ b item, P (.item b item))
    (hfind : ∀ s target, Prog.Within P
      (findFirstGe env (w.chunkMap s) w.nodesize w.root target)
        fun r => ∀ b i, r = some (b, i) → B b)
    (hitem : ∀ b item s, B b → Inv s → Prog.Within P (w.item b item s) (Pace.Then Inv Fin))
    (hdone : ∀ s, Inv s → Fin s) (fuel : ℕ) (target : DiskKey) {s : σ} (hs : Inv s) :
    Prog.Within P (w.run env fuel target s) Fin := by
  -- the loop over the slots of one leaf
  have hpass : ∀ b, B b → ∀ n idx s next, Inv s →
      Prog.Within P (w.leaf env b n idx s next) (Pace.Then Inv Fin) := by
    intro b hb n
    induction n with
    | zero => exact fun _ _ _ hs => Prog.within_pure hs
    | succ n ih =>
      intro idx s next hs
      rw [Walk.leaf]
      refine Prog.Within.bind (within_any _) fun item _ => within_note (hnote b item) ?_
      refine Prog.Within.bind (hitem b item s hb hs) fun pace hpace => ?_
      cases pace with
      | leave s' => exact Prog.within_pure hpace
      | more s' next' => exact Prog.Within.bind (within_any _) fun idx' _ => ih idx' s' next' hpace
  -- the loop over the leaves
  induction fuel generalizing target s with
  | zero => exact within_liftM fun _ h => absurd h fault_ne_ok
  | succ fuel ih =>
    rw [Walk.run]
    split_ifs
    swap
    · exact Prog.within_pure (hdone s hs)
    refine Prog.Within.bind (hfind s target) fun found hfound => ?_
    cases found with
    | none => exact Prog.within_pure (hdone s hs)
    | some r =>
      obtain ⟨b, i⟩ := r
      refine within_note (hleaf b) (Prog.Within.bind (hpass b (hfound b i rfl) _ _ s _ hs)
        fun pace hpace => ?_)
      rcases pace with ⟨s', _ | target'⟩ | s'
      · exact Prog.within_pure (hdone s' hpace)
      · exact ih target' hpace
      · exact Prog.within_pure hpace

variable (husize : 32 ≤ env.usizeBits) {map : ChunkMap} {geometry : Geometry} {size : ℕ}

include husize

theorem readFile_item_within (objectid : ℕ) (hsize : size < 2 ^ env.usizeBits) {leaf : TreeBlock}
    (hleaf : leaf.body.length = geometry.nodesize) (item : LeafItem) {out : List UInt8}
    (hout : out.length ≤ size) : Prog.Within (Event.Capped size)
      (Metered.readFile.item env map geometry objectid size leaf item out)
        (Pace.Then (fun out => out.length ≤ size)
          fun out => out.length ≤ size + maxDecompressedExtentBytes) := by
  have hnode : geometry.nodesize ≤ maxNodeSize := geometry.validNodesize.2
  unfold Metered.readFile.item
  by_cases hmine : ¬ isExtentOf objectid item
  · rw [if_pos hmine]
    exact Prog.within_pure (show out.length ≤ size + maxDecompressedExtentBytes by omega)
  rw [if_neg hmine]
  dsimp only
  by_cases hoverlap : item.key.offset < out.length
  · rw [if_pos hoverlap]
    exact within_liftM fun _ h => absurd h err_ne_ok
  rw [if_neg hoverlap]
  by_cases hpast : size < item.key.offset
  · rw [if_pos hpast]
    exact within_liftM fun _ h => absurd h err_ne_ok
  rw [if_neg hpast]
  refine Prog.Within.bind (within_liftM fun gap h => sub_eq (not_lt.mp hoverlap) h)
    fun gap hgap => ?_
  -- the hole before the extent ends at its offset, which is not past the size
  refine Prog.Within.bind (F := fun filled => filled.length ≤ size)
    (within_liftM fun filled h => ?_) fun filled hfilled => ?_
  · unfold fillHole at h
    by_cases hpos : 0 < gap
    · rw [if_pos hpos] at h
      obtain ⟨gapUsize, h1, h⟩ := Except.bind_eq_ok.mp h
      obtain ⟨_, -, h⟩ := Except.bind_eq_ok.mp h
      obtain ⟨newLen, h2, h⟩ := Except.bind_eq_ok.mp h
      have hle := plain_le h2
      have hgapUsize := (tryIntoUsize_eq h1).1
      cases h
      rw [List.length_append, List.length_replicate]
      omega
    · rw [if_neg hpos] at h
      cases h
      exact hout
  refine Prog.Within.bind (grown_within (by omega)) fun out' hout' => ?_
  rw [hout']
  refine Prog.Within.bind (F := fun data => data.length ≤ maxNodeSize) (within_liftM fun data h =>
    (leafItemData_length_le h).trans (hleaf.trans_le hnode)) fun data hdata => ?_
  refine Prog.Within.bind (applyExtent_within husize geometry.validSectorsize hsize hfilled hdata)
    fun grown hgrown => ?_
  refine Prog.Within.bind (within_any _) fun next _ => ?_
  -- only an output shorter than the file goes on, so the invariant of the walk is restored
  by_cases hfull : size ≤ grown.length
  · rw [if_pos hfull]
    exact Prog.within_pure hgrown
  · rw [if_neg hfull]
    exact Prog.within_pure (show grown.length ≤ size by omega)

/-- What `read_file` does once it has the inode's size. -/
theorem readFile_body_within (fsTreeRoot objectid : ℕ) :
    Prog.Within (Event.Capped size) (do
      let fileSizeUsize ← env.tryIntoUsize size (.outOfMemory "file_size_overflow")
      env.tryReserve fileSizeUsize (.outOfMemory "file_buffer")
      let out ← (Metered.readFile.walk env map geometry fsTreeRoot objectid size).run env Walk.fuel
        (extentsFrom objectid) []
      let whole ← finalize env out size
      Metered.grown whole : ReadM (List UInt8)) fun _ => True := by
  refine Prog.Within.bind (within_liftM fun _ h => (tryIntoUsize_eq h).2) fun _ hsize => ?_
  refine Prog.Within.bind (within_any _) fun _ _ => ?_
  have hrun : Prog.Within (Event.Capped size)
      ((Metered.readFile.walk env map geometry fsTreeRoot objectid size).run env Walk.fuel
        (extentsFrom objectid) []) fun out => out.length ≤ size + maxDecompressedExtentBytes := by
    refine @Walk.run_within env _ _ _ (fun b => b.body.length = geometry.nodesize)
      (fun out : List UInt8 => out.length ≤ size) _ (fun _ => trivial) (fun _ _ => trivial)
      (fun _ target => reading_within (findFirstGe_notes _ _) (findFirstGe_returns _ _))
      (fun b item out hb hout => ?_) (fun out hout => ?_) _ _ _ (Nat.zero_le _)
    · exact readFile_item_within husize objectid hsize hb item hout
    · exact hout.trans (Nat.le_add_right _ _)
  refine Prog.Within.bind hrun fun out hout => ?_
  refine Prog.Within.bind (F := fun whole => whole.length ≤ size)
    (within_liftM fun whole h => ?_) fun whole hwhole => ?_
  · unfold finalize at h
    obtain ⟨want, hwant, h⟩ := Except.bind_eq_ok.mp h
    have hwant := (tryIntoUsize_eq hwant).1
    split_ifs at h
    · cases h
      rw [List.length_append, List.length_replicate]
      omega
    · cases h
      rw [List.length_take]
      omega
  · exact (grown_within (by omega)).mono fun _ _ => trivial

end Walks

/-- The caps on memory: what a decoder leaves in its output, and how long the output
and the compressed input get at any point of any `read_file`. -/
theorem memory_caps {env : Env} (husize : 32 ≤ env.usizeBits) :
    (∀ algorithm ∈ [compressZlib, compressLzo, compressZstd], ∀ src dst : List UInt8,
      ∀ sectorsize, src.length < 2 ^ (env.usizeBits - 1) → isPow2InRange sectorsize 4096 65536 →
      dst.length ≤ 16 * 1024 * 1024 →
        finished (decodeInto env algorithm src dst sectorsize) =
          decode env algorithm src dst sectorsize ∧
        Outcome.Safe (decodeInto env algorithm src dst sectorsize).1 ∧
        dst <+: (decodeInto env algorithm src dst sectorsize).2 ∧
        (decodeInto env algorithm src dst sectorsize).2.length ≤ 16 * 1024 * 1024) ∧
    ∀ map geometry fsTreeRoot objectid,
      Prog.without Event.isGauge (Metered.readFile env map geometry fsTreeRoot objectid) =
        readFile env map geometry fsTreeRoot objectid ∧
      ∀ {σ : Type} (R : (q : ReadReq) → σ → Ans q × σ) (s : σ),
        ∀ e ∈ (Prog.exec R (Metered.readFile env map geometry fsTreeRoot objectid) s).trace,
          (∀ n, e = .compressed n → n ≤ 16 * 1024 * 1024) ∧
          ∀ n, e = .output n → ∃ metadata,
            (Prog.exec R (readMetadata env map geometry.nodesize fsTreeRoot objectid) s).result =
              .ok metadata ∧ n ≤ metadata.size + 16 * 1024 * 1024 := by
  refine ⟨fun algorithm halg src dst sectorsize hsrc hsector hdst => ?_,
    fun map geometry fsTreeRoot objectid =>
      ⟨readFile_without geometry fsTreeRoot objectid, fun R s e he => ?_⟩⟩
  -- the decoders: a source of this length leaves every position of theirs within usize
  · have hne : algorithm ≠ compressNone := by
      rintro rfl
      revert halg
      decide
    have hwidth : 2 ^ 31 ≤ 2 ^ (env.usizeBits - 1) := Nat.pow_le_pow_right (by omega) (by omega)
    have hdouble : 2 ^ env.usizeBits = 2 * 2 ^ (env.usizeBits - 1) := by
      rw [← Nat.pow_succ', Nat.succ_eq_add_one, Nat.sub_add_cancel (by omega)]
    have hshort : min src.length (2 ^ 32) + 2 ^ 17 < 2 ^ env.usizeBits := by omega
    have hcapped := decodeInto_capped hne husize hshort hdst (isPow2InRange_bounds hsector)
    exact ⟨finished_decodeInto env algorithm src dst sectorsize, hcapped.safe, hcapped.keeps,
      hcapped.length_le⟩
  -- the file: the inode is read without a gauge, and the rest is bounded by its size
  · have hquiet := (@readMetadata_notes env map fsTreeRoot objectid geometry.nodesize).sat.exec R s
    rcases Prog.mem_trace_bind he with he | ⟨metadata, hmetadata, he⟩
    · constructor
      · rintro n rfl
        exact absurd (hquiet _ he) id
      · rintro n rfl
        exact absurd (hquiet _ he) id
    have hcapped : e.Capped metadata.size := by
      revert he
      by_cases hfile : ¬ metadata.isFile
      · rw [if_pos hfile]
        intro he
        cases he
      · rw [if_neg hfile]
        exact ((readFile_body_within husize fsTreeRoot objectid).exec R _).1 e
    constructor
    · rintro n rfl
      exact hcapped
    · rintro n rfl
      exact ⟨metadata, hmetadata, hcapped⟩

/-- A decoder given three bytes that are no zlib stream, and a read of the sample file. -/
theorem memory_caps_sample :
    ([7] <+: (decodeInto referenceEnv compressZlib [1, 2, 3] [7] 4096).2 ∧
      (decodeInto referenceEnv compressZlib [1, 2, 3] [7] 4096).2.length ≤ 16 * 1024 * 1024) ∧
    ∀ e ∈ (Prog.exec (fun q (_ : Unit) => (sampleVolume.device.answer q, ()))
        (Metered.readFile referenceEnv sampleMap sampleGeometry 0x100000 258) ()).trace,
      ∀ n, e = .compressed n → n ≤ 16 * 1024 * 1024 := by
  obtain ⟨hdecode, hread⟩ := @memory_caps referenceEnv (by decide)
  constructor
  · exact (hdecode compressZlib (by decide) [1, 2, 3] [7] 4096 (by decide) (by decide)
      (by decide)).2.2
  · intro e he
    exact ((hread sampleMap sampleGeometry 0x100000 258).2 _ () e he).1
