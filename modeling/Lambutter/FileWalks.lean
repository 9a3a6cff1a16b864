/-
The two file readers as walks over the inode's items.

For each reader the body of its loop is written once more without the machine
arithmetic (`readFile_item_eq`, `readFileAt_item_eq`), under the bounds its loop
keeps.  From that equation come the facts the general theorems about walks ask
for: the loop is `Steady`, so with fixed answers it folds over the items of
`fileItems`, and it is `Good`, so over every reader its keys ascend and it ends.
-/
import Lambutter.Extents

open Ranges SearchTree

/-- The item data of an inode, as `find_first_ge` leads through it. -/
def fileItems (env : Env) (map : ChunkMap) (geometry : Geometry) (fsTreeRoot objectid : ℕ)
    (g : (q : ReadReq) → Ans q) : List Located × Option Stop :=
  passes env map geometry.nodesize fsTreeRoot (isExtentOf objectid) g Walk.fuel
    (extentsFrom objectid)

theorem isExtentOf_iff {objectid : ℕ} {item : LeafItem} : isExtentOf objectid item = true ↔
    item.key.objectid = objectid ∧ item.key.itemType = extentDataKey := by
  simp [isExtentOf]

theorem extentsFrom_bounded {objectid : ℕ} (h : objectid < 2 ^ 64) :
    (extentsFrom objectid).Bounded :=
  ⟨h, show extentDataKey < 2 ^ 8 by decide, Nat.two_pow_pos 64⟩

/-- The key that a loop over an inode's items goes on from. -/
theorem next_of_isExtentOf {objectid : ℕ} {item : LeafItem} (h : isExtentOf objectid item = true)
    (hlt : item.key.offset + 1 < 2 ^ 64) :
    item.key.next = some ⟨objectid, extentDataKey, item.key.offset + 1⟩ := by
  obtain ⟨rfl, hty⟩ := isExtentOf_iff.mp h
  rw [DiskKey.next, checkedAdd, if_pos hlt, Option.map_some, ← hty]

/-! ### An inode in a well-formed tree -/

/-- The EXTENT_DATA items of an inode, in key order. -/
def inodeItems (n : ℕ) (t : Tree DiskKey TreeBlock n) (objectid : ℕ) : List Located :=
  (located n t).filter fun x => isExtentOf objectid x.2

/-- The inode as the calls report it. -/
def InodeItem.metadata (i : InodeItem) : Metadata where
  size := i.size
  nbytes := i.nbytes
  nlink := i.nlink
  mode := i.mode
  uid := i.uid
  gid := i.gid
  generation := i.generation

section OnTree

variable {env : Env} (h64 : env.usizeBits = 64) {map : ChunkMap} {geometry : Geometry}
  {objectid : ℕ} {dev : Device}

include h64

/-- On a well-formed tree the metadata are those of the object's first inode item. -/
theorem readMetadata_run {nodesize : ℕ} (hnode : ValidNodesize nodesize) {n : ℕ}
    (hn : n ≤ maxTreeDepth) {t : Tree DiskKey TreeBlock n} {root : ℕ}
    (htree : TreeAt (blockAt env map nodesize dev.answer) n t root)
    (hobject : objectid ≠ emptySubvolDirObjectid) {x : Located}
    (hx : ((located n t).filter fun x => isOf objectid inodeItemKey x.2).head? = some x)
    {data : List UInt8} (hdata : x.1.leafItemData env x.2 = .ok data)
    (hlen : InodeItem.sizeOf ≤ data.length) :
    (readMetadata env map nodesize root objectid).run dev.answer =
      .ok (InodeItem.readAt data 0).metadata := by
  obtain ⟨found, hrun, hfound⟩ :=
    run_findFirstOf h64 hnode dev.answer hn htree objectid inodeItemKey
  rw [hx] at hfound
  obtain ⟨i, rfl, hget⟩ := hfound
  obtain ⟨hoid, hty⟩ := isOf_iff.mp (List.mem_filter.mp (List.mem_of_head? hx)).2
  have hlong : ¬ data.length < 160 := not_lt.mpr hlen
  unfold readMetadata
  rw [if_neg hobject, Prog.run_bind, hrun, Except.ok_bind]
  simp only [Prog.run_bind, Prog.run_liftM]
  rw [hget, Except.ok_bind, if_neg (by simp [hoid, hty])]
  simp only [Prog.run_bind, Prog.run_liftM]
  rw [hdata, Except.ok_bind, InodeItem.parse_eq (Env.usize_ge h64), if_neg hlong]
  rfl

/-- The metadata of an object with one inode item, in a tree whose items are known. -/
theorem TreeHolds.readMetadata {nodesize : ℕ} (hnode : ValidNodesize nodesize) {n : ℕ}
    (hn : n ≤ maxTreeDepth) {t : Tree DiskKey TreeBlock n} {root : ℕ}
    (htree : TreeAt (blockAt env map nodesize dev.answer) n t root)
    {held : List (DiskKey × List UInt8)} (h : TreeHolds env n t held)
    (hobject : objectid ≠ emptySubvolDirObjectid) {m : Metadata}
    (hone : (held.filter fun y => y.1.objectid == objectid && y.1.itemType == inodeItemKey).map
      (fun y => (decide (InodeItem.sizeOf ≤ y.2.length), (InodeItem.readAt y.2 0).metadata)) =
        [(true, m)]) :
    (readMetadata env map nodesize root objectid).run dev.answer = .ok m := by
  obtain ⟨y, hy, hinode⟩ := List.map_eq_singleton_iff.mp hone
  obtain ⟨hlen, rfl⟩ := Prod.mk.inj hinode
  have hfiltered := congrArg (List.map Prod.snd) (h.filtered fun key =>
    key.objectid == objectid && key.itemType == inodeItemKey)
  rw [hy, List.map_map, List.map_map] at hfiltered
  obtain ⟨x, hitems, hx⟩ := List.map_eq_singleton_iff.mp hfiltered
  have hhead : ((located n t).filter fun x => isOf objectid inodeItemKey x.2).head? = some x :=
    congrArg List.head? hitems
  exact readMetadata_run h64 hnode hn htree hobject hhead hx (of_decide_eq_true hlen)

/-- On a well-formed tree a read goes through all of the inode's items. -/
theorem fileItems_tree {n : ℕ} (hn : n ≤ maxTreeDepth) {t : Tree DiskKey TreeBlock n} {root : ℕ}
    (htree : TreeAt (blockAt env map geometry.nodesize dev.answer) n t root)
    (hino : objectid < 2 ^ 64) :
    fileItems env map geometry root objectid dev.answer = (inodeItems n t objectid, none) :=
  passes_items h64 geometry.validNodesize dev.answer hn htree hino (by decide)

end OnTree

/-! ### `read_file` -/

section ReadFile

variable {env : Env} (h64 : env.usizeBits = 64) {map : ChunkMap} {geometry : Geometry}
  {objectid fileSize : ℕ}

include h64

theorem fillHole_eq {gap : ℕ} {out : List UInt8} (hfit : out.length + gap ≤ fileSize)
    (hsize : fileSize < 2 ^ 64) :
    fillHole env fileSize gap out = .ok (out ++ List.replicate gap 0) := by
  unfold fillHole
  by_cases hgap : 0 < gap
  · rw [if_pos hgap, Env.tryIntoUsize_ok h64 (by omega), Except.ok_bind,
      Env.tryReserveMore_ok env hfit, Except.ok_bind, Env.addUsize_ok h64 (by omega),
      Except.ok_bind, Nat.add_sub_cancel_left]
    rfl
  · have hzero : gap = 0 := by omega
    rw [if_neg hgap, hzero, List.replicate_zero, List.append_nil]

/-- How `read_file` goes on after an extent. -/
def readFile.pace (fileSize : ℕ) (item : LeafItem) (out : List UInt8) : Pace (List UInt8) :=
  if fileSize ≤ out.length then .leave out else .more out item.key.next

/-- The body of `read_file`, without the machine arithmetic. -/
theorem readFile_item_eq {leaf : TreeBlock} {item : LeafItem}
    (hmine : isExtentOf objectid item = true)
    (hsize : fileSize + 1 < 2 ^ 64) {out : List UInt8} :
    readFile.item env map geometry objectid fileSize leaf item out = (
      if item.key.offset < out.length then
        (err (.corruptBtree "extent_overlap" leaf.header.bytenr) : Outcome (Pace (List UInt8)))
      else if fileSize < item.key.offset then
        (err (.corruptBtree "extent_past_eof" leaf.header.bytenr) : Outcome (Pace (List UInt8)))
      else do
        let data ← leaf.leafItemData env item
        let e ← (Extent.parse data : Outcome _)
        let out ← e.apply env map geometry.sectorsize
          (out ++ List.replicate (item.key.offset - out.length) 0) fileSize
        return readFile.pace fileSize item out : ReadM (Pace (List UInt8))) := by
  unfold readFile.item
  rw [if_neg (by simpa using hmine)]
  dsimp only
  split_ifs with hoverlap heof
  · rfl
  · rfl
  rw [Env.sub_ok env (by omega), liftM_ok_bind, fillHole_eq h64 (by omega) (by omega),
    liftM_ok_bind]
  refine congrArg _ (funext fun data => ?_)
  rw [applyExtent_eq h64 _ data (by omega), bind_assoc]
  refine congrArg _ (funext fun e => congrArg _ (funext fun out' => ?_))
  rw [Env.nextOffset_ok env (by omega), liftM_ok_bind, readFile.pace,
    next_of_isExtentOf hmine (by omega)]
  split_ifs <;> rfl

omit h64 in
theorem readFile_item_foreign {leaf : TreeBlock} {item : LeafItem}
    (hmine : isExtentOf objectid item = false) (out : List UInt8) :
    readFile.item env map geometry objectid fileSize leaf item out = pure (.leave out) := by
  unfold readFile.item
  rw [if_pos (by simpa using hmine)]

/-- With fixed answers `read_file`'s loop folds over the inode's items. -/
theorem readFile_steady (hsize : fileSize + 1 < 2 ^ 64) (fsTreeRoot : ℕ)
    (g : (q : ReadReq) → Ans q) :
    (readFile.walk env map geometry fsTreeRoot objectid fileSize).Steady env map
      (isExtentOf objectid) g
      fun out => out.length < fileSize where
  found _ _ _ := rfl
  proceed out hout := decide_eq_true hout
  foreign leaf item out hmine := by
    show (readFile.item env map geometry objectid fileSize leaf item out).run g = _
    rw [readFile_item_foreign hmine]
    rfl
  more leaf item out out' next _ _ _ hmine _ h := by
    change (readFile.item env map geometry objectid fileSize leaf item out).run g = _ at h
    rw [readFile_item_eq h64 hmine hsize] at h
    split_ifs at h with hoverlap heof
    · exact absurd h err_ne_ok
    · exact absurd h err_ne_ok
    · simp only [Prog.run_bind, Prog.run_pure, Except.bind_eq_ok] at h
      obtain ⟨data, -, e, -, out'', -, hpace⟩ := h
      unfold readFile.pace at hpace
      split_ifs at hpace with hfull
      · cases hpace
      · cases hpace
        exact ⟨not_le.mp hfull, rfl⟩

end ReadFile

/-! ### `read_file_at` -/

section ReadFileAt

variable {env : Env} (h64 : env.usizeBits = 64) {map : ChunkMap} {geometry : Geometry}
  {objectid offset want : ℕ}

/-- What has been written once the gap before an extent is filled. -/
def readFileAt.filled (offset want start : ℕ) (written : List UInt8) : List UInt8 :=
  written ++ List.replicate (min (start - (offset + written.length)) (want - written.length)) 0

/-- How `read_file_at` goes on after an extent. -/
def readFileAt.pace (want : ℕ) (item : LeafItem) (written : List UInt8) : Pace (List UInt8) :=
  if written.length = want then .leave written else .more written item.key.next

theorem readFileAt.length_filled (offset start : ℕ) {want : ℕ} {written : List UInt8}
    (hwant : written.length ≤ want) :
    (readFileAt.filled offset want start written).length =
      min (max written.length (start - offset)) want := by
  rw [readFileAt.filled, List.length_append, List.length_replicate]
  omega

theorem fillGap_eq {gap : ℕ} {written : List UInt8} (hwritten : written.length ≤ want)
    (hwant : want < 2 ^ env.usizeBits) (hgap : gap < 2 ^ env.usizeBits) :
    fillGap env want gap written =
      .ok (written ++ List.replicate (min gap (want - written.length)) 0) := by
  have hcast : env.asUsize gap = gap := Nat.mod_eq_of_lt hgap
  unfold fillGap
  rw [Env.sub_ok env hwritten, Except.ok_bind, hcast]
  dsimp only
  rw [Env.addUsize_fits (by omega), Except.ok_bind, sliceBounds_ok (by omega) (by omega)]
  rfl

/-- The body of `read_file_at` for an item of the inode, without the machine arithmetic. -/
def readFileAt.body (env : Env) (map : ChunkMap) (geometry : Geometry) (offset want : ℕ)
    (leaf : TreeBlock) (item : LeafItem) (written : List UInt8) : ReadM (Pace (List UInt8)) := do
  let data ← leaf.leafItemData env item
  let e ← (Extent.parse data : Outcome _)
  let stop := min (item.key.offset + e.declared) (2 ^ 64 - 1)
  if stop ≤ offset + written.length then return .more written item.key.next
  else
    let filled := readFileAt.filled offset want item.key.offset written
    if filled.length = want then return .leave filled
    else
      let position := offset + filled.length
      note (.slice data (position - item.key.offset))
      let bytes ← e.copy env map geometry.sectorsize (position - item.key.offset)
        (min (stop - position) (want - filled.length))
      return readFileAt.pace want item (filled ++ bytes)

/-- No cast of the body loses bits of what it casts. -/
def readFileAt.Fits (env : Env) (offset want : ℕ) (leaf : TreeBlock) (item : LeafItem)
    (written : List UInt8) : Prop :=
  ∀ data e, leaf.leafItemData env item = .ok data → Extent.parse data = .ok e →
    let stop := min (item.key.offset + e.declared) (2 ^ 64 - 1)
    let filled := readFileAt.filled offset want item.key.offset written
    offset + written.length < stop →
      item.key.offset - (offset + written.length) < 2 ^ env.usizeBits ∧
      (filled.length ≠ want → stop - (offset + filled.length) < 2 ^ env.usizeBits)

/-- While no cast loses bits, the machine arithmetic does not show. -/
theorem readFileAt_item_fits (hw : 32 ≤ env.usizeBits) {leaf : TreeBlock} {item : LeafItem}
    (hkey : item.key.offset < 2 ^ 64) (hmine : isExtentOf objectid item = true)
    (hrange : offset + want < 2 ^ 64) (hwant : want < 2 ^ env.usizeBits) {written : List UInt8}
    (hwritten : written.length < want) (hfit : readFileAt.Fits env offset want leaf item written) :
    readFileAt.item env map geometry objectid offset want leaf item written =
      readFileAt.body env map geometry offset want leaf item written := by
  unfold readFileAt.item readFileAt.body
  rw [if_neg (by simpa using hmine)]
  dsimp only
  refine lift_bind_congr fun data hdata => ?_
  rw [extentLogicalLength_eq hw]
  cases hparse : Extent.parse data with
  | error x => rfl
  | ok e =>
    have hmap : (Extent.declared <$> (.ok e : Outcome Extent)) = .ok e.declared := rfl
    have hfit := hfit data e hdata hparse
    rw [hmap, liftM_ok_bind, liftM_ok_bind, Env.addU64_ok env (by omega), liftM_ok_bind]
    have hsat : saturatingAddU64 item.key.offset e.declared =
        min (item.key.offset + e.declared) (2 ^ 64 - 1) := rfl
    set start := item.key.offset with hstart
    rw [hsat]
    set stop := min (start + e.declared) (2 ^ 64 - 1) with hstop
    -- an item that ends before what is written is skipped without arithmetic on usize
    by_cases hskip : stop ≤ offset + written.length
    · rw [if_pos hskip, if_pos hskip, Env.nextOffset_ok env (by omega), liftM_ok_bind,
        next_of_isExtentOf hmine (by omega)]
    obtain ⟨hgapFits, hremFits⟩ := hfit (by omega)
    rw [if_neg hskip, if_neg hskip]
    -- the hole in front of the item, then what the item itself gives
    have hfilled : (if offset + written.length < start
        then fillGap env want (start - (offset + written.length)) written
        else .ok written : Outcome (List UInt8)) =
          .ok (readFileAt.filled offset want start written) := by
      split_ifs with hgap
      · exact fillGap_eq hwritten.le hwant hgapFits
      · have hzero : start - (offset + written.length) = 0 := by omega
        rw [readFileAt.filled, hzero, Nat.zero_min, List.replicate_zero, List.append_nil]
    rw [hfilled, liftM_ok_bind]
    have hlen := readFileAt.length_filled offset start hwritten.le
    set filled := readFileAt.filled offset want start written with hfilledDef
    by_cases hfull : filled.length = want
    · rw [if_pos ⟨by omega, hfull⟩, if_pos hfull]
    -- the one cast the source makes unchecked
    have hcast : env.asUsize (stop - (offset + filled.length)) =
        stop - (offset + filled.length) := Nat.mod_eq_of_lt (hremFits hfull)
    rw [if_neg (by simp [hfull]), if_neg hfull]
    rw [Env.addU64_ok env (by omega), liftM_ok_bind, Env.sub_ok env (by omega), liftM_ok_bind,
      Env.sub_ok env (by omega), liftM_ok_bind, Env.sub_ok env (by omega), liftM_ok_bind,
      hcast, Env.addUsize_fits (by omega), liftM_ok_bind,
      sliceBounds_ok (by omega) (by omega), liftM_ok_bind, copyExtentSlice_eq hw, hparse]
    simp only [bind_assoc, liftM_ok_bind]
    refine congrArg _ (funext fun _ => congrArg _ (funext fun bytes => ?_))
    rw [Env.nextOffset_ok env (by omega), liftM_ok_bind, readFileAt.pace,
      next_of_isExtentOf hmine (by omega)]
    split_ifs <;> rfl

include h64

theorem readFileAt_item_eq {leaf : TreeBlock} {item : LeafItem} (hkey : item.key.offset < 2 ^ 64)
    (hmine : isExtentOf objectid item = true) (hrange : offset + want < 2 ^ 64)
    {written : List UInt8} (hwritten : written.length < want) :
    readFileAt.item env map geometry objectid offset want leaf item written =
      readFileAt.body env map geometry offset want leaf item written := by
  refine readFileAt_item_fits (Env.usize_ge h64) hkey hmine hrange (by rw [h64]; omega) hwritten ?_
  intro data e _ _
  dsimp only
  rw [h64]
  omega

omit h64 in
theorem readFileAt_item_foreign {leaf : TreeBlock} {item : LeafItem}
    (hmine : isExtentOf objectid item = false) (written : List UInt8) :
    readFileAt.item env map geometry objectid offset want leaf item written =
      pure (.leave written) := by
  unfold readFileAt.item
  rw [if_pos (by simpa using hmine)]

/-- With fixed answers `read_file_at`'s loop folds over the inode's items. -/
theorem readFileAt_steady (hrange : offset + want < 2 ^ 64) (fsTreeRoot : ℕ)
    (g : (q : ReadReq) → Ans q) :
    (readFileAt.walk env map geometry fsTreeRoot objectid offset want).Steady env map
      (isExtentOf objectid) g fun written => written.length < want where
  found _ _ _ := rfl
  proceed written hwritten := decide_eq_true hwritten
  foreign leaf item written hmine := by
    show (readFileAt.item env map geometry objectid offset want leaf item written).run g = _
    rw [readFileAt_item_foreign hmine]
    rfl
  more leaf item written written' next _ _ hitem hmine hwritten h := by
    have hkey := (TreeBlock.item_bounds hitem).2.2.offset
    change (readFileAt.item env map geometry objectid offset want leaf item written).run g = _ at h
    rw [readFileAt_item_eq h64 hkey hmine hrange hwritten, readFileAt.body] at h
    simp only [Prog.run_bind, Prog.run_liftM, Except.bind_eq_ok] at h
    obtain ⟨data, -, e, hparse, h⟩ := h
    have hlen := readFileAt.length_filled offset item.key.offset
      hwritten.le
    -- a skipped item goes on unchanged, a hole that fills the request leaves
    split_ifs at h with hskip hfull
    · cases h
      exact ⟨hwritten, rfl⟩
    · cases h
    · simp only [Prog.run_bind, run_note_event, Prog.run_pure, Except.ok_bind,
        Except.bind_eq_ok] at h
      obtain ⟨bytes, hcopy, hpace⟩ := h
      have hbytes := (Extent.copy_ensures h64 geometry.validSectorsize hparse _
        (by omega)).returns _ () hcopy
      unfold readFileAt.pace at hpace
      split_ifs at hpace with hdone
      · cases hpace
      · cases hpace
        refine ⟨?_, rfl⟩
        rw [List.length_append] at hdone ⊢
        omega

end ReadFileAt

/-! ### Over every reader -/

section Notes

variable {env : Env} {map : ChunkMap} {sectorsize : ℕ}

theorem readThroughChunks_notes (P : Event → Prop) (start len : ℕ) :
    (readThroughChunks env map start len).Notes P := by
  have hloop : ∀ n buf cursor, (readThroughChunks.loop env map len n buf cursor).Notes P := by
    intro n
    induction n with
    | zero => exact fun _ _ => trivial
    | succ n ih =>
      intro buf cursor
      rw [readThroughChunks.loop]
      split_ifs
      · refine Prog.Notes.bind (Prog.notes_lift _) fun _ => ?_
        refine Prog.Notes.bind (Prog.notes_lift _) fun _ => ?_
        refine Prog.Notes.bind (Prog.notes_lift _) fun _ => ?_
        refine Prog.Notes.bind (Prog.notes_lift _) fun _ => ?_
        refine Prog.Notes.bind (readAt_notes P _ _ _) fun _ => ?_
        exact Prog.Notes.bind (Prog.notes_lift _) fun _ => ih _ _
      · exact Prog.notes_pure _
  exact hloop _ _ _

theorem readCompressed_notes (P : Event → Prop) (compression : ℕ) (regular : ExtentDataRegular) :
    (readCompressed env map sectorsize compression regular).Notes P := by
  unfold readCompressed
  refine Prog.Notes.bind (Prog.notes_lift _) fun _ => ?_
  split_ifs
  · exact Prog.notes_lift _
  · refine Prog.Notes.bind (Prog.notes_lift _) fun _ => ?_
    exact Prog.Notes.bind (readThroughChunks_notes P _ _) fun _ => Prog.notes_lift _

theorem Extent.copy_notes (P : Event → Prop) (e : Extent) (i len : ℕ) :
    (e.copy env map sectorsize i len).Notes P := by
  unfold Extent.copy
  cases e.backing with
  | zeros => exact Prog.notes_pure _
  | inline compression payload =>
    refine Prog.Notes.bind (Prog.notes_lift _) fun _ => ?_
    refine Prog.Notes.bind (Prog.notes_lift _) fun _ => ?_
    split_ifs <;> exact Prog.notes_lift _
  | plain diskBytenr offset =>
    exact Prog.Notes.bind (Prog.notes_lift _) fun _ => readThroughChunks_notes P _ _
  | packed compression regular =>
    refine Prog.Notes.bind (readCompressed_notes P _ _) fun _ => ?_
    refine Prog.Notes.bind (Prog.notes_lift _) fun _ => ?_
    refine Prog.Notes.bind (Prog.notes_lift _) fun _ => ?_
    refine Prog.Notes.bind (Prog.notes_lift _) fun _ => ?_
    split_ifs <;> exact Prog.notes_lift _

theorem Extent.apply_notes (P : Event → Prop) (e : Extent) (out : List UInt8) (fileSize : ℕ) :
    (e.apply env map sectorsize out fileSize).Notes P := by
  unfold Extent.apply
  dsimp only
  split_ifs
  · exact Prog.notes_pure _
  refine Prog.Notes.bind ?_ fun _ => Prog.notes_pure _
  unfold Extent.emitted
  cases e.backing with
  | zeros => exact Prog.notes_pure _
  | inline compression payload =>
    exact Prog.Notes.bind (Prog.notes_lift _) fun _ => Prog.notes_lift _
  | plain diskBytenr offset =>
    exact Prog.Notes.bind (Prog.notes_lift _) fun _ => readThroughChunks_notes P _ _
  | packed compression regular =>
    refine Prog.Notes.bind (readCompressed_notes P _ _) fun _ => ?_
    refine Prog.Notes.bind (Prog.notes_lift _) fun _ => ?_
    refine Prog.Notes.bind (Prog.notes_lift _) fun _ => ?_
    split_ifs <;> exact Prog.notes_lift _

end Notes

section Good

variable {env : Env} (h64 : env.usizeBits = 64) {map : ChunkMap} {geometry : Geometry}
  (fsTreeRoot : ℕ) {objectid : ℕ}

include h64

/-- `read_file` goes through its items for typed errors only. -/
theorem readFile_good {fileSize : ℕ} (hsize : fileSize + 1 < 2 ^ 64) :
    (readFile.walk env map geometry fsTreeRoot objectid fileSize).Good Stop.Typed
      (fun _ => True) (fun _ => True) where
  quiet leaf item out _ _ := by
    show (readFile.item env map geometry objectid fileSize leaf item out).Notes PerItem
    by_cases hmine : isExtentOf objectid item = true
    · rw [readFile_item_eq h64 hmine hsize]
      split_ifs
      · exact Prog.notes_lift _
      · exact Prog.notes_lift _
      refine Prog.Notes.bind (Prog.notes_lift _) fun _ => ?_
      refine Prog.Notes.bind (Prog.notes_lift _) fun _ => ?_
      exact Prog.Notes.bind (Extent.apply_notes _ _ _ _) fun _ => Prog.notes_pure _
    · rw [readFile_item_foreign (by simpa using hmine)]
      exact Prog.notes_pure _
  step leaf item out hb hl hitem _ := by
    show Prog.Ensures _ (readFile.item env map geometry objectid fileSize leaf item out) _
    by_cases hmine : isExtentOf objectid item = true
    · rw [readFile_item_eq h64 hmine hsize]
      split_ifs
      · exact trivial
      · exact trivial
      refine Prog.Ensures.bind
        (ensures_lift (TreeBlock.leafItemData_safe h64 hitem) fun _ _ => trivial)
        fun data (_ : True) => ?_
      refine Prog.Ensures.bind (ensures_lift (Extent.parse_safe data) fun _ he => he)
        fun e hparse => ?_
      refine Prog.Ensures.bind (Extent.apply_ensures h64 geometry.validSectorsize hparse _ _)
        fun out' _ => Prog.Ensures.pure ?_
      unfold readFile.pace
      split_ifs
      · trivial
      · exact ⟨trivial, fun t ht => next_past hitem t ht⟩
    · rw [readFile_item_foreign (by simpa using hmine)]
      exact Prog.Ensures.pure trivial
  done _ _ := trivial
  typed _ h := h

/-- A stop of `read_file_at`: a typed error, or the addition in `copy_extent_slice`. -/
def AtStop (env : Env) (x : Stop) : Prop :=
  x.Typed ∨ x = .fault .overflow ∧ env.overflowChecks = true

theorem readFileAt_good {offset want : ℕ} (hrange : offset + want < 2 ^ 64) :
    (readFileAt.walk env map geometry fsTreeRoot objectid offset want).Good (AtStop env)
      (fun written => written.length < want) (fun written => written.length ≤ want) where
  quiet leaf item written hitem hwritten := by
    show (readFileAt.item env map geometry objectid offset want leaf item written).Notes PerItem
    have hkey := (TreeBlock.item_bounds hitem).2.2.offset
    by_cases hmine : isExtentOf objectid item = true
    · rw [readFileAt_item_eq h64 hkey hmine hrange hwritten, readFileAt.body]
      refine Prog.Notes.bind (Prog.notes_lift _) fun _ => ?_
      refine Prog.Notes.bind (Prog.notes_lift _) fun _ => ?_
      dsimp only
      split_ifs
      · exact Prog.notes_pure _
      · exact Prog.notes_pure _
      refine Prog.Notes.bind ⟨trivial, trivial⟩ fun _ => ?_
      exact Prog.Notes.bind (Extent.copy_notes _ _ _ _) fun _ => Prog.notes_pure _
    · rw [readFileAt_item_foreign (by simpa using hmine)]
      exact Prog.notes_pure _
  step leaf item written hb hl hitem hwritten := by
    show Prog.Ensures _ (readFileAt.item env map geometry objectid offset want leaf item written) _
    have hkey := (TreeBlock.item_bounds hitem).2.2.offset
    by_cases hmine : isExtentOf objectid item = true
    · have htyped : ∀ {α : Type} {r : Outcome α}, Outcome.Safe r → Prog.Ensures (AtStop env)
          (liftM r : ReadM α) fun a => r = .ok a :=
        fun hsafe => Prog.Ensures.lift (fun _ ha => ha) fun _ hx => .inl (hsafe.typed hx)
      rw [readFileAt_item_eq h64 hkey hmine hrange hwritten, readFileAt.body]
      refine Prog.Ensures.bind (htyped (TreeBlock.leafItemData_safe h64 hitem)) fun data _ => ?_
      refine Prog.Ensures.bind (htyped (Extent.parse_safe data)) fun e hparse => ?_
      have hlen := readFileAt.length_filled offset item.key.offset
        hwritten.le
      dsimp only
      split_ifs with hskip hfull
      -- an item before the request, one whose hole fills it, and one with bytes to copy
      · exact Prog.Ensures.pure ⟨hwritten, fun t ht => next_past hitem t ht⟩
      · exact Prog.Ensures.pure hfull.le
      refine Prog.Ensures.bind (P := fun _ => True) trivial fun _ _ => ?_
      refine Prog.Ensures.bind ((Extent.copy_ensures h64 geometry.validSectorsize hparse _
        (by omega)).weaken fun x hx => hx.imp id fun h => ⟨h.1, h.2.1⟩) fun bytes hbytes =>
          Prog.Ensures.pure ?_
      unfold readFileAt.pace
      split_ifs with hdone
      · exact hdone.le
      · refine ⟨?_, fun t ht => next_past hitem t ht⟩
        rw [List.length_append] at hdone ⊢
        omega
    · rw [readFileAt_item_foreign (by simpa using hmine)]
      exact Prog.Ensures.pure hwritten.le
  done written h := h.le
  typed _ h := .inl h

end Good
