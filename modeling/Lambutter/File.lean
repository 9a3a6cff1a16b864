/-
The file-content reader: `read_metadata`, `read_link`, `read_file`, `read_file_at`.

The definitions follow `file.rs` statement by statement; `copy_extent_slice` and
the reader around it note each extent they hand on, so that statements about a
run can speak of these calls.  Their two loops are `Walk`s.
-/
import Lambutter.Compression
import Lambutter.Passes

/-! ### Inodes -/

structure Metadata where
  size : ℕ
  nbytes : ℕ
  nlink : ℕ
  mode : ℕ
  uid : ℕ
  gid : ℕ
  generation : ℕ
  deriving DecidableEq, Repr

namespace Metadata

def isFile (m : Metadata) : Bool := m.mode &&& 0o170000 == 0o100000

def isSymlink (m : Metadata) : Bool := m.mode &&& 0o170000 == 0o120000

end Metadata

/-- The two block sizes a file read needs from the (validated) superblock. -/
structure Geometry where
  nodesize : ℕ
  sectorsize : ℕ
  validNodesize : ValidNodesize nodesize
  validSectorsize : ValidSectorsize sectorsize

def readMetadata (env : Env) (map : ChunkMap) (nodesize fsTreeRoot objectid : ℕ) :
    ReadM Metadata :=
  if objectid = emptySubvolDirObjectid then
    -- no inode item; Linux presents it as an empty directory owned by root
    return { size := 0, nbytes := 0, nlink := 1, mode := 0o040755, uid := 0, gid := 0,
             generation := 0 }
  else do
    match ← findFirstGe env map nodesize fsTreeRoot ⟨objectid, inodeItemKey, 0⟩ with
    | none => (err .notFound : Outcome Metadata)
    | some (leaf, idx) => do
      let item ← leaf.leafItem env idx
      if item.key.objectid ≠ objectid ∨ item.key.itemType ≠ inodeItemKey then
        (err .notFound : Outcome Metadata)
      else
        let data ← leaf.leafItemData env item
        let parsed ← InodeItem.parse env data 0
        let inode ← okOr parsed (.corruptBtree "inode_item_short" leaf.header.bytenr)
        return { size := inode.size, nbytes := inode.nbytes, nlink := inode.nlink,
                 mode := inode.mode, uid := inode.uid, gid := inode.gid,
                 generation := inode.generation }

/-! ### One extent -/

section Extents

variable (env : Env) (map : ChunkMap) (sectorsize : ℕ)

/-- Parse an EXTENT_DATA item's header; encrypted extents are refused. -/
def extentHeader (data : List UInt8) (logical : ℕ) : Outcome ExtentDataHeader := do
  let parsed ← ExtentDataHeader.parse env data 0
  let header ← okOr parsed (.corruptBtree "extent_header_short" logical)
  if header.encryption ≠ 0 then err (.unsupportedFeature "feat_encryption")
  else return header

def extentTail (data : List UInt8) : Outcome ExtentDataRegular := do
  let parsed ← ExtentDataRegular.parse env data ExtentDataHeader.size
  okOr parsed (.corruptBtree "extent_tail_short" 0)

/-- The plaintext of an inline payload. -/
def inlinePlain (compression : ℕ) (payload : List UInt8) : Outcome (List UInt8) :=
  if compression = compressNone then .ok payload
  else decode env compression payload [] sectorsize

/-- Read and decode the whole of a compressed extent. -/
def readCompressed (compression : ℕ) (regular : ExtentDataRegular) : ReadM (List UInt8) := do
  let diskSize ← env.tryIntoUsize regular.diskNumBytes (.outOfMemory "compressed_disk")
  if maxDecompressedExtentBytes < diskSize then
    (err (.badCompression "comp_oversized") : Outcome (List UInt8))
  else
    env.tryReserve diskSize (.outOfMemory "compressed_disk")
    let compressed ← readThroughChunks env map regular.diskBytenr diskSize
    decode env compression compressed [] sectorsize

/-- Logical length of the file region described by one EXTENT_DATA item. -/
def extentLogicalLength (data : List UInt8) : Outcome ℕ := do
  let header ← extentHeader env data 0
  if header.ty = fileExtentInline then return header.ramBytes
  else if header.ty = fileExtentReg ∨ header.ty = fileExtentPrealloc then
    let regular ← extentTail env data
    return regular.numBytes
  else err (.corruptBtree "extent_type_unknown" 0)

/-- Bytes `[inExtentOffset, inExtentOffset + len)` of one extent's plaintext, as
`copy_extent_slice` leaves them in a `dst` of `len` bytes. -/
def copyExtentSlice (data : List UInt8) (inExtentOffset len : ℕ) : ReadM (List UInt8) := do
  note (.slice data inExtentOffset)
  let header ← extentHeader env data 0
  if header.ty = fileExtentInline then
    let payload ← slice data ExtentDataHeader.size data.length
    let src ← inlinePlain env sectorsize header.compression payload
    let off := env.asUsize inExtentOffset
    let stop ← okOr (checkedAdd env.usizeBits off len) (.corruptBtree "extent_overflow" 0)
    if src.length < stop then (err (.corruptBtree "extent_underdecoded" 0) : Outcome (List UInt8))
    else slice src off stop
  else if header.ty = fileExtentReg ∨ header.ty = fileExtentPrealloc then
    let regular ← extentTail env data
    if regular.diskBytenr = 0 ∨ header.ty = fileExtentPrealloc then return List.replicate len 0
    else if header.compression = compressNone then
      let logicalAt ← okOr ((checkedAdd 64 regular.diskBytenr regular.offset).bind
          fun v => checkedAdd 64 v inExtentOffset)
        (.corruptBtree "extent_overflow" regular.diskBytenr)
      readThroughChunks env map logicalAt len
    else
      let decoded ← readCompressed env map sectorsize header.compression regular
      let position ← env.addU64 regular.offset inExtentOffset
      let off ← env.tryIntoUsize position (.outOfMemory "extent_offset")
      let stop ← okOr (checkedAdd env.usizeBits off len)
        (.corruptBtree "extent_overflow" regular.diskBytenr)
      if decoded.length < stop then
        (err (.corruptBtree "extent_underdecoded" regular.diskBytenr) : Outcome (List UInt8))
      else slice decoded off stop
  else (err (.corruptBtree "extent_type_unknown" 0) : Outcome (List UInt8))

/-- Append one extent to `out`; the vector afterwards. -/
def applyExtent (out data : List UInt8) (fileSize : ℕ) : ReadM (List UInt8) := do
  let header ← extentHeader env data 0
  if header.ty = fileExtentInline then
    let payload ← slice data ExtentDataHeader.size data.length
    let plain ← inlinePlain env sectorsize header.compression payload
    let take := min (env.asUsize header.ramBytes) plain.length
    let bytes ← slice plain 0 take
    return out ++ bytes
  else if header.ty = fileExtentReg ∨ header.ty = fileExtentPrealloc then
    let regular ← extentTail env data
    let remaining := fileSize - out.length
    let emit := min regular.numBytes remaining
    if emit = 0 then return out
    else
      let emitUsize ← env.tryIntoUsize emit (.outOfMemory "extent_emit")
      if regular.diskBytenr = 0 ∨ header.ty = fileExtentPrealloc then
        let newLen ← env.addUsize out.length emitUsize
        return out ++ List.replicate (newLen - out.length) 0
      else if header.compression = compressNone then
        let newLen ← env.addUsize out.length emitUsize
        let diskAt ← okOr (checkedAdd 64 regular.diskBytenr regular.offset)
          (.corruptBtree "extent_overflow" regular.diskBytenr)
        let bytes ← readThroughChunks env map diskAt (newLen - out.length)
        return out ++ bytes
      else
        let decoded ← readCompressed env map sectorsize header.compression regular
        let off ← env.tryIntoUsize regular.offset (.outOfMemory "extent_offset")
        let stop ← okOr (checkedAdd env.usizeBits off emitUsize)
          (.corruptBtree "extent_overflow" regular.diskBytenr)
        if decoded.length < stop then
          (err (.corruptBtree "extent_underdecoded" regular.diskBytenr) : Outcome (List UInt8))
        else
          let bytes ← slice decoded off stop
          return out ++ bytes
  else (err (.corruptBtree "extent_type_unknown" 0) : Outcome (List UInt8))

end Extents

/-! ### Whole reads -/

section Readers

variable (env : Env) (map : ChunkMap) (geometry : Geometry) (fsTreeRoot objectid : ℕ)

/-- The item belongs to the inode's data. -/
def isExtentOf (objectid : ℕ) (item : LeafItem) : Bool :=
  item.key.objectid == objectid && item.key.itemType == extentDataKey

/-- Where the data of the inode starts in the tree. -/
def extentsFrom (objectid : ℕ) : DiskKey := ⟨objectid, extentDataKey, 0⟩

def readLink : ReadM (List UInt8) := do
  let metadata ← readMetadata env map geometry.nodesize fsTreeRoot objectid
  if ¬ metadata.isSymlink then (err .notASymlink : Outcome (List UInt8))
  else
    match ← findFirstGe env map geometry.nodesize fsTreeRoot (extentsFrom objectid) with
    | none => (err .notFound : Outcome (List UInt8))
    | some (leaf, idx) => do
      let item ← leaf.leafItem env idx
      if ¬ isExtentOf objectid item then
        (err (.corruptBtree "symlink_no_extent_data" leaf.header.bytenr) : Outcome (List UInt8))
      else
        let data ← leaf.leafItemData env item
        let header ← extentHeader env data leaf.header.bytenr
        if header.ty ≠ fileExtentInline then
          (err (.unsupportedFeature "symlink_long") : Outcome (List UInt8))
        else
          let payload ← slice data ExtentDataHeader.size data.length
          let out ← inlinePlain env geometry.sectorsize header.compression payload
          let targetLen := min (env.asUsize metadata.size) out.length
          return out.take targetLen

/-- The resize that fills a gap before an extent; `capacity` was reserved up front. -/
def fillHole (capacity gap : ℕ) (out : List UInt8) : Outcome (List UInt8) :=
  if 0 < gap then do
    let gapUsize ← env.tryIntoUsize gap (.outOfMemory "hole_fill")
    env.tryReserveMore capacity out.length gapUsize (.outOfMemory "hole_fill")
    let newLen ← env.addUsize out.length gapUsize
    return out ++ List.replicate (newLen - out.length) 0
  else .ok out

/-- The body of `read_file`'s inner loop. -/
def readFile.item (fileSize : ℕ) (leaf : TreeBlock) (item : LeafItem) (out : List UInt8) :
    ReadM (Pace (List UInt8)) :=
  if ¬ isExtentOf objectid item then return .leave out
  else do
    let extentOffsetInFile := item.key.offset
    if extentOffsetInFile < out.length then
      (err (.corruptBtree "extent_overlap" leaf.header.bytenr) : Outcome (Pace (List UInt8)))
    else if fileSize < extentOffsetInFile then
      (err (.corruptBtree "extent_past_eof" leaf.header.bytenr) : Outcome (Pace (List UInt8)))
    else
      let gap ← env.sub 64 extentOffsetInFile out.length
      let out ← fillHole env fileSize gap out
      let data ← leaf.leafItemData env item
      let out ← applyExtent env map geometry.sectorsize out data fileSize
      let next ← env.nextOffset extentOffsetInFile
      if fileSize ≤ out.length then return .leave out
      else return .more out (some ⟨objectid, extentDataKey, next⟩)

def readFile.walk (fileSize : ℕ) : Walk (List UInt8) where
  nodesize := geometry.nodesize
  root := fsTreeRoot
  chunkMap _ := map
  proceed out := decide (out.length < fileSize)
  item := readFile.item env map geometry objectid fileSize

def finalize (out : List UInt8) (expectedSize : ℕ) : Outcome (List UInt8) := do
  let want ← env.tryIntoUsize expectedSize (.outOfMemory "finalize")
  if out.length < want then return out ++ List.replicate (want - out.length) 0
  else return out.take want

def readFile : ReadM (List UInt8) := do
  let metadata ← readMetadata env map geometry.nodesize fsTreeRoot objectid
  if ¬ metadata.isFile then (err .notARegularFile : Outcome (List UInt8))
  else
    let fileSize := metadata.size
    let fileSizeUsize ← env.tryIntoUsize fileSize (.outOfMemory "file_size_overflow")
    env.tryReserve fileSizeUsize (.outOfMemory "file_buffer")
    let out ← (readFile.walk env map geometry fsTreeRoot objectid fileSize).run env Walk.fuel
      (extentsFrom objectid) []
    finalize env out fileSize

/-- Zero-fill the first `want` bytes of the buffer from `written` on, `gap` bytes at most. -/
def fillGap (want gap : ℕ) (written : List UInt8) : Outcome (List UInt8) := do
  let room ← env.sub env.usizeBits want written.length
  let take := min (env.asUsize gap) room
  let stop ← env.addUsize written.length take
  sliceBounds written.length stop want
  return written ++ List.replicate take 0

/-- Zero-fill what is left of the `want` bytes: the file goes on past its last extent. -/
def fillTail (want : ℕ) (written : List UInt8) : Outcome (List UInt8) :=
  if written.length < want then do
    let rest ← env.sub env.usizeBits want written.length
    let stop ← env.addUsize written.length rest
    sliceBounds written.length stop want
    return written ++ List.replicate rest 0
  else .ok written

/-- The body of `read_file_at`'s inner loop, with the bytes written so far. -/
def readFileAt.item (offset want : ℕ) (leaf : TreeBlock) (item : LeafItem)
    (written : List UInt8) : ReadM (Pace (List UInt8)) :=
  if ¬ isExtentOf objectid item then return .leave written
  else do
    let extentStart := item.key.offset
    let data ← leaf.leafItemData env item
    let extentLogicalLen ← extentLogicalLength env data
    let extentEnd := saturatingAddU64 extentStart extentLogicalLen
    let requestStart ← env.addU64 offset written.length
    if extentEnd ≤ requestStart then
      let next ← env.nextOffset extentStart
      return .more written (some ⟨objectid, extentDataKey, next⟩)
    else
      let filled ← (if requestStart < extentStart
        then fillGap env want (extentStart - requestStart) written
        else .ok written : Outcome (List UInt8))
      if requestStart < extentStart ∧ filled.length = want then return .leave filled
      else
        let requestStart ← env.addU64 offset filled.length
        let inExtentOffset ← env.sub 64 requestStart extentStart
        let extentRemaining ← env.sub 64 extentEnd requestStart
        let room ← env.sub env.usizeBits want filled.length
        let wantHere := min (env.asUsize extentRemaining) room
        let stop ← env.addUsize filled.length wantHere
        sliceBounds filled.length stop want
        let bytes ← copyExtentSlice env map geometry.sectorsize data inExtentOffset wantHere
        let next ← env.nextOffset extentStart
        if (filled ++ bytes).length = want then return .leave (filled ++ bytes)
        else return .more (filled ++ bytes) (some ⟨objectid, extentDataKey, next⟩)

def readFileAt.walk (offset want : ℕ) : Walk (List UInt8) where
  nodesize := geometry.nodesize
  root := fsTreeRoot
  chunkMap _ := map
  proceed written := decide (written.length < want)
  item := readFileAt.item env map geometry objectid offset want

/-- Up to `buf.length` bytes from `offset` on: how many, and the buffer afterwards. -/
def readFileAt (offset : ℕ) (buf : List UInt8) : ReadM (ℕ × List UInt8) :=
  if buf.length = 0 then return (0, buf)
  else do
    let metadata ← readMetadata env map geometry.nodesize fsTreeRoot objectid
    if ¬ metadata.isFile then (err .notARegularFile : Outcome (ℕ × List UInt8))
    else if metadata.size ≤ offset then return (0, buf)
    else
      let rest ← env.sub 64 metadata.size offset
      let want ← env.tryIntoUsize (min buf.length rest) (.outOfMemory "read_at_overflow")
      sliceBounds 0 want buf.length
      let written ← (readFileAt.walk env map geometry fsTreeRoot objectid offset want).run env
        Walk.fuel (extentsFrom objectid) []
      let written ← fillTail env want written
      return (written.length, written ++ buf.drop written.length)

end Readers
