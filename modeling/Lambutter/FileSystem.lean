/-
The file system that a volume stores.

`FileSystem` is what a volume is for: directories with their entries, subvolumes that
hang in one another, inodes, file contents and the targets of links.  `FileSystem.reply`
answers the calls of the public interface in these terms; there are no blocks, items,
hashes or extents in it, and of the keys only the location an entry gives of what it
leads to.

On an image that stores a file system (`FileSystem.Stored`) every call on a mounted
volume refines the reply of that file system (`reply_refines`), for all handles that a
caller can come by (`held_known`).
-/
import Lambutter.FileLayouts
import Lambutter.Forest
import Lambutter.Refinement
import Lambutter.Sessions

open Ranges SearchTree

/-! ### File systems -/

/-- An entry of a directory. -/
structure Entry where
  name : List UInt8
  location : DiskKey
  kind : UInt8

/-- What a volume holds, tree by tree. -/
structure FileSystem where
  /-- The entries of a directory, in the order in which they are listed. -/
  entries : (treeRoot dir : ℕ) → List Entry
  link : (parent child : ℕ) → Option (ℕ × List UInt8)
  subvolume : (id : ℕ) → Option RootItem
  inode : (treeRoot objectid : ℕ) → Option Metadata
  /-- What a regular file holds. -/
  content : (treeRoot objectid : ℕ) → List UInt8
  /-- Where a symlink points. -/
  target : (treeRoot objectid : ℕ) → List UInt8

inductive FsError
  | walk (e : WalkError)
  | noInode
  | notARegularFile
  | notASymlink

/-- The handles that a reply gives out. -/
def Btrfs.Reply.handles : Btrfs.Reply → List Inode
  | .inode handle => [handle]
  | .entries list => list.map DirEntry.inode
  | _ => []

/-- The handle that a request is about. -/
def Btrfs.Request.handle : Btrfs.Request → Option Inode
  | .metadata inode => some inode
  | .readFileAt inode _ _ => some inode
  | _ => none

/-- The handles that a caller can hold: each came with a reply to a request about
handles held before. -/
inductive Held (replies : Btrfs.Request → Outcome Btrfs.Reply) : Inode → Prop
  | got {r : Btrfs.Request} {reply : Btrfs.Reply} {inode : Inode} :
    (∀ held, r.handle = some held → Held replies held) → replies r = .ok reply →
      inode ∈ reply.handles → Held replies inode

namespace FileSystem

variable (F : FileSystem)

/-- Directories as maps from names to locations. -/
def forest : Forest where
  entry treeRoot dir name :=
    ((F.entries treeRoot dir).find? fun e => e.name == name).map Entry.location
  link := F.link
  subvolume := F.subvolume

def resolve (root : Inode) (path : Btrfs.Path) : Except FsError Inode :=
  (F.forest.walk root path.components).mapError .walk

/-- The inode of a handle; the empty directory of a subvolume has none of its own. -/
def stat (inode : Inode) : Except FsError Metadata :=
  if inode.objectid = emptySubvolDirObjectid then
    .ok { size := 0, nbytes := 0, nlink := 1, mode := 0o040755, uid := 0, gid := 0,
          generation := 0 }
  else
    match F.inode inode.treeRoot inode.objectid with
    | none => .error .noInode
    | some m => .ok m

def read (inode : Inode) : Except FsError (List UInt8) := do
  let m ← F.stat inode
  if m.isFile then .ok (F.content inode.treeRoot inode.objectid) else .error .notARegularFile

/-- The bytes from `offset` on overwrite the front of the buffer. -/
def readAt (inode : Inode) (offset : ℕ) (buf : List UInt8) : Except FsError (ℕ × List UInt8) :=
  if buf = [] then .ok (0, [])
  else do
    let content ← F.read inode
    let bytes := (content.drop offset).take buf.length
    return (bytes.length, bytes ++ buf.drop bytes.length)

def readLink (inode : Inode) : Except FsError (List UInt8) := do
  let m ← F.stat inode
  if m.isSymlink then .ok (F.target inode.treeRoot inode.objectid) else .error .notASymlink

/-- An entry as it is listed. -/
def listed (dir : Inode) (e : Entry) : Except FsError DirEntry :=
  (fun inode => { name := e.name, inodeNumber := e.location.objectid, kindByte := e.kind.toNat,
                  inode }) <$>
    (F.forest.enter dir e.name e.location).mapError .walk

def list (dir : Inode) : Except FsError (List DirEntry) :=
  (F.entries dir.treeRoot dir.objectid).mapM (F.listed dir)

/-- The reply to a request on the volume whose root directory is `root`. -/
def reply (root : Inode) : Btrfs.Request → Except FsError Btrfs.Reply
  | .resolve path => .inode <$> F.resolve root path
  | .metadata inode => .metadata <$> F.stat inode
  | .readFile path => .bytes <$> (F.resolve root path >>= F.read)
  | .readFileAt inode offset buf => (fun r => .count r.1 r.2) <$> F.readAt inode offset buf
  | .readLink path => .bytes <$> (F.resolve root path >>= F.readLink)
  | .readDir path => .entries <$> (F.resolve root path >>= F.list)

/-- The trees of the volume: those of the subvolumes that have references left. -/
def IsTree (treeRoot : ℕ) : Prop :=
  ∃ id item, F.subvolume id = some item ∧ item.refs ≠ 0 ∧ item.bytenr = treeRoot

end FileSystem

/-! ### Images that store one -/

def DirRecord.asEntry (r : DirRecord) : Entry where
  name := r.name
  location := r.location
  kind := r.ty

section Stored

variable (env : Env) (fs : Btrfs) (dev : Device)

/-- The items of a file store its content, and nothing is kept past its end. -/
structure StoresFile (size : ℕ) (items : List Located) (content : List UInt8) : Prop where
  granted : env.Grants size
  layout : Layout env fs.chunkMap fs.geometry.sectorsize dev size items
  content : IsContent env fs.chunkMap fs.geometry.sectorsize dev size items content
  ends : size = 0 ∨ EndsInside env fs.geometry.sectorsize size items

/-- The first item of a symlink holds its target inline. -/
def StoresLink (size : ℕ) (items : List Located) (target : List UInt8) : Prop :=
  ∃ x e compression payload plain, items.head? = some x ∧ extentOf env x = .ok e ∧
    e.backing = .inline compression payload ∧
    inlinePlain env fs.geometry.sectorsize compression payload = .ok plain ∧
    target = plain.take size

/-- The tree `t` at `treeRoot` stores what the file system has there. -/
structure StoresTree (F : FileSystem) (treeRoot n : ℕ) (t : Tree DiskKey TreeBlock n) : Prop where
  depth : n ≤ maxTreeDepth
  tree : TreeAt (blockAt env fs.chunkMap fs.geometry.nodesize dev.answer) n t treeRoot
  noEmptyDir : ∀ x ∈ located n t, x.2.key.objectid ≠ emptySubvolDirObjectid
  directories : ∀ dir, ∃ records, Recorded env n t dir records ∧ (∀ r ∈ records, r.Plain) ∧
    F.entries treeRoot dir = records.map DirRecord.asEntry
  inodes : ∀ x ∈ located n t, x.2.key.itemType = inodeItemKey → ∃ data,
    x.1.leafItemData env x.2 = .ok data ∧ InodeItem.sizeOf ≤ data.length ∧
    F.inode treeRoot x.2.key.objectid = some (InodeItem.readAt data 0).metadata
  noInode : ∀ objectid, (∀ x ∈ located n t, isOf objectid inodeItemKey x.2 = false) →
    F.inode treeRoot objectid = none
  files : ∀ objectid m, F.inode treeRoot objectid = some m → m.isFile = true →
    StoresFile env fs dev m.size (inodeItems n t objectid) (F.content treeRoot objectid)
  links : ∀ objectid m, F.inode treeRoot objectid = some m → m.isSymlink = true →
    StoresLink env fs m.size (inodeItems n t objectid) (F.target treeRoot objectid)

/-- The image of a mounted volume stores the file system. -/
structure FileSystem.Stored (F : FileSystem) : Prop where
  roots : StoresRoots env fs.trees dev.answer F.link F.subvolume
  trees : ∀ treeRoot, F.IsTree treeRoot → ∃ n t,
    StoresTree env fs dev F treeRoot n t

end Stored

/-- How the code reports where a walk fails. -/
def WalkError.Reported : WalkError → Stop → Prop
  | .notFound, x => x = .err .notFound
  | .badLocation, x => ∃ leaf, x = .err (.corruptBtree "dir_entry_location" leaf)

/-- How the code reports an error. -/
def FsError.Reported : FsError → Stop → Prop
  | .walk e, x => e.Reported x
  | .noInode, x => x = .err .notFound
  | .notARegularFile, x => x = .err .notARegularFile
  | .notASymlink, x => x = .err .notASymlink

/-! ### One directory -/

section Directories

variable {env : Env} {n : ℕ} {t : Tree DiskKey TreeBlock n} {objectid : ℕ}
  {records : List DirRecord}

/-- The item of a name's hash says the same of the name as the whole directory. -/
theorem Recorded.location_of_bucket (hdir : Recorded env n t objectid records) {x : Located}
    {name : List UInt8} (hkey : x.2.key = hashKey objectid name) {bucket : List DirRecord}
    (hperm : (bucket.map DirRecord.body).Perm
      ((records.filter fun r => nameHash r.name == x.2.key.offset).map DirRecord.body)) :
    (recordOf name records).map DirRecord.location =
      (recordOf name bucket).map DirRecord.location := by
  cases hbucket : recordOf name bucket with
  | some r =>
    obtain ⟨hr, hname⟩ := recordOf_eq_some hbucket
    obtain ⟨r₁, hr₁, hbody⟩ := Recorded.of_bucket hperm hr
    have hname₁ : r₁.name = name := (congrArg (fun b => b.1) hbody).symm.trans hname
    cases hfound : recordOf name records with
    | none => exact absurd hname₁ (recordOf_eq_none.mp hfound r₁ hr₁)
    | some r₂ =>
      obtain ⟨hr₂, hname₂⟩ := recordOf_eq_some hfound
      obtain rfl : r₁ = r₂ :=
        List.inj_on_of_nodup_map hdir.names hr₁ hr₂ (hname₁.trans hname₂.symm)
      exact congrArg some (congrArg (fun b => b.2.1) hbody).symm
  | none =>
    cases hfound : recordOf name records with
    | none => rfl
    | some r =>
      -- a record of that name has its body in the item
      obtain ⟨hr, hname⟩ := recordOf_eq_some hfound
      have hmem : r.body ∈ bucket.map DirRecord.body := by
        refine hperm.symm.subset (List.mem_map_of_mem (List.mem_filter.mpr ⟨hr, ?_⟩))
        rw [hkey, hname]
        exact beq_self_eq_true _
      obtain ⟨r₁, hr₁, hbody⟩ := List.mem_map.mp hmem
      have hname₁ : r₁.name = name := (congrArg (fun b => b.1) hbody).trans hname
      exact absurd hname₁ (recordOf_eq_none.mp hbucket r₁ hr₁)

/-- The entry of a name, from the records of its directory. -/
theorem FileSystem.forest_entry {F : FileSystem} {treeRoot dir : ℕ}
    (hentries : F.entries treeRoot dir = records.map DirRecord.asEntry) (name : List UInt8) :
    F.forest.entry treeRoot dir name = (recordOf name records).map DirRecord.location := by
  show ((F.entries treeRoot dir).find? _).map _ = _
  rw [hentries, List.find?_map, Option.map_map]
  rfl

end Directories

/-! ### One file -/

/-- `read_file` on a file that is stored. -/
theorem StoresFile.returned {env : Env} (h64 : env.usizeBits = 64) {fs : Btrfs} {dev : Device}
    (hdev : dev.Bytewise) {root objectid : ℕ} {m : Metadata} {items : List Located}
    {content : List UInt8} (h : StoresFile env fs dev m.size items content)
    (hmeta : (readMetadata env fs.chunkMap fs.geometry.nodesize root objectid).run dev.answer =
      .ok m)
    (hfile : m.isFile = true)
    (hitems : fileItems env fs.chunkMap fs.geometry root objectid dev.answer = (items, none)) :
    (readFile env fs.chunkMap fs.geometry root objectid).run dev.answer = .ok content := by
  have hinOrder := fileItems_inOrder h64 fs.chunkMap fs.geometry root objectid dev.answer
  rw [hitems] at hinOrder
  -- it returns, since nothing past the end is in its way
  have hreturns : ∃ out, (readFile env fs.chunkMap fs.geometry root objectid).run dev.answer =
      .ok out := by
    rw [run_readFile h64 dev.answer hmeta hfile h.granted, hitems]
    by_cases hzero : m.size = 0
    · rw [if_pos hzero]
      exact ⟨_, rfl⟩
    rw [if_neg hzero]
    obtain ⟨raw, hraw⟩ := (@readFile_fold_iff _ h64 fs.chunkMap fs.geometry root _ _ _ hdev
      (h.granted.lt h64) _ hinOrder h.layout [] (Nat.pos_of_ne_zero hzero)
      fun x _ => Nat.zero_le _).mpr (h.ends.resolve_left hzero)
    exact ⟨fitted raw m.size, Except.bind_eq_ok.mpr ⟨raw, hraw, rfl⟩⟩
  -- and what it returns is the content, byte by byte
  obtain ⟨out, hout⟩ := hreturns
  obtain ⟨hlen, hbytes⟩ := readFile_sound h64 hmeta hout
  obtain ⟨hlength, hcontent⟩ := h.layout.isContent_iff.mp h.content
  rw [hitems] at hbytes
  rw [hout]
  refine congrArg Except.ok (List.ext_getElem? fun p => ?_)
  by_cases hp : p < m.size
  · have hget : out[p]? = some out[p] := List.getElem?_eq_getElem (by omega)
    rw [hget, hcontent p hp]
    rcases hbytes p _ hget with hb | hb
    · exact hb.symm
    · obtain ⟨b, hb'⟩ := h.layout.fileByte_ne_none hp
      rw [fileByte_of_shortAt hb] at hb'
      cases hb'
  · rw [List.getElem?_eq_none (by omega), List.getElem?_eq_none (by omega)]

/-! ### One tree -/

namespace StoresTree

variable {env : Env} {fs : Btrfs} {dev : Device} {F : FileSystem} {treeRoot n : ℕ}
  {t : Tree DiskKey TreeBlock n} (h : StoresTree env fs dev F treeRoot n t)

include h

theorem storesEntries :
    StoresEntries env fs.trees dev.answer treeRoot (F.forest.entry treeRoot) := by
  refine ⟨n, h.depth, t, h.tree, h.noEmptyDir, fun x hx hty => ?_, fun dir name habsent => ?_⟩
  · obtain ⟨records, hdir, hplain, hentries⟩ := h.directories x.2.key.objectid
    obtain ⟨bucket, hheld, hperm⟩ := hdir.buckets x hx (isOf_iff.mpr ⟨rfl, hty⟩)
    refine ⟨bucket, hheld, fun r hr => ?_, fun name hkey => ?_⟩
    · obtain ⟨r₁, hr₁, hbody⟩ := Recorded.of_bucket hperm hr
      have hty : r.ty = r₁.ty := congrArg (fun b => b.2.2) hbody
      exact (congrArg (fun ty : UInt8 => ty.toNat &&& ftEncrypted) hty).trans (hplain r₁ hr₁)
    · rw [F.forest_entry hentries, hdir.location_of_bucket hkey hperm]
  · obtain ⟨records, hdir, -, hentries⟩ := h.directories dir
    rw [F.forest_entry hentries]
    cases hfound : recordOf name records with
    | none => rfl
    | some r =>
      obtain ⟨hr, rfl⟩ := recordOf_eq_some hfound
      obtain ⟨x, hx, hkey⟩ := hdir.hashed r hr
      exact absurd hkey (habsent x hx)

/-- What an entry leads to is an inode number. -/
theorem entry_bounded {dir : ℕ} {e : Entry} (he : e ∈ F.entries treeRoot dir) :
    e.location.objectid < 2 ^ 64 := by
  obtain ⟨records, -, -, hentries⟩ := h.directories dir
  rw [hentries] at he
  obtain ⟨r, -, rfl⟩ := List.mem_map.mp he
  exact r.objectid.toNat_lt

theorem inode_bounded {objectid : ℕ} {m : Metadata} (hm : F.inode treeRoot objectid = some m) :
    objectid < 2 ^ 64 := by
  by_contra hbig
  refine absurd (h.noInode objectid fun x hx => ?_) (by rw [hm]; exact Option.some_ne_none m)
  have hbound := (TreeBlock.item_bounds (located_mem hx)).2.2.objectid
  rw [← Bool.not_eq_true, isOf_iff]
  omega

end StoresTree

/-! ### The calls -/

namespace FileSystem

variable {F : FileSystem}

/-- A handle that a walk can arrive at. -/
def Known (F : FileSystem) (inode : Inode) : Prop :=
  F.IsTree inode.treeRoot ∧ inode.objectid < 2 ^ 64

theorem firstFree_lt : firstFreeObjectid < 2 ^ 64 := by decide

theorem emptySubvolDir_lt : emptySubvolDirObjectid < 2 ^ 64 := by decide

theorem root_known {id : ℕ} {root : Inode} (h : F.forest.root id = .ok root) : F.Known root := by
  unfold Forest.root at h
  split at h
  · cases h
  · rename_i item hitem
    split_ifs at h with hrefs
    cases h
    exact ⟨⟨id, item, hitem, hrefs, rfl⟩, firstFree_lt⟩

theorem enter_known {dir next : Inode} {name : List UInt8} {location : DiskKey}
    (hdir : F.Known dir) (hlocation : location.objectid < 2 ^ 64)
    (h : F.forest.enter dir name location = .ok next) : F.Known next := by
  unfold Forest.enter at h
  split_ifs at h with hinode hroot hlink
  · cases h
    exact ⟨hdir.1, hlocation⟩
  · exact root_known h
  · cases h
    exact ⟨hdir.1, emptySubvolDir_lt⟩

/-- A file or a symlink is an inode of its tree. -/
theorem stat_inode {inode : Inode} {m : Metadata} (h : F.stat inode = .ok m)
    (hkind : m.isFile = true ∨ m.isSymlink = true) :
    F.inode inode.treeRoot inode.objectid = some m := by
  unfold stat at h
  split_ifs at h
  · cases h
    exact absurd hkind (by decide)
  · split at h
    · cases h
    · cases h
      assumption

end FileSystem

/-- A walk as the code reports it. -/
theorem Reports.refines {r : Except WalkError Inode} {outcome : Outcome Inode}
    (h : Reports r outcome) : Refines WalkError.Reported r outcome := by
  cases r with
  | ok inode => exact h
  | error e =>
    cases e with
    | notFound => exact ⟨_, h, rfl⟩
    | badLocation =>
      obtain ⟨leaf, h⟩ := h
      exact ⟨_, h, leaf, rfl⟩

theorem FileSystem.Stored.forest {env : Env} {fs : Btrfs} {dev : Device} {F : FileSystem}
    (hstored : F.Stored env fs dev) {dir : Inode} (hdir : F.IsTree dir.treeRoot) :
    F.forest.Stored env fs.trees dev.answer dir where
  roots := hstored.roots
  top := by
    obtain ⟨n, t, ht⟩ := hstored.trees _ hdir
    exact ht.storesEntries
  subvolumes parent child item _ hitem hrefs := by
    obtain ⟨n, t, ht⟩ := hstored.trees item.bytenr ⟨child, item, hitem, hrefs, rfl⟩
    exact ht.storesEntries

namespace Btrfs

section Calls

variable {env : Env} (h64 : env.usizeBits = 64) {fs : Btrfs} {dev : Device} {F : FileSystem}
  (hstored : F.Stored env fs dev)

include hstored

theorem step_known {dir next : Inode} (hdir : F.Known dir) {name : List UInt8}
    (h : F.forest.step dir name = .ok next) : F.Known next := by
  obtain ⟨n, t, ht⟩ := hstored.trees _ hdir.1
  unfold Forest.step at h
  split at h
  · cases h
  · rename_i location hentry
    obtain ⟨e, he, rfl⟩ := Option.map_eq_some_iff.mp hentry
    exact F.enter_known hdir (ht.entry_bounded (List.mem_of_find?_eq_some he)) h

theorem walk_known {dir next : Inode} (hdir : F.Known dir) {names : List (List UInt8)}
    (h : F.forest.walk dir names = .ok next) : F.Known next := by
  unfold Forest.walk at h
  induction names generalizing dir with
  | nil =>
    cases h
    exact hdir
  | cons name rest ih =>
    rw [List.foldlM_cons] at h
    obtain ⟨mid, hmid, h⟩ := Except.bind_eq_ok.mp h
    exact ih (step_known hstored hdir hmid) h

theorem resolve_known {dir next : Inode} (hdir : F.Known dir) {path : Path}
    (h : F.resolve dir path = .ok next) : F.Known next :=
  walk_known hstored hdir (Except.mapError_eq_ok.mp h)

theorem list_known {dir : Inode} (hdir : F.Known dir) {list : List DirEntry}
    (h : F.list dir = .ok list) : ∀ e ∈ list, F.Known e.inode := by
  obtain ⟨n, t, ht⟩ := hstored.trees _ hdir.1
  intro e he
  obtain ⟨i, hi⟩ := List.getElem?_of_mem he
  obtain ⟨entry, hentry, hlisted⟩ := forall₂_getElem? (mapM_eq_ok.mp h) hi
  obtain ⟨inode, hinode, rfl⟩ := Except.map_eq_ok.mp hlisted
  exact F.enter_known hdir (ht.entry_bounded (List.mem_of_getElem? hentry))
    (Except.mapError_eq_ok.mp hinode)

include h64

/-- A path leads where the walk through the forest does. -/
theorem walk_refines {dir : Inode} (hdir : F.Known dir) (path : Path) :
    Refines WalkError.Reported (F.forest.walk dir path.components)
      ((resolvePath env fs.trees dir path).run dev.answer) := by
  unfold Forest.walk resolvePath
  rw [Prog.run_foldlM]
  refine Refines.foldlM (I := F.Known) (fun s hs name _ => ?_)
    (fun s hs name _ s' h => step_known hstored hs h) hdir
  have hforest := hstored.forest hs.1
  exact (lookupInDir_run h64 hforest.roots hforest.top name).refines

theorem resolve_refines {dir : Inode} (hdir : F.Known dir) (path : Path) :
    Refines FsError.Reported (F.resolve dir path)
      ((resolvePath env fs.trees dir path).run dev.answer) :=
  (walk_refines h64 hstored hdir path).mapError fun _ _ _ h => h

/-- The metadata of a handle. -/
theorem stat_refines {inode : Inode} (hknown : F.Known inode) :
    Refines FsError.Reported (F.stat inode)
      ((readMetadata env fs.chunkMap fs.geometry.nodesize inode.treeRoot inode.objectid).run
        dev.answer) := by
  obtain ⟨n, t, ht⟩ := hstored.trees _ hknown.1
  unfold FileSystem.stat
  by_cases hempty : inode.objectid = emptySubvolDirObjectid
  · unfold readMetadata
    rw [if_pos hempty, if_pos hempty]
    exact Refines.ok _
  rw [if_neg hempty]
  cases hitem : ((located n t).filter fun x => isOf inode.objectid inodeItemKey x.2).head? with
  | none =>
    obtain ⟨found, hrun, hfound⟩ := run_findFirstOf h64 fs.geometry.validNodesize dev.answer
      ht.depth ht.tree inode.objectid inodeItemKey
    rw [hitem] at hfound
    rw [List.head?_eq_none_iff, List.filter_eq_nil_iff] at hitem
    rw [ht.noInode inode.objectid fun x hx => Bool.eq_false_iff.mpr (hitem x hx)]
    unfold readMetadata
    rw [if_neg hempty, Prog.run_bind, hrun, Except.ok_bind]
    rcases found with _ | ⟨leaf, i⟩
    · exact Refines.error rfl
    · obtain ⟨item, hget, hother⟩ := hfound leaf i rfl
      simp only [Prog.run_bind, Prog.run_liftM]
      rw [hget, Except.ok_bind, if_pos (by
        rw [← Bool.not_eq_true, isOf_iff] at hother
        tauto)]
      exact Refines.error rfl
  | some x =>
    obtain ⟨hx, hmine⟩ := List.mem_filter.mp (List.mem_of_head? hitem)
    obtain ⟨hoid, hty⟩ := isOf_iff.mp hmine
    obtain ⟨data, hdata, hlen, hinode⟩ := ht.inodes x hx hty
    rw [hoid] at hinode
    rw [readMetadata_run h64 fs.geometry.validNodesize ht.depth ht.tree hempty hitem hdata hlen,
      hinode]
    exact Refines.ok _

/-- The entries of a directory. -/
theorem list_refines {dir : Inode} (hdir : F.Known dir) :
    Refines FsError.Reported (F.list dir) ((readDir env fs.trees dir).run dev.answer) := by
  obtain ⟨n, t, ht⟩ := hstored.trees _ hdir.1
  obtain ⟨records, hrecorded, hplain, hentries⟩ := ht.directories dir.objectid
  have hforest := hstored.forest hdir.1
  have hitems : List.Forall₂
      (fun e x => ∃ r : DirRecord, e = r.asEntry ∧ r.Plain ∧ Holds env x [r])
      (records.map DirRecord.asEntry) (indexItems n t dir.objectid) := by
    refine List.forall₂_map_left_iff.mpr ?_
    refine ((List.forall₂_and_left records _).mpr ⟨hplain, hrecorded.index.flip⟩).imp
      fun r x h => ?_
    exact ⟨r, rfl, h⟩
  rw [readDir_run h64 ht.depth ht.tree hdir.2, FileSystem.list, hentries]
  refine Refines.mapM hitems ?_
  rintro _ x ⟨r, rfl, hr, hheld⟩
  rw [entryAt_eq h64 hheld, if_pos hr]
  have htarget := entryTarget_run h64 hforest.roots dir r.name r.location x.1.header.bytenr
  exact Refines.map _ (htarget.refines.mapError fun _ _ _ h => h)

/-- The content of a file. -/
theorem read_refines (hdev : dev.Bytewise) {inode : Inode}
    (hknown : F.Known inode) :
    Refines FsError.Reported (F.read inode)
      ((readFile env fs.chunkMap fs.geometry inode.treeRoot inode.objectid).run dev.answer) := by
  have hstat := stat_refines h64 hstored hknown
  obtain ⟨n, t, ht⟩ := hstored.trees _ hknown.1
  by_cases hfile : ∃ m, F.stat inode = .ok m ∧ m.isFile = true
  · obtain ⟨m, hm, hfile⟩ := hfile
    have hinode := FileSystem.stat_inode hm (.inl hfile)
    have hstores := ht.files inode.objectid m hinode hfile
    unfold FileSystem.read
    rw [hm, Except.ok_bind, if_pos hfile]
    exact hstores.returned h64 hdev (hstat.returns hm) hfile
      (fileItems_tree h64 ht.depth ht.tree (ht.inode_bounded hinode))
  · unfold FileSystem.read readFile
    rw [Prog.run_bind]
    refine hstat.bind fun m hm => ?_
    have hother : ¬ m.isFile = true := fun h => hfile ⟨m, hm, h⟩
    rw [if_neg hother, if_pos hother]
    exact Refines.error rfl

/-- A part of it. -/
theorem readAt_refines (hdev : dev.Bytewise) {inode : Inode}
    (hknown : F.Known inode) (offset : ℕ) (buf : List UInt8) :
    Refines FsError.Reported (F.readAt inode offset buf)
      ((readFileAt env fs.chunkMap fs.geometry inode.treeRoot inode.objectid offset buf).run
        dev.answer) := by
  have hstat := stat_refines h64 hstored hknown
  obtain ⟨n, t, ht⟩ := hstored.trees _ hknown.1
  unfold FileSystem.readAt
  by_cases hbuf : buf = []
  · rw [if_pos hbuf, hbuf]
    exact Refines.ok _
  rw [if_neg hbuf]
  by_cases hfile : ∃ m, F.stat inode = .ok m ∧ m.isFile = true
  · obtain ⟨m, hm, hfile⟩ := hfile
    have hinode := FileSystem.stat_inode hm (.inl hfile)
    have hstores := ht.files inode.objectid m hinode hfile
    have hread := readFileAt_layout h64 hdev (hstat.returns hm) hfile
      (fileItems_tree h64 ht.depth ht.tree (ht.inode_bounded hinode)) hstores.layout
      hstores.content offset buf
    have hlen : (((F.content inode.treeRoot inode.objectid).drop offset).take buf.length).length =
        min buf.length (m.size - offset) := by
      rw [List.length_take, List.length_drop, hstores.content.length]
    unfold FileSystem.read
    rw [hm, Except.ok_bind, if_pos hfile, Except.ok_bind, hread]
    dsimp only
    rw [hlen]
    exact Refines.ok _
  · unfold FileSystem.read readFileAt
    rw [if_neg (by simpa using hbuf), Prog.run_bind, bind_assoc]
    refine hstat.bind fun m hm => ?_
    have hother : ¬ m.isFile = true := fun h => hfile ⟨m, hm, h⟩
    rw [if_neg hother, if_pos hother]
    exact Refines.error rfl

/-- The target of a symlink. -/
theorem readLink_refines {inode : Inode} (hknown : F.Known inode) :
    Refines FsError.Reported (F.readLink inode)
      ((readLink env fs.chunkMap fs.geometry inode.treeRoot inode.objectid).run dev.answer) := by
  have hstat := stat_refines h64 hstored hknown
  obtain ⟨n, t, ht⟩ := hstored.trees _ hknown.1
  unfold FileSystem.readLink
  by_cases hlink : ∃ m, F.stat inode = .ok m ∧ m.isSymlink = true
  swap
  · unfold readLink
    rw [Prog.run_bind]
    refine hstat.bind fun m hm => ?_
    have hother : ¬ m.isSymlink = true := fun h => hlink ⟨m, hm, h⟩
    rw [if_neg hother, if_pos hother]
    exact Refines.error rfl
  obtain ⟨m, hm, hlink⟩ := hlink
  rw [hm, Except.ok_bind, if_pos hlink]
  obtain ⟨x, e, compression, payload, plain, hfirst, he, hbacking, hplain, htarget⟩ :=
    ht.links inode.objectid m (FileSystem.stat_inode hm (.inr hlink)) hlink
  rw [readLink_run h64 ht.depth ht.tree (hstat.returns hm) hlink hfirst he hbacking hplain,
    htarget]
  exact Refines.ok _

/-- A call about a handle that a walk can arrive at. -/
theorem reply_refines (hdev : dev.Bytewise) (hroot : F.Known fs.root) {r : Request}
    (hknown : ∀ inode, r.handle = some inode → F.Known inode) :
    Refines FsError.Reported (F.reply fs.root r) ((r.program env fs).run dev.answer) := by
  -- the calls that take a path resolve it from the root first
  have hpath := resolve_refines h64 hstored hroot
  have hreached : ∀ {path inode}, F.resolve fs.root path = .ok inode → F.Known inode :=
    resolve_known hstored hroot
  cases r with
  | resolve path => exact Refines.run_map _ (hpath path)
  | metadata inode => exact Refines.run_map _ (stat_refines h64 hstored (hknown inode rfl))
  | readFile path =>
    exact Refines.run_map _ (Refines.run_bind (hpath path) fun inode h =>
      read_refines h64 hstored hdev (hreached h))
  | readFileAt inode offset buf =>
    exact Refines.run_map _ (readAt_refines h64 hstored hdev (hknown inode rfl) offset buf)
  | readLink path =>
    exact Refines.run_map _ (Refines.run_bind (hpath path) fun inode h =>
      readLink_refines h64 hstored (hreached h))
  | readDir path =>
    exact Refines.run_map _ (Refines.run_bind (hpath path) fun inode h =>
      list_refines h64 hstored (hreached h))

omit h64 in
/-- The handles of a reply can be arrived at. -/
theorem reply_known (hroot : F.Known fs.root) {r : Request} {reply : Reply}
    (h : F.reply fs.root r = .ok reply) : ∀ inode ∈ reply.handles, F.Known inode := by
  intro inode hinode
  cases r with
  | resolve path =>
    obtain ⟨found, hfound, rfl⟩ := Except.map_eq_ok.mp h
    obtain rfl := List.mem_singleton.mp hinode
    exact resolve_known hstored hroot hfound
  | readDir path =>
    obtain ⟨list, hlist, rfl⟩ := Except.map_eq_ok.mp h
    obtain ⟨dir, hdir, hlist⟩ := Except.bind_eq_ok.mp hlist
    obtain ⟨e, he, rfl⟩ := List.mem_map.mp hinode
    exact list_known hstored (resolve_known hstored hroot hdir) hlist e he
  | metadata handle =>
    obtain ⟨m, -, rfl⟩ := Except.map_eq_ok.mp h
    cases hinode
  | readFile path =>
    obtain ⟨bytes, -, rfl⟩ := Except.map_eq_ok.mp h
    cases hinode
  | readFileAt handle offset buf =>
    obtain ⟨r, -, rfl⟩ := Except.map_eq_ok.mp h
    cases hinode
  | readLink path =>
    obtain ⟨bytes, -, rfl⟩ := Except.map_eq_ok.mp h
    cases hinode

/-- What is held was given out by calls whose own handles were known. -/
theorem held_known (hdev : dev.Bytewise) (hroot : F.Known fs.root) {inode : Inode}
    (h : Held (fun r => (r.program env fs).run dev.answer) inode) : F.Known inode := by
  induction h with
  | got _ hreply hmem ih =>
    exact reply_known hstored hroot
      ((reply_refines h64 hstored hdev hroot ih).sound hreply) _ hmem

end Calls

end Btrfs
