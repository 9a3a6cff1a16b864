/-
Opening a volume.

`StoresVolume` says what an image of a volume consists of: superblock copies, the chunks
packed in the newest of them, the chunk tree that is read through these, and a file
system in trees that are read through all chunks.

* Each of the three ways to open such an image does what the file system says of it,
  and leaves a volume whose chunk map holds exactly the chunks of the chunk tree,
  however many of them the superblock packs and in whatever order (`opens`).
* Every call on a volume that stores a file system is answered as the file system
  answers it (`serves`).
-/
import Lambutter.ChunkWalk
import Lambutter.FileSystem
import Lambutter.Handles

open Ranges SearchTree

/-- Chunks inserted one by one, on the device of the superblock. -/
def mapOf (sb : ValidSuperblock) (records : List ChunkRecord) : ChunkMap :=
  (ChunkMap.empty.setLocalDevid sb.devid).insertAll (records.map ChunkRecord.mapping)

/-- The mounted volume with these chunks, at a root directory. -/
def volumeOf (sb : ValidSuperblock) (records : List ChunkRecord) (root : Inode) : Btrfs where
  chunkMap := mapOf sb records
  geometry :=
    { nodesize := sb.nodesize, sectorsize := sb.sectorsize, validNodesize := sb.nodesize_valid,
      validSectorsize := sb.sectorsize_valid }
  rootTreeRoot := sb.root
  root := root

/-- The directory of the root tree names this subvolume as the default one. -/
def NamesDefault (env : Env) (n : ℕ) (t : Tree DiskKey TreeBlock n) (named : Option ℕ) : Prop :=
  (∃ x ∈ located n t, x.2.key = hashKey rootTreeDirObjectid defaultName ∧
    ∃ bucket, Holds env x bucket ∧
      named = (recordOf defaultName bucket).map fun r => r.location.objectid) ∨
  (∀ x ∈ located n t, x.2.key ≠ hashKey rootTreeDirObjectid defaultName) ∧ named = none

/-- The subvolume that an open selects by itself: the one named in the root tree, else
the superblock's, else the top level. -/
def defaultSubvol (named : Option ℕ) (hint : ℕ) : ℕ :=
  named.getD (if hint = 0 ∨ hint = rootTreeDirObjectid then fsTreeObjectid else hint)

/-- The image holds a volume: its superblock `sb`, the chunks `records`, the file system
`F`, and in it a default subvolume. -/
structure StoresVolume (env : Env) (dev : Device) (size : ℕ) (sb : ValidSuperblock)
    (records : List ChunkRecord) (F : FileSystem) (default : ℕ) : Prop where
  /-- No superblock copy is refused, and `sb` is the newest of the valid ones. -/
  accepted : ∀ offset ∈ addressable size, ¬ CopyAt (RefusedCopy env) dev offset
  newest : sb ∈ (validCopies env dev size).argmax fun c => c.generation
  /-- The superblock packs some of the chunks, and through these the chunk tree can be
  read, which has them all. -/
  chunks : ∃ packed rest, (∀ r ∈ packed, r ∈ records) ∧
    ChunkMap.Disjoint (packed.map ChunkRecord.mapping) ∧
    sb.sysChunkArray = packArray packed ++ rest ∧
    sb.sysChunkArraySize = (packArray packed).length ∧
    ∃ n ≤ maxTreeDepth, ∃ t,
      TreeAt (blockAt env (mapOf sb packed) sb.nodesize dev.answer) n t sb.chunkRoot ∧
      HoldsChunks env n t records
  files : ∀ root, F.Stored env (volumeOf sb records root) dev
  default : ∃ n ≤ maxTreeDepth, ∃ t,
    TreeAt (blockAt env (mapOf sb records) sb.nodesize dev.answer) n t sb.root ∧
    ∃ named, NamesDefault env n t named ∧ default = defaultSubvol named sb.rootDirObjectid

/-! ### Openings in the file system -/

inductive OpenError
  /-- The default subvolume is not there. -/
  | noDefault
  | noSubvolume
  | walk (e : WalkError)
  | notASubvolume

/-- The root directory for an opening. -/
def FileSystem.openAt (F : FileSystem) (default : ℕ) : Btrfs.Opening → Except OpenError Inode
  | .default => (F.forest.root default).mapError fun _ => .noDefault
  | .subvolId id => (F.forest.root id).mapError fun _ => .noSubvolume
  | .subvolPath path => do
    let top ← (F.forest.root fsTreeObjectid).mapError fun _ => .noSubvolume
    let target ← (F.forest.walk top path.components).mapError .walk
    if target.objectid = firstFreeObjectid then .ok target else .error .notASubvolume

/-- How the code reports it. -/
def OpenError.Reported (rootTree : ℕ) : OpenError → Stop → Prop
  | .noDefault, x => x = .err (.corruptBtree "subvol_root_missing" rootTree)
  | .noSubvolume, x => x = .err .notFound
  | .walk e, x => e.Reported x
  | .notASubvolume, x => x = .err .notASubvolume

/-! ### The chunk map -/

section Chunks

variable {env : Env} {sb : ValidSuperblock}

/-- Two disjoint chunks of a list that start alike are one, so it repeats none. -/
theorem ChunkMap.Disjoint.nodup {calls : List ChunkMapping} (h : ChunkMap.Disjoint calls) :
    calls.Nodup := by
  refine h.apart.imp_of_mem fun {a b} ha _ hab => ?_
  rintro rfl
  have hlen := h.nonempty a ha
  have hstop : a.stop = a.logical + a.length := rfl
  omega

theorem mapOf_perm {records : List ChunkRecord}
    (h : ChunkMap.Disjoint (records.map ChunkRecord.mapping)) :
    (mapOf sb records).mappings.Perm (records.map ChunkRecord.mapping) ∧
      ∀ before m after, records.map ChunkRecord.mapping = before ++ m :: after →
        (((ChunkMap.empty.setLocalDevid sb.devid).insertAll before).insert m).1 = .ok () := by
  obtain ⟨hperm, hok⟩ := ChunkMap.insertAll_perm_append h (ChunkMap.empty.setLocalDevid sb.devid)
    (fun x hx => absurd hx List.not_mem_nil) fun m _ x hx => absurd hx List.not_mem_nil
  exact ⟨hperm.trans (List.append_nil _ ▸ .refl _), hok⟩

/-- A map of exactly these chunks is the one that inserting them makes. -/
theorem mapOf_unique {records : List ChunkRecord}
    (h : ChunkMap.Disjoint (records.map ChunkRecord.mapping)) {map : ChunkMap}
    (hamong : Among records map) (hall : ∀ r ∈ records, r.mapping ∈ map.mappings)
    (hdevid : map.localDevid = (ChunkMap.empty.setLocalDevid sb.devid).localDevid) :
    map = mapOf sb records := by
  have hpositive : ∀ a ∈ map.mappings, a.logical < a.stop := by
    intro a ha
    have hlen := h.nonempty a (hamong a ha)
    show a.logical < a.logical + a.length
    omega
  have hnodup : map.mappings.Nodup := by
    refine map.laid.apart.imp_of_mem fun {a b} ha _ hab => ?_
    rintro rfl
    exact absurd (hpositive a ha) (not_lt.mpr hab)
  have hperm : map.mappings.Perm (records.map ChunkRecord.mapping) := by
    refine (List.perm_ext_iff_of_nodup hnodup h.nodup).mpr fun m => ⟨hamong m, fun hm => ?_⟩
    obtain ⟨r, hr, rfl⟩ := List.mem_map.mp hm
    exact hall r hr
  refine ChunkMap.ext ?_ (hdevid.trans (ChunkMap.insertAll_localDevid _ _).symm)
  exact Laid.eq_of_perm map.laid (mapOf sb records).laid hpositive
    (hperm.trans (mapOf_perm h).1.symm)

variable (h64 : env.usizeBits = 64)

include h64

/-- The bootstrap takes the packed chunks. -/
theorem bootstrap_packed (hparsed : sb.Parsed) {packed : List ChunkRecord} {rest : List UInt8}
    (hdisjoint : ChunkMap.Disjoint (packed.map ChunkRecord.mapping))
    (harray : sb.sysChunkArray = packArray packed ++ rest)
    (hsize : sb.sysChunkArraySize = (packArray packed).length) :
    Btrfs.bootstrap env sb = .ok (mapOf sb packed) := by
  have hlt := hparsed.size_lt
  have hlen : (packArray packed).length ≤ sb.sysChunkArray.length := by
    rw [harray, List.length_append]
    omega
  unfold Btrfs.bootstrap parseSystemChunkArray
  rw [Env.asUsize_eq h64 (by omega), hsize]
  refine @loop_packed env sb.sysChunkArray _ ?_ hlen packed rest 0 harray (Nat.zero_add _) _
    (by omega) _ (mapOf_perm hdisjoint).2
  rw [h64]
  omega

end Chunks

/-! ### The default subvolume -/

section Default

variable {env : Env} (h64 : env.usizeBits = 64) {trees : Trees} {g : (q : ReadReq) → Ans q}

include h64

/-- What the directory of the root tree names. -/
theorem lookupDefaultDirItem_run {n : ℕ} (hn : n ≤ maxTreeDepth) {t : Tree DiskKey TreeBlock n}
    (htree : TreeAt (blockAt env trees.chunkMap trees.nodesize g) n t trees.rootTreeRoot)
    {named : Option ℕ} (hnamed : NamesDefault env n t named) :
    (lookupDefaultDirItem env trees).run g = .ok named := by
  have hacc : ∀ l b, blockAt env trees.chunkMap trees.nodesize g l = .ok b → b.Accepted :=
    blocks_accepted h64 trees.validNodesize g
  obtain ⟨found, hrun, hnone, hsome⟩ := run_findExact h64 trees.validNodesize g hn htree
    (hashKey rootTreeDirObjectid defaultName)
  unfold lookupDefaultDirItem
  dsimp only
  rw [Prog.run_bind]
  change (findExact env trees.chunkMap trees.nodesize trees.rootTreeRoot
    (hashKey rootTreeDirObjectid defaultName)).run g >>= _ = _
  rw [hrun, Except.ok_bind]
  rcases hnamed with ⟨x, hx, hkey, bucket, hheld, rfl⟩ | ⟨habsent, rfl⟩
  · rcases found with _ | ⟨leaf, i⟩
    · refine absurd hkey (hnone rfl x.2 ?_)
      rw [← located_snd]
      exact List.mem_map_of_mem hx
    obtain ⟨hleaf, item, hget, hitem, hitemKey⟩ := hsome leaf i rfl
    -- a key belongs to one item
    obtain rfl : x = (leaf, item) := located_unique h64 trees.validNodesize g htree hx
      (List.mem_flatMap.mpr ⟨leaf, hleaf, List.mem_map_of_mem hitem⟩) (hkey.trans hitemKey.symm)
    have hlen := (htree.leaf_accepted hacc hleaf).1.leafItemData_length hheld
    have hmax : maxNodeSize = 65536 := rfl
    have hcount := DirRecord.length_le_flatMap_pack bucket
    have hscan : findEntry env (bucket.flatMap DirRecord.pack) leaf.header.bytenr
        (fun entry => .ok (entry.name == defaultName))
        ((bucket.flatMap DirRecord.pack).length + 1) 0 =
          .ok ((recordOf defaultName bucket).map DirRecord.entry) :=
      findEntry_pack h64 (fun r _ => rfl) _ _ (by omega) (by omega) rfl
    dsimp only
    simp only [Prog.run_bind, Prog.run_liftM, Prog.run_pure]
    rw [hget, Except.ok_bind, hheld, Except.ok_bind, hscan, Except.ok_bind, Option.map_map]
    rfl
  · rcases found with _ | ⟨leaf, i⟩
    · rfl
    · obtain ⟨hleaf, item, -, hitem, hitemKey⟩ := hsome leaf i rfl
      exact absurd hitemKey (habsent (leaf, item)
        (List.mem_flatMap.mpr ⟨leaf, hleaf, List.mem_map_of_mem hitem⟩))

/-- The subvolume selected, with its own word for one that is missing. -/
theorem resolveDefaultSubvol_run {n : ℕ} (hn : n ≤ maxTreeDepth) {t : Tree DiskKey TreeBlock n}
    (htree : TreeAt (blockAt env trees.chunkMap trees.nodesize g) n t trees.rootTreeRoot)
    {named : Option ℕ} (hnamed : NamesDefault env n t named) (hint : ℕ) :
    (resolveDefaultSubvol env trees hint).run g =
      ((subvolRoot env trees (defaultSubvol named hint)).run g).mapError
        (missingRoot trees.rootTreeRoot) := by
  unfold resolveDefaultSubvol
  rw [Prog.run_bind, lookupDefaultDirItem_run h64 hn htree hnamed, Except.ok_bind,
    Prog.run_mapStop]
  cases named with
  | none => rfl
  | some id => rfl

end Default

/-- The only thing that can be wrong with a subvolume is that it is not there. -/
theorem Forest.root_error {F : Forest} {id : ℕ} {e : WalkError} (h : F.root id = .error e) :
    e = .notFound := by
  unfold Forest.root at h
  split at h
  · cases h
    rfl
  · split_ifs at h
    · cases h
      rfl

/-! ### Openings -/

namespace StoresVolume

variable {env : Env} {dev : Device} {size : ℕ} {sb : ValidSuperblock} {records : List ChunkRecord}
  {F : FileSystem} {default : ℕ} (hvol : StoresVolume env dev size sb records F default)

include hvol

theorem loads : (load env size).run dev.answer = .ok sb := by
  rcases @run_load env dev size with ⟨⟨offset, hoffset, hrefused⟩, -⟩ | ⟨-, hrun⟩
  · exact absurd hrefused (hvol.accepted offset hoffset)
  · rw [hvol.newest] at hrun
    exact hrun

variable (h64 : env.usizeBits = 64)

include h64

/-- Mounting finds all chunks; the root directory is yet to be chosen. -/
theorem mounts : ∃ root, (Btrfs.mount env size).run dev.answer =
    .ok (volumeOf sb records root, sb.rootDirObjectid) := by
  have hparsed : sb.Parsed := (load_ensures size).returns _ () hvol.loads
  obtain ⟨packed, rest, hpacked, hdisjoint, harray, hsize, n, hn, t, htree, hchunks⟩ := hvol.chunks
  have hboot := bootstrap_packed h64 hparsed hdisjoint harray hsize
  have hbootPerm := (@mapOf_perm sb packed hdisjoint).1
  have hamong : Among records (mapOf sb packed) := by
    intro m hm
    obtain ⟨r, hr, rfl⟩ := List.mem_map.mp (hbootPerm.mem_iff.mp hm)
    exact List.mem_map_of_mem (hpacked r hr)
  obtain ⟨map, hfold, hmap, hall, -, hdevid⟩ := @populate_fold env h64 records hchunks.disjoint
    dev.answer sb.nodesize sb.chunkRoot _ _ hchunks.chunks
    (fun x hx => (isOf_iff.mp (List.mem_filter.mp hx).2).2) (fun _ h => h) _ hamong
  obtain rfl : map = mapOf sb records :=
    mapOf_unique hchunks.disjoint hmap hall (hdevid.trans (ChunkMap.insertAll_localDevid _ _))
  have hpopulate := populate_run h64 sb.nodesize_valid dev.answer hn htree hchunks
  unfold Btrfs.mount Btrfs.mountWith
  simp only [Prog.run_bind, Prog.run_liftM]
  rw [hvol.loads, Except.ok_bind, hboot, Except.ok_bind, hpopulate, hfold]
  exact ⟨_, rfl⟩

/-- A subvolume as the root tree has it. -/
theorem roots_refine (root : Inode) (id : ℕ) : Refines WalkError.Reported (F.forest.root id)
    ((subvolRoot env (volumeOf sb records root).trees id).run dev.answer) :=
  (subvolRoot_run (F := F.forest) h64 (hvol.files root).roots id).refines

/-- Each way of opening the volume does what the file system says, and leaves it mounted
with all its chunks. -/
theorem opening_refines (opening : Btrfs.Opening) :
    Refines (OpenError.Reported sb.root) (volumeOf sb records <$> F.openAt default opening)
      ((opening.program env size).run dev.answer) := by
  obtain ⟨root, hmount⟩ := hvol.mounts h64
  have hroots := hvol.roots_refine h64 root
  cases opening with
  | default =>
    obtain ⟨n, hn, t, htree, named, hnamed, rfl⟩ := hvol.default
    unfold Btrfs.Opening.program Btrfs.openDefault
    dsimp only
    rw [Prog.run_bind, hmount, Except.ok_bind]
    refine Refines.run_map (volumeOf sb records) ?_
    rw [resolveDefaultSubvol_run h64 hn htree hnamed]
    refine (hroots _).rename fun e x he hx => ?_
    obtain rfl := Forest.root_error he
    obtain rfl : x = .err .notFound := hx
    rfl
  | subvolId id =>
    unfold Btrfs.Opening.program Btrfs.openSubvolId
    dsimp only
    rw [Prog.run_bind, hmount, Except.ok_bind]
    refine Refines.run_map (volumeOf sb records) ((hroots id).mapError fun e x he hx => ?_)
    obtain rfl := Forest.root_error he
    exact hx
  | subvolPath path =>
    unfold Btrfs.Opening.program Btrfs.openSubvolPath
    dsimp only
    rw [Prog.run_bind, hmount, Except.ok_bind]
    unfold FileSystem.openAt
    dsimp only
    simp only [map_bind]
    refine Refines.run_bind ((hroots fsTreeObjectid).mapError fun e x he hx => ?_)
      fun top htop => ?_
    · obtain rfl := Forest.root_error he
      exact hx
    have hknown := FileSystem.root_known (Except.mapError_eq_ok.mp htop)
    refine Refines.run_bind ((Btrfs.walk_refines h64 (hvol.files root) hknown path).mapError
      fun _ _ _ h => h) fun target _ => ?_
    by_cases htarget : target.objectid = firstFreeObjectid
    · rw [if_pos htarget, if_neg (not_not.mpr htarget)]
      exact Refines.ok _
    · rw [if_neg htarget, if_pos htarget]
      exact Refines.error rfl

end StoresVolume

namespace Btrfs

section Whole

variable {env : Env} (h64 : env.usizeBits = 64) {dev : Device} {F : FileSystem}

include h64

/-- Opening an image of a volume, in any of the three ways: it succeeds where the file
system has a root directory for the opening, with that directory, all chunks of the
chunk tree and no others, and a file system whose calls are answered; and it fails as
the file system says otherwise. -/
theorem opens {size : ℕ} {sb : ValidSuperblock} {records : List ChunkRecord} {default : ℕ}
    (hvol : StoresVolume env dev size sb records F default) (opening : Opening) :
    Refines (OpenError.Reported sb.root) (volumeOf sb records <$> F.openAt default opening)
      ((opening.program env size).run dev.answer) ∧
    ∀ fs, (opening.program env size).run dev.answer = .ok fs →
      F.Stored env fs dev ∧ F.Known fs.root ∧
      fs.chunkMap.mappings.Perm (records.map ChunkRecord.mapping) := by
  have hrefines := hvol.opening_refines h64 opening
  refine ⟨hrefines, fun fs hfs => ?_⟩
  obtain ⟨root, hroot, rfl⟩ := Except.map_eq_ok.mp (hrefines.sound hfs)
  obtain ⟨packed, rest, -, -, -, -, n, -, t, -, hchunks⟩ := hvol.chunks
  refine ⟨hvol.files root, ?_, (mapOf_perm hchunks.disjoint).1⟩
  cases opening with
  | default => exact FileSystem.root_known (Except.mapError_eq_ok.mp hroot)
  | subvolId id => exact FileSystem.root_known (Except.mapError_eq_ok.mp hroot)
  | subvolPath path =>
    obtain ⟨top, htop, hroot⟩ := Except.bind_eq_ok.mp hroot
    obtain ⟨target, htarget, hroot⟩ := Except.bind_eq_ok.mp hroot
    split_ifs at hroot
    · cases hroot
      exact walk_known (hvol.files top) (FileSystem.root_known (Except.mapError_eq_ok.mp htop))
        (Except.mapError_eq_ok.mp htarget)

/-- On an image that stores a file system every call is answered as that file system
answers it, for every handle that calls have given out: the same values, and the error
that stands for it where there is none. -/
theorem serves {fs : Btrfs} (hstored : F.Stored env fs dev) (hdev : dev.Bytewise)
    (hroot : F.Known fs.root) {r : Request}
    (hheld : ∀ inode, r.handle = some inode →
      Held (fun r => (r.program env fs).run dev.answer) inode) :
    Refines FsError.Reported (F.reply fs.root r) ((r.program env fs).run dev.answer) :=
  reply_refines h64 hstored hdev hroot fun inode h =>
    held_known h64 hstored hdev hroot (hheld inode h)

end Whole

end Btrfs

/-! ### A volume with a file and a symlink -/

theorem homeName_lt (name : UInt8) : [name].length < 2 ^ 16 := Nat.one_lt_two_pow (by decide)

theorem defaultName_lt : defaultName.length < 2 ^ 16 := by decide

theorem noData_lt : ([] : List UInt8).length < 2 ^ 16 := Nat.two_pow_pos 16

def homeRecord (objectid : UInt64) (itemType : UInt8) (offset : UInt64) (ty name : UInt8) :
    DirRecord where
  objectid := objectid
  itemType := itemType
  offset := offset
  transid := 7
  ty := ty
  name := [name]
  data := []
  name_lt := homeName_lt name
  data_lt := noData_lt

/-- The file `f`, the symlink `l` and the subvolume `s`. -/
def homeRecords : List DirRecord :=
  [homeRecord 257 1 0 1 102, homeRecord 258 1 0 7 108, homeRecord 256 132 0xffffffffffffffff 2 115]

/-- The default subvolume's entry in the root tree. -/
def defaultRecord : DirRecord where
  objectid := 256
  itemType := 132
  offset := 0xffffffffffffffff
  transid := 7
  ty := 2
  name := defaultName
  data := []
  name_lt := defaultName_lt
  data_lt := noData_lt

def homeItem (key : DiskKey) (record : DirRecord) : SampleItem :=
  (key, record.pack.length, [(0, leValue record.pack)])

/-- The sample's subvolumes, the second of them the default one. -/
def homeRootItems : List SampleItem :=
  [(⟨5, rootItemKey, 0⟩, 239, [(176, 0x101000), (216, 1)]),
   (⟨5, rootRefKey, 256⟩, 19, [(0, 256), (8, 3), (16, 1), (18, 115)]),
   homeItem ⟨rootTreeDirObjectid, dirItemKey, 0x8dbfc2d2⟩ defaultRecord,
   (⟨256, rootItemKey, 0⟩, 239, [(176, 0x102000), (216, 1)])]

/-- A directory, a file that says `hello`, and a link to it. -/
def homeItems : List SampleItem :=
  [(⟨256, inodeItemKey, 0⟩, 160, [(52, 0o40755)]),
   homeItem ⟨256, dirItemKey, 0x188e5b27⟩ (homeRecord 257 1 0 1 102),
   homeItem ⟨256, dirItemKey, 0x3d218854⟩ (homeRecord 256 132 0xffffffffffffffff 2 115),
   homeItem ⟨256, dirItemKey, 0x736c731f⟩ (homeRecord 258 1 0 7 108),
   homeItem ⟨256, dirIndexKey, 2⟩ (homeRecord 257 1 0 1 102),
   homeItem ⟨256, dirIndexKey, 3⟩ (homeRecord 258 1 0 7 108),
   homeItem ⟨256, dirIndexKey, 4⟩ (homeRecord 256 132 0xffffffffffffffff 2 115),
   sampleInode 257 5,
   (⟨257, extentDataKey, 0⟩, 26, [(8, 5), (21, 0x6f6c6c6568)]),
   (⟨258, inodeItemKey, 0⟩, 160, [(16, 1), (52, 0o120777)]),
   (⟨258, extentDataKey, 0⟩, 22, [(8, 1), (21, 0x66)])]

def homeChunkItems : List SampleItem :=
  [(⟨devItemsObjectid, devItemKey, 1⟩, 98, [(0, 1)]), chunkItem metadataChunk,
   chunkItem systemChunk]

def homeRootsPage : ℕ := image (leafFields 0 4096 1713631126 0x100000 homeRootItems)

def homeTopPage : ℕ := image (leafFields 0 4096 4228230529 0x101000 homeItems)

def homeInnerPage : ℕ := image (leafFields 0 4096 688029819 0x102000 innerItems)

def homeChunksPage : ℕ := image (leafFields 0 4096 3450189756 0x200000 homeChunkItems)

def homeSuperPage : ℕ :=
  image [(0, 2935555951), (0x40, btrfsMagic), (0x48, 1), (0x50, 0x100000), (0x58, 0x200000),
    (0x90, 4096), (0x94, 4096), (0xa0, 97), (0xc9, 1), (0x32b, leValue systemChunk.pack)]

def homePages : List (ℕ × ℕ) :=
  [(1, homeRootsPage), (2, homeTopPage), (3, homeInnerPage), (6, homeChunksPage),
   (16, homeSuperPage)]

def homeVolume : SliceDevice := .ofPages homePages 0x11000 Btrfs.bootSize_lt

theorem home_bytes {k page : ℕ} (h : homePages.lookup k = some page) :
    homeVolume.device.bytes (4096 * k) 4096 = leBytes 4096 page :=
  bytes_ofPages Btrfs.bootSize_lt h

set_option maxRecDepth 100000 in
theorem homeSuper_valid : ValidCopy referenceEnv (leBytes 4096 homeSuperPage) := by
  decide +kernel

def homeSuperblock : ValidSuperblock := ValidCopy.superblock homeSuper_valid

def homeChunks : List ChunkRecord := [metadataChunk, systemChunk]

def homeFs (root : Inode) : Btrfs := volumeOf homeSuperblock homeChunks root

def homeRoots : TreeBlock := pageBlock homeRootsPage

def homeTop : TreeBlock := pageBlock homeTopPage

def homeInner : TreeBlock := pageBlock homeInnerPage

def homeChunkLeaf : TreeBlock := pageBlock homeChunksPage

set_option maxRecDepth 100000 in
theorem home_fields : homeSuperblock.devid = 1 ∧ homeSuperblock.root = 0x100000 ∧
    homeSuperblock.chunkRoot = 0x200000 ∧ homeSuperblock.rootDirObjectid = 0 ∧
    homeSuperblock.nodesize = 4096 ∧ homeSuperblock.sectorsize = 4096 ∧
    homeSuperblock.sysChunkArraySize = 97 ∧
    homeSuperblock.sysChunkArray.take 97 = systemChunk.pack := by
  decide +kernel

/-- The map of these chunks on device 1. -/
def homeMap (records : List ChunkRecord) : ChunkMap :=
  (ChunkMap.empty.setLocalDevid 1).insertAll (records.map ChunkRecord.mapping)

theorem mapOf_home (records : List ChunkRecord) :
    mapOf homeSuperblock records = homeMap records := by
  obtain ⟨hdevid, -⟩ := home_fields
  unfold mapOf homeMap
  rw [hdevid]

/-- A block of the sample, read through the chunks. -/
theorem home_read {records : List ChunkRecord} {k page logical : ℕ}
    (hpage : homePages.lookup k = some page) (hsize : 4096 * k + 4096 ≤ 0x11000)
    (hresolve : (fun r => (r.physical, decide (4096 ≤ r.contiguousBytes))) <$>
      (homeMap records).resolve referenceEnv logical = .ok (4096 * k, true))
    (hchecked : PageChecked referenceEnv page logical) :
    blockAt referenceEnv (homeMap records) 4096 homeVolume.device.answer logical =
      .ok (pageBlock page) :=
  blockAt_page referenceEnv_usize64 Btrfs.bootSize_lt hpage hsize hresolve hchecked

set_option maxRecDepth 100000 in
theorem home_pages : LeafPage referenceEnv homeRootsPage 0x100000 homeRootItems ∧
    LeafPage referenceEnv homeTopPage 0x101000 homeItems ∧
    LeafPage referenceEnv homeInnerPage 0x102000 innerItems ∧
    LeafPage referenceEnv homeChunksPage 0x200000 homeChunkItems := by
  decide +kernel

theorem homeRoots_read : blockAt referenceEnv (homeMap homeChunks) 4096 homeVolume.device.answer
    0x100000 = .ok homeRoots := by
  obtain ⟨hroots, -⟩ := home_pages
  exact @home_read _ 1 _ _ rfl (by decide) rfl hroots.1

theorem homeTop_read : blockAt referenceEnv (homeMap homeChunks) 4096 homeVolume.device.answer
    0x101000 = .ok homeTop := by
  obtain ⟨-, htop, -⟩ := home_pages
  exact @home_read _ 2 _ _ rfl (by decide) rfl htop.1

theorem homeInner_read : blockAt referenceEnv (homeMap homeChunks) 4096 homeVolume.device.answer
    0x102000 = .ok homeInner := by
  obtain ⟨-, -, hinner, -⟩ := home_pages
  exact @home_read _ 3 _ _ rfl (by decide) rfl hinner.1

theorem homeChunks_read : blockAt referenceEnv (homeMap [systemChunk]) 4096
    homeVolume.device.answer 0x200000 = .ok homeChunkLeaf := by
  obtain ⟨-, -, -, hchunks⟩ := home_pages
  exact @home_read _ 6 _ _ rfl (by decide) rfl hchunks.1

theorem homeRoots_leaf :
    TreeHolds referenceEnv 0 (.leaf homeRoots) (storedItems homeRootItems) := by
  obtain ⟨hroots, -⟩ := home_pages
  exact hroots.holds referenceEnv_usize64

theorem homeTop_leaf : TreeHolds referenceEnv 0 (.leaf homeTop) (storedItems homeItems) := by
  obtain ⟨-, htop, -⟩ := home_pages
  exact htop.holds referenceEnv_usize64

theorem homeInner_leaf :
    TreeHolds referenceEnv 0 (.leaf homeInner) (storedItems innerItems) := by
  obtain ⟨-, -, hinner, -⟩ := home_pages
  exact hinner.holds referenceEnv_usize64

theorem homeChunkLeaf_leaf :
    TreeHolds referenceEnv 0 (.leaf homeChunkLeaf) (storedItems homeChunkItems) := by
  obtain ⟨-, -, -, hchunks⟩ := home_pages
  exact hchunks.holds referenceEnv_usize64

theorem homeChunkLeaf_holds : HoldsChunks referenceEnv 0 (.leaf homeChunkLeaf) homeChunks := by
  have hitems : ChunkItems (storedItems homeChunkItems) homeChunks := by
    decide +kernel
  exact TreeHolds.holdsChunks homeChunkLeaf_leaf hitems ⟨by decide, by decide, by decide⟩

def homeMetadata (size mode : ℕ) : Metadata where
  size := size
  nbytes := 0
  nlink := 0
  mode := mode
  uid := 0
  gid := 0
  generation := 0

/-- What the sample holds. -/
def home : FileSystem where
  entries treeRoot dir :=
    if dir = firstFreeObjectid then
      if treeRoot = 0x101000 then homeRecords.map DirRecord.asEntry
      else if treeRoot = 0x102000 then (homeRecords.drop 2).map DirRecord.asEntry else []
    else []
  link parent child :=
    if parent = 5 ∧ child = firstFreeObjectid then some (firstFreeObjectid, [115]) else none
  subvolume id :=
    if id = 5 then some ⟨0x101000, 1⟩
    else if id = firstFreeObjectid then some ⟨0x102000, 1⟩ else none
  inode treeRoot objectid :=
    if treeRoot = 0x101000 then
      if objectid = 256 then some (homeMetadata 0 0o40755)
      else if objectid = 257 then some (homeMetadata 5 0o100644)
      else if objectid = 258 then some (homeMetadata 1 0o120777) else none
    else none
  content _ _ := [104, 101, 108, 108, 111]
  target _ _ := [102]

/-- A directory without items. -/
theorem Recorded.empty {env : Env} {n : ℕ} {t : Tree DiskKey TreeBlock n} {dir : ℕ}
    (h : ∀ x ∈ located n t, x.2.key.itemType = dirItemKey ∨ x.2.key.itemType = dirIndexKey →
      x.2.key.objectid ≠ dir) : Recorded env n t dir [] where
  names := List.nodup_nil
  index := by
    have hnil : indexItems n t dir = [] := by
      refine List.filter_eq_nil_iff.mpr fun x hx hmine => ?_
      obtain ⟨hoid, hty⟩ := isOf_iff.mp hmine
      exact h x hx (.inr hty) hoid
    rw [hnil]
    exact .nil
  buckets x hx hmine := by
    obtain ⟨hoid, hty⟩ := isOf_iff.mp hmine
    exact absurd hoid (h x hx (.inl hty))
  hashed r hr := absurd hr List.not_mem_nil

/-- The items of a tree whose one directory has these records, hash by hash. -/
def OneDirectory (items : List (DiskKey × List UInt8)) (records : List DirRecord) : Prop :=
  RecordItems items 256 records (fun hash => records.filter fun r => nameHash r.name == hash) ∧
    (∀ y ∈ items, y.1.itemType = dirItemKey ∨ y.1.itemType = dirIndexKey → y.1.objectid = 256) ∧
    ∀ y ∈ items, y.1.objectid ≠ emptySubvolDirObjectid

instance (items : List (DiskKey × List UInt8)) (records : List DirRecord) :
    Decidable (OneDirectory items records) :=
  inferInstanceAs (Decidable (_ ∧ _))

theorem home_trees : OneDirectory (storedItems homeItems) homeRecords ∧
    OneDirectory (storedItems innerItems) (homeRecords.drop 2) := by
  decide +kernel

theorem home_plain : ∀ r ∈ homeRecords, r.Plain := by decide

/-- The directories of a leaf that has one. -/
theorem home_directories {leaf : TreeBlock} {items : List (DiskKey × List UInt8)} {treeRoot : ℕ}
    {records : List DirRecord} (h : TreeHolds referenceEnv 0 (.leaf leaf) items)
    (hone : OneDirectory items records)
    (hsub : ∀ r ∈ records, r ∈ homeRecords)
    (hentries : ∀ dir, home.entries treeRoot dir =
      if dir = 256 then records.map DirRecord.asEntry else []) (dir : ℕ) :
    ∃ records, Recorded referenceEnv 0 (.leaf leaf) dir records ∧ (∀ r ∈ records, r.Plain) ∧
      home.entries treeRoot dir = records.map DirRecord.asEntry := by
  by_cases hdir : dir = 256
  · subst hdir
    exact ⟨records, h.recorded hone.1, fun r hr => home_plain r (hsub r hr),
      (hentries 256).trans (if_pos rfl)⟩
  · refine ⟨[], Recorded.empty fun x hx hty hoid => hdir ?_, fun r hr => absurd hr List.not_mem_nil,
      (hentries dir).trans (if_neg hdir)⟩
    obtain ⟨y, hy, hkey, -⟩ := h.item hx
    rw [hkey] at hty hoid
    exact hoid.symm.trans (hone.2.1 y hy hty)

/-- A file or a symlink of the sample. -/
theorem home_inode {treeRoot objectid : ℕ} {m : Metadata}
    (h : home.inode treeRoot objectid = some m) (hkind : m.isFile = true ∨ m.isSymlink = true) :
    treeRoot = 0x101000 ∧ (objectid = 257 ∧ m = homeMetadata 5 0o100644 ∨
      objectid = 258 ∧ m = homeMetadata 1 0o120777) := by
  unfold home at h
  dsimp only at h
  split_ifs at h with htree hdir hfile hlink
  · cases h
    exact absurd hkind (by decide)
  · cases h
    exact ⟨htree, .inl ⟨hfile, rfl⟩⟩
  · cases h
    exact ⟨htree, .inr ⟨hlink, rfl⟩⟩

theorem homeTop_items : (∀ y ∈ storedItems homeItems, y.1.itemType = inodeItemKey →
      InodeItem.sizeOf ≤ y.2.length ∧
        home.inode 0x101000 y.1.objectid = some (InodeItem.readAt y.2 0).metadata) ∧
    (∀ id ∈ [256, 257, 258], ∃ y ∈ storedItems homeItems,
      y.1.objectid = id ∧ y.1.itemType = inodeItemKey) ∧
    (∀ y ∈ storedItems innerItems, y.1.itemType ≠ inodeItemKey) ∧
    ((storedItems homeItems).filter fun y =>
        y.1.objectid == 257 && y.1.itemType == extentDataKey).map
      (fun y => (y.1.offset, Extent.parse y.2)) =
        [(0, .ok { declared := 5, backing := .inline 0 [104, 101, 108, 108, 111] })] ∧
    ((storedItems homeItems).filter fun y =>
        y.1.objectid == 258 && y.1.itemType == extentDataKey).map
      (fun y => (y.1.offset, Extent.parse y.2)) =
        [(0, .ok { declared := 1, backing := .inline 0 [102] })] := by
  decide +kernel

theorem home_file (root : Inode) : StoresFile referenceEnv (homeFs root) homeVolume.device 5
    (inodeItems 0 (.leaf homeTop) 257) [104, 101, 108, 108, 111] := by
  obtain ⟨-, -, -, hextents, -⟩ := homeTop_items
  have hlaid : LaidAs referenceEnv (inodeItems 0 (.leaf homeTop) 257)
      [(0, { declared := 5, backing := .inline 0 [104, 101, 108, 108, 111] })] :=
    (TreeHolds.extents homeTop_leaf 257).trans hextents
  have hlayout : Layout referenceEnv (homeFs root).chunkMap (homeFs root).geometry.sectorsize
      homeVolume.device 5 (inodeItems 0 (.leaf homeTop) 257) := by
    refine hlaid.layout (by decide) (by decide) ?_ (List.pairwise_singleton _ _)
    simp only [List.forall_mem_singleton]
    exact fun _ => ⟨_, rfl, by simp⟩
  obtain ⟨x, hx, hstart, he⟩ := hlaid.exists_item List.mem_cons_self
  refine ⟨.inr ⟨by decide, rfl⟩, hlayout, hlaid.isContent hlayout rfl fun p hp => ?_,
    .inr (.inl ⟨x, hx, _, he, by omega, by rw [hstart]; decide⟩)⟩
  unfold tableByte
  rw [List.find?_cons_of_pos (by simpa using hp)]
  rfl

theorem home_link (root : Inode) : StoresLink referenceEnv (homeFs root) 1
    (inodeItems 0 (.leaf homeTop) 258) [102] := by
  obtain ⟨-, -, -, -, hextents⟩ := homeTop_items
  obtain ⟨x, hitems, hx⟩ := List.map_eq_singleton_iff.mp
    ((TreeHolds.extents homeTop_leaf 258).trans hextents)
  obtain ⟨-, he⟩ := Prod.mk.injEq _ _ _ _ ▸ hx
  exact ⟨x, _, 0, [102], [102], by rw [hitems]; rfl, he, rfl, rfl, rfl⟩

set_option maxRecDepth 100000 in
theorem home_blockAt {l : ℕ} {b : TreeBlock}
    (h : blockAt referenceEnv (homeMap homeChunks) 4096 homeVolume.device.answer l = .ok b)
    (root : Inode) : blockAt referenceEnv (homeFs root).chunkMap (homeFs root).geometry.nodesize
      homeVolume.device.answer l = .ok b := by
  obtain ⟨-, -, -, -, hnodesize, -⟩ := home_fields
  show blockAt referenceEnv (mapOf homeSuperblock homeChunks) homeSuperblock.nodesize _ _ = _
  rw [mapOf_home, hnodesize, h]

set_option maxRecDepth 100000 in
theorem homeTop_stored (root : Inode) : StoresTree referenceEnv (homeFs root) homeVolume.device home
    0x101000 0 (.leaf homeTop) where
  depth := Nat.zero_le _
  tree := ⟨homeTop, rfl, home_blockAt homeTop_read root, rfl⟩
  noEmptyDir x hx := by
    obtain ⟨⟨-, -, hproper⟩, -⟩ := home_trees
    obtain ⟨y, hy, hkey, -⟩ := TreeHolds.item homeTop_leaf hx
    rw [hkey]
    exact hproper y hy
  directories := @home_directories homeTop _ _ _ homeTop_leaf (And.left home_trees) (fun _ h => h)
    (fun _ => rfl)
  inodes x hx hty := by
    obtain ⟨hinodes, -⟩ := homeTop_items
    obtain ⟨y, hy, hkey, hdata⟩ := TreeHolds.item homeTop_leaf hx
    rw [hkey] at hty ⊢
    exact ⟨y.2, hdata, hinodes y hy hty⟩
  noInode objectid habsent := by
    obtain ⟨-, hthere, -⟩ := homeTop_items
    have hnot : objectid ∉ [256, 257, 258] := by
      intro hid
      obtain ⟨y, hy, rfl, hty⟩ := hthere objectid hid
      obtain ⟨x, hx, hmine⟩ := TreeHolds.exists_isOf homeTop_leaf hy
      rw [hty, habsent x hx] at hmine
      cases hmine
    simp only [List.mem_cons, List.not_mem_nil, or_false, not_or] at hnot
    unfold home
    dsimp only
    rw [if_pos rfl, if_neg hnot.1, if_neg hnot.2.1, if_neg hnot.2.2]
  files objectid m hinode hfile := by
    obtain ⟨-, ⟨rfl, rfl⟩ | ⟨rfl, rfl⟩⟩ := home_inode hinode (.inl hfile)
    · exact home_file root
    · exact absurd hfile (by decide)
  links objectid m hinode hlink := by
    obtain ⟨-, ⟨rfl, rfl⟩ | ⟨rfl, rfl⟩⟩ := home_inode hinode (.inr hlink)
    · exact absurd hlink (by decide)
    · exact home_link root

set_option maxRecDepth 100000 in
theorem homeInner_stored (root : Inode) : StoresTree referenceEnv (homeFs root) homeVolume.device
    home 0x102000 0 (.leaf homeInner) where
  depth := Nat.zero_le _
  tree := ⟨homeInner, rfl, home_blockAt homeInner_read root, rfl⟩
  noEmptyDir x hx := by
    obtain ⟨-, -, -, hproper⟩ := home_trees
    obtain ⟨y, hy, hkey, -⟩ := TreeHolds.item homeInner_leaf hx
    rw [hkey]
    exact hproper y hy
  directories := @home_directories homeInner _ _ _ homeInner_leaf (And.right home_trees)
    (fun _ h => List.mem_of_mem_drop h) (fun _ => rfl)
  inodes x hx hty := by
    obtain ⟨-, -, hnone, -⟩ := homeTop_items
    obtain ⟨y, hy, hkey, -⟩ := TreeHolds.item homeInner_leaf hx
    rw [hkey] at hty
    exact absurd hty (hnone y hy)
  noInode _ _ := rfl
  files _ _ hinode _ := by cases hinode
  links _ _ hinode _ := by cases hinode

theorem homeRoots_items : LinkItems (storedItems homeRootItems) ∧
    ∃ y ∈ storedItems homeRootItems, y.1 = hashKey rootTreeDirObjectid defaultName ∧
      y.2 = [defaultRecord].flatMap DirRecord.pack := by
  decide +kernel

set_option maxRecDepth 100000 in
theorem homeRoots_at (root : Inode) : TreeAt (blockAt referenceEnv (homeFs root).chunkMap
    (homeFs root).geometry.nodesize homeVolume.device.answer) 0 (.leaf homeRoots)
      homeSuperblock.root := by
  obtain ⟨-, hroot, -⟩ := home_fields
  rw [hroot]
  exact ⟨homeRoots, rfl, home_blockAt homeRoots_read root, rfl⟩

set_option maxRecDepth 100000 in
theorem home_roots (root : Inode) : StoresRoots referenceEnv (homeFs root).trees
    homeVolume.device.answer home.link home.subvolume := by
  obtain ⟨hroots, -⟩ := homeRoots_items
  have htree : TreeAt (blockAt referenceEnv (homeFs root).trees.chunkMap
      (homeFs root).trees.nodesize homeVolume.device.answer) 0 (.leaf homeRoots)
        (homeFs root).trees.rootTreeRoot := homeRoots_at root
  exact hroots.stores (Nat.zero_le _) homeRoots_leaf htree

theorem home_stored (root : Inode) : home.Stored referenceEnv (homeFs root) homeVolume.device where
  roots := home_roots root
  trees treeRoot htree := by
    obtain ⟨id, item, hitem, -, rfl⟩ := htree
    unfold home at hitem
    dsimp only at hitem
    split_ifs at hitem
    · cases hitem
      exact ⟨0, _, homeTop_stored root⟩
    · cases hitem
      exact ⟨0, _, homeInner_stored root⟩

set_option maxRecDepth 100000 in
/-- The sample is an image of a volume, and its default subvolume is 256. -/
theorem home_volume : StoresVolume referenceEnv homeVolume.device 0x11000 homeSuperblock homeChunks
    home 256 where
  accepted offset hoffset := by
    obtain rfl : offset = 0x10000 := List.mem_singleton.mp hoffset
    rintro ⟨-, hrefused⟩
    have hbytes : homeVolume.device.bytes 0x10000 superblockSize = leBytes 4096 homeSuperPage :=
      @home_bytes 16 _ rfl
    rw [hbytes] at hrefused
    exact hrefused.incompat (ValidCopy.incompat homeSuper_valid)
  newest := by
    have hcopy : validCopy referenceEnv homeVolume.device 0x10000 = some homeSuperblock :=
      validCopy_of_bytes (SliceDevice.serves_iff.mpr (by decide)) (@home_bytes 16 _ rfl)
        homeSuper_valid
    have hcopies : validCopies referenceEnv homeVolume.device 0x11000 = [homeSuperblock] := by
      show List.filterMap _ [0x10000] = _
      rw [List.filterMap_cons_some hcopy, List.filterMap_nil]
    rw [hcopies]
    exact rfl
  chunks := by
    obtain ⟨-, -, hchunkRoot, -, hnodesize, -, hsize, harray⟩ := home_fields
    refine ⟨[systemChunk], homeSuperblock.sysChunkArray.drop 97,
      fun r hr => List.mem_cons_of_mem _ hr, ⟨by decide, by decide, by decide⟩, ?_, ?_, 0,
      Nat.zero_le _, .leaf homeChunkLeaf, ?_, homeChunkLeaf_holds⟩
    · rw [packArray, List.flatMap_singleton, ← harray, List.take_append_drop]
    · rw [hsize]
      decide
    · rw [mapOf_home, hnodesize, hchunkRoot]
      exact ⟨homeChunkLeaf, rfl, homeChunks_read, rfl⟩
  files := home_stored
  default := by
    obtain ⟨-, y, hy, hkey, hpack⟩ := homeRoots_items
    obtain ⟨x, hx, hxy, hdata⟩ := TreeHolds.exists_item homeRoots_leaf hy
    exact ⟨0, Nat.zero_le _, .leaf homeRoots, homeRoots_at topDir, some 256,
      .inl ⟨x, hx, hxy.trans hkey, [defaultRecord], hdata.trans (congrArg _ hpack), by decide⟩,
      rfl⟩

namespace Btrfs

set_option maxRecDepth 100000 in
/-- The sample opens at its default subvolume, and by the path `/s` at the same one. -/
theorem opens_sample :
    (openDefault referenceEnv 0x11000).run homeVolume.device.answer =
        .ok (homeFs { subvol := 256, treeRoot := 0x102000, objectid := 256 }) ∧
    (openSubvolPath referenceEnv 0x11000 ⟨[47, 115]⟩).run homeVolume.device.answer =
        .ok (homeFs { subvol := 256, treeRoot := 0x102000, objectid := 256 }) := by
  obtain ⟨hdefault, -⟩ := opens referenceEnv_usize64 home_volume .default
  obtain ⟨hpath, -⟩ := opens referenceEnv_usize64 home_volume (.subvolPath ⟨[47, 115]⟩)
  have hroot : home.openAt 256 .default =
      .ok { subvol := 256, treeRoot := 0x102000, objectid := 256 } := by
    rfl
  have htarget : home.openAt 256 (.subvolPath ⟨[47, 115]⟩) =
      .ok { subvol := 256, treeRoot := 0x102000, objectid := 256 } := by
    rfl
  rw [hroot] at hdefault
  rw [htarget] at hpath
  exact ⟨hdefault, hpath⟩

theorem topDir_known : home.Known topDir := ⟨⟨5, ⟨0x101000, 1⟩, rfl, by decide, rfl⟩, by decide⟩

set_option maxRecDepth 100000 in
/-- The file of the sample is read by its path, by the link's target and, in part, by the
handle that resolving its path has given out. -/
theorem serves_sample :
    ((Request.readFile ⟨[47, 102]⟩).program referenceEnv (homeFs topDir)).run
        homeVolume.device.answer = .ok (.bytes [104, 101, 108, 108, 111]) ∧
    ((Request.readLink ⟨[47, 108]⟩).program referenceEnv (homeFs topDir)).run
        homeVolume.device.answer = .ok (.bytes [102]) ∧
    ((Request.readFileAt { topDir with objectid := 257 } 1 [0, 0, 0]).program referenceEnv
      (homeFs topDir)).run homeVolume.device.answer = .ok (.count 3 [101, 108, 108]) := by
  have hanswers : ∀ {r : Request}, (∀ inode, r.handle = some inode →
      Held (fun r => (r.program referenceEnv (homeFs topDir)).run homeVolume.device.answer) inode) →
      ∀ {reply}, home.reply topDir r = .ok reply →
        (r.program referenceEnv (homeFs topDir)).run homeVolume.device.answer = .ok reply :=
    fun hheld _ hreply => (serves referenceEnv_usize64 (home_stored topDir) homeVolume.bytewise
      topDir_known hheld).returns hreply
  have hresolve := @hanswers (.resolve ⟨[47, 102]⟩) (fun _ h => by cases h)
    (.inode { topDir with objectid := 257 }) rfl
  refine ⟨hanswers (fun _ h => by cases h) rfl, hanswers (fun _ h => by cases h) rfl,
    hanswers (fun inode h => ?_) rfl⟩
  cases h
  exact .got (fun _ h => by cases h) hresolve (List.mem_singleton_self _)

end Btrfs
