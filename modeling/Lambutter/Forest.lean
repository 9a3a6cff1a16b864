/-
The forest of subvolumes, and paths through it.

A mount shows a volume as a forest: each subvolume is a tree of directories, a
directory maps names to locations, and the root tree says where a subvolume hangs
(`Forest`).  `Forest.walk` is the walk of a path in these terms, with no blocks, hashes
or packed records in it.

On an image that stores a forest (`Forest.Stored`) walking a path is that walk
(`resolvePath_walk`); one lemma says so for each of the three trees a component may
consult.
-/
import Lambutter.Listing

open Ranges SearchTree

/-! ### Forests -/

structure Forest where
  /-- The location a name has in a directory of the tree at `treeRoot`. -/
  entry : (treeRoot dir : ℕ) → (name : List UInt8) → Option DiskKey
  /-- The directory and the name under which a subvolume hangs in its parent. -/
  link : (parent child : ℕ) → Option (ℕ × List UInt8)
  subvolume : (id : ℕ) → Option RootItem

inductive WalkError
  | notFound
  /-- A location that is neither an inode nor a subvolume. -/
  | badLocation
  deriving DecidableEq, Repr

namespace Forest

variable (F : Forest)

/-- The root directory of a subvolume that has references left. -/
def root (id : ℕ) : Except WalkError Inode :=
  match F.subvolume id with
  | none => .error .notFound
  | some item =>
    if item.refs = 0 then .error .notFound
    else .ok { subvol := id, treeRoot := item.bytenr, objectid := firstFreeObjectid }

/-- Where the entry `name` of `dir` leads. -/
def enter (dir : Inode) (name : List UInt8) (location : DiskKey) : Except WalkError Inode :=
  if location.itemType = inodeItemKey then .ok { dir with objectid := location.objectid }
  else if location.itemType = rootItemKey then
    if F.link dir.subvol location.objectid = some (dir.objectid, name) then
      F.root location.objectid
    else .ok { dir with objectid := emptySubvolDirObjectid }
  else .error .badLocation

def step (dir : Inode) (name : List UInt8) : Except WalkError Inode :=
  match F.entry dir.treeRoot dir.objectid name with
  | none => .error .notFound
  | some location => F.enter dir name location

def walk (start : Inode) (names : List (List UInt8)) : Except WalkError Inode :=
  names.foldlM F.step start

end Forest

/-! ### Images that store one -/

/-- A `ROOT_REF` item's data. -/
structure RootRefRecord where
  dirid : UInt64
  sequence : UInt64
  name : List UInt8
  name_lt : name.length < 2 ^ 16

namespace RootRefRecord

def fields (r : RootRefRecord) : List (ℕ × ℕ) :=
  [(8, r.dirid.toNat), (8, r.sequence.toNat), (2, r.name.length)]

def pack (r : RootRefRecord) : List UInt8 := fieldBytes r.fields ++ r.name

theorem length_fields (r : RootRefRecord) : (fieldBytes r.fields).length = 18 :=
  length_fieldBytes r.fields

theorem fields_fit (r : RootRefRecord) : ∀ f ∈ r.fields, f.2 < 256 ^ f.1 := by
  simp only [fields, List.forall_mem_cons, List.not_mem_nil, false_implies, implies_true, and_true]
  exact ⟨r.dirid.toNat_lt, r.sequence.toNat_lt, r.name_lt⟩

theorem length_pack (r : RootRefRecord) : r.pack.length = 18 + r.name.length := by
  rw [pack, List.length_append, length_fields]

end RootRefRecord

section Stored

variable (env : Env) (trees : Trees) (g : (q : ReadReq) → Ans q)

/-- The tree at `root` is well-formed, holds nothing of the empty directory, and its
hashed items pack unencrypted records; `entry` is what they say. -/
def StoresEntries (root : ℕ) (entry : (dir : ℕ) → (name : List UInt8) → Option DiskKey) : Prop :=
  ∃ n ≤ maxTreeDepth, ∃ t : Tree DiskKey TreeBlock n,
    TreeAt (blockAt env trees.chunkMap trees.nodesize g) n t root ∧
    (∀ x ∈ located n t, x.2.key.objectid ≠ emptySubvolDirObjectid) ∧
    (∀ x ∈ located n t, x.2.key.itemType = dirItemKey → ∃ bucket, Holds env x bucket ∧
      (∀ r ∈ bucket, r.Plain) ∧ ∀ name, x.2.key = hashKey x.2.key.objectid name →
        entry x.2.key.objectid name = (recordOf name bucket).map DirRecord.location) ∧
    ∀ dir name, (∀ x ∈ located n t, x.2.key ≠ hashKey dir name) → entry dir name = none

/-- The root tree is well-formed; `link` is what its `ROOT_REF` items say, `subvolume`
what its `ROOT_ITEM`s say. -/
def StoresRoots (link : (parent child : ℕ) → Option (ℕ × List UInt8))
    (subvolume : (id : ℕ) → Option RootItem) : Prop :=
  ∃ n ≤ maxTreeDepth, ∃ t : Tree DiskKey TreeBlock n,
    TreeAt (blockAt env trees.chunkMap trees.nodesize g) n t trees.rootTreeRoot ∧
    (∀ x ∈ located n t, x.2.key.itemType = rootRefKey → ∃ r : RootRefRecord,
      x.1.leafItemData env x.2 = .ok r.pack ∧
      link x.2.key.objectid x.2.key.offset = some (r.dirid.toNat, r.name)) ∧
    (∀ parent child, (∀ x ∈ located n t, x.2.key ≠ ⟨parent, rootRefKey, child⟩) →
      link parent child = none) ∧
    (∀ x ∈ located n t, x.2.key.itemType = rootItemKey → ∃ data,
      x.1.leafItemData env x.2 = .ok data ∧ RootItem.minSize ≤ data.length ∧
      subvolume x.2.key.objectid = some (RootItem.readAt data 0)) ∧
    ∀ id, (∀ x ∈ located n t, isOf id rootItemKey x.2 = false) → subvolume id = none

/-- The image stores the forest, as far as a walk from `start` can see it. -/
structure Forest.Stored (F : Forest) (start : Inode) : Prop where
  roots : StoresRoots env trees g F.link F.subvolume
  top : StoresEntries env trees g start.treeRoot (F.entry start.treeRoot)
  subvolumes : ∀ parent child item, F.link parent child ≠ none →
    F.subvolume child = some item → item.refs ≠ 0 →
      StoresEntries env trees g item.bytenr (F.entry item.bytenr)

end Stored

section Items

variable {env : Env} {trees : Trees} {g : (q : ReadReq) → Ans q} {n : ℕ} (hn : n ≤ maxTreeDepth)
  {t : Tree DiskKey TreeBlock n} {items : List (DiskKey × List UInt8)}

include hn

/-- A tree with known items stores the entries that its packed items hold. -/
theorem TreeHolds.storesEntries (h : TreeHolds env n t items) {treeRoot : ℕ}
    (htree : TreeAt (blockAt env trees.chunkMap trees.nodesize g) n t treeRoot)
    {entry : (dir : ℕ) → (name : List UInt8) → Option DiskKey}
    (hproper : ∀ y ∈ items, y.1.objectid ≠ emptySubvolDirObjectid)
    (hbuckets : ∀ y ∈ items, y.1.itemType = dirItemKey → ∃ bucket : List DirRecord,
      y.2 = bucket.flatMap DirRecord.pack ∧ (∀ r ∈ bucket, r.Plain) ∧
      ∀ name, y.1 = hashKey y.1.objectid name →
        entry y.1.objectid name = (recordOf name bucket).map DirRecord.location)
    (hfound : ∀ dir name, entry dir name ≠ none → ∃ y ∈ items, y.1 = hashKey dir name) :
    StoresEntries env trees g treeRoot entry := by
  refine ⟨n, hn, t, htree, fun x hx => ?_, fun x hx hty => ?_, fun dir name habsent => ?_⟩
  · obtain ⟨y, hy, hkey, -⟩ := h.item hx
    rw [hkey]
    exact hproper y hy
  · obtain ⟨y, hy, hkey, hdata⟩ := h.item hx
    rw [hkey] at hty ⊢
    obtain ⟨bucket, hpack, hplain, hentry⟩ := hbuckets y hy hty
    exact ⟨bucket, hdata.trans (congrArg _ hpack), hplain, hentry⟩
  · by_contra hentry
    obtain ⟨y, hy, hkey⟩ := hfound dir name hentry
    obtain ⟨x, hx, hxy, -⟩ := h.exists_item hy
    exact habsent x hx (hxy.trans hkey)

/-- A root tree with known items stores the links and subvolumes that they hold. -/
theorem TreeHolds.storesRoots (h : TreeHolds env n t items)
    (htree : TreeAt (blockAt env trees.chunkMap trees.nodesize g) n t trees.rootTreeRoot)
    {link : (parent child : ℕ) → Option (ℕ × List UInt8)} {subvolume : (id : ℕ) → Option RootItem}
    (hrefs : ∀ y ∈ items, y.1.itemType = rootRefKey → ∃ r : RootRefRecord, y.2 = r.pack ∧
      link y.1.objectid y.1.offset = some (r.dirid.toNat, r.name))
    (hlinked : ∀ parent child, link parent child ≠ none →
      ∃ y ∈ items, y.1 = ⟨parent, rootRefKey, child⟩)
    (hroots : ∀ y ∈ items, y.1.itemType = rootItemKey → RootItem.minSize ≤ y.2.length ∧
      subvolume y.1.objectid = some (RootItem.readAt y.2 0))
    (hrooted : ∀ id, subvolume id ≠ none →
      ∃ y ∈ items, y.1.objectid = id ∧ y.1.itemType = rootItemKey) :
    StoresRoots env trees g link subvolume := by
  refine ⟨n, hn, t, htree, fun x hx hty => ?_, fun parent child habsent => ?_,
    fun x hx hty => ?_, fun id habsent => ?_⟩
  · obtain ⟨y, hy, hkey, hdata⟩ := h.item hx
    rw [hkey] at hty ⊢
    obtain ⟨r, hpack, hlink⟩ := hrefs y hy hty
    exact ⟨r, hdata.trans (congrArg _ hpack), hlink⟩
  · by_contra hlink
    obtain ⟨y, hy, hkey⟩ := hlinked parent child hlink
    obtain ⟨x, hx, hxy, -⟩ := h.exists_item hy
    exact habsent x hx (hxy.trans hkey)
  · obtain ⟨y, hy, hkey, hdata⟩ := h.item hx
    rw [hkey] at hty ⊢
    exact ⟨y.2, hdata, hroots y hy hty⟩
  · by_contra hitem
    obtain ⟨y, hy, rfl, hty⟩ := hrooted id hitem
    obtain ⟨x, hx, hmine⟩ := h.exists_isOf hy
    rw [hty, habsent x hx] at hmine
    cases hmine

end Items

/-- A result of the reference walk, as the code reports it. -/
def Reports (result : Except WalkError Inode) (outcome : Outcome Inode) : Prop :=
  match result with
  | .ok inode => outcome = .ok inode
  | .error .notFound => outcome = err .notFound
  | .error .badLocation => ∃ leaf, outcome = err (.corruptBtree "dir_entry_location" leaf)

section Walk

variable {env : Env} (h64 : env.usizeBits = 64) {trees : Trees} {g : (q : ReadReq) → Ans q}

include h64

/-- The root tree's word on a subvolume. -/
theorem subvolRoot_run {F : Forest} (hroots : StoresRoots env trees g F.link F.subvolume) (id : ℕ) :
    Reports (F.root id) ((subvolRoot env trees id).run g) := by
  obtain ⟨n, hn, t, htree, -, -, hitems, hnone⟩ := hroots
  obtain ⟨found, hrun, hfound⟩ := run_findFirstOf h64 trees.validNodesize g hn htree id rootItemKey
  have hlook : (lookupRootItem env trees id).run g = .ok (F.subvolume id) := by
    unfold lookupRootItem
    rw [Prog.run_bind, hrun, Except.ok_bind]
    cases hitem : ((located n t).filter fun x => isOf id rootItemKey x.2).head? with
    | none =>
      rw [hitem] at hfound
      rw [List.head?_eq_none_iff, List.filter_eq_nil_iff] at hitem
      rw [hnone id fun x hx => Bool.eq_false_iff.mpr (hitem x hx)]
      rcases found with _ | ⟨leaf, i⟩
      · rfl
      · obtain ⟨item, hget, hother⟩ := hfound leaf i rfl
        simp only [Prog.run_bind, Prog.run_liftM]
        rw [hget, Except.ok_bind, if_pos (by
          rw [← Bool.not_eq_true, isOf_iff] at hother
          tauto)]
        rfl
    | some x =>
      rw [hitem] at hfound
      obtain ⟨i, rfl, hget⟩ := hfound
      obtain ⟨hx, hmine⟩ := List.mem_filter.mp (List.mem_of_head? hitem)
      obtain ⟨rfl, hty⟩ := isOf_iff.mp hmine
      obtain ⟨data, hdata, hlen, hsub⟩ := hitems x hx hty
      have hlen' : ¬ data.length < 239 := not_lt.mpr hlen
      simp only [Prog.run_bind, Prog.run_liftM]
      rw [hget, Except.ok_bind, if_neg (by simp [hty])]
      simp only [Prog.run_bind, Prog.run_liftM]
      rw [hdata, Except.ok_bind, RootItem.parse_eq h64, if_neg hlen', hsub]
      rfl
  unfold subvolRoot
  rw [Prog.run_bind, hlook, Except.ok_bind, Prog.run_bind, Prog.run_liftM]
  unfold Forest.root
  cases F.subvolume id with
  | none => rfl
  | some item =>
    show Reports _ ((Except.ok item : Outcome RootItem) >>= _)
    rw [Except.ok_bind]
    dsimp only
    split_ifs
    · rfl
    · rfl

/-- The root tree's word on a link. -/
theorem rootRefLinks_run {F : Forest} (hroots : StoresRoots env trees g F.link F.subvolume)
    (link : SubvolLink) :
    (rootRefLinks env trees link).run g =
      .ok (decide (F.link link.parent link.child = some (link.dirid, link.name))) := by
  obtain ⟨n, hn, t, htree, hlinks, hnone, -, -⟩ := hroots
  obtain ⟨r, hrun, hr, hsome⟩ := run_findExact h64 trees.validNodesize g hn htree
    ⟨link.parent, rootRefKey, link.child⟩
  unfold rootRefLinks
  rw [Prog.run_bind, hrun, Except.ok_bind]
  rcases r with _ | ⟨leaf, i⟩
  · rw [hnone link.parent link.child fun x hx =>
      hr rfl x.2 (located_snd n t ▸ List.mem_map_of_mem hx)]
    rfl
  obtain ⟨hleaf, item, hget, hitem, hkey⟩ := hsome leaf i rfl
  obtain ⟨ref, hdata, href⟩ := hlinks (leaf, item)
    (List.mem_flatMap.mpr ⟨leaf, hleaf, List.mem_map_of_mem hitem⟩)
    (congrArg DiskKey.itemType hkey)
  dsimp only at hdata href
  rw [hkey] at href
  -- the fields where the code reads them
  have hlen := ref.length_pack
  have hdirid : leAt ref.pack 0 8 = ref.dirid.toNat :=
    leAt_fieldBytes ref.fields_fit ref.name 0 (by decide : 0 < 3)
  have hnameLen : leAt ref.pack 16 2 = ref.name.length :=
    leAt_fieldBytes ref.fields_fit ref.name 2 (by decide : 2 < 3)
  have hname : slice ref.pack 18 (18 + ref.name.length) = .ok ref.name := by
    rw [slice_ok (by omega) (by omega), Nat.add_sub_cancel_left]
    unfold RootRefRecord.pack
    rw [List.drop_left' ref.length_fields, List.take_length]
  have hlt := ref.name_lt
  simp only [Prog.run_bind, Prog.run_liftM]
  rw [hget, Except.ok_bind, hdata, Except.ok_bind, if_neg (by omega)]
  simp only [Prog.run_bind, Prog.run_liftM, readLeU64, readLeU16]
  rw [readLe_ok (by omega), Except.ok_bind, readLe_ok (by omega), Except.ok_bind, hdirid, hnameLen,
    Env.addUsize_ok h64 (by omega), Except.ok_bind, if_neg (by omega)]
  simp only [Prog.run_bind, Prog.run_liftM, Prog.run_pure]
  rw [hname, Except.ok_bind, href]
  refine congrArg Except.ok ?_
  rw [Bool.eq_iff_iff]
  simp

/-- The target of an entry. -/
theorem entryTarget_run {F : Forest} (hroots : StoresRoots env trees g F.link F.subvolume)
    (dir : Inode) (name : List UInt8) (location : DiskKey) (l : ℕ) :
    Reports (F.enter dir name location) ((entryTarget env trees dir name location l).run g) := by
  unfold Forest.enter entryTarget
  by_cases hinode : location.itemType = inodeItemKey
  · rw [if_pos hinode, if_pos hinode]
    rfl
  rw [if_neg hinode, if_neg hinode]
  by_cases hroot : location.itemType = rootItemKey
  · rw [if_pos hroot, if_pos hroot]
    dsimp only
    rw [Prog.run_bind, rootRefLinks_run h64 hroots, Except.ok_bind]
    dsimp only
    by_cases hlink : F.link dir.subvol location.objectid = some (dir.objectid, name)
    · rw [if_pos hlink, if_pos (decide_eq_true hlink)]
      exact subvolRoot_run h64 hroots _
    · rw [if_neg hlink, if_neg (by simpa using hlink)]
      rfl
  · rw [if_neg hroot, if_neg hroot]
    exact ⟨l, rfl⟩

/-- One component. -/
theorem lookupInDir_run {F : Forest} (hroots : StoresRoots env trees g F.link F.subvolume)
    {dir : Inode} (hdir : StoresEntries env trees g dir.treeRoot (F.entry dir.treeRoot))
    (name : List UInt8) :
    Reports (F.step dir name) ((lookupInDir env trees dir name).run g) := by
  obtain ⟨n, hn, t, htree, -, hbuckets, hnone⟩ := hdir
  unfold Forest.step
  by_cases hitem : ∃ x ∈ located n t, x.2.key = hashKey dir.objectid name
  · obtain ⟨x, hx, hkey⟩ := hitem
    obtain ⟨bucket, hheld, hplain, hentry⟩ := hbuckets x hx (congrArg DiskKey.itemType hkey)
    have hoid : x.2.key.objectid = dir.objectid := congrArg DiskKey.objectid hkey
    rw [hoid] at hentry
    rw [hentry name hkey, lookupInDir_bucket h64 hn htree hx hkey hheld hplain]
    cases hfound : recordOf name bucket with
    | none => rfl
    | some r =>
      obtain ⟨-, rfl⟩ := recordOf_eq_some hfound
      exact entryTarget_run h64 hroots _ _ _ _
  · have habsent : ∀ x ∈ located n t, x.2.key ≠ hashKey dir.objectid name :=
      fun x hx hkey => hitem ⟨x, hx, hkey⟩
    rw [hnone dir.objectid name habsent, lookupInDir_absent h64 hn htree habsent]
    rfl

omit h64 in
/-- Each step stays in a tree that is stored. -/
theorem Forest.Stored.step {F : Forest} {dir : Inode} (h : F.Stored env trees g dir)
    {name : List UInt8} {next : Inode} (hstep : F.step dir name = .ok next) :
    F.Stored env trees g next := by
  have hroot : ∀ id, F.link dir.subvol id ≠ none → F.root id = .ok next →
      F.Stored env trees g next := by
    intro id hlink hid
    unfold Forest.root at hid
    split at hid
    · cases hid
    · rename_i item hitem
      split_ifs at hid with hrefs
      cases hid
      exact ⟨h.roots, h.subvolumes _ id item hlink hitem hrefs, h.subvolumes⟩
  unfold Forest.step at hstep
  split at hstep
  · cases hstep
  · unfold Forest.enter at hstep
    split_ifs at hstep with hinode hroot' hlink
    · cases hstep
      exact ⟨h.roots, h.top, h.subvolumes⟩
    · exact hroot _ (by rw [hlink]; exact Option.some_ne_none _) hstep
    · cases hstep
      exact ⟨h.roots, h.top, h.subvolumes⟩

/-- The empty directory lists nothing, and nothing is found in it. -/
theorem emptyDir_run {F : Forest} {dir : Inode} (h : F.Stored env trees g dir)
    (hempty : dir.objectid = emptySubvolDirObjectid) :
    (readDir env trees dir).run g = .ok [] ∧
      ∀ name, (lookupInDir env trees dir name).run g = err .notFound := by
  obtain ⟨n, hn, t, htree, hnot, -, -⟩ := h.top
  constructor
  · have hnil : indexItems n t dir.objectid = [] :=
      List.filter_eq_nil_iff.mpr fun x hx hmine =>
        hnot x hx ((isOf_iff.mp hmine).1.trans hempty)
    rw [readDir_run h64 hn htree (by rw [hempty]; decide), hnil]
    rfl
  · intro name
    refine lookupInDir_absent h64 hn htree fun x hx hkey => hnot x hx ?_
    exact (congrArg DiskKey.objectid hkey).trans hempty

/-- Walking a path is the walk through the forest; where it ends in the empty directory
of a subvolume, that directory is empty indeed. -/
theorem resolvePath_walk {F : Forest} {start : Inode} (hstored : F.Stored env trees g start)
    (path : Btrfs.Path) :
    Reports (F.walk start path.components) ((resolvePath env trees start path).run g) ∧
    ∀ dir, F.walk start path.components = .ok dir → dir.objectid = emptySubvolDirObjectid →
      (readDir env trees dir).run g = .ok [] ∧
        ∀ name, (lookupInDir env trees dir name).run g = err .notFound := by
  unfold Forest.walk resolvePath
  -- on the components: a lookup either steps in the forest or fails as the forest does
  induction path.components generalizing start with
  | nil =>
    refine ⟨rfl, fun dir hdir hempty => ?_⟩
    cases hdir
    exact emptyDir_run h64 hstored hempty
  | cons name rest ih =>
    have hlookup := lookupInDir_run h64 hstored.roots hstored.top name
    rw [List.foldlM_cons, List.foldlM_cons, Prog.run_bind]
    cases hstep : F.step start name with
    | ok next =>
      rw [hstep] at hlookup
      rw [show (lookupInDir env trees start name).run g = .ok next from hlookup, Except.ok_bind,
        Except.ok_bind]
      exact ih (hstored.step hstep)
    | error e =>
      rw [hstep] at hlookup
      refine ⟨?_, fun dir hdir => by cases hdir⟩
      cases e with
      | notFound =>
        rw [show (lookupInDir env trees start name).run g = err .notFound from hlookup]
        rfl
      | badLocation =>
        obtain ⟨leaf, hleaf⟩ := hlookup
        rw [hleaf]
        exact ⟨leaf, rfl⟩

end Walk

/-! ### The sample forest -/

/-- The records that share a hash in the directory of the tree at `treeRoot`. -/
def forestBucket (treeRoot hash : ℕ) : List DirRecord :=
  if treeRoot = 0x101000 then sampleBucket hash
  else if hash = 0x3d218854 then pick [1] else []

def sampleForest : Forest where
  entry treeRoot dir name :=
    if dir = firstFreeObjectid then
      (recordOf name (forestBucket treeRoot (nameHash name))).map DirRecord.location
    else none
  link parent child :=
    if parent = 5 ∧ child = firstFreeObjectid then some (firstFreeObjectid, [115]) else none
  subvolume id :=
    if id = 5 then some ⟨0x101000, 1⟩
    else if id = firstFreeObjectid then some ⟨0x102000, 1⟩ else none

def sampleRootRef : RootRefRecord where
  dirid := 256
  sequence := 3
  name := [115]
  name_lt := sampleName_lt

/-- The items are those of the directory of the tree at `treeRoot`. -/
def ForestItems (treeRoot : ℕ) (items : List (DiskKey × List UInt8)) : Prop :=
  (∀ y ∈ items, y.1.objectid = firstFreeObjectid) ∧
    (∀ y ∈ items, y.1.itemType = dirItemKey →
      y.2 = (forestBucket treeRoot y.1.offset).flatMap DirRecord.pack ∧
        ∀ r ∈ forestBucket treeRoot y.1.offset, r.Plain) ∧
    ∀ hash ∈ [0x1113aca4, 0x3d218854], forestBucket treeRoot hash ≠ [] →
      ∃ y ∈ items, y.1 = ⟨firstFreeObjectid, dirItemKey, hash⟩

instance (treeRoot : ℕ) (items : List (DiskKey × List UInt8)) :
    Decidable (ForestItems treeRoot items) :=
  inferInstanceAs (Decidable (_ ∧ _))

/-- The items are those of a root tree with the sample's link and subvolumes. -/
def LinkItems (items : List (DiskKey × List UInt8)) : Prop :=
  (∀ y ∈ items, y.1.itemType = rootRefKey → y.2 = sampleRootRef.pack ∧
      sampleForest.link y.1.objectid y.1.offset =
        some (sampleRootRef.dirid.toNat, sampleRootRef.name)) ∧
    (∃ y ∈ items, y.1 = ⟨5, rootRefKey, firstFreeObjectid⟩) ∧
    (∀ y ∈ items, y.1.itemType = rootItemKey → RootItem.minSize ≤ y.2.length ∧
      sampleForest.subvolume y.1.objectid = some (RootItem.readAt y.2 0)) ∧
    ∀ id ∈ [5, firstFreeObjectid], ∃ y ∈ items,
      y.1.objectid = id ∧ y.1.itemType = rootItemKey

instance (items : List (DiskKey × List UInt8)) : Decidable (LinkItems items) :=
  inferInstanceAs (Decidable (_ ∧ _))

theorem LinkItems.stores {items : List (DiskKey × List UInt8)} (hitems : LinkItems items)
    {trees : Trees} {g : (q : ReadReq) → Ans q} {n : ℕ} (hn : n ≤ maxTreeDepth)
    {t : Tree DiskKey TreeBlock n} (h : TreeHolds referenceEnv n t items)
    (htree : TreeAt (blockAt referenceEnv trees.chunkMap trees.nodesize g) n t
      trees.rootTreeRoot) :
    StoresRoots referenceEnv trees g sampleForest.link sampleForest.subvolume := by
  obtain ⟨hrefs, hlinked, hroots, hrooted⟩ := hitems
  refine h.storesRoots hn htree (fun y hy hty => ⟨sampleRootRef, hrefs y hy hty⟩)
    (fun parent child hlink => ?_) hroots fun id hitem => hrooted id ?_
  · by_cases hlinks : parent = 5 ∧ child = firstFreeObjectid
    · obtain ⟨rfl, rfl⟩ := hlinks
      exact hlinked
    · exact absurd (if_neg hlinks) hlink
  · by_contra hnot
    rw [List.mem_cons, List.mem_singleton, not_or] at hnot
    refine hitem ?_
    show (if _ then _ else if _ then _ else _) = none
    rw [if_neg hnot.1, if_neg hnot.2]

theorem forest_items : LinkItems (storedItems rootItems) ∧
    ForestItems 0x101000 (storedItems topItems) ∧
    ForestItems 0x102000 (storedItems innerItems) := by
  decide +kernel

theorem forestBucket_mem {treeRoot hash : ℕ} (h : forestBucket treeRoot hash ≠ []) :
    hash ∈ [0x1113aca4, 0x3d218854] := by
  by_contra hnot
  rw [List.mem_cons, List.mem_singleton, not_or] at hnot
  refine h ?_
  unfold forestBucket sampleBucket
  rw [if_neg hnot.1, if_neg hnot.2, ite_self]

/-- A tree with the directory of `treeRoot` in it. -/
theorem stores_items {leaf : TreeBlock} {treeRoot : ℕ} {items : List (DiskKey × List UInt8)}
    (htree : TreeAt (blockAt referenceEnv sampleMap 4096 forestVolume.device.answer) 0
      (.leaf leaf) treeRoot)
    (hholds : TreeHolds referenceEnv 0 (.leaf leaf) items) (h : ForestItems treeRoot items) :
    StoresEntries referenceEnv sampleTrees forestVolume.device.answer treeRoot
      (sampleForest.entry treeRoot) := by
  obtain ⟨hoid, hbuckets, hhashes⟩ := h
  refine hholds.storesEntries (Nat.zero_le _) htree (fun y hy => ?_) (fun y hy hty => ?_)
    fun dir name hentry => ?_
  · rw [hoid y hy]
    decide
  · obtain ⟨hpack, hplain⟩ := hbuckets y hy hty
    refine ⟨_, hpack, hplain, fun name hkey => ?_⟩
    have hhash : y.1.offset = nameHash name := congrArg DiskKey.offset hkey
    rw [hhash]
    exact if_pos (hoid y hy)
  · by_cases hdir : dir = firstFreeObjectid
    · have hne : forestBucket treeRoot (nameHash name) ≠ [] := by
        intro hnil
        refine hentry ?_
        show (if _ then _ else _) = none
        rw [if_pos hdir, hnil]
        rfl
      rw [hdir]
      exact hhashes _ (forestBucket_mem hne) hne
    · exact absurd (if_neg hdir) hentry

theorem stores_roots : StoresRoots referenceEnv sampleTrees forestVolume.device.answer
    sampleForest.link sampleForest.subvolume := by
  obtain ⟨hroots, -⟩ := forest_items
  have htree : TreeAt (blockAt referenceEnv sampleTrees.chunkMap sampleTrees.nodesize
      forestVolume.device.answer) 0 (.leaf rootLeaf) sampleTrees.rootTreeRoot := rootTree_at
  exact hroots.stores (Nat.zero_le _) rootTree_holds htree

theorem stores_top : StoresEntries referenceEnv sampleTrees forestVolume.device.answer 0x101000
    (sampleForest.entry 0x101000) := by
  obtain ⟨-, htop, -⟩ := forest_items
  exact stores_items topTree_at topTree_holds htop

theorem stores_inner : StoresEntries referenceEnv sampleTrees forestVolume.device.answer 0x102000
    (sampleForest.entry 0x102000) := by
  obtain ⟨-, -, hinner⟩ := forest_items
  exact stores_items innerTree_at innerTree_holds hinner

theorem sampleForest_stored :
    sampleForest.Stored referenceEnv sampleTrees forestVolume.device.answer topDir where
  roots := stores_roots
  top := stores_top
  subvolumes parent child item hlink hitem _ := by
    have hchild : child = firstFreeObjectid := by
      by_contra hne
      exact hlink (if_neg fun h => hne h.2)
    subst hchild
    cases (show some (⟨0x102000, 1⟩ : RootItem) = some item from hitem)
    exact stores_inner

set_option maxRecDepth 100000 in
/-- `/s` crosses into the subvolume, where the entry `s` is left over from a snapshot:
nothing links it, and `/s/s` is an empty directory. -/
theorem resolvePath_sample :
    (resolvePath referenceEnv sampleTrees topDir ⟨[47, 115]⟩).run forestVolume.device.answer =
        .ok { subvol := 256, treeRoot := 0x102000, objectid := 256 } ∧
    (resolvePath referenceEnv sampleTrees topDir ⟨[47, 115, 47, 115]⟩).run
        forestVolume.device.answer = .ok { subvol := 256, treeRoot := 0x102000, objectid := 2 } ∧
    (readDir referenceEnv sampleTrees { subvol := 256, treeRoot := 0x102000, objectid := 2 }).run
        forestVolume.device.answer = .ok [] := by
  obtain ⟨hone, -⟩ := resolvePath_walk referenceEnv_usize64 sampleForest_stored ⟨[47, 115]⟩
  obtain ⟨htwo, hempty⟩ :=
    resolvePath_walk referenceEnv_usize64 sampleForest_stored ⟨[47, 115, 47, 115]⟩
  have hwalks : sampleForest.walk topDir (Btrfs.Path.components ⟨[47, 115]⟩) =
        .ok { subvol := 256, treeRoot := 0x102000, objectid := 256 } ∧
      sampleForest.walk topDir (Btrfs.Path.components ⟨[47, 115, 47, 115]⟩) =
        .ok { subvol := 256, treeRoot := 0x102000, objectid := 2 } := by
    decide +kernel
  obtain ⟨hwalk₁, hwalk₂⟩ := hwalks
  rw [hwalk₁] at hone
  rw [hwalk₂] at htwo
  exact ⟨hone, htwo, (hempty _ hwalk₂ rfl).1⟩
