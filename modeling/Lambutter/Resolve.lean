/-
Paths and directories.

A path is split at slashes and walked one component at a time: each name is looked
up by its hash, and where an entry names a subvolume the walk crosses into that
subvolume's own tree (`entryTarget`).  Listing a directory is one more `Walk`, over
its `DIR_INDEX` items.
-/
import Lambutter.FileSafety
import Lambutter.RootTree

/-! ### Paths -/

/-- `b'/'` -/
abbrev slash : UInt8 := 47

/-- `b'.'` -/
abbrev dot : UInt8 := 46

structure Btrfs.Path where
  bytes : List UInt8
  deriving DecidableEq, Repr

/-- An absolute path. -/
def Btrfs.Path.new (bytes : List UInt8) : Option Btrfs.Path :=
  if bytes.head? ≠ some slash then none else some ⟨bytes⟩

/-- The next component and the bytes after it.  Each skipped `.` uses up a byte, so
one more call than there are bytes is enough. -/
def Components.next : ℕ → List UInt8 → Option (List UInt8 × List UInt8)
  | 0, _ => none
  | n + 1, bytes =>
    let bytes := bytes.dropWhile (· == slash)
    if bytes.isEmpty then none
    else
      let component := bytes.takeWhile (· != slash)
      let rest := bytes.dropWhile (· != slash)
      if component = [dot] then next n rest else some (component, rest)

/-- The components from some byte of a path on. -/
def Components.collect : ℕ → List UInt8 → List (List UInt8)
  | 0, _ => []
  | n + 1, bytes =>
    match Components.next (bytes.length + 1) bytes with
    | none => []
    | some (component, rest) => component :: collect n rest

def Btrfs.Path.components (path : Btrfs.Path) : List (List UInt8) :=
  Components.collect (path.bytes.length + 1) path.bytes

-- `//a/./b.c/..`
example : (Btrfs.Path.mk [47, 47, 97, 47, 46, 47, 98, 46, 99, 47, 46, 46]).components =
    [[97], [98, 46, 99], [46, 46]] := by decide

/-! ### Entries -/

/-- A listed entry; `inode` is what it leads to. -/
structure DirEntry where
  name : List UInt8
  inodeNumber : ℕ
  kindByte : ℕ
  inode : Inode
  deriving DecidableEq, Repr

section Resolve

variable (env : Env) (trees : Trees)

/-- What a directory entry leads to: a file of the same tree, the subvolume it links,
or the empty directory shown in place of one it does not. -/
def entryTarget (dir : Inode) (name : List UInt8) (location : DiskKey) (leafBytenr : ℕ) :
    ReadM Inode :=
  if location.itemType = inodeItemKey then return { dir with objectid := location.objectid }
  else if location.itemType = rootItemKey then do
    let link : SubvolLink :=
      { parent := dir.subvol, dirid := dir.objectid, name, child := location.objectid }
    if ← rootRefLinks env trees link then subvolRoot env trees location.objectid
    else return { dir with objectid := emptySubvolDirObjectid }
  else (err (.corruptBtree "dir_entry_location" leafBytenr) : Outcome Inode)

def lookupInDir (dir : Inode) (name : List UInt8) : ReadM Inode := do
  match ← findExact env trees.chunkMap trees.nodesize dir.treeRoot
      ⟨dir.objectid, dirItemKey, nameHash name⟩ with
  | none => (err .notFound : Outcome Inode)
  | some (leaf, idx) => do
    let item ← leaf.leafItem env idx
    let data ← leaf.leafItemData env item
    let found ← findEntry env data leaf.header.bytenr
      (fun entry =>
        if entry.ty &&& ftEncrypted ≠ 0 then err (.unsupportedFeature "feat_encryption")
        else .ok (entry.name == name)) (data.length + 1) 0
    match found with
    | none => (err .notFound : Outcome Inode)
    | some entry => entryTarget env trees dir name entry.location leaf.header.bytenr

def resolvePath (start : Inode) (path : Btrfs.Path) : ReadM Inode :=
  path.components.foldlM (lookupInDir env trees) start

def readDir.walk (dir : Inode) : Walk (List DirEntry) where
  nodesize := trees.nodesize
  root := dir.treeRoot
  chunkMap _ := trees.chunkMap
  proceed _ := true
  item leaf item out :=
    if item.key.objectid ≠ dir.objectid ∨ item.key.itemType ≠ dirIndexKey then
      return .leave out
    else do
      let data ← leaf.leafItemData env item
      let parsed ← DiskDirEntry.parse env data 0
      let (entry, _) ← okOr parsed (.corruptBtree "dir_index_short" leaf.header.bytenr)
      if entry.ty &&& ftEncrypted ≠ 0 then
        (err (.unsupportedFeature "feat_encryption") : Outcome (Pace (List DirEntry)))
      else
        let inode ← entryTarget env trees dir entry.name entry.location leaf.header.bytenr
        let listed : DirEntry :=
          { name := entry.name, inodeNumber := entry.location.objectid, kindByte := entry.ty,
            inode }
        return .more (out ++ [listed]) item.key.next

/-- The sought-after first key of a directory's listing. -/
def entriesFrom (objectid : ℕ) : DiskKey := ⟨objectid, dirIndexKey, 0⟩

def readDir (dir : Inode) : ReadM (List DirEntry) :=
  (readDir.walk env trees dir).run env Walk.fuel (entriesFrom dir.objectid) []

end Resolve

/-! ### No panics -/

theorem entriesFrom_bounded {objectid : ℕ} (h : objectid < 2 ^ 64) :
    (entriesFrom objectid).Bounded :=
  ⟨h, show dirIndexKey < 2 ^ 8 by decide, Nat.two_pow_pos 64⟩

/-- The inode number is a `u64`. -/
def Inode.Bounded (inode : Inode) : Prop := inode.objectid < 2 ^ 64

/-- The top directory of a subvolume has the number every tree gives it. -/
theorem rootNumber_bounded {root : Inode} (h : root.objectid = firstFreeObjectid) :
    root.Bounded := by
  rw [Inode.Bounded, h]
  decide

section Ensures

variable {env : Env} (h64 : env.usizeBits = 64) (trees : Trees)

theorem entryTarget_notes (dir : Inode) (name : List UInt8) (location : DiskKey)
    (leafBytenr : ℕ) : (entryTarget env trees dir name location leafBytenr).Notes Reading := by
  unfold entryTarget
  split_ifs
  · exact Prog.notes_pure _
  · refine Prog.Notes.bind (rootRefLinks_notes trees _) fun links => ?_
    split_ifs
    · exact subvolRoot_notes trees _
    · exact Prog.notes_pure _
  · exact Prog.notes_lift _

theorem readDir_item_notes (dir : Inode) (leaf : TreeBlock) (item : LeafItem)
    (out : List DirEntry) : ((readDir.walk env trees dir).item leaf item out).Notes PerItem := by
  dsimp only [readDir.walk]
  split_ifs
  · exact Prog.notes_pure _
  refine Prog.Notes.bind (Prog.notes_lift _) fun _ => ?_
  refine Prog.Notes.bind (Prog.notes_lift _) fun _ => ?_
  refine Prog.Notes.bind (Prog.notes_lift _) fun _ => ?_
  split_ifs
  · exact Prog.notes_lift _
  exact Prog.Notes.bind ((entryTarget_notes trees _ _ _ _).mono fun _ => Reading.perItem)
    fun _ => Prog.notes_pure _

include h64

theorem entryTarget_ensures (dir : Inode) (name : List UInt8) {location : DiskKey}
    (hlocation : location.Bounded) (leafBytenr : ℕ) :
    Prog.Ensures Stop.Typed (entryTarget env trees dir name location leafBytenr)
      Inode.Bounded := by
  unfold entryTarget
  split_ifs
  · exact Prog.Ensures.pure hlocation.objectid
  · refine Prog.Ensures.bind (rootRefLinks_ensures h64 trees _) fun links _ => ?_
    split_ifs
    · exact (subvolRoot_ensures h64 trees _).mono fun root => rootNumber_bounded
    · exact Prog.Ensures.pure (show emptySubvolDirObjectid < 2 ^ 64 by decide)
  · exact trivial

theorem lookupInDir_ensures (dir : Inode) (name : List UInt8) :
    Prog.Ensures Stop.Typed (lookupInDir env trees dir name) Inode.Bounded := by
  refine Prog.Ensures.bind (findExact_ensures h64 trees.validNodesize _ _) fun found hfound => ?_
  rcases found with _ | ⟨leaf, idx⟩
  · exact trivial
  have hfirst := (hfound leaf idx rfl).1
  obtain ⟨item, hitem, -, hok⟩ := hfirst.exists_item h64
  dsimp only
  rw [hok, liftM_ok_bind]
  refine Prog.Ensures.bind (ensures_lift (TreeBlock.leafItemData_safe h64 hitem)
    fun _ h => hfirst.accepted.leafItemData_length h) fun data hdata => ?_
  have hmax : maxNodeSize = 65536 := rfl
  have hwanted (entry : DiskDirEntry) :
      Outcome.Safe (if entry.ty &&& ftEncrypted ≠ 0 then err (.unsupportedFeature "feat_encryption")
        else .ok (entry.name == name)) := by
    split_ifs
    · exact Outcome.safe_err _
    · exact Outcome.safe_ok _
  refine Prog.Ensures.bind (P := fun found => ∀ entry, found = some entry → entry.location.Bounded)
    (ensures_lift (findEntry_safe h64 (by omega) hwanted _ _ (by omega) (by omega)) ?_)
    fun found hlocation => ?_
  · rintro _ hfound entry rfl
    exact findEntry_location h64 (by omega) hfound
  cases found with
  | none => exact trivial
  | some entry => exact entryTarget_ensures h64 trees _ _ (hlocation entry rfl) _

/-- Walking a path does not panic. -/
theorem resolvePath_ensures {start : Inode} (hstart : start.Bounded) (path : Btrfs.Path) :
    Prog.Ensures Stop.Typed (resolvePath env trees start path) Inode.Bounded := by
  unfold resolvePath
  induction path.components generalizing start with
  | nil => exact Prog.Ensures.pure hstart
  | cons name rest ih =>
    rw [List.foldlM_cons]
    exact Prog.Ensures.bind (lookupInDir_ensures h64 trees start name) fun _ hnext => ih hnext

theorem readDir_good (dir : Inode) :
    (readDir.walk env trees dir).Good Stop.Typed (fun out => ∀ e ∈ out, e.inode.Bounded)
      (fun out => ∀ e ∈ out, e.inode.Bounded) where
  quiet leaf item out _ _ := readDir_item_notes trees dir leaf item out
  step leaf item out hb _ hitem hout := by
    dsimp only [readDir.walk]
    split_ifs
    · exact hout
    refine Prog.Ensures.bind (ensures_lift (TreeBlock.leafItemData_safe h64 hitem)
      fun _ _ => trivial) fun data (_ : True) => ?_
    rw [DiskDirEntry.parse_eq h64 (by omega), liftM_ok_bind]
    refine Prog.Ensures.bind (ensures_lift (Outcome.safe_okOr _ _) fun _ ha => okOr_eq_ok.mp ha)
      fun entry hentry => ?_
    have hlocation : entry.1.location.Bounded := by
      split_ifs at hentry
      cases hentry
      exact DiskKey.readAt_bounded data 0
    split_ifs
    · exact trivial
    refine Prog.Ensures.bind (entryTarget_ensures h64 trees _ _ hlocation _) fun inode hinode =>
      Prog.Ensures.pure ⟨fun e he => ?_, fun t ht => next_past hitem t ht⟩
    rcases List.mem_append.mp he with he | he
    · exact hout e he
    · rw [List.mem_singleton.mp he]
      exact hinode
  done _ h := h
  typed _ h := h

/-- A listing takes the directory's entries in ascending order and does not panic. -/
theorem readDir_orderly {dir : Inode} (hino : dir.objectid < 2 ^ 64) :
    (readDir env trees dir).Sat fun t r => Walk.Orderly Stop.Typed (entriesFrom dir.objectid) t r ∧
      ∀ list, r = .ok list → ∀ e ∈ list, e.inode.Bounded :=
  Walk.run_orderly h64 trees.validNodesize (readDir_good h64 trees dir) (entriesFrom_bounded hino)
    fun _ he => absurd he List.not_mem_nil

end Ensures
