/-
The root tree: subvolumes, their links, and the default one.

Directory items pack several entries, and both users of such an item scan it with
the same loop, `findEntry`.  Nothing here panics: the `…_ensures` lemmas are used by
whatever opens a volume or walks a path.
-/
import Lambutter.Walk

/-- A file, directory or symlink: the subvolume that holds it, the root of that
subvolume's tree, and its inode number there. -/
structure Inode where
  subvol : ℕ
  treeRoot : ℕ
  objectid : ℕ
  deriving DecidableEq, Repr

/-- The trees a walk reads. -/
structure Trees where
  chunkMap : ChunkMap
  nodesize : ℕ
  rootTreeRoot : ℕ
  validNodesize : ValidNodesize nodesize

/-- A subvolume entry as a directory holds it, to check against `ROOT_REF`. -/
structure SubvolLink where
  parent : ℕ
  dirid : ℕ
  name : List UInt8
  child : ℕ
  deriving DecidableEq, Repr

/-! ### Packed directory entries -/

/-- The loop over the entries packed into one directory item: the first one that
`wanted` accepts. -/
def findEntry (env : Env) (data : List UInt8) (bytenr : ℕ)
    (wanted : DiskDirEntry → Outcome Bool) : ℕ → ℕ → Outcome (Option DiskDirEntry)
  | 0, _ => fault .fuel
  | n + 1, p =>
    if p < data.length then do
      match ← DiskDirEntry.parse env data p with
      | none => err (.corruptBtree "dir_entry_short" bytenr)
      | some (entry, next) => do
        if ← wanted entry then return some entry
        else findEntry env data bytenr wanted n next
    else return none

/-- `b"default"` -/
def defaultName : List UInt8 := [100, 101, 102, 97, 117, 108, 116]

section RootTree

variable (env : Env) (trees : Trees)

def lookupDefaultDirItem : ReadM (Option ℕ) := do
  let hash := nameHash defaultName
  match ← findExact env trees.chunkMap trees.nodesize trees.rootTreeRoot
      ⟨rootTreeDirObjectid, dirItemKey, hash⟩ with
  | none => return none
  | some (leaf, idx) => do
    let item ← leaf.leafItem env idx
    let data ← leaf.leafItemData env item
    let found ← findEntry env data leaf.header.bytenr
      (fun entry => .ok (entry.name == defaultName)) (data.length + 1) 0
    return found.map fun entry => entry.location.objectid

def lookupRootItem (subvolObjectid : ℕ) : ReadM (Option RootItem) := do
  match ← findFirstGe env trees.chunkMap trees.nodesize trees.rootTreeRoot
      ⟨subvolObjectid, rootItemKey, 0⟩ with
  | none => return none
  | some (leaf, idx) => do
    let item ← leaf.leafItem env idx
    if item.key.objectid ≠ subvolObjectid ∨ item.key.itemType ≠ rootItemKey then return none
    else
      let data ← leaf.leafItemData env item
      let parsed ← RootItem.parse env data 0
      let root ← okOr parsed (.corruptBtree "root_item_short" leaf.header.bytenr)
      return some root

/-- The root directory of subvolume `id`; one without references is deleted. -/
def subvolRoot (id : ℕ) : ReadM Inode := do
  let found ← lookupRootItem env trees id
  let rootItem ← okOr found .notFound
  if rootItem.refs = 0 then (err .notFound : Outcome Inode)
  else return { subvol := id, treeRoot := rootItem.bytenr, objectid := firstFreeObjectid }

/-- Whether the root tree links a subvolume where a directory entry says. -/
def rootRefLinks (link : SubvolLink) : ReadM Bool := do
  match ← findExact env trees.chunkMap trees.nodesize trees.rootTreeRoot
      ⟨link.parent, rootRefKey, link.child⟩ with
  | none => return false
  | some (leaf, idx) => do
    let item ← leaf.leafItem env idx
    let data ← leaf.leafItemData env item
    let short := Error.corruptBtree "root_ref_short" leaf.header.bytenr
    -- `btrfs_root_ref`: dirid (8), sequence (8), name length (2), then the name
    if data.length < 18 then (err short : Outcome Bool)
    else
      let dirid ← readLeU64 data 0
      let nameLen ← readLeU16 data 16
      let nameEnd ← env.addUsize 18 nameLen
      if data.length < nameEnd then (err short : Outcome Bool)
      else
        let name ← slice data 18 nameEnd
        return dirid == link.dirid && name == link.name

/-- What `resolve_default_subvol` makes of the errors of `subvol_root`. -/
def missingRoot (rootTreeRoot : ℕ) : Stop → Stop
  | .err .notFound => .err (.corruptBtree "subvol_root_missing" rootTreeRoot)
  | other => other

/-- The default subvolume's root directory; the superblock's hint is used when the
root tree names no default. -/
def resolveDefaultSubvol (superblockDefaultObjectid : ℕ) : ReadM Inode := do
  let found ← lookupDefaultDirItem env trees
  let subvolObjectid := match found with
    | some oid => oid
    | none =>
      if superblockDefaultObjectid = 0 ∨ superblockDefaultObjectid = 6 then fsTreeObjectid
      else superblockDefaultObjectid
  (subvolRoot env trees subvolObjectid).mapStop (missingRoot trees.rootTreeRoot)

end RootTree

/-! ### No panics -/

section Ensures

variable {env : Env} (h64 : env.usizeBits = 64)

include h64

theorem findEntry_safe {data : List UInt8} (hdata : data.length < 2 ^ 40) {bytenr : ℕ}
    {wanted : DiskDirEntry → Outcome Bool} (hwanted : ∀ entry, Outcome.Safe (wanted entry))
    (n p : ℕ) (hn : data.length < p + n) (hpos : 0 < n) :
    Outcome.Safe (findEntry env data bytenr wanted n p) := by
  induction n generalizing p with
  | zero => omega
  | succ n ih =>
    rw [findEntry]
    split_ifs with hp
    swap
    · exact Outcome.safe_ok _
    rw [DiskDirEntry.parse_eq h64 (by omega), Except.ok_bind]
    by_cases hshort : data.length < p + 30 ∨ data.length < DiskDirEntry.endAt data p
    · rw [if_pos hshort]
      exact Outcome.safe_err _
    · rw [if_neg hshort]
      refine (hwanted _).bind fun found _ => ?_
      split_ifs
      · exact Outcome.safe_ok _
      · have hend : DiskDirEntry.endAt data p =
            p + 30 + leAt data (p + 27) 2 + leAt data (p + 25) 2 := rfl
        exact ih _ (by omega) (by omega)

/-- What the loop finds is an entry of the item, its location a key on disk. -/
theorem findEntry_location {data : List UInt8} (hdata : data.length < 2 ^ 40) {bytenr : ℕ}
    {wanted : DiskDirEntry → Outcome Bool} {n p : ℕ} {entry : DiskDirEntry}
    (h : findEntry env data bytenr wanted n p = .ok (some entry)) : entry.location.Bounded := by
  induction n generalizing p with
  | zero => cases h
  | succ n ih =>
    rw [findEntry] at h
    by_cases hp : p < data.length
    swap
    · rw [if_neg hp] at h
      cases h
    rw [if_pos hp, DiskDirEntry.parse_eq h64 (by omega), Except.ok_bind] at h
    split_ifs at h with hshort
    · exact absurd h err_ne_ok
    · obtain ⟨found, -, h⟩ := Except.bind_eq_ok.mp h
      split_ifs at h
      · cases h
        exact DiskKey.readAt_bounded data p
      · exact ih h

variable (trees : Trees)

theorem lookupDefaultDirItem_ensures :
    Prog.Ensures Stop.Typed (lookupDefaultDirItem env trees) fun _ => True := by
  refine Prog.Ensures.bind (findExact_ensures h64 trees.validNodesize _ _) fun found hfound => ?_
  rcases found with _ | ⟨leaf, idx⟩
  · exact trivial
  have hfirst := (hfound leaf idx rfl).1
  obtain ⟨item, hitem, -, hok⟩ := hfirst.exists_item h64
  dsimp only
  rw [hok, liftM_ok_bind]
  refine Prog.Ensures.bind (ensures_lift (TreeBlock.leafItemData_safe h64 hitem)
    fun _ h => hfirst.accepted.leafItemData_length h) fun data hdata => ?_
  have hmax : maxNodeSize = 65536 := rfl
  exact Prog.Ensures.bind (ensures_lift (findEntry_safe h64 (by omega)
    (fun _ => Outcome.safe_ok _) _ _ (by omega) (by omega)) fun _ _ => trivial)
    fun _ (_ : True) => trivial

theorem lookupRootItem_ensures (id : ℕ) :
    Prog.Ensures Stop.Typed (lookupRootItem env trees id) fun _ => True := by
  refine Prog.Ensures.bind (findFirstGe_ensures h64 trees.validNodesize _ _) fun found hfound => ?_
  rcases found with _ | ⟨leaf, idx⟩
  · exact trivial
  obtain ⟨item, hitem, -, hok⟩ := (hfound leaf idx rfl).exists_item h64
  dsimp only
  rw [hok, liftM_ok_bind]
  split_ifs
  · exact trivial
  refine Prog.Ensures.bind (ensures_lift (TreeBlock.leafItemData_safe h64 hitem)
    fun _ _ => trivial) fun data (_ : True) => ?_
  rw [RootItem.parse_eq h64, liftM_ok_bind]
  exact Prog.Ensures.bind (ensures_lift (Outcome.safe_okOr _ _) fun _ _ => trivial)
    fun _ (_ : True) => trivial

theorem subvolRoot_ensures (id : ℕ) :
    Prog.Ensures Stop.Typed (subvolRoot env trees id)
      fun root => root.objectid = firstFreeObjectid := by
  refine Prog.Ensures.bind (lookupRootItem_ensures h64 trees id) fun found _ => ?_
  refine Prog.Ensures.bind (ensures_lift (Outcome.safe_okOr _ _) fun _ _ => trivial)
    fun rootItem (_ : True) => ?_
  split_ifs
  · exact trivial
  · exact Prog.Ensures.pure rfl

theorem rootRefLinks_ensures (link : SubvolLink) :
    Prog.Ensures Stop.Typed (rootRefLinks env trees link) fun _ => True := by
  refine Prog.Ensures.bind (findExact_ensures h64 trees.validNodesize _ _) fun found hfound => ?_
  rcases found with _ | ⟨leaf, idx⟩
  · exact trivial
  obtain ⟨item, hitem, -, hok⟩ := (hfound leaf idx rfl).1.exists_item h64
  dsimp only
  rw [hok, liftM_ok_bind]
  refine Prog.Ensures.bind (ensures_lift (TreeBlock.leafItemData_safe h64 hitem)
    fun _ _ => trivial) fun data (_ : True) => ?_
  split_ifs with hshort
  · exact trivial
  have hname : leAt data 16 2 < 256 ^ 2 := leAt_lt data 16 2
  unfold readLeU64 readLeU16
  rw [readLe_ok (by omega), liftM_ok_bind, readLe_ok (by omega), liftM_ok_bind,
    Env.addUsize_ok h64 (by omega), liftM_ok_bind]
  split_ifs with hlong
  · exact trivial
  · rw [slice_ok (by omega) (by omega), liftM_ok_bind]
    exact trivial

theorem resolveDefaultSubvol_ensures (hint : ℕ) :
    Prog.Ensures Stop.Typed (resolveDefaultSubvol env trees hint)
      fun root => root.objectid = firstFreeObjectid := by
  refine Prog.Ensures.bind (lookupDefaultDirItem_ensures h64 trees) fun found _ =>
    (subvolRoot_ensures h64 trees _).mapStop fun x hx => ?_
  unfold missingRoot
  split
  · trivial
  · exact hx

end Ensures

/-! ### Notes -/

section Notes

variable {env : Env} (trees : Trees)

theorem lookupRootItem_notes (id : ℕ) : (lookupRootItem env trees id).Notes Reading := by
  refine Prog.Notes.bind (findFirstGe_notes _ _) fun found => ?_
  rcases found with _ | ⟨leaf, idx⟩
  · exact Prog.notes_pure _
  refine Prog.Notes.bind (Prog.notes_lift _) fun item => ?_
  split_ifs
  · exact Prog.notes_pure _
  refine Prog.Notes.bind (Prog.notes_lift _) fun _ => ?_
  refine Prog.Notes.bind (Prog.notes_lift _) fun _ => ?_
  exact Prog.Notes.bind (Prog.notes_lift _) fun _ => Prog.notes_pure _

theorem subvolRoot_notes (id : ℕ) : (subvolRoot env trees id).Notes Reading := by
  refine Prog.Notes.bind (lookupRootItem_notes trees id) fun _ => ?_
  refine Prog.Notes.bind (Prog.notes_lift _) fun _ => ?_
  split_ifs
  · exact Prog.notes_lift _
  · exact Prog.notes_pure _

theorem rootRefLinks_notes (link : SubvolLink) : (rootRefLinks env trees link).Notes Reading := by
  refine Prog.Notes.bind (findExact_notes _ _) fun found => ?_
  rcases found with _ | ⟨leaf, idx⟩
  · exact Prog.notes_pure _
  refine Prog.Notes.bind (Prog.notes_lift _) fun _ => ?_
  refine Prog.Notes.bind (Prog.notes_lift _) fun _ => ?_
  split_ifs
  · exact Prog.notes_lift _
  refine Prog.Notes.bind (Prog.notes_lift _) fun _ => ?_
  refine Prog.Notes.bind (Prog.notes_lift _) fun _ => ?_
  refine Prog.Notes.bind (Prog.notes_lift _) fun _ => ?_
  split_ifs
  · exact Prog.notes_lift _
  · exact Prog.Notes.bind (Prog.notes_lift _) fun _ => Prog.notes_pure _

end Notes
