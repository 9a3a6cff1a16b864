/-
One volume on two devices.

In a volume with DUP or RAID1 chunks each chunk lies on several stripes, and the crate
reads the one on the device it was given.  `Mirror` says of a chunk that what one device
holds of it the other holds too.  When all chunks of a volume are mirrored, and the
superblocks of the two devices describe the same volume, it can be opened from either
device and replies the same (`mirrors_agree`).

The chunk map is filled while the chunk tree is read through it.  The two walks keep maps
that differ in the local device only (`populate_mirrored`), because no step of the walk
looks at it but the reads themselves.
-/
import Lambutter.Caps
import Lambutter.Iteration
import Lambutter.Pages
import Lambutter.Sessions

open Prog

namespace ChunkMap

/-! ### Maps for another device -/

section SetLocalDevid

variable (map : ChunkMap) (devid : ℕ)

@[simp] theorem setLocalDevid_mappings : (map.setLocalDevid devid).mappings = map.mappings := rfl

@[simp] theorem setLocalDevid_localDevid : (map.setLocalDevid devid).localDevid = some devid := rfl

/-- Inserting does not look at the local device. -/
theorem insert_setLocalDevid (m : ChunkMapping) :
    (map.setLocalDevid devid).insert m =
      ((map.insert m).1, (map.insert m).2.setLocalDevid devid) := by
  unfold insert
  dsimp only [setLocalDevid_mappings]
  split
  · rfl
  · rfl

theorem contains_setLocalDevid (logical : ℕ) :
    (map.setLocalDevid devid).contains logical = map.contains logical := rfl

end SetLocalDevid

/-- Every chunk of the first map is in the second, for the same device. -/
structure Extends (map map' : ChunkMap) : Prop where
  localDevid : map'.localDevid = map.localDevid
  mappings : ∀ m ∈ map.mappings, m ∈ map'.mappings

namespace Extends

variable {map map' map'' : ChunkMap}

theorem refl (map : ChunkMap) : Extends map map := ⟨rfl, fun _ h => h⟩

theorem trans (h : Extends map map') (h' : Extends map' map'') : Extends map map'' :=
  ⟨h'.localDevid.trans h.localDevid, fun m hm => h'.mappings m (h.mappings m hm)⟩

theorem insert (map : ChunkMap) (m : ChunkMapping) : Extends map (map.insert m).2 :=
  ⟨insert_localDevid map m, fun _ hx => mem_insert_of_mem hx⟩

end Extends

end ChunkMap

/-! ### Filling the map -/

/-- The same pace with another state. -/
def Pace.map {σ τ : Type} (f : σ → τ) : Pace σ → Pace τ
  | .more s next => .more (f s) next
  | .leave s => .leave (f s)

section Filling

variable {env : Env}

/-- What an item of the chunk tree does to a map does not depend on the local device. -/
theorem harvest_setLocalDevid (leaf : TreeBlock) (item : LeafItem) (map : ChunkMap) (devid : ℕ) :
    harvest env leaf item (map.setLocalDevid devid) =
      (fun map => map.setLocalDevid devid) <$> harvest env leaf item map := by
  unfold harvest
  by_cases hty : item.key.itemType = chunkItemKey
  swap
  · rw [if_neg hty, if_neg hty]
    rfl
  rw [if_pos hty, if_pos hty, map_bind]
  refine congrArg _ (funext fun data => ?_)
  rw [map_bind]
  refine congrArg _ (funext fun parsed => ?_)
  rw [map_bind]
  refine congrArg _ (funext fun chunk => ?_)
  dsimp only
  by_cases htrunc : data.length < ChunkItem.totalSize chunk.numStripes
  · rw [if_pos htrunc, if_pos htrunc]
    rfl
  rw [if_neg htrunc, if_neg htrunc, map_bind]
  refine congrArg _ (funext fun stripes => ?_)
  rw [ChunkMap.contains_setLocalDevid, ChunkMap.insert_setLocalDevid]
  split_ifs
  · rfl
  · rw [map_bind]
    rfl

theorem harvest_extends {leaf : TreeBlock} {item : LeafItem} {map map' : ChunkMap}
    (h : harvest env leaf item map = .ok map') : map.Extends map' := by
  unfold harvest at h
  by_cases hty : item.key.itemType = chunkItemKey
  swap
  · rw [if_neg hty] at h
    cases h
    exact .refl map
  rw [if_pos hty] at h
  obtain ⟨data, -, h⟩ := Except.bind_eq_ok.mp h
  obtain ⟨parsed, -, h⟩ := Except.bind_eq_ok.mp h
  obtain ⟨chunk, -, h⟩ := Except.bind_eq_ok.mp h
  dsimp only at h
  by_cases htrunc : data.length < ChunkItem.totalSize chunk.numStripes
  · rw [if_pos htrunc] at h
    exact absurd h err_ne_ok
  rw [if_neg htrunc] at h
  obtain ⟨stripes, -, h⟩ := Except.bind_eq_ok.mp h
  by_cases hknown : map.contains item.key.offset = true
  · rw [if_pos hknown] at h
    cases h
    exact .refl map
  · rw [if_neg hknown] at h
    obtain ⟨-, -, h⟩ := Except.bind_eq_ok.mp h
    cases h
    exact .insert map _

theorem parseSystemChunkArray_loop_setLocalDevid (array : List UInt8) (used n p : ℕ)
    (map : ChunkMap) (devid : ℕ) :
    parseSystemChunkArray.loop env array used n p (map.setLocalDevid devid) =
      (fun map => map.setLocalDevid devid) <$>
        parseSystemChunkArray.loop env array used n p map := by
  induction n generalizing p map with
  | zero => rfl
  | succ n ih =>
    rw [parseSystemChunkArray.loop, parseSystemChunkArray.loop]
    split_ifs with hp
    swap
    · rfl
    rw [map_bind]
    refine congrArg _ (funext fun keyEnd => ?_)
    split_ifs
    · rfl
    rw [map_bind]
    refine congrArg _ (funext fun key => ?_)
    rw [map_bind]
    refine congrArg _ (funext fun p' => ?_)
    split_ifs
    · rfl
    rw [map_bind]
    refine congrArg _ (funext fun parsed => ?_)
    rw [map_bind]
    refine congrArg _ (funext fun chunk => ?_)
    dsimp only
    rw [map_bind]
    refine congrArg _ (funext fun recordEnd => ?_)
    split_ifs
    · rfl
    rw [map_bind]
    refine congrArg _ (funext fun stripes => ?_)
    rw [ChunkMap.insert_setLocalDevid, map_bind]
    refine congrArg _ (funext fun _ => ?_)
    rw [map_bind]
    exact congrArg _ (funext fun p'' => ih p'' _)

end Filling

/-! ### Mirrored chunks -/

/-- What the device `devid` holds of a chunk, the device `devid'` holds too. -/
def Mirror (dev : Device) (devid : ℕ) (dev' : Device) (devid' : ℕ) (m : ChunkMapping) : Prop :=
  ∀ s, m.pickStripe (some devid) = .ok s → ∃ s', m.pickStripe (some devid') = .ok s' ∧
    ∀ i < m.length, dev.serves (s.offset + i) 1 = true →
      dev'.serves (s'.offset + i) 1 = true ∧ dev'.byte (s'.offset + i) = dev.byte (s.offset + i)

section Mirrored

variable {env : Env} {map : ChunkMap} {dev dev' : Device} {devid devid' : ℕ}

/-- A map of mirrored chunks leads to the same bytes on the other device. -/
theorem reproduces_of_mirror (hdevid : map.localDevid = some devid)
    (h : ∀ m ∈ map.mappings, Mirror dev devid dev' devid' m) :
    Reproduces env map dev (map.setLocalDevid devid') dev' := by
  rintro l ⟨r, hr, hserve⟩
  obtain ⟨m, hm, hcov, hat⟩ := ChunkMap.resolve_eq_ok hr
  rw [hdevid] at hat
  obtain ⟨s, hs, -, rfl⟩ := (ChunkMapping.resolveAt_eq_ok hcov).mp hat
  obtain ⟨s', hs', hbytes⟩ := h m hm s hs
  have hin : l - m.logical < m.length := by
    obtain ⟨hle, hlt⟩ := hcov
    have hstop : m.stop = m.logical + m.length := rfl
    omega
  obtain ⟨hserve', hbyte⟩ := hbytes _ hin hserve
  have hr' : (map.setLocalDevid devid').resolve env l =
      .ok ⟨s'.devid, s'.offset + (l - m.logical), m.stop - l⟩ := by
    have hm' : m ∈ (map.setLocalDevid devid').mappings := hm
    rw [ChunkMap.resolve_of_covers env hm' hcov]
    have hle := dev'.serves_le hserve'
    exact (ChunkMapping.resolveAt_eq_ok hcov).mpr ⟨s', hs', by omega, rfl⟩
  refine ⟨⟨_, hr', hserve'⟩, ?_⟩
  rw [ChunkMap.byteAt_of_resolve hr, ChunkMap.byteAt_of_resolve hr']
  exact congrArg some hbyte

variable (h64 : env.usizeBits = 64) (hdev : dev.Exact) (hdev' : dev'.Bytewise)

include hdev hdev' in
theorem mapped_of_mirror (hdevid : map.localDevid = some devid)
    (h : ∀ m ∈ map.mappings, Mirror dev devid dev' devid' m) :
    Mapped env (Copies dev dev') map (map.setLocalDevid devid') :=
  mapped_copies hdev hdev' (reproduces_of_mirror hdevid h)

/-! ### The walk over the chunk tree -/

/-- One item of a leaf of the chunk tree. -/
theorem populate_leaf_step (g : (q : ReadReq) → Ans q) {nodesize chunkRoot : ℕ}
    (block : TreeBlock) (n idx : ℕ) (map : ChunkMap) (next : Option DiskKey) :
    ((populateFromChunkTree.walk env nodesize chunkRoot).leaf env block (n + 1) idx map
        next).run g = (do
      let item ← block.leafItem env idx
      let map ← harvest env block item map
      let idx ← env.addU32 idx 1
      ((populateFromChunkTree.walk env nodesize chunkRoot).leaf env block n idx map
        item.key.next).run g) := by
  rw [Walk.leaf, run_bind, run_liftM]
  refine congrArg _ (funext fun item => ?_)
  rw [run_bind, run_note_event, Except.ok_bind, run_bind]
  show (liftM (harvest env block item map) >>= fun map =>
    (Pure.pure (Pace.more map item.key.next) : ReadM (Pace ChunkMap))).run g >>= _ = _
  rw [run_bind, run_liftM, bind_assoc]
  refine congrArg _ (funext fun map => ?_)
  rw [run_pure, Except.ok_bind]
  show ((liftM (env.addU32 idx 1) : ReadM ℕ) >>= _).run g = _
  rw [run_bind, run_liftM]

theorem populate_leaf_setLocalDevid (g g' : (q : ReadReq) → Ans q) {nodesize chunkRoot : ℕ}
    (block : TreeBlock) (n idx : ℕ) (map : ChunkMap) (next : Option DiskKey) :
    ((populateFromChunkTree.walk env nodesize chunkRoot).leaf env block n idx
        (map.setLocalDevid devid') next).run g' =
      Pace.map (fun map => map.setLocalDevid devid') <$>
        ((populateFromChunkTree.walk env nodesize chunkRoot).leaf env block n idx map
          next).run g := by
  induction n generalizing idx map next with
  | zero => rfl
  | succ n ih =>
    rw [populate_leaf_step, populate_leaf_step, map_bind]
    refine congrArg _ (funext fun item => ?_)
    rw [harvest_setLocalDevid, map_bind, bind_map_left]
    refine congrArg _ (funext fun map => ?_)
    rw [map_bind]
    exact congrArg _ (funext fun idx => ih idx map _)

theorem populate_leaf_returns {nodesize chunkRoot : ℕ} (block : TreeBlock) (n idx : ℕ)
    (map : ChunkMap) (next : Option DiskKey) :
    Returns ((populateFromChunkTree.walk env nodesize chunkRoot).leaf env block n idx map next)
      fun p => map.Extends (Walk.stateOf p) := by
  induction n generalizing idx map next with
  | zero => exact Ensures.pure (.refl map)
  | succ n ih =>
    rw [Walk.leaf]
    refine Ensures.bind (returns_any _) fun item _ => ?_
    refine Ensures.bind (returns_any _) fun _ _ => ?_
    refine Ensures.bind (P := fun p => ∃ map', map.Extends map' ∧ p = .more map' item.key.next)
      (Ensures.bind (returns_lift fun map' h => harvest_extends h)
        fun map' hmap' => Ensures.pure ⟨map', hmap', rfl⟩) ?_
    rintro _ ⟨map', hmap', rfl⟩
    refine Ensures.bind (returns_any _) fun idx _ => ?_
    exact (ih idx map' _).mono fun p hp => hmap'.trans hp

/-- The walk drops no chunk, over every reader. -/
theorem populate_returns {nodesize chunkRoot : ℕ} (fuel : ℕ) (target : DiskKey)
    (map : ChunkMap) : Returns ((populateFromChunkTree.walk env nodesize chunkRoot).run env fuel
      target map) map.Extends := by
  induction fuel generalizing target map with
  | zero => exact trivial
  | succ fuel ih =>
    rw [Walk.run]
    have hproceed : (populateFromChunkTree.walk env nodesize chunkRoot).proceed map = true := rfl
    rw [if_pos hproceed]
    refine Ensures.bind (returns_any _) fun found _ => ?_
    rcases found with _ | ⟨block, idx⟩
    · exact Ensures.pure (.refl map)
    refine Ensures.bind (returns_any _) fun _ _ => ?_
    refine Ensures.bind (populate_leaf_returns block _ idx map none) fun p hp => ?_
    rcases p with ⟨map', _ | next⟩ | map'
    · exact Ensures.pure hp
    · exact (ih next map').mono fun final hfinal => hp.trans hfinal
    · exact Ensures.pure hp

theorem populate_extends {g : (q : ReadReq) → Ans q} {nodesize chunkRoot fuel : ℕ}
    {target : DiskKey} {map final : ChunkMap}
    (h : ((populateFromChunkTree.walk env nodesize chunkRoot).run env fuel target map).run g =
      .ok final) : map.Extends final :=
  (populate_returns fuel target map).returns _ () h

include h64 hdev hdev'

/-- A chunk tree that is read from one device is read from the other with the same chunks,
when those it leads to are mirrored. -/
theorem populate_mirrored {nodesize chunkRoot fuel : ℕ} (hnode : ValidNodesize nodesize)
    {target : DiskKey} {map final : ChunkMap} (hdevid : map.localDevid = some devid)
    (hfinal : ∀ m ∈ final.mappings, Mirror dev devid dev' devid' m)
    (h : ((populateFromChunkTree.walk env nodesize chunkRoot).run env fuel target map).run
      dev.answer = .ok final) :
    ((populateFromChunkTree.walk env nodesize chunkRoot).run env fuel target
      (map.setLocalDevid devid')).run dev'.answer = .ok (final.setLocalDevid devid') := by
  induction fuel generalizing target map with
  | zero => exact absurd h fault_ne_ok
  | succ fuel ih =>
    have hmap := populate_extends h
    have hproceed : ∀ map, (populateFromChunkTree.walk env nodesize chunkRoot).proceed map =
      true := fun _ => rfl
    have hmapped : Mapped env _ _ _ :=
      mapped_of_mirror hdev hdev' hdevid fun m hm => hfinal m (hmap.mappings m hm)
    have hsearch := copies_run (findFirstGe_alike (hmapped.blocks h64 hnode) chunkRoot target)
    rw [Walk.run] at h ⊢
    rw [if_pos (hproceed _)] at h ⊢
    obtain ⟨found, hfound, h⟩ := (run_bind_eq_ok _).mp h
    have hfound' := hsearch.ok hfound
    refine (run_bind_eq_ok _).mpr ⟨found, hfound', ?_⟩
    rcases found with _ | ⟨block, idx⟩
    · cases h
      rfl
    rw [run_bind, run_note_event, Except.ok_bind] at h ⊢
    obtain ⟨pace, hpace, h⟩ := (run_bind_eq_ok _).mp h
    refine (run_bind_eq_ok _).mpr ⟨pace.map fun map => map.setLocalDevid devid', ?_, ?_⟩
    · rw [populate_leaf_setLocalDevid dev.answer, hpace]
      rfl
    rcases pace with ⟨s, _ | next⟩ | s
    · cases h
      rfl
    · have hrest := populate_extends h
      exact ih ((hrest.localDevid.symm.trans hmap.localDevid).trans hdevid) h
    · cases h
      rfl

end Mirrored

/-! ### Opening from either device -/

/-- Two superblocks that describe the same volume, from its different devices. -/
structure SameSuperblock (sb sb' : ValidSuperblock) : Prop where
  nodesize : sb'.nodesize = sb.nodesize
  sectorsize : sb'.sectorsize = sb.sectorsize
  root : sb'.root = sb.root
  chunkRoot : sb'.chunkRoot = sb.chunkRoot
  rootDirObjectid : sb'.rootDirObjectid = sb.rootDirObjectid
  sysChunkArray : sb'.sysChunkArray = sb.sysChunkArray
  sysChunkArraySize : sb'.sysChunkArraySize = sb.sysChunkArraySize

namespace Btrfs

/-- What an open does with the mounted volume and the superblock's hint. -/
def Opening.choose (env : Env) : Opening → Btrfs × ℕ → ReadM Btrfs
  | .default, mounted => do
    let root ← resolveDefaultSubvol env mounted.1.trees mounted.2
    return { mounted.1 with root }
  | .subvolId id, mounted => do
    let root ← subvolRoot env mounted.1.trees id
    return { mounted.1 with root }
  | .subvolPath path, mounted => do
    let top ← subvolRoot env mounted.1.trees fsTreeObjectid
    let target ← resolvePath env mounted.1.trees top path
    if target.objectid ≠ firstFreeObjectid then (err .notASubvolume : Outcome Btrfs)
    else return { mounted.1 with root := target }

theorem Opening.program_eq (env : Env) (size : ℕ) (opening : Opening) :
    opening.program env size = mount env size >>= opening.choose env := by
  cases opening <;> rfl

/-- The volume as it is opened from the device `devid`. -/
def onDevice (fs : Btrfs) (devid : ℕ) : Btrfs :=
  { fs with chunkMap := fs.chunkMap.setLocalDevid devid }

theorem sameVolume_onDevice (fs : Btrfs) (devid : ℕ) : SameVolume fs (fs.onDevice devid) :=
  ⟨rfl, rfl, rfl⟩

section Open

variable {env : Env} (h64 : env.usizeBits = 64) {dev dev' : Device} (hdev : dev.Exact)
  (hdev' : dev'.Bytewise) {size size' : ℕ} {sb sb' : ValidSuperblock}
  (hload : (load env size).run dev.answer = .ok sb)
  (hload' : (load env size').run dev'.answer = .ok sb') (hsame : SameSuperblock sb sb')

include hsame in
theorem bootstrap_same : bootstrap env sb' =
    (fun map => map.setLocalDevid sb'.devid) <$> bootstrap env sb := by
  unfold bootstrap parseSystemChunkArray
  rw [hsame.sysChunkArray, hsame.sysChunkArraySize,
    show ChunkMap.empty.setLocalDevid sb'.devid =
      (ChunkMap.empty.setLocalDevid sb.devid).setLocalDevid sb'.devid from rfl,
    parseSystemChunkArray_loop_setLocalDevid]

include hsame in
/-- Two block sizes that agree make the same geometry. -/
theorem geometry_same :
    Geometry.mk sb'.nodesize sb'.sectorsize sb'.nodesize_valid sb'.sectorsize_valid =
      Geometry.mk sb.nodesize sb.sectorsize sb.nodesize_valid sb.sectorsize_valid := by
  obtain ⟨hnode, hsector, -, -, -, -, -⟩ := hsame
  congr 1

theorem bootstrap_localDevid {sb : ValidSuperblock} {map : ChunkMap}
    (h : bootstrap env sb = .ok map) : map.localDevid = some sb.devid := by
  unfold bootstrap parseSystemChunkArray at h
  rw [parseSystemChunkArray_loop_setLocalDevid] at h
  cases hloop : parseSystemChunkArray.loop env sb.sysChunkArray (env.asUsize sb.sysChunkArraySize)
      (env.asUsize sb.sysChunkArraySize + 1) 0 ChunkMap.empty with
  | error x =>
    rw [hloop] at h
    cases h
  | ok map₀ =>
    rw [hloop] at h
    cases h
    rfl

include h64 hdev hdev' hload hload' hsame

theorem mount_mirrored {fs : Btrfs} {hint : ℕ}
    (h : (mount env size).run dev.answer = .ok (fs, hint))
    (hmirror : ∀ m ∈ fs.chunkMap.mappings, Mirror dev sb.devid dev' sb'.devid m) :
    (mount env size').run dev'.answer = .ok (fs.onDevice sb'.devid, hint) ∧
      fs.chunkMap.localDevid = some sb.devid := by
  obtain ⟨sb₁, hsb₁, h⟩ := (run_bind_eq_ok _).mp h
  cases hload.symm.trans hsb₁
  obtain ⟨boot, hboot, h⟩ := (run_bind_eq_ok _).mp h
  rw [run_liftM] at hboot
  obtain ⟨map, hmap, h⟩ := (run_bind_eq_ok _).mp h
  cases h
  have hlocal := bootstrap_localDevid hboot
  have hmap' := populate_mirrored h64 hdev hdev' sb.nodesize_valid hlocal hmirror hmap
  refine ⟨(run_bind_eq_ok _).mpr ⟨sb', hload', ?_⟩,
    (populate_extends hmap).localDevid.trans hlocal⟩
  refine (run_bind_eq_ok _).mpr ⟨boot.setLocalDevid sb'.devid, ?_, ?_⟩
  · rw [run_liftM, bootstrap_same hsame, hboot]
    rfl
  · refine (run_bind_eq_ok _).mpr ⟨map.setLocalDevid sb'.devid, ?_, ?_⟩
    · rw [hsame.nodesize, hsame.chunkRoot]
      exact hmap'
    · rw [run_pure, geometry_same hsame, hsame.root, hsame.rootDirObjectid]
      rfl

omit h64 hdev hdev' hload hload' hsame in
/-- The choice of the root leaves the chunks as they are. -/
theorem choose_chunkMap {opening : Opening} {mounted : Btrfs × ℕ} {fs : Btrfs}
    (h : (opening.choose env mounted).CanReturn fs) : fs.chunkMap = mounted.1.chunkMap := by
  cases opening with
  | default =>
    obtain ⟨root, -, h⟩ := canReturn_bind.mp h
    obtain rfl : _ = fs := h
    rfl
  | subvolId id =>
    obtain ⟨root, -, h⟩ := canReturn_bind.mp h
    obtain rfl : _ = fs := h
    rfl
  | subvolPath path =>
    obtain ⟨top, -, h⟩ := canReturn_bind.mp h
    obtain ⟨target, -, h⟩ := canReturn_bind.mp h
    split_ifs at h
    · exact absurd h id
    · obtain rfl : _ = fs := h
      rfl

omit hdev hdev' hload hload' hsame in
/-- On a mounted volume whose logical reads come to the same on the other device, the same
root is chosen there. -/
theorem choose_mirrored {opening : Opening} {mounted fs : Btrfs} {hint devid' : ℕ}
    (hmapped : Mapped env (Copies dev dev') mounted.chunkMap
      (mounted.chunkMap.setLocalDevid devid'))
    (h : (opening.choose env (mounted, hint)).run dev.answer = .ok fs) :
    (opening.choose env (mounted.onDevice devid', hint)).run dev'.answer =
      .ok (fs.onDevice devid') := by
  have hblocks : Blocks env (Copies dev dev') mounted.trees.nodesize mounted.trees.chunkMap
      (mounted.onDevice devid').trees.chunkMap := hmapped.blocks h64 mounted.trees.validNodesize
  have hsize : (mounted.onDevice devid').trees.nodesize = mounted.trees.nodesize := rfl
  have htop : (mounted.onDevice devid').trees.rootTreeRoot = mounted.trees.rootTreeRoot := rfl
  have hroot : ∀ {id root}, (subvolRoot env mounted.trees id).run dev.answer = .ok root →
      (subvolRoot env (mounted.onDevice devid').trees id).run dev'.answer = .ok root :=
    fun {id} _ hrun => by
      have halike : Alike (Copies dev dev') (subvolRoot env mounted.trees id)
          (subvolRoot env (mounted.onDevice devid').trees id) :=
        subvolRoot_alike hblocks hsize htop id
      exact (copies_run halike).ok hrun
  cases opening with
  | default =>
    obtain ⟨root, hrun, h⟩ := (run_bind_eq_ok _).mp h
    obtain ⟨found, hfound, hrun⟩ := (run_bind_eq_ok _).mp hrun
    rw [run_mapStop_eq_ok] at hrun
    cases h
    refine (run_bind_eq_ok _).mpr ⟨root, (run_bind_eq_ok _).mpr ⟨found, ?_, ?_⟩, rfl⟩
    · have halike : Alike (Copies dev dev') (lookupDefaultDirItem env mounted.trees)
          (lookupDefaultDirItem env (mounted.onDevice devid').trees) :=
        lookupDefaultDirItem_alike hblocks hsize htop
      exact (copies_run halike).ok hfound
    · rw [run_mapStop_eq_ok]
      exact hroot hrun
  | subvolId id =>
    obtain ⟨root, hrun, h⟩ := (run_bind_eq_ok _).mp h
    cases h
    exact (run_bind_eq_ok _).mpr ⟨root, hroot hrun, rfl⟩
  | subvolPath path =>
    obtain ⟨top, hfound, h⟩ := (run_bind_eq_ok _).mp h
    obtain ⟨target, htarget, h⟩ := (run_bind_eq_ok _).mp h
    refine (run_bind_eq_ok _).mpr ⟨top, hroot hfound, (run_bind_eq_ok _).mpr ⟨target, ?_, ?_⟩⟩
    · have halike : Alike (Copies dev dev') (resolvePath env mounted.trees top path)
          (resolvePath env (mounted.onDevice devid').trees top path) :=
        resolvePath_alike hblocks hsize htop _ _
      exact (copies_run halike).ok htarget
    · split_ifs at h ⊢
      · exact absurd h err_ne_ok
      · cases h
        rfl

/-- A volume whose chunks are mirrored opens from either device, at the same subvolume,
and every call replies on the one what it replies on the other, unless the first cannot
reach a byte. -/
theorem mirrors_agree {opening : Opening} {fs : Btrfs}
    (hopen : (opening.program env size).run dev.answer = .ok fs)
    (hmirror : ∀ m ∈ fs.chunkMap.mappings, Mirror dev sb.devid dev' sb'.devid m) :
    (opening.program env size').run dev'.answer = .ok (fs.onDevice sb'.devid) ∧
    ∀ r : Request, Upholds Unreached ((r.program env fs).run dev.answer)
      ((r.program env (fs.onDevice sb'.devid)).run dev'.answer) := by
  rw [Opening.program_eq] at hopen ⊢
  obtain ⟨⟨mounted, hint⟩, hmount, hchoose⟩ := (run_bind_eq_ok _).mp hopen
  have hmap : fs.chunkMap = mounted.chunkMap := choose_chunkMap (canReturn_of_exec hchoose)
  rw [hmap] at hmirror
  obtain ⟨hmount', hlocal⟩ := mount_mirrored h64 hdev hdev' hload hload' hsame hmount hmirror
  have hmapped : Mapped env _ _ _ := mapped_of_mirror hdev hdev' hlocal hmirror
  refine ⟨(run_bind_eq_ok _).mpr ⟨_, hmount', choose_mirrored h64 hmapped hchoose⟩, fun r => ?_⟩
  rw [← hmap] at hmapped
  exact copies_run (program_alike (sameVolume_onDevice fs _) h64 hmapped r)

end Open

end Btrfs

/-! ### A mirrored sample volume -/

/-- A RAID1 chunk: on the first device at `physical`, on the second `0x1000` further on. -/
def mirroredChunk (logical length ty physical : UInt64) : ChunkRecord :=
  { sampleChunk logical length ty physical with
    stripes := [{ devid := 1, offset := physical, devUuid := Vector.replicate 16 0 },
      { devid := 2, offset := physical + 0x1000, devUuid := Vector.replicate 16 0 }]
    stripes_lt := show 2 < 2 ^ 16 by decide }

def mirroredMetadata : ChunkRecord := mirroredChunk 0x100000 0x3000 0x14 0x1000

def mirroredSystem : ChunkRecord := mirroredChunk 0x200000 0x1000 0x12 0x6000

/-- A superblock at `0x10000` of the device `devid`. -/
def mirroredSuper (csum devid : ℕ) : List (ℕ × ℕ) :=
  [(0x10000, csum), (0x10040, btrfsMagic), (0x10048, 1), (0x10050, 0x100000),
   (0x10058, 0x200000), (0x10090, 4096), (0x10094, 4096), (0x100a0, 129), (0x100c9, devid),
   (0x1032b, leValue mirroredSystem.pack)]

/-- The trees of the mounted sample, on the first device of two. -/
def firstDevice : SliceDevice :=
  .ofNat (image (leafFields 0x1000 4096 1107544773 0x100000 rootItems ++
    leafFields 0x2000 4096 3803515382 0x101000 topItems ++
    leafFields 0x3000 4096 688029819 0x102000 innerItems ++
    leafFields 0x6000 4096 2925482074 0x200000
      [(⟨devItemsObjectid, devItemKey, 1⟩, 98, [(0, 1)]), chunkItem mirroredMetadata,
       chunkItem mirroredSystem] ++ mirroredSuper 1219630215 1)) 0x11000 Btrfs.bootSize_lt

def secondSuper : SliceDevice :=
  .ofNat (image (mirroredSuper 1809189783 2)) 0x11000 Btrfs.bootSize_lt

/-- The second device: a superblock of its own, and everything else `0x1000` further on. -/
def secondDevice : SliceDevice where
  size := 0x11000
  byte i := if 0x10000 ≤ i then secondSuper.byte i else firstDevice.byte (i - 0x1000)
  size_lt := Btrfs.bootSize_lt

/-- The second device answers for its superblock out of the superblock alone. -/
theorem secondDevice_answer : secondDevice.device.answer = fun q =>
    if 0x10000 ≤ q.offset then numbered (image (mirroredSuper 1809189783 2)) 0x11000 q
    else secondDevice.device.answer q := by
  funext q
  by_cases h : 0x10000 ≤ q.offset
  · have hsuper : secondSuper.device.answer q = numbered _ _ q := congrFun (answer_ofNat _ _ _) q
    have hbytes : secondDevice.device.bytes q.offset q.len =
        secondSuper.device.bytes q.offset q.len := by
      refine List.map_congr_left fun i _ => ?_
      have hi : 0x10000 ≤ q.offset + i := Nat.le_trans h (Nat.le_add_right _ _)
      show (if 0x10000 ≤ q.offset + i then _ else _) = _
      rw [if_pos hi]
      rfl
    have hsize : secondDevice.size = secondSuper.size := rfl
    have hserves : secondDevice.device.serves q.offset q.len =
        secondSuper.device.serves q.offset q.len := by
      show secondDevice.inBounds _ _ = secondSuper.inBounds _ _
      unfold SliceDevice.inBounds
      rw [hsize]
    rw [if_pos h, ← hsuper]
    unfold Device.answer
    by_cases hserve : secondSuper.device.serves q.offset q.len = true
    · rw [hserves, if_pos hserve, if_pos hserve]
      exact congrArg some (Subtype.ext hbytes)
    · rw [hserves, if_neg hserve, if_neg hserve]
  · rw [if_neg h]

theorem mirrored_sample_chunk {logical length ty physical : UInt64}
    (hlinear : (mirroredChunk logical length ty physical).mapping.Linear)
    (hoffset : (physical + 0x1000).toNat = physical.toNat + 0x1000)
    (hbound : physical.toNat + 0x1000 + length.toNat ≤ 0x10000) :
    Mirror firstDevice.device 1 secondDevice.device 2
      (mirroredChunk logical length ty physical).mapping := by
  intro s hs
  unfold ChunkMapping.pickStripe at hs
  rw [if_pos hlinear] at hs
  obtain rfl : (⟨1, physical.toNat, List.replicate 16 0⟩ : Stripe) = s := Except.ok.inj hs
  refine ⟨⟨2, (physical + 0x1000).toNat, List.replicate 16 0⟩, ?_, fun i hi hserve => ?_⟩
  · unfold ChunkMapping.pickStripe
    rw [if_pos hlinear]
    rfl
  · change i < length.toNat at hi
    rw [hoffset]
    refine ⟨SliceDevice.serves_iff.mpr (show physical.toNat + 0x1000 + i + 1 ≤ 0x11000 by omega),
      ?_⟩
    show (if 0x10000 ≤ physical.toNat + 0x1000 + i then _ else _) = _
    rw [if_neg (by omega)]
    refine congrArg firstDevice.byte ?_
    show physical.toNat + 0x1000 + i - 0x1000 = physical.toNat + i
    omega

namespace Btrfs

/-- What a superblock says of the volume, after the id of its device. -/
def described (sb : ValidSuperblock) : ℕ × List ℕ × List UInt8 :=
  (sb.devid, [sb.nodesize, sb.sectorsize, sb.root, sb.chunkRoot, sb.rootDirObjectid,
    sb.sysChunkArraySize], sb.sysChunkArray)

set_option maxRecDepth 100000 in
/-- The sample opens from its second device, and finds the subvolume `s` there. -/
theorem mirrors_sample : ∃ fs : Btrfs,
    (openDefault referenceEnv 0x11000).run firstDevice.device.answer = .ok fs ∧
    (openDefault referenceEnv 0x11000).run secondDevice.device.answer = .ok (fs.onDevice 2) ∧
    ((Request.resolve ⟨[47, 115]⟩).program referenceEnv (fs.onDevice 2)).run
      secondDevice.device.answer =
        .ok (.inode { subvol := 256, treeRoot := 0x102000, objectid := 256 }) := by
  have hfirst : firstDevice.device.answer = numbered _ _ := answer_ofNat _ _ _
  have hdevid : (fun sb => (described sb).1) <$>
      (load referenceEnv 0x11000).run firstDevice.device.answer = .ok 1 := by
    rw [hfirst]
    decide +kernel
  have hsupers : described <$> (load referenceEnv 0x11000).run secondDevice.device.answer =
      (fun sb => (2, (described sb).2)) <$>
        (load referenceEnv 0x11000).run firstDevice.device.answer := by
    rw [hfirst, secondDevice_answer]
    decide +kernel
  have hopened : (do
      let fs ← openDefault referenceEnv 0x11000
      let reply ← (Request.resolve ⟨[47, 115]⟩).program referenceEnv fs
      return (fs.chunkMap.mappings, reply)).run firstDevice.device.answer =
        .ok ([mirroredMetadata.mapping, mirroredSystem.mapping],
          .inode { subvol := 256, treeRoot := 0x102000, objectid := 256 }) := by
    rw [hfirst]
    decide +kernel
  cases hload : (load referenceEnv 0x11000).run firstDevice.device.answer with
  | error x =>
    rw [hload] at hdevid
    cases hdevid
  | ok sb =>
  rw [hload] at hsupers hdevid
  cases hload' : (load referenceEnv 0x11000).run secondDevice.device.answer with
  | error x =>
    rw [hload'] at hsupers
    cases hsupers
  | ok sb' =>
  rw [hload'] at hsupers
  have hone : sb.devid = 1 := Except.ok.inj hdevid
  have hall := Except.ok.inj hsupers
  simp only [described, Prod.mk.injEq, List.cons.injEq, and_true] at hall
  obtain ⟨htwo, ⟨hnode, hsector, hroot, hchunkRoot, hdir, hused⟩, harray⟩ := hall
  obtain ⟨fs, hopen, hrest⟩ := (run_bind_eq_ok _).mp hopened
  obtain ⟨reply, hreply, hpair⟩ := (run_bind_eq_ok _).mp hrest
  obtain ⟨hmappings, hinode⟩ := Prod.mk.inj (Except.ok.inj hpair)
  have hmirror : ∀ m ∈ fs.chunkMap.mappings,
      Mirror firstDevice.device sb.devid secondDevice.device sb'.devid m := by
    rw [hmappings, htwo, hone]
    simp only [List.forall_mem_cons, List.not_mem_nil, false_implies, implies_true, and_true]
    exact ⟨mirrored_sample_chunk (by decide) (by decide) (by decide),
      mirrored_sample_chunk (by decide) (by decide) (by decide)⟩
  have hopenDefault : (Opening.default.program referenceEnv firstDevice.size).run
      firstDevice.device.answer = .ok fs := hopen
  obtain ⟨hopen', hreplies⟩ := mirrors_agree referenceEnv_usize64 firstDevice.exact
    secondDevice.bytewise hload hload' ⟨hnode, hsector, hroot, hchunkRoot, hdir, harray, hused⟩
    hopenDefault hmirror
  rw [htwo] at hopen' hreplies
  rw [hinode] at hreply
  exact ⟨fs, hopen, hopen', (hreplies _).ok hreply⟩

end Btrfs
