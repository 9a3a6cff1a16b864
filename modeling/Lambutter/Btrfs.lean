/-
A mounted volume: opening it, and the calls an instance offers.

Opening loads a superblock, parses the chunks packed in it, reads the rest of the
chunk tree and picks a subvolume.  Only the second of these steps can panic.  It does
when the size field of the superblock admits a record that the array does not hold
(`BootOverruns`), and so an open panics exactly then, whichever of the three ways is
taken and whatever the reader does (`opening_panics_iff`).
-/
import Lambutter.ChunkTree
import Lambutter.Resolve
import Lambutter.Superblock

/-- A mounted, read-only volume; the reader is whoever answers. -/
structure Btrfs where
  chunkMap : ChunkMap
  geometry : Geometry
  rootTreeRoot : ℕ
  root : Inode

namespace Btrfs

def trees (fs : Btrfs) : Trees where
  chunkMap := fs.chunkMap
  nodesize := fs.geometry.nodesize
  rootTreeRoot := fs.rootTreeRoot
  validNodesize := fs.geometry.validNodesize

/-- The subvolume the volume was opened at. -/
def subvolume (fs : Btrfs) : ℕ := fs.root.subvol

variable (env : Env)

/-- The chunks that the superblock itself describes. -/
def bootstrap (sb : ValidSuperblock) : Outcome ChunkMap :=
  parseSystemChunkArray env (ChunkMap.empty.setLocalDevid sb.devid) sb.sysChunkArray
    (env.asUsize sb.sysChunkArraySize)

/-- What is left of `mount` once the bootstrap chunks are known. -/
def mountWith (sb : ValidSuperblock) (map : ChunkMap) : ReadM (Btrfs × ℕ) := do
  let chunkMap ← populateFromChunkTree env map sb.nodesize sb.chunkRoot
  let fs : Btrfs :=
    { chunkMap
      geometry :=
        { nodesize := sb.nodesize, sectorsize := sb.sectorsize,
          validNodesize := sb.nodesize_valid, validSectorsize := sb.sectorsize_valid }
      rootTreeRoot := sb.root
      root := { subvol := fsTreeObjectid, treeRoot := 0, objectid := firstFreeObjectid } }
  return (fs, sb.rootDirObjectid)

/-- Everything an open needs before choosing a subvolume, with the superblock's hint. -/
def mount (deviceSizeBytes : ℕ) : ReadM (Btrfs × ℕ) := do
  let sb ← load env deviceSizeBytes
  let map ← bootstrap env sb
  mountWith env sb map

/-- `Btrfs::open`: at the default subvolume. -/
def openDefault (deviceSizeBytes : ℕ) : ReadM Btrfs := do
  let (fs, defaultHint) ← mount env deviceSizeBytes
  let root ← resolveDefaultSubvol env fs.trees defaultHint
  return { fs with root }

/-- At the subvolume with id `id`. -/
def openSubvolId (deviceSizeBytes id : ℕ) : ReadM Btrfs := do
  let (fs, _) ← mount env deviceSizeBytes
  let root ← subvolRoot env fs.trees id
  return { fs with root }

/-- At the subvolume that `path` names, from the top level. -/
def openSubvolPath (deviceSizeBytes : ℕ) (path : Path) : ReadM Btrfs := do
  let (fs, _) ← mount env deviceSizeBytes
  let top ← subvolRoot env fs.trees fsTreeObjectid
  let target ← resolvePath env fs.trees top path
  if target.objectid ≠ firstFreeObjectid then (err .notASubvolume : Outcome Btrfs)
  else return { fs with root := target }

/-! ### Calls of an instance -/

def resolve (fs : Btrfs) (path : Path) : ReadM Inode := resolvePath env fs.trees fs.root path

def metadata (fs : Btrfs) (inode : Inode) : ReadM Metadata :=
  readMetadata env fs.chunkMap fs.geometry.nodesize inode.treeRoot inode.objectid

/-- `Btrfs::read_dir`: the entries of the directory at `path`. -/
def readDirAt (fs : Btrfs) (path : Path) : ReadM (List DirEntry) := do
  let inode ← fs.resolve env path
  readDir env fs.trees inode

/-! ### Panics -/

/-- The size field admits a record that the array does not hold, after records that
are all in order. -/
def BootOverruns (sb : ValidSuperblock) : Prop :=
  ∃ reached, Relation.ReflTransGen (PacksNext sb.sysChunkArray sb.sysChunkArraySize)
      (0, ChunkMap.empty.setLocalDevid sb.devid) reached ∧
    Overruns sb.sysChunkArray sb.sysChunkArraySize reached.1

section Panics

variable {env} (h64 : env.usizeBits = 64)

include h64

theorem mountWith_ensures (sb : ValidSuperblock) (map : ChunkMap) :
    Prog.Ensures Stop.Typed (mountWith env sb map) fun _ => True := by
  have hwalk := Walk.run_orderly h64 (w := populateFromChunkTree.walk env sb.nodesize sb.chunkRoot)
    sb.nodesize_valid (populateFromChunkTree_good h64 sb.nodesize sb.chunkRoot)
    (⟨by decide, by decide, by decide⟩ : chunksFrom.Bounded) (s := map) trivial
  have hpopulate : Prog.Ensures Stop.Typed
      (populateFromChunkTree env map sb.nodesize sb.chunkRoot) fun _ => True := by
    refine hwalk.mono fun t r h => ?_
    cases r with
    | ok map' => trivial
    | error x => exact h.1.stops x rfl
  exact Prog.Ensures.bind hpopulate fun _ _ => Prog.Ensures.pure trivial

omit h64 in
/-- A run that loads a superblock, takes its chunks and goes on without a panic. -/
theorem exec_boot_fault_iff {α σ : Type} {rest : ValidSuperblock → ChunkMap → ReadM α}
    (hrest : ∀ sb map, Prog.Ensures Stop.Typed (rest sb map) fun _ => True)
    (R : (q : ReadReq) → σ → Ans q × σ) (s : σ) (deviceSizeBytes : ℕ) (f : Fault) :
    (Prog.exec R (load env deviceSizeBytes >>= fun sb =>
        (liftM (bootstrap env sb) : ReadM ChunkMap) >>= rest sb) s).result = fault f ↔
      ∃ sb, (Prog.exec R (load env deviceSizeBytes) s).result = .ok sb ∧
        bootstrap env sb = fault f := by
  rw [Prog.exec_bind_result]
  have hload := @load_ensures env deviceSizeBytes
  -- load and the rest stop at typed errors only; what is left to panic is bootstrap
  cases hrun : (Prog.exec R (load env deviceSizeBytes) s).result with
  | error x =>
    constructor
    · intro h
      cases h
      exact absurd (hload.stops R s hrun) id
    · rintro ⟨sb, hsb, -⟩
      cases hsb
  | ok sb =>
    show (Prog.exec R (liftM (bootstrap env sb) >>= rest sb) _).result = fault f ↔ _
    rw [Prog.exec_bind_result, Prog.liftM_def, Prog.exec_lift]
    cases hboot : bootstrap env sb with
    | error x =>
      show (.error x : Outcome α) = fault f ↔ _
      constructor
      · intro h
        cases h
        exact ⟨sb, rfl, hboot⟩
      · rintro ⟨sb', hsb', h⟩
        cases hsb'
        cases hboot.symm.trans h
        rfl
    | ok map =>
      constructor
      · intro h
        exact absurd ((hrest sb map).stops R _ h) id
      · rintro ⟨sb', hsb', h⟩
        cases hsb'
        rw [hboot] at h
        exact absurd h.symm fault_ne_ok

/-- When the bootstrap parser panics. -/
theorem bootstrap_fault_iff {sb : ValidSuperblock} (hparsed : sb.Parsed) (f : Fault) :
    bootstrap env sb = fault f ↔ f = .index ∧ BootOverruns sb := by
  have hsize := hparsed.size_lt
  unfold bootstrap
  rw [Env.asUsize_eq h64 (by omega)]
  exact parseSystemChunkArray_fault_iff h64 hsize _ f

/-- When an open panics: `rest` is what it does after the bootstrap. -/
theorem opening_fault_iff {α σ : Type} {rest : ValidSuperblock → ChunkMap → ReadM α}
    (hrest : ∀ sb map, Prog.Ensures Stop.Typed (rest sb map) fun _ => True)
    (R : (q : ReadReq) → σ → Ans q × σ) (s : σ) (deviceSizeBytes : ℕ) :
    Outcome.Safe (Prog.exec R (load env deviceSizeBytes >>= fun sb =>
        (liftM (bootstrap env sb) : ReadM ChunkMap) >>= rest sb) s).result ↔
      ¬ ∃ sb, (Prog.exec R (load env deviceSizeBytes) s).result = .ok sb ∧ BootOverruns sb := by
  have hfault := @exec_boot_fault_iff env _ _ _ hrest R s deviceSizeBytes
  constructor
  · rintro hsafe ⟨sb, hsb, hover⟩
    have hparsed := (load_ensures deviceSizeBytes).returns R s hsb
    exact hsafe .index ((hfault .index).mpr
      ⟨sb, hsb, (bootstrap_fault_iff h64 hparsed .index).mpr ⟨rfl, hover⟩⟩)
  · intro hnot f hf
    obtain ⟨sb, hsb, hboot⟩ := (hfault f).mp hf
    have hparsed := (load_ensures deviceSizeBytes).returns R s hsb
    exact hnot ⟨sb, hsb, ((bootstrap_fault_iff h64 hparsed f).mp hboot).2⟩

/-- What it takes for a volume that is mounted to be opened without a panic. -/
theorem mount_fault_iff {α σ : Type} {rest : Btrfs × ℕ → ReadM α}
    (hrest : ∀ mounted, Prog.Ensures Stop.Typed (rest mounted) fun _ => True)
    (R : (q : ReadReq) → σ → Ans q × σ) (s : σ) (deviceSizeBytes : ℕ) :
    Outcome.Safe (Prog.exec R (mount env deviceSizeBytes >>= rest) s).result ↔
      ¬ ∃ sb, (Prog.exec R (load env deviceSizeBytes) s).result = .ok sb ∧ BootOverruns sb := by
  have hmount : mount env deviceSizeBytes >>= rest = load env deviceSizeBytes >>= fun sb =>
      (liftM (bootstrap env sb) : ReadM ChunkMap) >>= fun map =>
        mountWith env sb map >>= rest := by
    unfold mount
    simp only [bind_assoc]
  rw [hmount]
  exact opening_fault_iff h64 (fun sb map => Prog.Ensures.bind (mountWith_ensures h64 sb map)
    fun mounted _ => hrest mounted) R s deviceSizeBytes

/-- The three ways to open a volume panic exactly when the superblock that is loaded
makes the bootstrap parser overrun its array; over every reader and every size. -/
theorem opening_panics_iff {σ : Type} (R : (q : ReadReq) → σ → Ans q × σ) (s : σ)
    (deviceSizeBytes : ℕ) :
    (Outcome.Safe (Prog.exec R (openDefault env deviceSizeBytes) s).result ↔
      ¬ ∃ sb, (Prog.exec R (load env deviceSizeBytes) s).result = .ok sb ∧ BootOverruns sb) ∧
    (∀ id, Outcome.Safe (Prog.exec R (openSubvolId env deviceSizeBytes id) s).result ↔
      ¬ ∃ sb, (Prog.exec R (load env deviceSizeBytes) s).result = .ok sb ∧ BootOverruns sb) ∧
    ∀ path, Outcome.Safe (Prog.exec R (openSubvolPath env deviceSizeBytes path) s).result ↔
      ¬ ∃ sb, (Prog.exec R (load env deviceSizeBytes) s).result = .ok sb ∧ BootOverruns sb := by
  -- each opening mounts the volume, then takes steps that stop at typed errors only
  refine ⟨?_, fun id => ?_, fun path => ?_⟩
  · exact mount_fault_iff h64 (fun mounted => Prog.Ensures.bind
      (resolveDefaultSubvol_ensures h64 _ _) fun _ _ => Prog.Ensures.pure trivial)
      R s deviceSizeBytes
  · exact mount_fault_iff h64 (fun mounted => Prog.Ensures.bind (subvolRoot_ensures h64 _ _)
      fun _ _ => Prog.Ensures.pure trivial) R s deviceSizeBytes
  · refine mount_fault_iff h64 (fun mounted => ?_) R s deviceSizeBytes
    refine Prog.Ensures.bind (subvolRoot_ensures h64 _ _) fun top htop => ?_
    refine Prog.Ensures.bind (resolvePath_ensures h64 _ (rootNumber_bounded htop) _)
      fun target _ => ?_
    split_ifs
    · exact trivial
    · exact trivial

end Panics

theorem bootSize_lt : 0x11000 < 2 ^ 64 := by decide

/-- A superblock of 100 stripes in one record, with a size field twice the array's. -/
def overrunVolume : SliceDevice :=
  .ofNat (image [(0x10000, 151127515), (0x10040, btrfsMagic), (0x10048, 1), (0x10090, 4096),
    (0x10094, 4096), (0x100a0, 4096), (0x100c9, 1), (0x1032b, 256), (0x10333, chunkItemKey),
    (0x1033c, 4096), (0x10368, 100)]) 0x11000 bootSize_lt

set_option maxRecDepth 100000 in
/-- Opening that volume panics. -/
theorem opening_overruns :
    ¬ Outcome.Safe ((openDefault referenceEnv 0x11000).run overrunVolume.device.answer) := by
  decide +kernel

set_option maxRecDepth 100000 in
/-- So does opening it at any subvolume, here the top level. -/
theorem opening_overruns_subvol :
    ¬ Outcome.Safe ((openSubvolId referenceEnv 0x11000 5).run overrunVolume.device.answer) := by
  obtain ⟨hdefault, hid, -⟩ := opening_panics_iff referenceEnv_usize64
    (fun q (_ : Unit) => (overrunVolume.device.answer q, ())) () 0x11000
  have hpanics : ¬ Outcome.Safe
      ((openDefault referenceEnv 0x11000).run overrunVolume.device.answer) := by decide +kernel
  rw [Prog.run, hid 5, ← hdefault]
  exact hpanics

end Btrfs
