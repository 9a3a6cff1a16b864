/-
Handles and the trees they name.

An `Inode` keeps the id of its subvolume and, next to it, where that subvolume's tree
starts.  Nothing checks later that the two belong together, so every step that makes a
handle has to keep them together: an inode entry keeps both, a subvolume entry takes
both from the root tree, and the empty directory keeps both (`entryTarget_coherent`).

This holds on every image, whatever its trees say, as long as the reader gives the same
answer to the same question.  It follows that the three ways to open a volume agree
(`handles_coherent`).
-/
import Lambutter.ChunkWalk
import Lambutter.Forest
import Lambutter.Pages

namespace Btrfs

/-! ### Sessions -/

/-- The three ways to open a volume. -/
inductive Opening
  | default
  | subvolId (id : ℕ)
  | subvolPath (path : Path)

/-- The calls that return handles. -/
inductive Call
  | resolve (path : Path)
  | readDir (path : Path)

section Session

variable (env : Env)

def Opening.program (deviceSizeBytes : ℕ) : Opening → ReadM Btrfs
  | .default => openDefault env deviceSizeBytes
  | .subvolId id => openSubvolId env deviceSizeBytes id
  | .subvolPath path => openSubvolPath env deviceSizeBytes path

/-- The handles that a call returns. -/
def Call.handles (fs : Btrfs) : Call → ReadM (List Inode)
  | .resolve path => do
    let inode ← fs.resolve env path
    return [inode]
  | .readDir path => do
    let entries ← fs.readDirAt env path
    return entries.map DirEntry.inode

/-- Calls of an instance one after the other; one that fails does not end the session. -/
def session {σ : Type} (R : (q : ReadReq) → σ → Ans q × σ) (fs : Btrfs) :
    List Call → σ → List (Outcome (List Inode))
  | [], _ => []
  | c :: calls, s =>
    (Prog.exec R (c.handles env fs) s).result ::
      session R fs calls (Prog.exec R (c.handles env fs) s).state

end Session

/-! ### Coherence -/

/-- The handle's tree is the one that the root tree names for its subvolume. -/
def Coherent (env : Env) (trees : Trees) (g : (q : ReadReq) → Ans q) (inode : Inode) : Prop :=
  ∃ root, (subvolRoot env trees inode.subvol).run g = .ok root ∧ root.treeRoot = inode.treeRoot

section Coherence

variable {env : Env} {trees : Trees} {g : (q : ReadReq) → Ans q}

/-- What `subvol_root` returns is the root directory of the subvolume asked for. -/
theorem subvolRoot_eq {id : ℕ} {root : Inode} (h : (subvolRoot env trees id).run g = .ok root) :
    root.subvol = id ∧ root.objectid = firstFreeObjectid := by
  obtain ⟨found, -, h⟩ := (Prog.run_bind_eq_ok _).mp h
  obtain ⟨item, -, h⟩ := (Prog.run_bind_eq_ok _).mp h
  split_ifs at h
  · exact absurd h err_ne_ok
  · cases h
    exact ⟨rfl, rfl⟩

theorem subvolRoot_coherent {id : ℕ} {root : Inode}
    (h : (subvolRoot env trees id).run g = .ok root) : Coherent env trees g root := by
  obtain ⟨rfl, -⟩ := subvolRoot_eq h
  exact ⟨root, h, rfl⟩

/-- A handle that differs in the inode number only. -/
theorem Coherent.sibling {dir : Inode} (h : Coherent env trees g dir) (objectid : ℕ) :
    Coherent env trees g { dir with objectid } := h

theorem entryTarget_coherent {dir inode : Inode} (hdir : Coherent env trees g dir)
    {name : List UInt8} {location : DiskKey} {l : ℕ}
    (h : (entryTarget env trees dir name location l).run g = .ok inode) :
    Coherent env trees g inode := by
  unfold entryTarget at h
  split_ifs at h
  · cases h
    exact hdir.sibling _
  · obtain ⟨links, -, h⟩ := (Prog.run_bind_eq_ok _).mp h
    split_ifs at h
    · exact subvolRoot_coherent h
    · cases h
      exact hdir.sibling _
  · exact absurd h err_ne_ok

theorem lookupInDir_coherent {dir inode : Inode} (hdir : Coherent env trees g dir)
    {name : List UInt8} (h : (lookupInDir env trees dir name).run g = .ok inode) :
    Coherent env trees g inode := by
  obtain ⟨found, -, h⟩ := (Prog.run_bind_eq_ok _).mp h
  rcases found with _ | ⟨leaf, idx⟩
  · exact absurd h err_ne_ok
  · obtain ⟨item, -, h⟩ := (Prog.run_bind_eq_ok _).mp h
    obtain ⟨data, -, h⟩ := (Prog.run_bind_eq_ok _).mp h
    obtain ⟨entry, -, h⟩ := (Prog.run_bind_eq_ok _).mp h
    rcases entry with _ | entry
    · exact absurd h err_ne_ok
    · exact entryTarget_coherent hdir h

theorem resolvePath_coherent {start inode : Inode} (hstart : Coherent env trees g start)
    {path : Path} (h : (resolvePath env trees start path).run g = .ok inode) :
    Coherent env trees g inode := by
  unfold resolvePath at h
  generalize path.components = names at h
  induction names generalizing start with
  | nil =>
    cases h
    exact hstart
  | cons name rest ih =>
    rw [List.foldlM_cons] at h
    obtain ⟨next, hnext, h⟩ := (Prog.run_bind_eq_ok _).mp h
    exact ih (lookupInDir_coherent hstart hnext) h

theorem readDir_coherent {dir : Inode} (hdir : Coherent env trees g dir) {list : List DirEntry}
    (h : (readDir env trees dir).run g = .ok list) :
    ∀ e ∈ list, Coherent env trees g e.inode := by
  refine @Walk.run_keeps _ env (readDir.walk env trees dir) g
    (fun out => ∀ e ∈ out, Coherent env trees g e.inode) ?_ ?_ _ _ _ _
    (fun e he => absurd he List.not_mem_nil) h
  -- an entry that is appended names an inode whose root the entry itself gave
  · intro block item out out' next hout hstep
    have hentry := @readDir_step env trees dir g (block, item) out
    rw [show (readDir.walk env trees dir).step g (block, item) out = .ok (.more out' next) from
      hstep] at hentry
    split_ifs at hentry
    · obtain ⟨e, he, hpace⟩ := Except.bind_eq_ok.mp hentry.symm
      cases hpace
      obtain ⟨data, -, he⟩ := Except.bind_eq_ok.mp he
      obtain ⟨parsed, -, he⟩ := Except.bind_eq_ok.mp he
      obtain ⟨found, -, he⟩ := Except.bind_eq_ok.mp he
      dsimp only at he
      split_ifs at he
      · exact absurd he err_ne_ok
      · obtain ⟨inode, hinode, he⟩ := Except.bind_eq_ok.mp he
        cases he
        intro e he
        rcases List.mem_append.mp he with he | he
        · exact hout e he
        · rw [List.mem_singleton.mp he]
          exact entryTarget_coherent hdir hinode
    · cases hentry
  · intro block item out out' hout hstep
    have hentry := @readDir_step env trees dir g (block, item) out
    rw [show (readDir.walk env trees dir).step g (block, item) out = .ok (.leave out') from
      hstep] at hentry
    split_ifs at hentry
    · obtain ⟨e, -, hpace⟩ := Except.bind_eq_ok.mp hentry.symm
      cases hpace
    · cases hentry
      exact hout

end Coherence

/-! ### Every open and every session -/

section Every

variable {env : Env} {g : (q : ReadReq) → Ans q} {deviceSizeBytes : ℕ} {fs : Btrfs}

/-- What an open leaves: it has mounted the volume, and chosen a root directory that is
the one `subvol_root` gives for its id. -/
theorem opened (opening : Opening) (h : (opening.program env deviceSizeBytes).run g = .ok fs) :
    (∃ mounted hint, (mount env deviceSizeBytes).run g = .ok (mounted, hint) ∧
      fs = { mounted with root := fs.root }) ∧
    (subvolRoot env fs.trees fs.subvolume).run g = .ok fs.root := by
  cases opening with
  | default =>
    obtain ⟨⟨mounted, hint⟩, hmount, h⟩ := (Prog.run_bind_eq_ok _).mp h
    obtain ⟨root, hroot, h⟩ := (Prog.run_bind_eq_ok _).mp h
    cases h
    obtain ⟨found, -, hroot⟩ := (Prog.run_bind_eq_ok _).mp hroot
    have hsubvol := (Prog.run_mapStop_eq_ok _).mp hroot
    rw [← (subvolRoot_eq hsubvol).1] at hsubvol
    exact ⟨⟨mounted, hint, hmount, rfl⟩, hsubvol⟩
  | subvolId id =>
    obtain ⟨⟨mounted, hint⟩, hmount, h⟩ := (Prog.run_bind_eq_ok _).mp h
    obtain ⟨root, hroot, h⟩ := (Prog.run_bind_eq_ok _).mp h
    cases h
    obtain ⟨rfl, -⟩ := subvolRoot_eq hroot
    exact ⟨⟨mounted, hint, hmount, rfl⟩, hroot⟩
  | subvolPath path =>
    obtain ⟨⟨mounted, hint⟩, hmount, h⟩ := (Prog.run_bind_eq_ok _).mp h
    obtain ⟨top, htop, h⟩ := (Prog.run_bind_eq_ok _).mp h
    obtain ⟨target, htarget, h⟩ := (Prog.run_bind_eq_ok _).mp h
    split_ifs at h with hroot
    · exact absurd h err_ne_ok
    · cases h
      refine ⟨⟨mounted, hint, hmount, rfl⟩, ?_⟩
      obtain ⟨root, hsubvol, htree⟩ := resolvePath_coherent (subvolRoot_coherent htop) htarget
      obtain ⟨h1, h2⟩ := subvolRoot_eq hsubvol
      -- same subvolume, same tree and both inode 256
      have heq : root = target := by
        cases root
        cases target
        simp_all
      rw [heq] at hsubvol
      exact hsubvol

theorem handles_run {c : Call} (hroot : Coherent env fs.trees g fs.root) {handles : List Inode}
    (h : (c.handles env fs).run g = .ok handles) :
    ∀ inode ∈ handles, Coherent env fs.trees g inode := by
  cases c with
  | resolve path =>
    obtain ⟨inode, hinode, h⟩ := (Prog.run_bind_eq_ok _).mp h
    cases h
    intro inode' hmem
    rw [List.mem_singleton.mp hmem]
    exact resolvePath_coherent hroot hinode
  | readDir path =>
    obtain ⟨entries, hentries, h⟩ := (Prog.run_bind_eq_ok _).mp h
    cases h
    obtain ⟨dir, hdir, hlist⟩ := (Prog.run_bind_eq_ok _).mp hentries
    intro inode hmem
    obtain ⟨e, he, rfl⟩ := List.mem_map.mp hmem
    exact readDir_coherent (resolvePath_coherent hroot hdir) hlist e he

theorem session_coherent {σ : Type} {R : (q : ReadReq) → σ → Ans q × σ}
    (hR : ∀ q s, (R q s).1 = g q) (hroot : Coherent env fs.trees g fs.root) (calls : List Call)
    (s : σ) : ∀ handles, .ok handles ∈ session env R fs calls s →
      ∀ inode ∈ handles, Coherent env fs.trees g inode := by
  induction calls generalizing s with
  | nil => exact fun _ h => absurd h List.not_mem_nil
  | cons c calls ih =>
    intro handles h
    rcases List.mem_cons.mp h with h | h
    · refine handles_run hroot (c := c) ?_
      rw [← Prog.exec_result_of_answers g hR _ s]
      exact h.symm
    · exact ih _ handles h

/-- Behind a reader that answers alike whenever it is asked, every handle of every
session is coherent, and the instance is the one that opening by id gives. -/
theorem handles_coherent {σ : Type} {R : (q : ReadReq) → σ → Ans q × σ}
    (hR : ∀ q s, (R q s).1 = g q) (opening : Opening) (s : σ)
    (hopen : (Prog.exec R (opening.program env deviceSizeBytes) s).result = .ok fs) :
    (∀ calls s' handles, .ok handles ∈ session env R fs calls s' → ∀ inode ∈ handles,
      ∃ root, (∀ s'', (Prog.exec R (subvolRoot env fs.trees inode.subvol) s'').result = .ok root) ∧
        root.treeRoot = inode.treeRoot) ∧
    ∀ s', (Prog.exec R (openSubvolId env deviceSizeBytes fs.subvolume) s').result = .ok fs := by
  rw [Prog.exec_result_of_answers g hR] at hopen
  obtain ⟨⟨mounted, hint, hmount, hfs⟩, hroot⟩ := opened opening hopen
  have hcoherent : Coherent env fs.trees g fs.root := ⟨fs.root, hroot, rfl⟩
  constructor
  · intro calls s' handles hmem inode hinode
    obtain ⟨root, hsubvol, htree⟩ :=
      session_coherent hR hcoherent calls s' handles hmem inode hinode
    refine ⟨root, fun s'' => ?_, htree⟩
    rw [Prog.exec_result_of_answers g hR]
    exact hsubvol
  · intro s'
    rw [Prog.exec_result_of_answers g hR]
    have htrees : fs.trees = mounted.trees := by
      rw [hfs]
      rfl
    rw [htrees] at hroot
    refine (Prog.run_bind_eq_ok _).mpr ⟨(mounted, hint), hmount, ?_⟩
    refine (Prog.run_bind_eq_ok _).mpr ⟨fs.root, hroot, ?_⟩
    rw [Prog.run_pure]
    exact congrArg Except.ok hfs.symm

end Every

/-! ### The sample volume, mounted -/

/-- The sample forest with its chunk tree, and a superblock at `0x10000`. -/
def mountVolume : SliceDevice :=
  .ofNat (image (leafFields 0x1000 4096 1107544773 0x100000 rootItems ++
    leafFields 0x2000 4096 3803515382 0x101000 topItems ++
    leafFields 0x3000 4096 688029819 0x102000 innerItems ++ chunkTreeFields ++
    [(0x10000, 2935555951), (0x10040, btrfsMagic), (0x10048, 1), (0x10050, 0x100000),
     (0x10058, 0x200000), (0x10090, 4096), (0x10094, 4096), (0x100a0, 97), (0x100c9, 1),
     (0x1032b, leValue systemChunk.pack)])) 0x11000 bootSize_lt

/-- A reader that counts its requests. -/
def countingReader (q : ReadReq) (count : ℕ) : Ans q × ℕ := (mountVolume.device.answer q, count + 1)

set_option maxRecDepth 100000 in
theorem sample_opens : ∃ fs : Btrfs,
    (Prog.exec countingReader (Opening.default.program referenceEnv 0x11000) 0).result = .ok fs ∧
      fs.root = topDir := by
  have hanswers : ∀ q s, (countingReader q s).1 = mountVolume.device.answer q := fun _ _ => rfl
  have hroot : (Btrfs.root <$> (openDefault referenceEnv 0x11000).run mountVolume.device.answer) =
      .ok topDir := by
    rw [show mountVolume.device.answer = numbered _ _ from answer_ofNat _ _ _]
    decide +kernel
  cases hrun : (openDefault referenceEnv 0x11000).run mountVolume.device.answer with
  | ok fs =>
    rw [hrun] at hroot
    refine ⟨fs, ?_, Except.ok.inj hroot⟩
    rw [Prog.exec_result_of_answers _ hanswers]
    exact hrun
  | error x =>
    rw [hrun] at hroot
    cases hroot

set_option maxRecDepth 100000 in
/-- The volume opens at its top level, opening it by the id 5 is the same, and the handle
of `/s` names the tree of subvolume 256. -/
theorem handles_sample : ∃ fs : Btrfs,
    (Prog.exec countingReader (openDefault referenceEnv 0x11000) 0).result = .ok fs ∧
    fs.root = topDir ∧
    (Prog.exec countingReader (openSubvolId referenceEnv 0x11000 5) 0).result = .ok fs ∧
    ∃ root, (Prog.exec countingReader (subvolRoot referenceEnv fs.trees 256) 0).result = .ok root ∧
      root.treeRoot = 0x102000 := by
  have hanswers : ∀ q s, (countingReader q s).1 = mountVolume.device.answer q := fun _ _ => rfl
  obtain ⟨fs, hexec, htop⟩ := sample_opens
  obtain ⟨hhandles, hid⟩ := handles_coherent hanswers .default 0 hexec
  have hsubvolume : fs.subvolume = 5 := congrArg Inode.subvol htop
  have hfs : (openDefault referenceEnv 0x11000).run mountVolume.device.answer = .ok fs := by
    rw [← Prog.exec_result_of_answers _ hanswers _ 0]
    exact hexec
  have hs : (do
      let fs ← openDefault referenceEnv 0x11000
      fs.resolve referenceEnv ⟨[47, 115]⟩).run mountVolume.device.answer =
        .ok { subvol := 256, treeRoot := 0x102000, objectid := 256 } := by
    rw [show mountVolume.device.answer = numbered _ _ from answer_ofNat _ _ _]
    decide +kernel
  rw [Prog.run_bind, hfs, Except.ok_bind] at hs
  obtain ⟨root, hsubvol, htree⟩ := hhandles [.resolve ⟨[47, 115]⟩] 0
    [{ subvol := 256, treeRoot := 0x102000, objectid := 256 }] (List.mem_singleton.mpr (by
      rw [Prog.exec_result_of_answers _ hanswers]
      refine Eq.symm ((Prog.run_bind_eq_ok _).mpr ⟨_, hs, rfl⟩))) _ (List.mem_singleton.mpr rfl)
  rw [← hsubvolume]
  exact ⟨fs, hexec, htop, hid 0, root, hsubvol 0, htree⟩

end Btrfs
