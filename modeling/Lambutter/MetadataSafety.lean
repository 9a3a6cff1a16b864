/-
Walking the metadata of a mounted volume never panics.

The offsets, sizes and numbers that `resolve`, `metadata` and `read_dir` compute with come
straight from blocks that only have to carry the right checksum.  What keeps them in range
is local to each parser; what this file adds is the one fact that passes from call to call,
namely that an inode number is a `u64` (`Inode.Bounded`).  An open leaves such a handle,
every call that returns handles returns such handles (`handles_ensures`), and with them
every further call is safe, whatever the reader answers.
-/
import Lambutter.Caps
import Lambutter.Handles

namespace Btrfs

variable {env : Env} {deviceSizeBytes : ℕ} {fs : Btrfs}

/-- An inode the instance produces: the root it was opened at, or a handle that some call
of some session returns. -/
def Produces {σ : Type} (env : Env) (R : (q : ReadReq) → σ → Ans q × σ) (fs : Btrfs)
    (inode : Inode) : Prop :=
  inode = fs.root ∨
    ∃ calls s handles, .ok handles ∈ session env R fs calls s ∧ inode ∈ handles

section Ensures

variable (h64 : env.usizeBits = 64)

include h64

/-- An open that returns leaves a root directory. -/
theorem opening_returns (opening : Opening) :
    Returns (opening.program env deviceSizeBytes) fun fs => fs.root.Bounded := by
  cases opening with
  | default =>
    refine Prog.Ensures.bind (returns_any _) fun mounted _ => ?_
    refine Prog.Ensures.bind ((resolveDefaultSubvol_ensures h64 _ _).weaken fun _ _ => trivial)
      fun root hroot => ?_
    exact Prog.Ensures.pure (rootNumber_bounded hroot)
  | subvolId id =>
    refine Prog.Ensures.bind (returns_any _) fun mounted _ => ?_
    refine Prog.Ensures.bind ((subvolRoot_ensures h64 _ _).weaken fun _ _ => trivial)
      fun root hroot => ?_
    exact Prog.Ensures.pure (rootNumber_bounded hroot)
  | subvolPath path =>
    refine Prog.Ensures.bind (returns_any _) fun mounted _ => ?_
    refine Prog.Ensures.bind (returns_any _) fun top _ => ?_
    refine Prog.Ensures.bind (returns_any _) fun target _ => ?_
    -- the path may end anywhere; only inode 256 is taken as a root
    by_cases hroot : target.objectid ≠ firstFreeObjectid
    · rw [if_pos hroot]
      exact trivial
    · rw [if_neg hroot]
      exact Prog.Ensures.pure (rootNumber_bounded (not_not.mp hroot))

theorem resolve_ensures (hroot : fs.root.Bounded) (path : Path) :
    Prog.Ensures Stop.Typed (fs.resolve env path) Inode.Bounded :=
  resolvePath_ensures h64 fs.trees hroot path

theorem metadata_ensures (inode : Inode) :
    Prog.Ensures Stop.Typed (fs.metadata env inode) fun m => m.size < 2 ^ 64 :=
  readMetadata_ensures h64 fs.geometry.validNodesize

theorem readDir_ensures (trees : Trees) {dir : Inode} (hdir : dir.Bounded) :
    Prog.Ensures Stop.Typed (readDir env trees dir) fun list => ∀ e ∈ list, e.inode.Bounded := by
  refine (readDir_orderly h64 trees hdir).mono fun t r h => ?_
  cases r with
  | ok list => exact h.2 list rfl
  | error x => exact h.1.stops x rfl

theorem readDirAt_ensures (hroot : fs.root.Bounded) (path : Path) :
    Prog.Ensures Stop.Typed (fs.readDirAt env path) fun list => ∀ e ∈ list, e.inode.Bounded :=
  Prog.Ensures.bind (resolve_ensures h64 hroot path) fun _ hdir => readDir_ensures h64 _ hdir

/-- A call that returns handles returns inode numbers that are `u64`s. -/
theorem handles_ensures (hroot : fs.root.Bounded) (c : Call) :
    Prog.Ensures Stop.Typed (c.handles env fs) fun handles => ∀ inode ∈ handles, inode.Bounded := by
  cases c with
  | resolve path =>
    refine Prog.Ensures.bind (resolve_ensures h64 hroot path) fun inode hinode => ?_
    refine Prog.Ensures.pure fun inode' hmem => ?_
    rw [List.mem_singleton.mp hmem]
    exact hinode
  | readDir path =>
    refine Prog.Ensures.bind (readDirAt_ensures h64 hroot path) fun entries hentries => ?_
    refine Prog.Ensures.pure fun inode hmem => ?_
    obtain ⟨e, he, rfl⟩ := List.mem_map.mp hmem
    exact hentries e he

/-- So do all the calls of a session, from any state of the reader. -/
theorem session_bounded {σ : Type} (R : (q : ReadReq) → σ → Ans q × σ) (hroot : fs.root.Bounded)
    (calls : List Call) (s : σ) : ∀ handles, .ok handles ∈ session env R fs calls s →
      ∀ inode ∈ handles, inode.Bounded := by
  induction calls generalizing s with
  | nil => exact fun _ h => absurd h List.not_mem_nil
  | cons c calls ih =>
    intro handles h
    rcases List.mem_cons.mp h with h | h
    · exact (handles_ensures h64 hroot c).returns R s h.symm
    · exact ih _ handles h

theorem produces_bounded {σ : Type} {R : (q : ReadReq) → σ → Ans q × σ} (hroot : fs.root.Bounded)
    {inode : Inode} (h : Produces env R fs inode) : inode.Bounded := by
  obtain rfl | ⟨calls, s, handles, hmem, hinode⟩ := h
  · exact hroot
  · exact session_bounded h64 R hroot calls s handles hmem inode hinode

omit h64 in
/-- A program whose only stops are typed errors does not panic, whoever answers. -/
theorem safe_of_ensures {α σ : Type} {p : ReadM α} {P : α → Prop}
    (h : Prog.Ensures Stop.Typed p P) (R : (q : ReadReq) → σ → Ans q × σ) (s : σ) :
    Outcome.Safe (Prog.exec R p s).result :=
  fun _ hfault => h.stops R s hfault

/-- After any open that succeeded, on whatever image, `resolve` and `read_dir` of every
path, and `metadata` and a listing of every inode that the instance produces, return or fail
with an error of the interface. -/
theorem walking_safe {σ : Type} (R : (q : ReadReq) → σ → Ans q × σ) (opening : Opening) (s : σ)
    (hopen : (Prog.exec R (opening.program env deviceSizeBytes) s).result = .ok fs) :
    ∀ {τ : Type} (R' : (q : ReadReq) → τ → Ans q × τ) (s' : τ),
      (∀ path, Outcome.Safe (Prog.exec R' (fs.resolve env path) s').result) ∧
      (∀ path, Outcome.Safe (Prog.exec R' (fs.readDirAt env path) s').result) ∧
      ∀ inode, Produces env R' fs inode →
        Outcome.Safe (Prog.exec R' (fs.metadata env inode) s').result ∧
        Outcome.Safe (Prog.exec R' (readDir env fs.trees inode) s').result := by
  have hroot : fs.root.Bounded := (opening_returns h64 opening).returns R s hopen
  intro τ R' s'
  refine ⟨fun path => ?_, fun path => ?_, fun inode hinode => ⟨?_, ?_⟩⟩
  · exact safe_of_ensures (resolve_ensures h64 hroot path) R' s'
  · exact safe_of_ensures (readDirAt_ensures h64 hroot path) R' s'
  · exact safe_of_ensures (metadata_ensures h64 inode) R' s'
  · exact safe_of_ensures (readDir_ensures h64 fs.trees (produces_bounded h64 hroot hinode)) R' s'

end Ensures

/-- On the sample volume: the path `/s` behind the counting reader, and the root. -/
theorem walking_safe_sample : ∃ fs : Btrfs, fs.root = topDir ∧
    Outcome.Safe (Prog.exec countingReader (fs.resolve referenceEnv ⟨[47, 115]⟩) 3).result ∧
    Outcome.Safe (Prog.exec countingReader (fs.readDirAt referenceEnv ⟨[47, 115]⟩) 3).result ∧
    Outcome.Safe (Prog.exec countingReader (fs.metadata referenceEnv topDir) 3).result := by
  obtain ⟨fs, hopen, htop⟩ := sample_opens
  obtain ⟨hresolve, hlist, hinode⟩ :=
    walking_safe referenceEnv_usize64 countingReader .default 0 hopen countingReader 3
  exact ⟨fs, htop, hresolve _, hlist _, (hinode topDir (.inl htop.symm)).1⟩

end Btrfs
