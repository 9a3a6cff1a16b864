/-
What opening a volume and using it reads of the device.

The chunk map grows while the chunk tree is read through it, so where an open may read
is settled only by the map it ends with.  `AsksFor` bounds the requests of a run by what
the run returns: the copies of the superblock, and stripes that the final map gives to
the local device.  Nothing else on the device is ever looked at, and so nothing else
matters (`footprint`).
-/
import Lambutter.Mirrors

open Prog

/-- A request for a copy of the superblock on a device of this size. -/
def ForCopy (size : ℕ) (q : ReadReq) : Prop :=
  q.offset ∈ addressable size ∧ q.len = superblockSize

theorem WithinStripe.mono {map map' : ChunkMap} (h : map.Extends map') {q : ReadReq}
    (hq : WithinStripe map q) : WithinStripe map' q := by
  obtain ⟨m, hm, hlin, s, hs, hdev, hin⟩ := hq
  exact ⟨m, h.mappings m hm, hlin, s, hs, by rwa [h.localDevid], hin⟩

section Chunks

variable {env : Env}

/-- Going through a leaf of the chunk tree puts no request. -/
theorem populate_leaf_asks {nodesize chunkRoot : ℕ} (block : TreeBlock) (n idx : ℕ)
    (map : ChunkMap) (next : Option DiskKey) :
    ((populateFromChunkTree.walk env nodesize chunkRoot).leaf env block n idx map next).Asks
      fun _ => False := by
  induction n generalizing idx map next with
  | zero => exact asks_pure _
  | succ n ih =>
    rw [Walk.leaf]
    refine Asks.bind_lift fun item _ => ?_
    refine Asks.bind (p := .note _ (Pure.pure ())) trivial fun _ => ?_
    refine Asks.bind (Asks.bind_lift fun map' _ => asks_pure _) fun p => ?_
    cases p with
    | leave map' => exact asks_pure _
    | more map' next' => exact Asks.bind_lift fun idx' _ => ih _ _ _

variable (h64 : env.usizeBits = 64)

include h64

/-- The walk over the chunk tree reads stripes of the chunks it ends with. -/
theorem populate_asksFor {nodesize chunkRoot : ℕ} (hnode : ValidNodesize nodesize) (fuel : ℕ)
    (target : DiskKey) (map : ChunkMap) :
    ((populateFromChunkTree.walk env nodesize chunkRoot).run env fuel target map).AsksFor
      WithinStripe := by
  induction fuel generalizing target map with
  | zero => trivial
  | succ fuel ih =>
    have hextends : Returns ((populateFromChunkTree.walk env nodesize chunkRoot).run env
        (fuel + 1) target map) map.Extends := populate_returns (fuel + 1) target map
    rw [Walk.run] at hextends ⊢
    have hproceed : (populateFromChunkTree.walk env nodesize chunkRoot).proceed map = true := rfl
    rw [if_pos hproceed] at hextends ⊢
    have hsearch := asks_of_inside
      (findFirstGe_alike ((mapped_inside env map).blocks h64 hnode) chunkRoot target)
    refine hsearch.asksFor.bind (fun found _ => ?_) fun found final q hfound hfinal hq => ?_
    · rcases found with _ | ⟨block, idx⟩
      · exact asksFor_pure _
      show (Walk.leaf env _ block _ idx map none >>= _).AsksFor WithinStripe
      refine (populate_leaf_asks block _ idx map none).asksFor.bind (fun p _ => ?_)
        fun _ _ _ _ _ h => absurd h id
      rcases p with ⟨map', _ | next⟩ | map'
      · exact asksFor_pure _
      · exact ih next map'
      · exact asksFor_pure _
    · exact hq.mono (hextends.of_canReturn (canReturn_bind.mpr ⟨found, hfound, hfinal⟩))

end Chunks

/-! ### Opening -/

theorem load_loop_asks {env : Env} {size : ℕ} (offsets : List ℕ)
    (h : ∀ offset ∈ offsets, offset < size → offset ∈ addressable size) (seen : Seen) :
    (load.loop env size offsets seen).Asks (ForCopy size) := by
  induction offsets generalizing seen with
  | nil => exact asks_pure _
  | cons offset rest ih =>
    have hrest : ∀ seen, (load.loop env size rest seen).Asks (ForCopy size) :=
      ih fun offset hmem => h offset (List.mem_cons_of_mem _ hmem)
    rw [load.loop]
    split_ifs with hsize
    · exact hrest seen
    · have hone : (tryLoadOne env offset).Asks (ForCopy size) := by
        refine Asks.bind ⟨⟨h offset List.mem_cons_self (not_le.mp hsize), rfl⟩,
          fun _ => asks_pure _⟩ fun found => ?_
        cases found with
        | none => exact asks_pure _
        | some buf => exact asks_lift _
      refine Asks.bind hone fun outcome => ?_
      cases outcome with
      | unsupportedIncompat token => exact asks_lift _
      | _ => exact hrest _

theorem load_asks {env : Env} (size : ℕ) : (load env size).Asks (ForCopy size) := by
  refine Asks.bind (load_loop_asks _ (fun offset hmem hlt => ?_) _) fun seen => ?_
  · exact List.mem_filter.mpr ⟨hmem, decide_eq_true hlt⟩
  · cases seen.best with
    | some sb => exact asks_pure _
    | none => cases seen.unsupportedCsum <;> exact asks_lift _

namespace Btrfs

section Open

variable {env : Env} (h64 : env.usizeBits = 64) {size : ℕ}

/-- The requests that belong to the volume an open returns. -/
def Belongs (size : ℕ) (fs : Btrfs) (q : ReadReq) : Prop :=
  ForCopy size q ∨ WithinStripe fs.chunkMap q

include h64

theorem mount_asksFor : (mount env size).AsksFor fun r => Belongs size r.1 := by
  refine (load_asks size).asksFor.bind (fun sb _ => ?_) fun _ _ _ _ _ h => .inl h
  refine (asksFor_lift (P := fun _ _ => False) _).bind (fun map _ => ?_)
    fun _ _ _ _ _ h => absurd h id
  refine (populate_asksFor h64 sb.nodesize_valid _ _ map).bind (fun map _ => asksFor_pure _) ?_
  rintro map r q - hr hq
  obtain rfl : _ = r := hr
  exact .inr hq

/-- The root is chosen from the stripes of the mounted volume. -/
theorem choose_asks (opening : Opening) (mounted : Btrfs × ℕ) :
    (opening.choose env mounted).Asks (WithinStripe mounted.1.chunkMap) := by
  have hblocks : Blocks env (Inside mounted.1.chunkMap) mounted.1.trees.nodesize
      mounted.1.trees.chunkMap mounted.1.trees.chunkMap :=
    (mapped_inside env mounted.1.chunkMap).blocks h64 mounted.1.trees.validNodesize
  have hroot : ∀ id, (subvolRoot env mounted.1.trees id).Asks
      (WithinStripe mounted.1.chunkMap) := fun id =>
    have halike : Alike (Inside mounted.1.chunkMap) (subvolRoot env mounted.1.trees id)
        (subvolRoot env mounted.1.trees id) := subvolRoot_alike hblocks rfl rfl id
    asks_of_inside halike
  cases opening with
  | default =>
    refine Asks.bind (Asks.bind ?_ fun found => (hroot _).mapStop) fun root => asks_pure _
    have halike : Alike (Inside mounted.1.chunkMap) (lookupDefaultDirItem env mounted.1.trees)
        (lookupDefaultDirItem env mounted.1.trees) := lookupDefaultDirItem_alike hblocks rfl rfl
    exact asks_of_inside halike
  | subvolId id => exact Asks.bind (hroot id) fun root => asks_pure _
  | subvolPath path =>
    refine Asks.bind (hroot _) fun top => Asks.bind ?_ fun target => ?_
    · have halike : Alike (Inside mounted.1.chunkMap) (resolvePath env mounted.1.trees top path)
          (resolvePath env mounted.1.trees top path) :=
        resolvePath_alike hblocks rfl rfl top path
      exact asks_of_inside halike
    · split_ifs
      · exact asks_lift _
      · exact asks_pure _

theorem opening_asksFor (opening : Opening) :
    (opening.program env size).AsksFor (Belongs size) := by
  rw [Opening.program_eq]
  refine (mount_asksFor h64).bind (fun mounted _ => ?_) ?_
  · refine (choose_asks h64 opening mounted).asksFor.mono fun fs q hfs hq => .inr ?_
    rwa [choose_chunkMap hfs]
  · rintro mounted fs q - hfs hq
    unfold Belongs at hq ⊢
    rwa [choose_chunkMap hfs]

section Run

variable {σ : Type} {R : (q : ReadReq) → σ → Ans q × σ} {opening : Opening} {s : σ} {fs : Btrfs}
  (hopen : (exec R (opening.program env size) s).result = .ok fs)

include hopen

omit h64 in
/-- The local device of an opened volume is the one that its superblock names. -/
theorem opening_localDevid : ∃ sb, (exec R (load env size) s).result = .ok sb ∧
    fs.chunkMap.localDevid = some sb.devid := by
  rw [Opening.program_eq] at hopen
  obtain ⟨mounted, hmounted, hchoose⟩ := exec_bind_eq_ok.mp hopen
  obtain ⟨sb, hsb, hmounted⟩ := exec_bind_eq_ok.mp hmounted
  obtain ⟨boot, hboot, hmounted⟩ := exec_bind_eq_ok.mp hmounted
  obtain ⟨map, hpopulate, hmounted⟩ := exec_bind_eq_ok.mp hmounted
  rw [liftM_def, exec_lift] at hboot
  have hextends := (populate_returns _ _ boot).returns R _ hpopulate
  refine ⟨sb, hsb, ?_⟩
  rw [choose_chunkMap (canReturn_of_exec hchoose)]
  cases hmounted
  exact hextends.localDevid.trans (bootstrap_localDevid hboot)

/-- Opening a volume reads the copies of its superblock and stripes that its chunks have on
the device the superblock names; using it reads such stripes.  A reader that differs from
this one elsewhere only opens the same volume, and every call replies the same. -/
theorem footprint :
    (∃ sb, (exec R (load env size) s).result = .ok sb ∧
      fs.chunkMap.localDevid = some sb.devid) ∧
    (∀ d ∈ dialogue R (opening.program env size) s, Belongs size fs d.1) ∧
    (∀ requests s', ∀ record ∈ records env R fs requests s', ∀ d ∈ record.requests,
      WithinStripe fs.chunkMap d.1) ∧
    ∀ g : (q : ReadReq) → Ans q, (∀ q s', Belongs size fs q → (R q s').1 = g q) →
      (opening.program env size).run g = .ok fs ∧
      ∀ (r : Request) s', (exec R (r.program env fs) s').result = (r.program env fs).run g := by
  have hbelongs := (opening_asksFor h64 opening).exec hopen
  refine ⟨opening_localDevid hopen, hbelongs, fun requests s' =>
    records_confined h64 fs R requests s', fun g hg => ⟨?_, fun r s' => ?_⟩⟩
  · rw [← hopen]
    refine (exec_of_dialogue fun d hd => ?_).symm
    obtain ⟨s', hs'⟩ := mem_dialogue hd
    exact hs'.trans (hg d.1 s' (hbelongs d hd))
  · refine exec_of_dialogue fun d hd => ?_
    obtain ⟨s'', hs''⟩ := mem_dialogue hd
    exact hs''.trans (hg d.1 s'' (.inr ((program_asks h64 fs r).dialogue d hd)))

end Run

end Open

/-- The sample volume behind a reader that counts; opened without counting it is the same. -/
theorem footprint_sample : ∃ fs : Btrfs, fs.root = topDir ∧
    (openDefault referenceEnv 0x11000).run mountVolume.device.answer = .ok fs ∧
    ∀ requests, ∀ record ∈ records referenceEnv countingReader fs requests 0,
      ∀ d ∈ record.requests, WithinStripe fs.chunkMap d.1 := by
  obtain ⟨fs, hopen, hroot⟩ := sample_opens
  obtain ⟨-, -, hinside, hsame⟩ := footprint referenceEnv_usize64 hopen
  have hrun := (hsame mountVolume.device.answer fun _ _ _ => rfl).1
  exact ⟨fs, hroot, hrun, fun requests => hinside requests 0⟩

end Btrfs
