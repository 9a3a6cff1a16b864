/-
How many blocks a call reads.

A descent reads 17 blocks at most, a search makes two, and the loops over a tree search
again after every leaf.  Each leaf and each listed entry gives back what the next search
costs (`credit`), so the work of a call is bounded by the length of its path and by what
it went through, on every image and over every reader (`program_costs`).
-/
import Lambutter.Credits
import Lambutter.Sessions
import Mathlib.Tactic.Ring

open Prog

/-! ### Weights -/

/-- A block read costs one; a leaf gone through gives back a search, an item `c`. -/
def credit (c : ℤ) : Event → ℤ
  | .block _ => 1
  | .leaf _ => -34
  | .item _ _ => -c
  | _ => 0

theorem sum_credit (c : ℤ) (t : List Event) : (t.map (credit c)).sum =
    blocksRead t - 34 * (leavesOf t).length - c * (itemKeys t).length := by
  induction t with
  | nil => simp [blocksRead, leavesOf, itemKeys]
  | cons e t ih =>
    rw [List.map_cons, List.sum_cons, ih]
    unfold blocksRead leavesOf itemKeys
    cases e <;>
      simp only [credit, List.countP_cons, List.filterMap_cons, List.length_cons] <;>
      push_cast <;> ring

/-- Notes that weigh nothing. -/
def Weightless : Event → Prop
  | .block _ => False
  | .leaf _ => False
  | .item _ _ => False
  | _ => True

theorem costs_of_notes {α : Type} {p : ReadM α} {c : ℤ} (h : p.Notes Weightless) :
    Costs (credit c) 0 p := by
  refine Sat.mono h.sat fun t _ ht => ?_
  refine (List.sum_eq_zero fun x hx => ?_).le
  obtain ⟨e, he, rfl⟩ := List.mem_map.mp hx
  have hweightless := ht e he
  cases e <;> first | rfl | exact absurd hweightless id

section Costs

variable {env : Env} (h64 : env.usizeBits = 64) {map : ChunkMap} {nodesize : ℕ}
  (hnode : ValidNodesize nodesize) (c : ℤ)

include h64 hnode

/-! ### Searches -/

theorem descendToLeaf_costs (root : ℕ) (target : DiskKey) :
    Costs (credit c) 17 (descendToLeaf env map nodesize root target) := by
  refine ((descendToLeaf_notes root target).sat.and
    (descendToLeaf_sat h64 hnode root target)).mono ?_
  rintro t r ⟨hreading, hblocks⟩
  have hinner : ∀ e ∈ t, PerItem e := fun e he => (hreading e he).perItem
  rw [sum_credit, leavesOf_inner hinner, itemKeys_inner hinner]
  simpa using hblocks

theorem findExact_costs (root : ℕ) (target : DiskKey) :
    Costs (credit c) 17 (findExact env map nodesize root target) := by
  refine (Costs.bind (descendToLeaf_costs h64 hnode c root target) le_rfl fun r => ?_).mono
    (by norm_num)
  dsimp only
  split_ifs
  · exact costs_pure _ le_rfl
  · refine Costs.lift_bind le_rfl fun found => ?_
    cases found with
    | none => exact costs_pure _ le_rfl
    | some idx => exact Costs.lift_bind le_rfl fun item => costs_pure _ le_rfl

theorem findFirstGe_costs (root : ℕ) (target : DiskKey) :
    Costs (credit c) 34 (findFirstGe env map nodesize root target) := by
  have hdescend : ∀ target, Costs (credit c) 17 (descendToLeaf env map nodesize root target) :=
    descendToLeaf_costs h64 hnode c root
  refine ((hdescend target).bind (m := 17) (by norm_num) fun r => ?_).mono (by norm_num)
  refine Costs.lift_bind (by norm_num) fun found => ?_
  cases found with
  | some idx => exact costs_pure _ (by norm_num)
  | none =>
    cases r.2 with
    | none => exact costs_pure _ (by norm_num)
    | some nextKey =>
      refine ((hdescend nextKey).bind le_rfl fun r' => ?_).mono (by norm_num)
      refine Costs.lift_bind le_rfl fun past => ?_
      split_ifs
      · exact costs_pure _ le_rfl
      · exact costs_lift _ le_rfl

theorem readMetadata_costs (root objectid : ℕ) :
    Costs (credit c) 34 (readMetadata env map nodesize root objectid) := by
  unfold readMetadata
  split_ifs
  · exact costs_pure _ (by norm_num)
  refine ((findFirstGe_costs h64 hnode c root _).bind le_rfl fun found => ?_).mono
    (by norm_num)
  rcases found with _ | ⟨leaf, idx⟩
  · exact costs_lift _ le_rfl
  refine Costs.lift_bind le_rfl fun item => ?_
  split_ifs
  · exact costs_lift _ le_rfl
  refine Costs.lift_bind le_rfl fun data => ?_
  refine Costs.lift_bind le_rfl fun parsed => ?_
  exact Costs.lift_bind le_rfl fun inode => costs_pure _ le_rfl

end Costs

/-! ### Paths -/

section Paths

variable {env : Env} (h64 : env.usizeBits = 64) (trees : Trees) (c : ℤ)

include h64

theorem subvolRoot_costs (id : ℕ) : Costs (credit c) 34 (subvolRoot env trees id) := by
  have hitem : Costs (credit c) 34 (lookupRootItem env trees id) := by
    refine ((findFirstGe_costs h64 trees.validNodesize c _ _).bind le_rfl fun found => ?_).mono
      (by norm_num)
    rcases found with _ | ⟨leaf, idx⟩
    · exact costs_pure _ le_rfl
    refine Costs.lift_bind le_rfl fun item => ?_
    split_ifs
    · exact costs_pure _ le_rfl
    refine Costs.lift_bind le_rfl fun data => ?_
    refine Costs.lift_bind le_rfl fun parsed => ?_
    exact Costs.lift_bind le_rfl fun root => costs_pure _ le_rfl
  refine (hitem.bind le_rfl fun found => ?_).mono (by norm_num)
  refine Costs.lift_bind le_rfl fun item => ?_
  split_ifs
  · exact costs_lift _ le_rfl
  · exact costs_pure _ le_rfl

theorem rootRefLinks_costs (link : SubvolLink) :
    Costs (credit c) 17 (rootRefLinks env trees link) := by
  refine ((findExact_costs h64 trees.validNodesize c _ _).bind le_rfl fun found => ?_).mono
    (by norm_num)
  rcases found with _ | ⟨leaf, idx⟩
  · exact costs_pure _ le_rfl
  refine Costs.lift_bind le_rfl fun item => ?_
  refine Costs.lift_bind le_rfl fun data => ?_
  dsimp only
  split_ifs
  · exact costs_lift _ le_rfl
  refine Costs.lift_bind le_rfl fun dirid => ?_
  refine Costs.lift_bind le_rfl fun nameLen => ?_
  refine Costs.lift_bind le_rfl fun nameEnd => ?_
  split_ifs
  · exact costs_lift _ le_rfl
  · exact Costs.lift_bind le_rfl fun name => costs_pure _ le_rfl

theorem entryTarget_costs (dir : Inode) (name : List UInt8) (location : DiskKey) (l : ℕ) :
    Costs (credit c) 51 (entryTarget env trees dir name location l) := by
  unfold entryTarget
  split_ifs
  · exact costs_pure _ (by norm_num)
  · refine ((rootRefLinks_costs h64 trees c _).bind (m := 34) (by norm_num) fun links => ?_).mono
      (by norm_num)
    split_ifs
    · exact subvolRoot_costs h64 trees c _
    · exact costs_pure _ (by norm_num)
  · exact costs_lift _ (by norm_num)

theorem lookupInDir_costs (dir : Inode) (name : List UInt8) :
    Costs (credit c) 68 (lookupInDir env trees dir name) := by
  refine ((findExact_costs h64 trees.validNodesize c _ _).bind (m := 51) (by norm_num)
    fun found => ?_).mono (by norm_num)
  rcases found with _ | ⟨leaf, idx⟩
  · exact costs_lift _ (by norm_num)
  refine Costs.lift_bind (by norm_num) fun item => ?_
  refine Costs.lift_bind (by norm_num) fun data => ?_
  refine Costs.lift_bind (by norm_num) fun entry => ?_
  cases entry with
  | none => exact costs_lift _ (by norm_num)
  | some entry => exact entryTarget_costs h64 trees c _ _ _ _

theorem resolvePath_costs (start : Inode) (path : Btrfs.Path) :
    Costs (credit c) (68 * path.components.length) (resolvePath env trees start path) := by
  unfold resolvePath
  generalize path.components = names
  induction names generalizing start with
  | nil => exact costs_pure _ le_rfl
  | cons name rest ih =>
    rw [List.foldlM_cons]
    refine ((lookupInDir_costs h64 trees c start name).bind (by omega) ih).mono ?_
    rw [List.length_cons]
    push_cast
    linarith

end Paths

/-! ### Walks -/

section Walks

variable {env : Env} (h64 : env.usizeBits = 64) {σ : Type} {w : Walk σ} {c : ℤ}
  (hitem : ∀ leaf item s, Costs (credit c) c (w.item leaf item s))

include hitem in
/-- Each item pays for what is done for it. -/
theorem walkLeaf_costs (block : TreeBlock) (n idx : ℕ) (s : σ) (next : Option DiskKey) :
    Costs (credit c) 0 (w.leaf env block n idx s next) := by
  induction n generalizing idx s next with
  | zero => exact costs_pure _ le_rfl
  | succ n ih =>
    rw [Walk.leaf]
    refine Costs.lift_bind le_rfl fun item => ?_
    refine Costs.note (e := Event.item block item) ?_
    show Costs (credit c) (0 - -c) _
    refine ((hitem block item s).bind le_rfl fun pace => ?_).mono (by omega)
    cases pace with
    | leave s => exact costs_pure _ le_rfl
    | more s next => exact Costs.lift_bind le_rfl fun idx => ih idx s next

include h64 hitem in
/-- Each leaf pays for the search after it; the first search is paid for by the call. -/
theorem walkRun_costs (hnode : ValidNodesize w.nodesize) (fuel : ℕ) (target : DiskKey) (s : σ) :
    Costs (credit c) 34 (w.run env fuel target s) := by
  induction fuel generalizing target s with
  | zero => exact costs_lift (fault .fuel) (by norm_num)
  | succ fuel ih =>
    rw [Walk.run]
    by_cases hproceed : w.proceed s = true
    swap
    · rw [if_neg hproceed]
      exact costs_pure _ (by norm_num)
    rw [if_pos hproceed]
    refine ((findFirstGe_costs h64 hnode c _ _).bind le_rfl fun found => ?_).mono (by norm_num)
    rcases found with _ | ⟨block, idx⟩
    · exact costs_pure _ le_rfl
    refine Costs.note (e := Event.leaf block) ?_
    show Costs (credit c) (0 - -34) _
    refine ((walkLeaf_costs hitem block _ idx s none).bind (m := 34) (by norm_num)
      fun pace => ?_).mono (by norm_num)
    rcases pace with ⟨s, _ | next⟩ | s
    · exact costs_pure _ (by norm_num)
    · exact ih next s
    · exact costs_pure _ (by norm_num)

end Walks

/-! ### Files -/

section Files

variable {env : Env} {map : ChunkMap} {sectorsize : ℕ}

theorem copyExtentSlice_weightless (data : List UInt8) (position len : ℕ) :
    (copyExtentSlice env map sectorsize data position len).Notes Weightless := by
  unfold copyExtentSlice
  refine Notes.bind (p := .note _ (Pure.pure ())) ⟨trivial, trivial⟩ fun _ => ?_
  refine Notes.bind (notes_lift _) fun header => ?_
  by_cases hinline : header.ty = fileExtentInline
  · rw [if_pos hinline]
    refine Notes.bind (notes_lift _) fun payload => ?_
    refine Notes.bind (notes_lift _) fun src => ?_
    refine Notes.bind (notes_lift _) fun stop => ?_
    split_ifs
    · exact notes_lift _
    · exact notes_lift _
  rw [if_neg hinline]
  by_cases hregular : header.ty = fileExtentReg ∨ header.ty = fileExtentPrealloc
  · rw [if_pos hregular]
    refine Notes.bind (notes_lift _) fun regular => ?_
    split_ifs
    · exact notes_pure _
    · exact Notes.bind (notes_lift _) fun _ => readThroughChunks_notes _ _ _
    · refine Notes.bind (readCompressed_notes _ _ _) fun decoded => ?_
      refine Notes.bind (notes_lift _) fun _ => ?_
      refine Notes.bind (notes_lift _) fun _ => ?_
      refine Notes.bind (notes_lift _) fun _ => ?_
      split_ifs
      · exact notes_lift _
      · exact notes_lift _
  · rw [if_neg hregular]
    exact notes_lift _

theorem applyExtent_weightless (out data : List UInt8) (fileSize : ℕ) :
    (applyExtent env map sectorsize out data fileSize).Notes Weightless := by
  unfold applyExtent
  refine Notes.bind (notes_lift _) fun header => ?_
  by_cases hinline : header.ty = fileExtentInline
  · rw [if_pos hinline]
    refine Notes.bind (notes_lift _) fun payload => ?_
    refine Notes.bind (notes_lift _) fun plain => ?_
    exact Notes.bind (notes_lift _) fun bytes => notes_pure _
  rw [if_neg hinline]
  by_cases hregular : header.ty = fileExtentReg ∨ header.ty = fileExtentPrealloc
  · rw [if_pos hregular]
    refine Notes.bind (notes_lift _) fun regular => ?_
    dsimp only
    by_cases hemit : min regular.numBytes (fileSize - out.length) = 0
    · rw [if_pos hemit]
      exact notes_pure _
    rw [if_neg hemit]
    refine Notes.bind (notes_lift _) fun emit => ?_
    split_ifs
    · exact Notes.bind (notes_lift _) fun newLen => notes_pure _
    · refine Notes.bind (notes_lift _) fun newLen => ?_
      refine Notes.bind (notes_lift _) fun diskAt => ?_
      exact Notes.bind (readThroughChunks_notes _ _ _) fun bytes => notes_pure _
    · refine Notes.bind (readCompressed_notes _ _ _) fun decoded => ?_
      refine Notes.bind (notes_lift _) fun _ => ?_
      refine Notes.bind (notes_lift _) fun _ => ?_
      split_ifs
      · exact notes_lift _
      · exact Notes.bind (notes_lift _) fun bytes => notes_pure _
  · rw [if_neg hregular]
    exact notes_lift _

variable {geometry : Geometry} {objectid : ℕ}

theorem readFile_item_costs (fileSize : ℕ) (leaf : TreeBlock) (item : LeafItem)
    (out : List UInt8) :
    Costs (credit 0) 0 (readFile.item env map geometry objectid fileSize leaf item out) := by
  refine costs_of_notes ?_
  unfold readFile.item
  dsimp only
  split_ifs
  · exact notes_lift _
  · exact notes_lift _
  · refine Notes.bind (notes_lift _) fun gap => ?_
    refine Notes.bind (notes_lift _) fun filled => ?_
    refine Notes.bind (notes_lift _) fun data => ?_
    refine Notes.bind (applyExtent_weightless _ _ _) fun out => ?_
    refine Notes.bind (notes_lift _) fun next => ?_
    split_ifs
    · exact notes_pure _
    · exact notes_pure _
  · exact notes_pure _

theorem readFileAt_item_costs (offset want : ℕ) (leaf : TreeBlock) (item : LeafItem)
    (written : List UInt8) :
    Costs (credit 0) 0
      (readFileAt.item env map geometry objectid offset want leaf item written) := by
  refine costs_of_notes ?_
  unfold readFileAt.item
  dsimp only
  split_ifs
  · refine Notes.bind (notes_lift _) fun data => ?_
    refine Notes.bind (notes_lift _) fun logicalLen => ?_
    refine Notes.bind (notes_lift _) fun requestStart => ?_
    split_ifs
    · exact Notes.bind (notes_lift _) fun next => notes_pure _
    all_goals
      refine Notes.bind (notes_lift _) fun filled => ?_
      split_ifs
      · exact notes_pure _
      · refine Notes.bind (notes_lift _) fun _ => ?_
        refine Notes.bind (notes_lift _) fun _ => ?_
        refine Notes.bind (notes_lift _) fun _ => ?_
        refine Notes.bind (notes_lift _) fun _ => ?_
        refine Notes.bind (notes_lift _) fun _ => ?_
        refine Notes.bind (notes_lift _) fun _ => ?_
        refine Notes.bind (copyExtentSlice_weightless _ _ _) fun bytes => ?_
        refine Notes.bind (notes_lift _) fun next => ?_
        split_ifs
        · exact notes_pure _
        · exact notes_pure _
  · exact notes_pure _

section Whole

variable (h64 : env.usizeBits = 64) (geometry : Geometry) (fsTreeRoot objectid : ℕ)

include h64

theorem readFile_costs :
    Costs (credit 0) 68 (readFile env map geometry fsTreeRoot objectid) := by
  have hnode := geometry.validNodesize
  refine ((readMetadata_costs h64 hnode 0 _ _).bind (m := 34) (by norm_num)
    fun metadata => ?_).mono (by norm_num)
  split_ifs
  · refine Costs.lift_bind (by norm_num) fun size => ?_
    refine Costs.lift_bind (by norm_num) fun _ => ?_
    refine ((walkRun_costs h64 (readFile_item_costs _) hnode _ _ _).bind le_rfl
      fun out => costs_lift _ le_rfl).mono (by norm_num)
  · exact costs_lift _ (by norm_num)

theorem readFileAt_costs (offset : ℕ) (buf : List UInt8) :
    Costs (credit 0) 68 (readFileAt env map geometry fsTreeRoot objectid offset buf) := by
  have hnode := geometry.validNodesize
  unfold readFileAt
  split_ifs
  · exact costs_pure _ (by norm_num)
  refine ((readMetadata_costs h64 hnode 0 _ _).bind (m := 34) (by norm_num)
    fun metadata => ?_).mono (by norm_num)
  split_ifs
  · exact costs_pure _ (by norm_num)
  · refine Costs.lift_bind (by norm_num) fun rest => ?_
    refine Costs.lift_bind (by norm_num) fun want => ?_
    refine Costs.lift_bind (by norm_num) fun _ => ?_
    refine ((walkRun_costs h64 (readFileAt_item_costs _ _) hnode _ _ _).bind le_rfl
      fun written => ?_).mono (by norm_num)
    exact Costs.lift_bind le_rfl fun written => costs_pure _ le_rfl
  · exact costs_lift _ (by norm_num)

theorem readLink_costs :
    Costs (credit 0) 68 (readLink env map geometry fsTreeRoot objectid) := by
  have hnode := geometry.validNodesize
  refine ((readMetadata_costs h64 hnode 0 _ _).bind (m := 34) (by norm_num)
    fun metadata => ?_).mono (by norm_num)
  split_ifs
  · refine ((findFirstGe_costs h64 hnode 0 _ _).bind le_rfl fun found => ?_).mono
      (by norm_num)
    rcases found with _ | ⟨leaf, idx⟩
    · exact costs_lift _ le_rfl
    refine Costs.lift_bind le_rfl fun item => ?_
    dsimp only
    split_ifs
    · refine Costs.lift_bind le_rfl fun data => ?_
      refine Costs.lift_bind le_rfl fun header => ?_
      split_ifs
      · exact costs_lift _ le_rfl
      · refine Costs.lift_bind le_rfl fun payload => ?_
        exact Costs.lift_bind le_rfl fun out => costs_pure _ le_rfl
    · exact costs_lift _ le_rfl
  · exact costs_lift _ (by norm_num)

end Whole

end Files

/-! ### Calls -/

namespace Btrfs

/-- The blocks a call may read before it goes through a leaf. -/
def Request.budget : Request → ℕ
  | .resolve path => 68 * path.components.length
  | .metadata _ => 34
  | .readFile path => 68 * path.components.length + 68
  | .readFileAt _ _ _ => 68
  | .readLink path => 68 * path.components.length + 68
  | .readDir path => 68 * path.components.length + 34

/-- The blocks a call may read for each item it takes: a listed entry may have to be
looked up in the root tree. -/
def Request.perItem : Request → ℕ
  | .readDir _ => 51
  | _ => 0

section Calls

variable {env : Env} (h64 : env.usizeBits = 64) (fs : Btrfs)

include h64

theorem readDir_costs (dir : Inode) : Costs (credit 51) 34 (readDir env fs.trees dir) := by
  refine walkRun_costs h64 (fun leaf item out => ?_) fs.trees.validNodesize _ _ _
  dsimp only [readDir.walk]
  split_ifs
  · exact costs_pure _ (by norm_num)
  refine Costs.lift_bind (by norm_num) fun data => ?_
  refine Costs.lift_bind (by norm_num) fun parsed => ?_
  refine Costs.lift_bind (by norm_num) fun entry => ?_
  split_ifs
  · exact costs_lift _ (by norm_num)
  · exact ((entryTarget_costs h64 fs.trees 51 _ _ _ _).bind le_rfl
      fun inode => costs_pure _ le_rfl).mono (by norm_num)

theorem program_costs (r : Request) :
    Costs (credit r.perItem) r.budget (r.program env fs) := by
  have hnode := fs.geometry.validNodesize
  have hmap : ∀ {α : Type} {c n : ℤ} {p : ReadM α} (f : α → Reply), Costs (credit c) n p →
      Costs (credit c) n (f <$> p) := fun f h =>
    (h.bind le_rfl fun a => costs_pure (f a) le_rfl).mono (by omega)
  have hresolve : ∀ c path, Costs (credit c) (68 * path.components.length)
      (fs.resolve env path) := fun c path => resolvePath_costs h64 fs.trees c fs.root path
  cases r with
  | resolve path => exact hmap _ (hresolve _ path)
  | metadata inode => exact hmap _ (readMetadata_costs h64 hnode _ _ _)
  | readFile path =>
    refine hmap _ (((hresolve _ path).bind (by norm_num) fun inode =>
      readFile_costs h64 fs.geometry _ _).mono ?_)
    unfold Request.budget
    push_cast
    exact le_rfl
  | readFileAt inode offset buf => exact hmap _ (readFileAt_costs h64 fs.geometry _ _ _ _)
  | readLink path =>
    refine hmap _ (((hresolve _ path).bind (by norm_num) fun inode =>
      readLink_costs h64 fs.geometry _ _).mono ?_)
    unfold Request.budget
    push_cast
    exact le_rfl
  | readDir path =>
    refine hmap _ (((hresolve _ path).bind (by norm_num) fun inode =>
      readDir_costs h64 fs inode).mono ?_)
    unfold Request.budget
    push_cast
    exact le_rfl

/-- The blocks that a call reads, over every reader and on every image: 68 at most for each
component of its path, a descent or two of its own, and what the leaves and the listed
entries that it went through pay for. -/
theorem blocks_bounded {σ : Type} (R : (q : ReadReq) → σ → Ans q × σ) (r : Request) (s : σ) :
    blocksRead (exec R (r.program env fs) s).trace ≤
      r.budget + 34 * (leavesOf (exec R (r.program env fs) s).trace).length +
        r.perItem * (itemKeys (exec R (r.program env fs) s).trace).length := by
  have hcosts := (program_costs h64 fs r).exec R s
  rw [sum_credit] at hcosts
  zify
  linarith

end Calls

set_option maxRecDepth 100000 in
/-- A read of the sample's first file goes through one leaf. -/
theorem blocks_bounded_sample :
    ∃ t : List Event, t = (exec (fun q (_ : Unit) => (sampleVolume.device.answer q, ()))
      ((Request.readFileAt sampleFile 1 [0, 0, 0]).program referenceEnv (sampleFs sampleMap))
      ()).trace ∧ blocksRead t ≤ 68 + 34 * (leavesOf t).length ∧
      blocksRead t = 2 ∧ (leavesOf t).length = 1 := by
  refine ⟨_, rfl, ?_, by decide +kernel, by decide +kernel⟩
  have h := blocks_bounded referenceEnv_usize64 (sampleFs sampleMap)
    (fun q (_ : Unit) => (sampleVolume.device.answer q, ()))
    (.readFileAt sampleFile 1 [0, 0, 0]) ()
  simpa only [Request.budget, Request.perItem, zero_mul, add_zero] using h

end Btrfs
