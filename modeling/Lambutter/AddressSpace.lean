/-
All reads of a mounted volume go through the chunk map.

Every operation of a mounted volume puts its questions in walks over the chunks
(`fetch`) and nowhere else.  So two runs of an operation, on two chunk maps, are built
alike from such walks; `Mapped` asks of a relation that it holds between the walks of the
two maps, and one lemma for each function of the source follows its body once.  Whatever
is true of the walks is then true of every operation: the theorems about sessions in
`Sessions` need nothing more about the bodies.

The operations on trees put their questions in tree blocks (`Blocks`), which are such
walks with a check behind them (`Mapped.blocks`); what that check adds can be used where
file contents are left out.
-/
import Lambutter.Btrfs
import Lambutter.Simulation

open Prog

/-- Relations between programs that read one thing. -/
abbrev PartRel (β : Type) := ReadM β → ReadM β → Prop

/-- Relations between programs that read bytes. -/
abbrev ReadRel := PartRel (List UInt8)

/-- The relation holds between the same walk over the chunks of two maps, with enough fuel. -/
def Mapped (env : Env) (B : ReadRel) (map map' : ChunkMap) : Prop :=
  ∀ context n len cursor, len < n →
    B (fetch env map (.io context) n len cursor) (fetch env map' (.io context) n len cursor)

/-- The tree blocks read through two maps are built alike. -/
def Blocks {β : Type} (env : Env) (B : PartRel β) (nodesize : ℕ) (map map' : ChunkMap) : Prop :=
  ∀ logical, Alike B (readTreeBlock env map nodesize logical)
    (readTreeBlock env map' nodesize logical)

section Reads

variable {env : Env} (h64 : env.usizeBits = 64) {B : ReadRel} {map map' : ChunkMap}
  (hB : Mapped env B map map')

include h64 hB

theorem readThroughChunks_alike {len : ℕ} (hlen : len < 2 ^ 64) (start : ℕ) :
    Alike B (readThroughChunks env map start len) (readThroughChunks env map' start len) := by
  rw [readThroughChunks_eq h64 hlen, readThroughChunks_eq h64 hlen]
  exact alike_part (hB _ _ _ _ (Nat.lt_succ_self len))

theorem Mapped.blocks {nodesize : ℕ} (hnode : ValidNodesize nodesize) :
    Blocks env B nodesize map map' := by
  intro logical
  have hmax : nodesize ≤ 65536 := hnode.2
  have hfits : nodesize < 2 ^ env.usizeBits := by
    rw [h64]
    omega
  unfold readTreeBlock
  refine Alike.bind (.note _ (alike_pure ())) fun _ => ?_
  rw [readBody_eq hfits, readBody_eq hfits]
  exact Alike.bind (alike_part (hB _ _ _ _ (Nat.lt_succ_self nodesize))) fun _ => alike_lift _

end Reads

/-! ### Searches -/

section Searches

variable {β : Type} {env : Env} {B : PartRel β} {map map' : ChunkMap} {nodesize : ℕ}
  (hB : Blocks env B nodesize map map')

include hB

theorem descendToLeaf_loop_alike (target : DiskKey) (n : ℕ) (b : TreeBlock)
    (nextKey : Option DiskKey) (depth : ℕ) :
    Alike B (descendToLeaf.loop env map nodesize target n b nextKey depth)
      (descendToLeaf.loop env map' nodesize target n b nextKey depth) := by
  induction n generalizing b nextKey depth with
  | zero => exact .stop _
  | succ n ih =>
    rw [descendToLeaf.loop, descendToLeaf.loop]
    by_cases hl : 0 < b.header.level
    · rw [if_pos hl, if_pos hl]
      dsimp only
      by_cases hd : maxTreeDepth < min (depth + 1) 255
      · rw [if_pos hd, if_pos hd]
        exact Alike.bind_lift fun _ h => absurd h err_ne_ok
      by_cases hn : b.header.nritems = 0
      · rw [if_neg hd, if_neg hd, if_pos hn, if_pos hn]
        exact Alike.bind_lift fun _ h => absurd h err_ne_ok
      · rw [if_neg hd, if_neg hd, if_neg hn, if_neg hn]
        refine Alike.bind_lift fun childIdx _ => ?_
        refine Alike.bind_lift fun nextIdx _ => ?_
        refine Alike.bind_lift fun next _ => ?_
        refine Alike.bind_lift fun kp _ => ?_
        exact Alike.bind (hB _) fun child => ih _ _ _
    · rw [if_neg hl, if_neg hl]
      exact alike_pure _

theorem descendToLeaf_alike (root : ℕ) (target : DiskKey) :
    Alike B (descendToLeaf env map nodesize root target)
      (descendToLeaf env map' nodesize root target) :=
  Alike.bind (hB root) fun b =>
    descendToLeaf_loop_alike hB target _ b none 0

theorem findExact_alike (root : ℕ) (target : DiskKey) :
    Alike B (findExact env map nodesize root target)
      (findExact env map' nodesize root target) := by
  refine Alike.bind (descendToLeaf_alike hB root target) fun r => ?_
  dsimp only
  split_ifs
  · exact alike_pure _
  · refine Alike.bind_lift fun found _ => ?_
    cases found with
    | none => exact alike_pure _
    | some idx => exact Alike.bind_lift fun _ _ => alike_pure _

theorem findFirstGe_alike (root : ℕ) (target : DiskKey) :
    Alike B (findFirstGe env map nodesize root target)
      (findFirstGe env map' nodesize root target) := by
  refine Alike.bind (descendToLeaf_alike hB root target) fun r => ?_
  refine Alike.bind_lift fun found _ => ?_
  cases found with
  | some idx => exact alike_pure _
  | none =>
    cases r.2 with
    | none => exact alike_pure _
    | some nextKey =>
      refine Alike.bind (descendToLeaf_alike hB root nextKey) fun r' => ?_
      refine Alike.bind_lift fun past _ => ?_
      split_ifs
      · exact alike_pure _
      · exact alike_lift _

theorem readMetadata_alike (root objectid : ℕ) :
    Alike B (readMetadata env map nodesize root objectid)
      (readMetadata env map' nodesize root objectid) := by
  unfold readMetadata
  split_ifs
  · exact alike_pure _
  refine Alike.bind (findFirstGe_alike hB _ _) fun found => ?_
  rcases found with _ | ⟨leaf, idx⟩
  · exact alike_lift _
  refine Alike.bind_lift fun item _ => ?_
  split_ifs
  · exact alike_lift _
  refine Alike.bind_lift fun data _ => ?_
  refine Alike.bind_lift fun parsed _ => ?_
  exact Alike.bind_lift fun inode _ => alike_pure _

end Searches

/-! ### Walks -/

section Walk

variable {β σ : Type} {env : Env} {B : PartRel β} {w w' : Walk σ}
  (hitem : ∀ leaf item s, Alike B (w.item leaf item s) (w'.item leaf item s))

include hitem

theorem walkLeaf_alike (block : TreeBlock) (n idx : ℕ) (s : σ) (next : Option DiskKey) :
    Alike B (w.leaf env block n idx s next) (w'.leaf env block n idx s next) := by
  induction n generalizing idx s next with
  | zero => exact alike_pure _
  | succ n ih =>
    rw [Walk.leaf, Walk.leaf]
    refine Alike.bind_lift fun item _ => ?_
    refine Alike.bind (.note _ (alike_pure ())) fun _ => ?_
    refine Alike.bind (hitem block item s) fun pace => ?_
    cases pace with
    | leave s => exact alike_pure _
    | more s next => exact Alike.bind_lift fun idx _ => ih _ _ _

/-- Two walks over the same tree, whose bodies are built alike and that read through
related maps, are built alike. -/
theorem walkRun_alike (hsize : w'.nodesize = w.nodesize) (hroot : w'.root = w.root)
    (hproceed : w'.proceed = w.proceed)
    (hmaps : ∀ s, Blocks env B w.nodesize (w.chunkMap s) (w'.chunkMap s)) (fuel : ℕ)
    (target : DiskKey)
    (s : σ) : Alike B (w.run env fuel target s) (w'.run env fuel target s) := by
  induction fuel generalizing target s with
  | zero => exact .stop _
  | succ fuel ih =>
    rw [Walk.run, Walk.run, hproceed, hsize, hroot]
    by_cases hs : w.proceed s = true
    · rw [if_pos hs, if_pos hs]
      refine Alike.bind (findFirstGe_alike (hmaps s) _ _) fun found => ?_
      rcases found with _ | ⟨block, idx⟩
      · exact alike_pure _
      refine Alike.bind (.note _ (alike_pure ())) fun _ => ?_
      refine Alike.bind (walkLeaf_alike hitem block _ idx s none) fun pace => ?_
      rcases pace with ⟨s, _ | next⟩ | s
      · exact alike_pure _
      · exact ih _ _
      · exact alike_pure _
    · rw [if_neg hs, if_neg hs]
      exact alike_pure _

end Walk

/-! ### Files -/

section Files

variable {env : Env} (h64 : env.usizeBits = 64) {B : ReadRel} {map map' : ChunkMap}
  (hB : Mapped env B map map')

include h64 hB

theorem readCompressed_alike (sectorsize compression : ℕ) (regular : ExtentDataRegular) :
    Alike B (readCompressed env map sectorsize compression regular)
      (readCompressed env map' sectorsize compression regular) := by
  have hcap : maxDecompressedExtentBytes < 2 ^ 64 := by decide
  refine Alike.bind_lift fun diskSize _ => ?_
  split_ifs with hover
  · exact alike_lift _
  refine Alike.bind_lift fun _ _ => ?_
  refine Alike.bind (readThroughChunks_alike h64 hB (by omega) _) fun compressed => ?_
  exact alike_lift _

omit hB in
theorem addUsize_lt {x y v : ℕ} (h : env.addUsize x y = .ok v) : v < 2 ^ 64 := by
  unfold Env.addUsize Env.plain at h
  rw [h64] at h
  split_ifs at h with hfit
  · cases h
    exact hfit
  · cases h
  · cases h
    exact Nat.mod_lt _ (Nat.two_pow_pos 64)

theorem copyExtentSlice_alike (sectorsize : ℕ) (data : List UInt8) (position : ℕ) {len : ℕ}
    (hlen : len < 2 ^ 64) : Alike B (copyExtentSlice env map sectorsize data position len)
      (copyExtentSlice env map' sectorsize data position len) := by
  unfold copyExtentSlice
  refine Alike.bind (.note _ (alike_pure ())) fun _ => ?_
  refine Alike.bind_lift fun header _ => ?_
  by_cases hinline : header.ty = fileExtentInline
  · -- the payload is in the item itself
    rw [if_pos hinline, if_pos hinline]
    refine Alike.bind_lift fun payload _ => ?_
    refine Alike.bind_lift fun src _ => ?_
    refine Alike.bind_lift fun stop _ => ?_
    split_ifs
    · exact alike_lift _
    · exact alike_lift _
  rw [if_neg hinline, if_neg hinline]
  by_cases hregular : header.ty = fileExtentReg ∨ header.ty = fileExtentPrealloc
  · rw [if_pos hregular, if_pos hregular]
    refine Alike.bind_lift fun regular _ => ?_
    split_ifs
    · exact alike_pure _
    · refine Alike.bind_lift fun logicalAt _ => ?_
      exact readThroughChunks_alike h64 hB hlen _
    · refine Alike.bind (readCompressed_alike h64 hB _ _ _) fun decoded => ?_
      refine Alike.bind_lift fun _ _ => ?_
      refine Alike.bind_lift fun _ _ => ?_
      refine Alike.bind_lift fun _ _ => ?_
      split_ifs
      · exact alike_lift _
      · exact alike_lift _
  · rw [if_neg hregular, if_neg hregular]
    exact alike_lift _

theorem applyExtent_alike (sectorsize : ℕ) (out data : List UInt8) (fileSize : ℕ) :
    Alike B (applyExtent env map sectorsize out data fileSize)
      (applyExtent env map' sectorsize out data fileSize) := by
  unfold applyExtent
  refine Alike.bind_lift fun header _ => ?_
  by_cases hinline : header.ty = fileExtentInline
  · rw [if_pos hinline, if_pos hinline]
    refine Alike.bind_lift fun payload _ => ?_
    refine Alike.bind_lift fun plain _ => ?_
    exact Alike.bind_lift fun bytes _ => alike_pure _
  rw [if_neg hinline, if_neg hinline]
  by_cases hregular : header.ty = fileExtentReg ∨ header.ty = fileExtentPrealloc
  · rw [if_pos hregular, if_pos hregular]
    refine Alike.bind_lift fun regular _ => ?_
    dsimp only
    by_cases hemit : min regular.numBytes (fileSize - out.length) = 0
    · rw [if_pos hemit, if_pos hemit]
      exact alike_pure _
    rw [if_neg hemit, if_neg hemit]
    refine Alike.bind_lift fun emit _ => ?_
    split_ifs
    · exact Alike.bind_lift fun newLen _ => alike_pure _
    · refine Alike.bind_lift fun newLen hnew => ?_
      have hlt := addUsize_lt h64 hnew
      refine Alike.bind_lift fun diskAt _ => ?_
      exact Alike.bind (readThroughChunks_alike h64 hB (by omega) _) fun bytes => alike_pure _
    · refine Alike.bind (readCompressed_alike h64 hB _ _ _) fun decoded => ?_
      refine Alike.bind_lift fun _ _ => ?_
      refine Alike.bind_lift fun _ _ => ?_
      split_ifs
      · exact alike_lift _
      · exact Alike.bind_lift fun bytes _ => alike_pure _
  · rw [if_neg hregular, if_neg hregular]
    exact alike_lift _

theorem readLink_alike (geometry : Geometry) (root objectid : ℕ) :
    Alike B (readLink env map geometry root objectid)
      (readLink env map' geometry root objectid) := by
  refine Alike.bind (readMetadata_alike (hB.blocks h64 geometry.validNodesize) _ _)
    fun metadata => ?_
  split_ifs
  · refine Alike.bind (findFirstGe_alike (hB.blocks h64 geometry.validNodesize) _ _) fun found => ?_
    rcases found with _ | ⟨leaf, idx⟩
    · exact alike_lift _
    refine Alike.bind_lift fun item _ => ?_
    split_ifs
    · refine Alike.bind_lift fun data _ => ?_
      refine Alike.bind_lift fun header _ => ?_
      split_ifs
      · exact alike_lift _
      · refine Alike.bind_lift fun payload _ => ?_
        exact Alike.bind_lift fun out _ => alike_pure _
    · exact alike_lift _
  · exact alike_lift _

theorem readFile_item_alike (geometry : Geometry) (objectid fileSize : ℕ) (leaf : TreeBlock)
    (item : LeafItem) (out : List UInt8) :
    Alike B (readFile.item env map geometry objectid fileSize leaf item out)
      (readFile.item env map' geometry objectid fileSize leaf item out) := by
  unfold readFile.item
  dsimp only
  split_ifs
  · exact alike_lift _
  · exact alike_lift _
  · refine Alike.bind_lift fun gap _ => ?_
    refine Alike.bind_lift fun filled _ => ?_
    refine Alike.bind_lift fun data _ => ?_
    refine Alike.bind (applyExtent_alike h64 hB _ _ _ _) fun out => ?_
    refine Alike.bind_lift fun next _ => ?_
    split_ifs
    · exact alike_pure _
    · exact alike_pure _
  · exact alike_pure _

theorem readFile_alike (geometry : Geometry) (root objectid : ℕ) :
    Alike B (readFile env map geometry root objectid)
      (readFile env map' geometry root objectid) := by
  refine Alike.bind (readMetadata_alike (hB.blocks h64 geometry.validNodesize) _ _)
    fun metadata => ?_
  split_ifs
  · refine Alike.bind_lift fun size _ => ?_
    refine Alike.bind_lift fun _ _ => ?_
    refine Alike.bind ?_ fun out => alike_lift _
    have hitem : ∀ leaf item out, Alike B
        ((readFile.walk env map geometry root objectid metadata.size).item leaf item out)
        ((readFile.walk env map' geometry root objectid metadata.size).item leaf item out) :=
      readFile_item_alike h64 hB geometry objectid _
    exact walkRun_alike hitem rfl rfl rfl (fun _ => hB.blocks h64 geometry.validNodesize) _ _ _
  · exact alike_lift _

theorem readFileAt_item_alike (geometry : Geometry) (objectid offset want : ℕ) (leaf : TreeBlock)
    (item : LeafItem) (written : List UInt8) :
    Alike B (readFileAt.item env map geometry objectid offset want leaf item written)
      (readFileAt.item env map' geometry objectid offset want leaf item written) := by
  unfold readFileAt.item
  dsimp only
  split_ifs with hmine
  · refine Alike.bind_lift fun data _ => ?_
    refine Alike.bind_lift fun logicalLen _ => ?_
    refine Alike.bind_lift fun requestStart _ => ?_
    split_ifs
    · exact Alike.bind_lift fun next _ => alike_pure _
    all_goals
      refine Alike.bind_lift fun filled _ => ?_
      split_ifs
      · exact alike_pure _
      · refine Alike.bind_lift fun requestStart _ => ?_
        refine Alike.bind_lift fun inExtent _ => ?_
        refine Alike.bind_lift fun remaining _ => ?_
        refine Alike.bind_lift fun room _ => ?_
        refine Alike.bind_lift fun stop _ => ?_
        refine Alike.bind_lift fun _ _ => ?_
        have hfit : min (env.asUsize remaining) room < 2 ^ 64 := by
          have hlt : remaining % 2 ^ 64 < 2 ^ 64 := Nat.mod_lt _ (Nat.two_pow_pos 64)
          unfold Env.asUsize
          rw [h64]
          omega
        refine Alike.bind (copyExtentSlice_alike h64 hB _ _ _ hfit) fun bytes => ?_
        refine Alike.bind_lift fun next _ => ?_
        split_ifs
        · exact alike_pure _
        · exact alike_pure _
  · exact alike_pure _

theorem readFileAt_alike (geometry : Geometry) (root objectid offset : ℕ) (buf : List UInt8) :
    Alike B (readFileAt env map geometry root objectid offset buf)
      (readFileAt env map' geometry root objectid offset buf) := by
  unfold readFileAt
  split_ifs
  · exact alike_pure _
  refine Alike.bind (readMetadata_alike (hB.blocks h64 geometry.validNodesize) _ _)
    fun metadata => ?_
  split_ifs
  · exact alike_pure _
  · refine Alike.bind_lift fun rest _ => ?_
    refine Alike.bind_lift fun want _ => ?_
    refine Alike.bind_lift fun _ _ => ?_
    refine Alike.bind ?_ fun written => ?_
    · have hitem : ∀ leaf item written, Alike B
          ((readFileAt.walk env map geometry root objectid offset want).item leaf item written)
          ((readFileAt.walk env map' geometry root objectid offset want).item leaf item written) :=
        readFileAt_item_alike h64 hB geometry objectid offset want
      exact walkRun_alike hitem rfl rfl rfl (fun _ => hB.blocks h64 geometry.validNodesize) _ _ _
    · exact Alike.bind_lift fun written _ => alike_pure _
  · exact alike_lift _

end Files

/-! ### Directories and subvolumes -/

section Directories

variable {β : Type} {env : Env} {B : PartRel β} {trees trees' : Trees}
  (hB : Blocks env B trees.nodesize trees.chunkMap trees'.chunkMap)
  (hsize : trees'.nodesize = trees.nodesize)
  (hroot : trees'.rootTreeRoot = trees.rootTreeRoot)

include hB hsize hroot

theorem lookupDefaultDirItem_alike :
    Alike B (lookupDefaultDirItem env trees) (lookupDefaultDirItem env trees') := by
  unfold lookupDefaultDirItem
  rw [hsize, hroot]
  refine Alike.bind (findExact_alike hB _ _) fun found => ?_
  rcases found with _ | ⟨leaf, idx⟩
  · exact alike_pure _
  refine Alike.bind_lift fun item _ => ?_
  refine Alike.bind_lift fun data _ => ?_
  exact Alike.bind_lift fun entry _ => alike_pure _

theorem lookupRootItem_alike (id : ℕ) :
    Alike B (lookupRootItem env trees id) (lookupRootItem env trees' id) := by
  unfold lookupRootItem
  rw [hsize, hroot]
  refine Alike.bind (findFirstGe_alike hB _ _) fun found => ?_
  rcases found with _ | ⟨leaf, idx⟩
  · exact alike_pure _
  refine Alike.bind_lift fun item _ => ?_
  split_ifs
  · exact alike_pure _
  refine Alike.bind_lift fun data _ => ?_
  refine Alike.bind_lift fun parsed _ => ?_
  exact Alike.bind_lift fun root _ => alike_pure _

theorem subvolRoot_alike (id : ℕ) :
    Alike B (subvolRoot env trees id) (subvolRoot env trees' id) := by
  refine Alike.bind (lookupRootItem_alike hB hsize hroot id) fun found => ?_
  refine Alike.bind_lift fun item _ => ?_
  split_ifs
  · exact alike_lift _
  · exact alike_pure _

theorem rootRefLinks_alike (link : SubvolLink) :
    Alike B (rootRefLinks env trees link) (rootRefLinks env trees' link) := by
  unfold rootRefLinks
  rw [hsize, hroot]
  refine Alike.bind (findExact_alike hB _ _) fun found => ?_
  rcases found with _ | ⟨leaf, idx⟩
  · exact alike_pure _
  refine Alike.bind_lift fun item _ => ?_
  refine Alike.bind_lift fun data _ => ?_
  dsimp only
  split_ifs
  · exact alike_lift _
  refine Alike.bind_lift fun dirid _ => ?_
  refine Alike.bind_lift fun nameLen _ => ?_
  refine Alike.bind_lift fun nameEnd _ => ?_
  split_ifs
  · exact alike_lift _
  · exact Alike.bind_lift fun name _ => alike_pure _

theorem entryTarget_alike (dir : Inode) (name : List UInt8) (location : DiskKey) (l : ℕ) :
    Alike B (entryTarget env trees dir name location l)
      (entryTarget env trees' dir name location l) := by
  unfold entryTarget
  split_ifs
  · exact alike_pure _
  · refine Alike.bind (rootRefLinks_alike hB hsize hroot _) fun links => ?_
    split_ifs
    · exact subvolRoot_alike hB hsize hroot _
    · exact alike_pure _
  · exact alike_lift _

theorem lookupInDir_alike (dir : Inode) (name : List UInt8) :
    Alike B (lookupInDir env trees dir name) (lookupInDir env trees' dir name) := by
  unfold lookupInDir
  rw [hsize]
  refine Alike.bind (findExact_alike hB _ _) fun found => ?_
  rcases found with _ | ⟨leaf, idx⟩
  · exact alike_lift _
  refine Alike.bind_lift fun item _ => ?_
  refine Alike.bind_lift fun data _ => ?_
  refine Alike.bind_lift fun entry _ => ?_
  cases entry with
  | none => exact alike_lift _
  | some entry => exact entryTarget_alike hB hsize hroot _ _ _ _

theorem resolvePath_alike (start : Inode) (path : Btrfs.Path) :
    Alike B (resolvePath env trees start path) (resolvePath env trees' start path) := by
  unfold resolvePath
  generalize path.components = names
  induction names generalizing start with
  | nil => exact alike_pure _
  | cons name rest ih =>
    rw [List.foldlM_cons, List.foldlM_cons]
    exact Alike.bind (lookupInDir_alike hB hsize hroot start name) fun next => ih next

theorem readDir_item_alike (dir : Inode) (leaf : TreeBlock) (item : LeafItem)
    (out : List DirEntry) : Alike B ((readDir.walk env trees dir).item leaf item out)
      ((readDir.walk env trees' dir).item leaf item out) := by
  dsimp only [readDir.walk]
  split_ifs
  · exact alike_pure _
  refine Alike.bind_lift fun data _ => ?_
  refine Alike.bind_lift fun parsed _ => ?_
  refine Alike.bind_lift fun entry _ => ?_
  split_ifs
  · exact alike_lift _
  · exact Alike.bind (entryTarget_alike hB hsize hroot _ _ _ _) fun inode => alike_pure _

theorem readDir_alike (dir : Inode) : Alike B (readDir env trees dir) (readDir env trees' dir) :=
  walkRun_alike (readDir_item_alike hB hsize hroot dir) hsize rfl rfl (fun _ => hB) _ _ _

end Directories
