/-
Encrypted files and directory entries.

Linux marks what it encrypts: an EXTENT_DATA item has an encryption byte, a directory
record the bit `FT_ENCRYPTED`.  The readers hold no keys, and so every loop tests the mark
of an item before anything else that would return or skip it.

For the loops over items a run is judged by its trace (`Prog.Refuses`): one that takes a
marked item stops.  A path is judged by the records each of its lookups looks at
(`Scanned`), and every step of a path that leads somewhere goes through an unmarked record
(`Route`).
-/
import Lambutter.Caps
import Lambutter.Resolve

/-! ### Marks -/

/-- The encryption byte of an EXTENT_DATA item is set. -/
def MarkedExtent (data : List UInt8) : Prop := ∃ b, data[17]? = some b ∧ b ≠ 0

/-- A walk takes an EXTENT_DATA item of the inode whose encryption byte is set. -/
def CipherExtent (env : Env) (objectid : ℕ) : Event → Prop
  | .item block item => isExtentOf objectid item = true ∧
      ∃ data, block.leafItemData env item = .ok data ∧ MarkedExtent data
  | _ => False

/-- The record is that of an encrypted directory's entry. -/
def DiskDirEntry.Marked (entry : DiskDirEntry) : Prop := entry.ty &&& ftEncrypted ≠ 0

instance (entry : DiskDirEntry) : Decidable entry.Marked :=
  inferInstanceAs (Decidable (entry.ty &&& ftEncrypted ≠ 0))

/-- A walk takes a DIR_INDEX item of the directory whose record is marked. -/
def CipherEntry (env : Env) (objectid : ℕ) : Event → Prop
  | .item block item => item.key.objectid = objectid ∧ item.key.itemType = dirIndexKey ∧
      ∃ data entry next, block.leafItemData env item = .ok data ∧
        DiskDirEntry.parse env data 0 = .ok (some (entry, next)) ∧ entry.Marked
  | _ => False

theorem leAt_one {data : List UInt8} {p : ℕ} {b : UInt8} (h : data[p]? = some b) :
    leAt data p 1 = b.toNat := by
  obtain ⟨hp, rfl⟩ := List.getElem?_eq_some_iff.mp h
  rw [leAt, List.drop_eq_getElem_cons hp, List.take_succ_cons, List.take_zero]
  rfl

/-- The header of a marked extent is an error, whichever place asks for it. -/
theorem extentHeader_marked {env : Env} (hw : 32 ≤ env.usizeBits) {data : List UInt8}
    (h : MarkedExtent data) (logical : ℕ) : ∃ e, extentHeader env data logical = err e := by
  obtain ⟨b, hb, hne⟩ := h
  have henc : (ExtentDataHeader.readAt data 0).encryption = b.toNat := leAt_one hb
  rw [extentHeader_eq hw]
  by_cases hshort : data.length < 21
  · rw [if_pos hshort]
    exact ⟨_, rfl⟩
  · rw [if_neg hshort, if_pos]
    · exact ⟨_, rfl⟩
    · rw [henc]
      exact fun hzero => hne (UInt8.toNat_inj.mp hzero)

/-! ### Walks -/

section Walks

variable {σ α : Type} {env : Env} {w : Walk σ} {Bad : Event → Prop} {S : Stop → Prop}

theorem refuses_note {e : Event} {f : Unit → ReadM α} (hf : (f ()).Refuses Bad S)
    (h : Bad e → Prog.Ensures S (f ()) fun _ => False) : (note e >>= f).Refuses Bad S :=
  hf.note h

theorem Walk.leaf_refuses (hitem : ∀ block item s, (w.item block item s).Refuses Bad S)
    (hbad : ∀ block item s, Bad (.item block item) →
      Prog.Ensures S (w.item block item s) fun _ => False)
    (block : TreeBlock) (n idx : ℕ) (s : σ) (next : Option DiskKey) :
    (w.leaf env block n idx s next).Refuses Bad S := by
  induction n generalizing idx s next with
  | zero => exact Prog.refuses_pure _
  | succ n ih =>
    rw [Walk.leaf]
    refine Prog.Refuses.bind (Prog.refuses_lift _) (returns_any _) fun item _ => ?_
    refine refuses_note ?_ fun hmarked => ?_
    · refine Prog.Refuses.bind (hitem block item s) (returns_any _) fun pace _ => ?_
      cases pace with
      | leave s' => exact Prog.refuses_pure _
      | more s' next' =>
        exact Prog.Refuses.bind (Prog.refuses_lift _) (returns_any _) fun idx' _ => ih idx' s' next'
    · exact Prog.Ensures.bind (hbad block item s hmarked) fun _ h => absurd h id

/-- A walk whose body refuses marked items refuses to return once it has taken one. -/
theorem Walk.run_refuses (hreading : ∀ e, Reading e → ¬ Bad e)
    (hleaf : ∀ block, ¬ Bad (.leaf block))
    (hitem : ∀ block item s, (w.item block item s).Refuses Bad S)
    (hbad : ∀ block item s, Bad (.item block item) →
      Prog.Ensures S (w.item block item s) fun _ => False)
    (fuel : ℕ) (target : DiskKey) (s : σ) : (w.run env fuel target s).Refuses Bad S := by
  induction fuel generalizing target s with
  | zero =>
    rw [Walk.run]
    exact Prog.refuses_lift _
  | succ fuel ih =>
    rw [Walk.run]
    by_cases hproceed : w.proceed s = true
    swap
    · rw [if_neg hproceed]
      exact Prog.refuses_pure _
    rw [if_pos hproceed]
    refine Prog.Refuses.bind ((findFirstGe_notes _ _).mono hreading).refuses (returns_any _)
      fun found _ => ?_
    cases found with
    | none => exact Prog.refuses_pure _
    | some found =>
      obtain ⟨block, idx⟩ := found
      refine refuses_note ?_ fun h => absurd h (hleaf block)
      refine Prog.Refuses.bind (Walk.leaf_refuses hitem hbad block _ idx s none) (returns_any _)
        fun pace _ => ?_
      rcases pace with ⟨s', _ | target'⟩ | s'
      · exact Prog.refuses_pure _
      · exact ih target' s'
      · exact Prog.refuses_pure _

end Walks

/-! ### Files -/

section Files

variable {env : Env} {map : ChunkMap} {geometry : Geometry} {fsTreeRoot objectid : ℕ}

theorem perItem_not_extent {e : Event} (h : PerItem e) : ¬ CipherExtent env objectid e := by
  intro hb
  cases e with
  | item block item => exact h
  | _ => exact hb

theorem applyExtent_notes {sectorsize : ℕ} (out data : List UInt8) (fileSize : ℕ) :
    (applyExtent env map sectorsize out data fileSize).Notes PerItem := by
  refine Prog.Notes.bind (Prog.notes_lift _) fun header => ?_
  by_cases hinline : header.ty = fileExtentInline
  · rw [if_pos hinline]
    refine Prog.Notes.bind (Prog.notes_lift _) fun payload => ?_
    refine Prog.Notes.bind (Prog.notes_lift _) fun plain => ?_
    exact Prog.Notes.bind (Prog.notes_lift _) fun _ => Prog.notes_pure _
  rw [if_neg hinline]
  by_cases hregular : header.ty = fileExtentReg ∨ header.ty = fileExtentPrealloc
  swap
  · rw [if_neg hregular]
    exact Prog.notes_lift _
  rw [if_pos hregular]
  refine Prog.Notes.bind (Prog.notes_lift _) fun regular => ?_
  dsimp only
  split_ifs
  · exact Prog.notes_pure _
  · refine Prog.Notes.bind (Prog.notes_lift _) fun _ => ?_
    exact Prog.Notes.bind (Prog.notes_lift _) fun _ => Prog.notes_pure _
  · refine Prog.Notes.bind (Prog.notes_lift _) fun _ => ?_
    refine Prog.Notes.bind (Prog.notes_lift _) fun _ => ?_
    refine Prog.Notes.bind (Prog.notes_lift _) fun _ => ?_
    exact Prog.Notes.bind (readThroughChunks_notes _ _ _) fun _ => Prog.notes_pure _
  · refine Prog.Notes.bind (Prog.notes_lift _) fun _ => ?_
    refine Prog.Notes.bind (readCompressed_notes _ _ _) fun decoded => ?_
    refine Prog.Notes.bind (Prog.notes_lift _) fun off => ?_
    refine Prog.Notes.bind (Prog.notes_lift _) fun stop => ?_
    split_ifs
    · exact Prog.notes_lift _
    · exact Prog.Notes.bind (Prog.notes_lift _) fun _ => Prog.notes_pure _

theorem readFile_item_notes (fileSize : ℕ) (leaf : TreeBlock) (item : LeafItem) (out : List UInt8) :
    (readFile.item env map geometry objectid fileSize leaf item out).Notes PerItem := by
  unfold readFile.item
  by_cases hmine : ¬ isExtentOf objectid item
  · rw [if_pos hmine]
    exact Prog.notes_pure _
  rw [if_neg hmine]
  dsimp only
  by_cases hoverlap : item.key.offset < out.length
  · rw [if_pos hoverlap]
    exact Prog.notes_lift _
  rw [if_neg hoverlap]
  by_cases hpast : fileSize < item.key.offset
  · rw [if_pos hpast]
    exact Prog.notes_lift _
  rw [if_neg hpast]
  refine Prog.Notes.bind (Prog.notes_lift _) fun gap => ?_
  refine Prog.Notes.bind (Prog.notes_lift _) fun filled => ?_
  refine Prog.Notes.bind (Prog.notes_lift _) fun data => ?_
  refine Prog.Notes.bind (applyExtent_notes _ _ _) fun out' => ?_
  refine Prog.Notes.bind (Prog.notes_lift _) fun next => ?_
  split_ifs
  · exact Prog.notes_pure _
  · exact Prog.notes_pure _

variable (hw : 32 ≤ env.usizeBits)

include hw

theorem readFileAt_item_notes (offset want : ℕ) (leaf : TreeBlock) (item : LeafItem)
    (written : List UInt8) :
    (readFileAt.item env map geometry objectid offset want leaf item written).Notes PerItem := by
  unfold readFileAt.item
  by_cases hmine : ¬ isExtentOf objectid item
  · rw [if_pos hmine]
    exact Prog.notes_pure _
  rw [if_neg hmine]
  refine Prog.Notes.bind (Prog.notes_lift _) fun data => ?_
  refine Prog.Notes.bind (Prog.notes_lift _) fun extentLogicalLen => ?_
  refine Prog.Notes.bind (Prog.notes_lift _) fun requestStart => ?_
  dsimp only
  by_cases hskip : saturatingAddU64 item.key.offset extentLogicalLen ≤ requestStart
  · rw [if_pos hskip]
    exact Prog.Notes.bind (Prog.notes_lift _) fun _ => Prog.notes_pure _
  rw [if_neg hskip]
  refine Prog.Notes.bind (Prog.notes_lift _) fun filled => ?_
  by_cases hfull : requestStart < item.key.offset ∧ filled.length = want
  · rw [if_pos hfull]
    exact Prog.notes_pure _
  rw [if_neg hfull]
  refine Prog.Notes.bind (Prog.notes_lift _) fun _ => ?_
  refine Prog.Notes.bind (Prog.notes_lift _) fun _ => ?_
  refine Prog.Notes.bind (Prog.notes_lift _) fun _ => ?_
  refine Prog.Notes.bind (Prog.notes_lift _) fun _ => ?_
  refine Prog.Notes.bind (Prog.notes_lift _) fun _ => ?_
  refine Prog.Notes.bind (Prog.notes_lift _) fun _ => ?_
  refine Prog.Notes.bind ?_ fun bytes => ?_
  · rw [copyExtentSlice_eq hw]
    refine Prog.Notes.bind ⟨trivial, trivial⟩ fun _ => ?_
    exact Prog.Notes.bind (Prog.notes_lift _) fun e => Extent.copy_notes _ _ _ _
  refine Prog.Notes.bind (Prog.notes_lift _) fun next => ?_
  split_ifs
  · exact Prog.notes_pure _
  · exact Prog.notes_pure _

/-- `read_file` stops at a marked extent, wherever the file has got to. -/
theorem readFile_item_marked {fileSize : ℕ} (hsize : fileSize < 2 ^ env.usizeBits)
    {leaf : TreeBlock} {item : LeafItem} (h : CipherExtent env objectid (.item leaf item))
    (out : List UInt8) : Prog.Ensures Stop.Typed
      (readFile.item env map geometry objectid fileSize leaf item out) fun _ => False := by
  obtain ⟨hmine, data, hdata, hmarked⟩ := h
  unfold readFile.item
  rw [if_neg (not_not.mpr hmine)]
  dsimp only
  by_cases hoverlap : item.key.offset < out.length
  · rw [if_pos hoverlap]
    exact trivial
  rw [if_neg hoverlap]
  by_cases hpast : fileSize < item.key.offset
  · rw [if_pos hpast]
    exact trivial
  rw [if_neg hpast, Env.sub_ok env (not_lt.mp hoverlap), liftM_ok_bind]
  refine Prog.Ensures.bind (ensures_lift (P := fun _ => True) ?_ fun _ _ => trivial)
    fun filled _ => ?_
  · -- the gap ends at the extent, which starts within the file
    unfold fillHole
    split_ifs
    · refine (env.tryIntoUsize_safe _ _).bind fun gapUsize hgap => ?_
      obtain ⟨rfl, -⟩ := tryIntoUsize_eq hgap
      rw [Env.tryReserveMore_ok env (by omega), Except.ok_bind, Env.addUsize_fits (by omega)]
      exact Outcome.safe_ok _
    · exact Outcome.safe_ok _
  rw [hdata, liftM_ok_bind]
  obtain ⟨e, he⟩ := extentHeader_marked hw hmarked 0
  unfold applyExtent
  rw [he]
  exact trivial

/-- `read_file_at` looks at the length of each item first, and stops there. -/
theorem readFileAt_item_marked {offset want : ℕ} {leaf : TreeBlock} {item : LeafItem}
    (h : CipherExtent env objectid (.item leaf item)) (written : List UInt8) :
    Prog.Ensures Stop.Typed
      (readFileAt.item env map geometry objectid offset want leaf item written) fun _ => False := by
  obtain ⟨hmine, data, hdata, hmarked⟩ := h
  obtain ⟨e, he⟩ := extentHeader_marked hw hmarked 0
  unfold readFileAt.item
  rw [if_neg (not_not.mpr hmine)]
  dsimp only
  rw [hdata, liftM_ok_bind]
  unfold extentLogicalLength
  rw [he]
  exact trivial

theorem readFile_refuses : (readFile env map geometry fsTreeRoot objectid).Refuses
    (CipherExtent env objectid) Stop.Typed := by
  have hreading : ∀ e, Reading e → ¬ CipherExtent env objectid e :=
    fun e he => perItem_not_extent he.perItem
  refine Prog.Refuses.bind ((readMetadata_notes _).mono hreading).refuses (returns_any _)
    fun metadata _ => ?_
  by_cases hfile : ¬ metadata.isFile
  · rw [if_pos hfile]
    exact Prog.refuses_lift _
  rw [if_neg hfile]
  dsimp only
  refine Prog.Refuses.bind (P := fun _ => metadata.size < 2 ^ env.usizeBits) (Prog.refuses_lift _)
    (returns_lift fun _ h => (tryIntoUsize_eq h).2) fun _ hsize => ?_
  refine Prog.Refuses.bind (Prog.refuses_lift _) (returns_any _) fun _ _ => ?_
  refine Prog.Refuses.bind ?_ (returns_any _) fun out _ => Prog.refuses_lift _
  refine Walk.run_refuses hreading (fun _ h => h) (fun block item out => ?_)
    (fun block item out h => ?_) _ _ _
  · exact ((readFile_item_notes _ block item out).mono fun _ => perItem_not_extent).refuses
  · exact readFile_item_marked hw hsize h out

theorem readFileAt_refuses (offset : ℕ) (buf : List UInt8) :
    (readFileAt env map geometry fsTreeRoot objectid offset buf).Refuses
      (CipherExtent env objectid) Stop.Typed := by
  have hreading : ∀ e, Reading e → ¬ CipherExtent env objectid e :=
    fun e he => perItem_not_extent he.perItem
  unfold readFileAt
  by_cases hbuf : buf.length = 0
  · rw [if_pos hbuf]
    exact Prog.refuses_pure _
  rw [if_neg hbuf]
  refine Prog.Refuses.bind ((readMetadata_notes _).mono hreading).refuses (returns_any _)
    fun metadata _ => ?_
  by_cases hfile : ¬ metadata.isFile
  · rw [if_pos hfile]
    exact Prog.refuses_lift _
  rw [if_neg hfile]
  by_cases hend : metadata.size ≤ offset
  · rw [if_pos hend]
    exact Prog.refuses_pure _
  rw [if_neg hend]
  refine Prog.Refuses.bind (Prog.refuses_lift _) (returns_any _) fun rest _ => ?_
  refine Prog.Refuses.bind (Prog.refuses_lift _) (returns_any _) fun want _ => ?_
  refine Prog.Refuses.bind (Prog.refuses_lift _) (returns_any _) fun _ _ => ?_
  refine Prog.Refuses.bind ?_ (returns_any _) fun written _ =>
    Prog.Refuses.bind (Prog.refuses_lift _) (returns_any _) fun _ _ => Prog.refuses_pure _
  refine Walk.run_refuses hreading (fun _ h => h) (fun block item written => ?_)
    (fun block item written h => ?_) _ _ _
  · exact ((readFileAt_item_notes hw _ _ block item written).mono
      fun _ => perItem_not_extent).refuses
  · exact readFileAt_item_marked hw h written

end Files

/-! ### Symlinks -/

section Link

variable {τ : Type} (env : Env) (map : ChunkMap) (geometry : Geometry) (fsTreeRoot objectid : ℕ)

/-- The item that `read_link` takes: the first at or after the start of the inode's data. -/
def LinkTakes (R : (q : ReadReq) → τ → Ans q × τ) (s : τ) (leaf : TreeBlock) (item : LeafItem) :
    Prop :=
  ∃ m idx, (Prog.exec R (readMetadata env map geometry.nodesize fsTreeRoot objectid) s).result =
      .ok m ∧ m.isSymlink = true ∧
    (Prog.exec R (findFirstGe env map geometry.nodesize fsTreeRoot (extentsFrom objectid))
      (Prog.exec R (readMetadata env map geometry.nodesize fsTreeRoot objectid) s).state).result =
        .ok (some (leaf, idx)) ∧
    leaf.leafItem env idx = .ok item

variable {env map geometry fsTreeRoot objectid} {R : (q : ReadReq) → τ → Ans q × τ} {s : τ}

theorem readLink_marked (hw : 32 ≤ env.usizeBits) {leaf : TreeBlock} {item : LeafItem}
    (htakes : LinkTakes env map geometry fsTreeRoot objectid R s leaf item)
    (h : CipherExtent env objectid (.item leaf item)) :
    ∃ e, (Prog.exec R (readLink env map geometry fsTreeRoot objectid) s).result = err e := by
  obtain ⟨m, idx, hmeta, hlink, hfind, hitem⟩ := htakes
  obtain ⟨hmine, data, hdata, hmarked⟩ := h
  obtain ⟨e, he⟩ := extentHeader_marked hw hmarked leaf.header.bytenr
  refine ⟨e, ?_⟩
  unfold readLink
  rw [Prog.exec_bind_result, hmeta]
  dsimp only [Except.bind]
  rw [if_neg (not_not.mpr hlink), Prog.exec_bind_result, hfind]
  dsimp only [Except.bind]
  rw [hitem, liftM_ok_bind, if_neg (not_not.mpr hmine), hdata, liftM_ok_bind, he]
  rfl

/-- A link that is read was taken from an item of the inode without a mark. -/
theorem readLink_took (hw : 32 ≤ env.usizeBits) {target : List UInt8}
    (h : (Prog.exec R (readLink env map geometry fsTreeRoot objectid) s).result = .ok target) :
    ∃ leaf item, LinkTakes env map geometry fsTreeRoot objectid R s leaf item ∧
      isExtentOf objectid item = true ∧ ¬ CipherExtent env objectid (.item leaf item) := by
  have hread := h
  unfold readLink at h
  rw [Prog.exec_bind_result] at h
  obtain ⟨m, hmeta, h⟩ := Except.bind_eq_ok.mp h
  by_cases hlink : m.isSymlink = true
  swap
  · rw [if_pos hlink] at h
    exact absurd h err_ne_ok
  rw [if_neg (not_not.mpr hlink), Prog.exec_bind_result] at h
  obtain ⟨found, hfind, h⟩ := Except.bind_eq_ok.mp h
  rcases found with _ | ⟨leaf, idx⟩
  · exact absurd h err_ne_ok
  rw [Prog.exec_bind_result, Prog.liftM_def, Prog.exec_lift] at h
  obtain ⟨item, hitem, h⟩ := Except.bind_eq_ok.mp h
  by_cases hmine : isExtentOf objectid item = true
  swap
  · rw [if_pos hmine] at h
    exact absurd h err_ne_ok
  have htakes : LinkTakes env map geometry fsTreeRoot objectid R s leaf item :=
    ⟨m, idx, hmeta, hlink, hfind, hitem⟩
  refine ⟨leaf, item, htakes, hmine, fun hcipher => ?_⟩
  obtain ⟨e, he⟩ := readLink_marked hw htakes hcipher
  rw [hread] at he
  exact absurd he.symm err_ne_ok

end Link

/-! ### Listings -/

section Listings

variable {env : Env} {trees : Trees} {dir : Inode}

theorem perItem_not_entry {objectid : ℕ} {e : Event} (h : PerItem e) :
    ¬ CipherEntry env objectid e := by
  intro hb
  cases e with
  | item block item => exact h
  | _ => exact hb

theorem within_unnoticed {α : Type} (p : ReadM α) :
    Prog.Within (fun _ => True) p fun _ => True :=
  Prog.Sat.mono (returns_any p) fun _ _ _ => ⟨fun _ _ => trivial, fun _ _ => trivial⟩

/-- `read_dir` stops at a marked record. -/
theorem readDir_item_marked {leaf : TreeBlock} {item : LeafItem}
    (h : CipherEntry env dir.objectid (.item leaf item)) (out : List DirEntry) :
    Prog.Ensures (fun x => x = .err (.unsupportedFeature "feat_encryption"))
      ((readDir.walk env trees dir).item leaf item out) fun _ => False := by
  obtain ⟨hobjectid, htype, data, entry, next, hdata, hparse, hmarked⟩ := h
  have hmine : ¬(item.key.objectid ≠ dir.objectid ∨ item.key.itemType ≠ dirIndexKey) := by
    rintro (hne | hne)
    · exact hne hobjectid
    · exact hne htype
  have hbit : entry.ty &&& ftEncrypted ≠ 0 := hmarked
  dsimp only [readDir.walk]
  rw [if_neg hmine, hdata, liftM_ok_bind, hparse, liftM_ok_bind, okOr_some, liftM_ok_bind]
  dsimp only
  rw [if_pos hbit]
  exact rfl

theorem readDir_refuses : (readDir env trees dir).Refuses (CipherEntry env dir.objectid)
    fun x => x = .err (.unsupportedFeature "feat_encryption") := by
  refine Walk.run_refuses (fun e he => perItem_not_entry he.perItem) (fun _ h => h)
    (fun block item out => ?_) (fun block item out h => readDir_item_marked h out) _ _ _
  exact ((readDir_item_notes trees dir block item out).mono fun _ => perItem_not_entry).refuses

theorem readDir_item_clear (leaf : TreeBlock) (item : LeafItem) {out : List DirEntry}
    (hout : ∀ e ∈ out, e.kindByte &&& ftEncrypted = 0) :
    Prog.Within (fun _ => True) ((readDir.walk env trees dir).item leaf item out)
      (Pace.Then (fun out => ∀ e ∈ out, e.kindByte &&& ftEncrypted = 0)
        fun out => ∀ e ∈ out, e.kindByte &&& ftEncrypted = 0) := by
  dsimp only [readDir.walk]
  by_cases hforeign : item.key.objectid ≠ dir.objectid ∨ item.key.itemType ≠ dirIndexKey
  · rw [if_pos hforeign]
    exact Prog.within_pure hout
  rw [if_neg hforeign]
  refine Prog.Within.bind (within_unnoticed _) fun data _ => ?_
  refine Prog.Within.bind (within_unnoticed _) fun parsed _ => ?_
  refine Prog.Within.bind (within_unnoticed _) fun entry _ => ?_
  by_cases hbit : entry.1.ty &&& ftEncrypted ≠ 0
  · rw [if_pos hbit]
    exact within_liftM fun _ h => absurd h err_ne_ok
  rw [if_neg hbit]
  refine Prog.Within.bind (within_unnoticed _) fun inode _ => Prog.within_pure fun e he => ?_
  rcases List.mem_append.mp he with he | he
  · exact hout e he
  · rw [List.mem_singleton.mp he]
    exact not_not.mp hbit

/-- No entry of a listing is marked. -/
theorem readDir_clear : Returns (readDir env trees dir)
    fun list => ∀ e ∈ list, e.kindByte &&& ftEncrypted = 0 := by
  have hrun : Prog.Within (fun _ => True) (readDir env trees dir)
      fun list => ∀ e ∈ list, e.kindByte &&& ftEncrypted = 0 := by
    refine @Walk.run_within env _ _ _ (fun _ => True)
      (fun out : List DirEntry => ∀ e ∈ out, e.kindByte &&& ftEncrypted = 0) _ (fun _ => trivial)
      (fun _ _ => trivial) (fun _ _ => (within_unnoticed _).mono fun _ _ _ _ _ => trivial)
      (fun block item out _ hout => readDir_item_clear block item hout) (fun _ h => h) _ _ _
      fun _ he => absurd he List.not_mem_nil
  refine Prog.Sat.mono hrun fun t r h => ?_
  cases r with
  | ok list => exact h.2 list rfl
  | error x => trivial

end Listings

/-! ### Paths -/

section Paths

/-- Where a lookup of `name` gets to in a packed item: on to the next record, as long as
this one is unmarked and has another name. -/
inductive Scanned (env : Env) (data name : List UInt8) : ℕ → Prop
  | first : Scanned env data name 0
  | next {p q : ℕ} {entry : DiskDirEntry} (hp : Scanned env data name p) (hlt : p < data.length)
      (hparse : DiskDirEntry.parse env data p = .ok (some (entry, q))) (hclear : ¬ entry.Marked)
      (hname : entry.name ≠ name) : Scanned env data name q

/-- The lookup looks at this record. -/
def LooksAt (env : Env) (data name : List UInt8) (entry : DiskDirEntry) : Prop :=
  ∃ p q, Scanned env data name p ∧ p < data.length ∧
    DiskDirEntry.parse env data p = .ok (some (entry, q))

section Scan

variable {env : Env} {data name : List UInt8} {bytenr : ℕ}

/-- The test of `lookup_in_dir`. -/
abbrev wanted (name : List UInt8) (entry : DiskDirEntry) : Outcome Bool :=
  if entry.ty &&& ftEncrypted ≠ 0 then err (.unsupportedFeature "feat_encryption")
  else .ok (entry.name == name)

variable (bytenr) in
/-- The scan gets where `Scanned` says, with enough fuel left for the rest of the item. -/
theorem findEntry_scanned (hfit : data.length + 2 ^ 20 < 2 ^ env.usizeBits) {p : ℕ}
    (h : Scanned env data name p) : ∃ n, data.length < p + n ∧
      findEntry env data bytenr (wanted name) (data.length + 1) 0 =
        findEntry env data bytenr (wanted name) n p := by
  induction h with
  | first => exact ⟨data.length + 1, by omega, rfl⟩
  | @next p q entry _ hlt hparse hclear hname ih =>
    obtain ⟨n, hn, heq⟩ := ih
    obtain ⟨n, rfl⟩ : ∃ k, n = k + 1 := ⟨n - 1, by omega⟩
    have hbit : ¬(entry.ty &&& ftEncrypted ≠ 0) := hclear
    have hnext : p + 30 ≤ q := by
      rw [DiskDirEntry.parse_fits (by omega)] at hparse
      split_ifs at hparse
      · cases hparse
      · have hq : p + 30 + leAt data (p + 27) 2 + leAt data (p + 25) 2 = q :=
          (Prod.mk.inj (Option.some.inj (Except.ok.inj hparse))).2
        omega
    refine ⟨n, by omega, ?_⟩
    rw [heq, findEntry, if_pos hlt, hparse, Except.ok_bind]
    dsimp only
    rw [wanted, if_neg hbit, Except.ok_bind, if_neg]
    simpa using hname

variable (bytenr) in
/-- At a record that is looked at, the lookup makes its test. -/
theorem findEntry_looksAt (hfit : data.length + 2 ^ 20 < 2 ^ env.usizeBits) {entry : DiskDirEntry}
    (h : LooksAt env data name entry) : ∃ n q,
      findEntry env data bytenr (wanted name) (data.length + 1) 0 = (do
        if ← wanted name entry then return some entry
        else findEntry env data bytenr (wanted name) n q) := by
  obtain ⟨p, q, hscan, hlt, hparse⟩ := h
  obtain ⟨n, hn, heq⟩ := findEntry_scanned bytenr hfit hscan
  obtain ⟨n, rfl⟩ : ∃ k, n = k + 1 := ⟨n - 1, by omega⟩
  refine ⟨n, q, ?_⟩
  rw [heq, findEntry, if_pos hlt, hparse, Except.ok_bind]

/-- A marked record that is looked at ends the lookup. -/
theorem findEntry_marked (hfit : data.length + 2 ^ 20 < 2 ^ env.usizeBits) {entry : DiskDirEntry}
    (h : LooksAt env data name entry) (hmarked : entry.Marked) :
    findEntry env data bytenr (wanted name) (data.length + 1) 0 =
      err (.unsupportedFeature "feat_encryption") := by
  obtain ⟨n, q, heq⟩ := findEntry_looksAt bytenr hfit h
  have hbit : entry.ty &&& ftEncrypted ≠ 0 := hmarked
  rw [heq, wanted, if_pos hbit]
  rfl

/-- An unmarked record of the name that is looked at is what the lookup finds. -/
theorem findEntry_named (hfit : data.length + 2 ^ 20 < 2 ^ env.usizeBits) {entry : DiskDirEntry}
    (h : LooksAt env data name entry) (hclear : ¬ entry.Marked) (hname : entry.name = name) :
    findEntry env data bytenr (wanted name) (data.length + 1) 0 = .ok (some entry) := by
  obtain ⟨n, q, heq⟩ := findEntry_looksAt bytenr hfit h
  have hbit : ¬(entry.ty &&& ftEncrypted ≠ 0) := hclear
  rw [heq, wanted, if_neg hbit, Except.ok_bind, if_pos (beq_iff_eq.mpr hname)]
  rfl

/-- What a lookup finds is unmarked and has the name. -/
theorem findEntry_clear {n p : ℕ} {entry : DiskDirEntry} (hscan : Scanned env data name p)
    (h : findEntry env data bytenr (wanted name) n p = .ok (some entry)) :
    LooksAt env data name entry ∧ ¬ entry.Marked ∧ entry.name = name := by
  induction n generalizing p with
  | zero => cases h
  | succ n ih =>
    rw [findEntry] at h
    by_cases hlt : p < data.length
    swap
    · rw [if_neg hlt] at h
      cases h
    rw [if_pos hlt] at h
    obtain ⟨parsed, hparse, h⟩ := Except.bind_eq_ok.mp h
    rcases parsed with _ | ⟨found, next⟩
    · exact absurd h err_ne_ok
    obtain ⟨accepted, hwanted, h⟩ := Except.bind_eq_ok.mp h
    unfold wanted at hwanted
    by_cases hbit : found.ty &&& ftEncrypted ≠ 0
    · rw [if_pos hbit] at hwanted
      exact absurd hwanted err_ne_ok
    rw [if_neg hbit] at hwanted
    cases hwanted
    by_cases hname : found.name = name
    · rw [if_pos (beq_iff_eq.mpr hname)] at h
      cases h
      exact ⟨⟨p, next, hscan, hlt, hparse⟩, hbit, hname⟩
    · rw [if_neg (by simpa using hname)] at h
      exact ih (hscan.next hlt hparse hbit hname) h

end Scan

variable {τ : Type} (env : Env) (trees : Trees) (R : (q : ReadReq) → τ → Ans q × τ)

/-- The packed directory item that a lookup takes. -/
def LookupTakes (dir : Inode) (name : List UInt8) (s : τ) (leaf : TreeBlock) (data : List UInt8) :
    Prop :=
  ∃ idx item, (Prog.exec R (findExact env trees.chunkMap trees.nodesize dir.treeRoot
      ⟨dir.objectid, dirItemKey, nameHash name⟩) s).result = .ok (some (leaf, idx)) ∧
    leaf.leafItem env idx = .ok item ∧ leaf.leafItemData env item = .ok data

/-- A step of a path from `dir` to `next`, through an unmarked record of that name. -/
def StepsTo (dir : Inode) (name : List UInt8) (s : τ) (next : Inode) : Prop :=
  ∃ leaf data entry, LookupTakes env trees R dir name s leaf data ∧
    LooksAt env data name entry ∧ ¬ entry.Marked ∧ entry.name = name ∧
    (Prog.exec R (entryTarget env trees dir name entry.location leaf.header.bytenr)
      (Prog.exec R (findExact env trees.chunkMap trees.nodesize dir.treeRoot
        ⟨dir.objectid, dirItemKey, nameHash name⟩) s).state).result = .ok next

/-- A path walked from `dir` in state `s` to an inode and a state of the reader. -/
inductive Route : Inode → τ → List (List UInt8) → Inode → τ → Prop
  | nil (dir : Inode) (s : τ) : Route dir s [] dir s
  | cons {dir next last : Inode} {s s' : τ} {name : List UInt8} {names : List (List UInt8)}
      (hstep : StepsTo env trees R dir name s next)
      (hrest : Route next (Prog.exec R (lookupInDir env trees dir name) s).state names last s') :
      Route dir s (name :: names) last s'

variable {env trees R}

theorem lookupInDir_result {dir : Inode} {name : List UInt8} {s : τ} {leaf : TreeBlock}
    {data : List UInt8} (h : LookupTakes env trees R dir name s leaf data) :
    (Prog.exec R (lookupInDir env trees dir name) s).result = (do
      let found ← findEntry env data leaf.header.bytenr (wanted name) (data.length + 1) 0
      match found with
      | none => err .notFound
      | some entry =>
        (Prog.exec R (entryTarget env trees dir name entry.location leaf.header.bytenr)
          (Prog.exec R (findExact env trees.chunkMap trees.nodesize dir.treeRoot
            ⟨dir.objectid, dirItemKey, nameHash name⟩) s).state).result) := by
  obtain ⟨idx, item, hfind, hitem, hdata⟩ := h
  unfold lookupInDir
  rw [Prog.exec_bind_result, hfind]
  dsimp only [Except.bind]
  rw [hitem, liftM_ok_bind, hdata, liftM_ok_bind, Prog.exec_bind_result, Prog.liftM_def,
    Prog.exec_lift]
  refine congrArg (Except.bind _) (funext fun found => ?_)
  cases found with
  | none => rfl
  | some entry => rfl

/-- A lookup that leads somewhere does so through an unmarked record. -/
theorem lookupInDir_steps {dir next : Inode} {name : List UInt8} {s : τ}
    (h : (Prog.exec R (lookupInDir env trees dir name) s).result = .ok next) :
    StepsTo env trees R dir name s next := by
  have hresult := h
  unfold lookupInDir at h
  rw [Prog.exec_bind_result] at h
  obtain ⟨found, hfind, h⟩ := Except.bind_eq_ok.mp h
  rcases found with _ | ⟨leaf, idx⟩
  · exact absurd h err_ne_ok
  rw [Prog.exec_bind_result, Prog.liftM_def, Prog.exec_lift] at h
  obtain ⟨item, hitem, h⟩ := Except.bind_eq_ok.mp h
  rw [Prog.exec_bind_result, Prog.liftM_def, Prog.exec_lift] at h
  obtain ⟨data, hdata, -⟩ := Except.bind_eq_ok.mp h
  have htakes : LookupTakes env trees R dir name s leaf data := ⟨idx, item, hfind, hitem, hdata⟩
  rw [lookupInDir_result htakes] at hresult
  obtain ⟨found, hfound, hresult⟩ := Except.bind_eq_ok.mp hresult
  cases found with
  | none => exact absurd hresult err_ne_ok
  | some entry =>
    obtain ⟨hlooks, hclear, hname⟩ := findEntry_clear .first hfound
    exact ⟨leaf, data, entry, htakes, hlooks, hclear, hname, hresult⟩

/-- The data of a lookup are those of one item of a tree block. -/
theorem LookupTakes.fits (hw : 32 ≤ env.usizeBits) {dir : Inode} {name : List UInt8} {s : τ}
    {leaf : TreeBlock} {data : List UInt8} (h : LookupTakes env trees R dir name s leaf data) :
    data.length + 2 ^ 20 < 2 ^ env.usizeBits := by
  obtain ⟨idx, item, hfind, -, hdata⟩ := h
  have hbody := (findExact_returns _ _).returns R s hfind leaf idx rfl
  have hlen := leafItemData_length_le hdata
  have hnode : trees.nodesize ≤ 65536 := trees.validNodesize.2
  have hpow : 2 ^ 32 ≤ 2 ^ env.usizeBits := Nat.pow_le_pow_right (by omega) hw
  omega

/-- A marked record that a lookup looks at ends it. -/
theorem lookupInDir_marked (hw : 32 ≤ env.usizeBits) {dir : Inode} {name : List UInt8} {s : τ}
    {leaf : TreeBlock} {data : List UInt8} (htakes : LookupTakes env trees R dir name s leaf data)
    {entry : DiskDirEntry} (hlooks : LooksAt env data name entry) (hmarked : entry.Marked) :
    (Prog.exec R (lookupInDir env trees dir name) s).result =
      err (.unsupportedFeature "feat_encryption") := by
  rw [lookupInDir_result htakes, findEntry_marked (htakes.fits hw) hlooks hmarked]
  rfl

theorem StepsTo.result (hw : 32 ≤ env.usizeBits) {dir next : Inode} {name : List UInt8} {s : τ}
    (h : StepsTo env trees R dir name s next) :
    (Prog.exec R (lookupInDir env trees dir name) s).result = .ok next := by
  obtain ⟨leaf, data, entry, htakes, hlooks, hclear, hname, hnext⟩ := h
  rw [lookupInDir_result htakes, findEntry_named (htakes.fits hw) hlooks hclear hname]
  exact hnext

/-- A walk along names that gets somewhere is a route. -/
theorem names_route {start inode : Inode} {names : List (List UInt8)} {s : τ}
    (h : (Prog.exec R (names.foldlM (lookupInDir env trees) start) s).result = .ok inode) :
    ∃ s', Route env trees R start s names inode s' := by
  induction names generalizing start s with
  | nil =>
    cases h
    exact ⟨s, .nil _ _⟩
  | cons name names ih =>
    rw [List.foldlM_cons, Prog.exec_bind_result] at h
    obtain ⟨next, hnext, h⟩ := Except.bind_eq_ok.mp h
    obtain ⟨s', hroute⟩ := ih h
    exact ⟨s', .cons (lookupInDir_steps hnext) hroute⟩

/-- What stops a lookup at the end of a route stops the walk. -/
theorem Route.stops (hw : 32 ≤ env.usizeBits) {start dir : Inode} {before after : List (List UInt8)}
    {name : List UInt8} {s s' : τ} (h : Route env trees R start s before dir s') {x : Stop}
    (hx : (Prog.exec R (lookupInDir env trees dir name) s').result = .error x) :
    (Prog.exec R ((before ++ name :: after).foldlM (lookupInDir env trees) start) s).result =
      .error x := by
  induction h with
  | nil dir s =>
    rw [List.nil_append, List.foldlM_cons, Prog.exec_bind_result, hx]
    rfl
  | cons hstep hrest ih =>
    rw [List.cons_append, List.foldlM_cons, Prog.exec_bind_result, hstep.result hw]
    exact ih hx

end Paths

/-! ### Every reader -/

/-- A run that leaves a note in `Bad` is an error of the interface, and so one that returns
leaves none. -/
structure Withholds {τ α : Type} (Bad : Event → Prop) (run : Prog.Run Event Stop τ α) : Prop where
  clear : ∀ a, run.result = .ok a → ∀ e ∈ run.trace, ¬ Bad e
  met : ∀ e ∈ run.trace, Bad e → ∃ error, run.result = err error

theorem Prog.Refuses.withholds {τ α : Type} {Bad : Event → Prop} {S : Stop → Prop} {p : ReadM α}
    (h : p.Refuses Bad S) (hS : ∀ x, S x → x.Typed) (R : (q : ReadReq) → τ → Ans q × τ) (s : τ) :
    Withholds Bad (Prog.exec R p s) := by
  have hrun := Prog.Sat.exec h R s
  constructor
  · intro a ha e he hbad
    obtain ⟨x, hx, -⟩ := hrun ⟨e, he, hbad⟩
    rw [ha] at hx
    cases hx
  · intro e he hbad
    obtain ⟨x, hx, hSx⟩ := hrun ⟨e, he, hbad⟩
    cases x with
    | err error => exact ⟨error, hx⟩
    | fault f => exact absurd (hS _ hSx) id

/-- No ciphertext gets out, over every image and every reader: a file or a link is not read
from a marked extent, a listing holds no marked entry, and a path leads through unmarked
records only; whatever meets a mark ends in an error. -/
theorem ciphertext_withheld {env : Env} (hw : 32 ≤ env.usizeBits) {τ : Type}
    (R : (q : ReadReq) → τ → Ans q × τ) (s : τ) :
    (∀ map geometry fsTreeRoot objectid,
      Withholds (CipherExtent env objectid)
        (Prog.exec R (readFile env map geometry fsTreeRoot objectid) s) ∧
      (∀ offset buf, Withholds (CipherExtent env objectid)
        (Prog.exec R (readFileAt env map geometry fsTreeRoot objectid offset buf) s)) ∧
      (∀ target, (Prog.exec R (readLink env map geometry fsTreeRoot objectid) s).result =
          .ok target → ∃ leaf item,
        LinkTakes env map geometry fsTreeRoot objectid R s leaf item ∧
        isExtentOf objectid item = true ∧ ¬ CipherExtent env objectid (.item leaf item)) ∧
      ∀ leaf item, LinkTakes env map geometry fsTreeRoot objectid R s leaf item →
        CipherExtent env objectid (.item leaf item) →
        ∃ e, (Prog.exec R (readLink env map geometry fsTreeRoot objectid) s).result = err e) ∧
    (∀ trees dir,
      Withholds (CipherEntry env dir.objectid) (Prog.exec R (readDir env trees dir) s) ∧
      ∀ list, (Prog.exec R (readDir env trees dir) s).result = .ok list →
        ∀ e ∈ list, e.kindByte &&& ftEncrypted = 0) ∧
    ∀ trees start path,
      (∀ inode, (Prog.exec R (resolvePath env trees start path) s).result = .ok inode →
        ∃ s', Route env trees R start s path.components inode s') ∧
      ∀ before name after dir s' leaf data entry, path.components = before ++ name :: after →
        Route env trees R start s before dir s' → LookupTakes env trees R dir name s' leaf data →
        LooksAt env data name entry → entry.Marked →
        (Prog.exec R (resolvePath env trees start path) s).result =
          err (.unsupportedFeature "feat_encryption") := by
  -- files, links, listings and paths, each from the refusal of its own walk
  refine ⟨fun map geometry fsTreeRoot objectid => ⟨?_, fun offset buf => ?_, fun target h => ?_,
    fun leaf item htakes h => ?_⟩, fun trees dir => ⟨?_, fun list h => ?_⟩,
    fun trees start path => ⟨fun inode h => ?_,
      fun before name after dir s' leaf data entry hpath hroute htakes hlooks hmarked => ?_⟩⟩
  · exact (readFile_refuses hw).withholds (fun _ hx => hx) R s
  · exact (readFileAt_refuses hw offset buf).withholds (fun _ hx => hx) R s
  · exact readLink_took hw h
  · exact readLink_marked hw htakes h
  · refine readDir_refuses.withholds (fun x hx => ?_) R s
    rw [hx]
    trivial
  · exact readDir_clear.returns R s h
  · exact names_route h
  · unfold resolvePath
    rw [hpath]
    exact hroute.stops hw (lookupInDir_marked hw htakes hlooks hmarked)

/-! ### A marked directory, file and link -/

/-- A search that finds an item is the beginning of a pass that takes it. -/
theorem Walk.mem_trace_run {σ : Type} {env : Env} (h64 : env.usizeBits = 64) {w : Walk σ}
    (hnode : ValidNodesize w.nodesize) {g : (q : ReadReq) → Ans q} {target : DiskKey} {s : σ}
    (hproceed : w.proceed s = true) {block : TreeBlock} {idx : ℕ}
    (hfind : (findFirstGe env (w.chunkMap s) w.nodesize w.root target).run g =
      .ok (some (block, idx)))
    {item : LeafItem} (hitem : block.leafItem env idx = .ok item) :
    .item block item ∈ (w.run env Walk.fuel target s).trace g := by
  obtain ⟨fuel, hfuel⟩ : ∃ fuel, Walk.fuel = fuel + 1 := ⟨2 ^ 136 - 1, rfl⟩
  have hlt := (run_findFirstGe_first h64 hnode w.root g hfind).lt
  obtain ⟨n, hn⟩ : ∃ n, block.header.nritems - idx = n + 1 :=
    ⟨block.header.nritems - idx - 1, by omega⟩
  rw [hfuel, Walk.run, if_pos hproceed]
  refine Prog.mem_trace_bind_right hfind ?_
  dsimp only
  refine Prog.mem_trace_bind_right (run_note_event g _) ?_
  refine Prog.mem_trace_bind_left ?_
  rw [hn, Walk.leaf, hitem, liftM_ok_bind]
  refine Prog.mem_trace_bind_left ?_
  rw [trace_note_event]
  exact List.mem_cons_self

theorem cipherSize_lt : 0x8000 < 2 ^ 64 := by decide

/-- The record of the entry `a20qsr`, with the mark. -/
def cipherEntry (p : ℕ) : List (ℕ × ℕ) := spreadEntry p 257 0x81 0x727371303261

/-- Five bytes inline, with the encryption byte set. -/
def cipherExtent : ℕ × List (ℕ × ℕ) := (26, [(8, 5), (17, 1), (21, 0x6f6c6c6568)])

/-- A directory with a marked entry, which shares its hash with an unmarked one, a file and
a symlink. -/
def cipherItems : List SampleItem :=
  [(⟨256, dirItemKey, 0x1113aca4⟩, 74, spreadLink 0 ++ cipherEntry 38),
   (⟨256, dirIndexKey, 2⟩, 36, cipherEntry 0),
   sampleInode 257 5, (⟨257, extentDataKey, 0⟩, cipherExtent),
   (⟨258, inodeItemKey, 0⟩, 160, [(16, 5), (52, 0o120777)]),
   (⟨258, extentDataKey, 0⟩, cipherExtent)]

def cipherPage : ℕ := image (leafFields 0 4096 4162486070 0x100000 cipherItems)

def cipherVolume : SliceDevice := .ofPages [(1, cipherPage)] 0x8000 cipherSize_lt

/-- A reader of that volume that keeps no state. -/
def cipherReader (q : ReadReq) (_ : Unit) : Ans q × Unit := (cipherVolume.device.answer q, ())

def cipherTrees : Trees where
  chunkMap := sampleMap
  nodesize := 4096
  rootTreeRoot := 0x100000
  validNodesize := sampleNodesize

def cipherDir : Inode := { subvol := 5, treeRoot := 0x100000, objectid := 256 }

set_option maxRecDepth 100000 in
theorem cipher_page : LeafPage referenceEnv cipherPage 0x100000 cipherItems := by decide +kernel

theorem cipher_at : TreeAt (blockAt referenceEnv sampleMap 4096 cipherVolume.device.answer) 0
    (.leaf (pageBlock cipherPage)) 0x100000 :=
  ⟨_, rfl, @blockAt_page _ referenceEnv_usize64 _ _ _ cipherSize_lt 1 _ _ rfl (by decide) rfl
    (And.left cipher_page), LeafPage.level cipher_page⟩

theorem cipher_holds : TreeHolds referenceEnv 0 (.leaf (pageBlock cipherPage))
    (storedItems cipherItems) :=
  LeafPage.holds referenceEnv_usize64 cipher_page

/-- The bytes of the marked extent. -/
def cipherBytes : List UInt8 := leBytes 26 (image cipherExtent.2)

/-- The records of the one hash, and the marked one by itself. -/
def cipherBucket : List UInt8 := leBytes 74 (image (spreadLink 0 ++ cipherEntry 38))

def cipherIndex : List UInt8 := leBytes 36 (image (cipherEntry 0))

def markedEntry : DiskDirEntry where
  location := ⟨257, 1, 0⟩
  dataLen := 0
  nameLen := 6
  ty := 0x81
  name := [97, 50, 48, 113, 115, 114]

def unmarkedEntry : DiskDirEntry where
  location := ⟨258, 1, 0⟩
  dataLen := 2
  nameLen := 6
  ty := 7
  name := [109, 57, 111, 120, 100, 56]

def cipherMetadata (mode : ℕ) : Metadata where
  size := 5
  nbytes := 0
  nlink := 0
  mode := mode
  uid := 0
  gid := 0
  generation := 0

theorem cipher_inodes : ∀ x ∈ [(257, 0o100644), (258, 0o120777)],
    ((storedItems cipherItems).filter fun y =>
        y.1.objectid == x.1 && y.1.itemType == inodeItemKey).map (fun y =>
      (decide (InodeItem.sizeOf ≤ y.2.length), (InodeItem.readAt y.2 0).metadata)) =
        [(true, cipherMetadata x.2)] ∧
    ((storedItems cipherItems).filter fun y =>
      y.1.objectid == x.1 && y.1.itemType == extentDataKey) =
        [(extentsFrom x.1, cipherBytes)] ∧ cipherBytes[17]? = some 1 := by
  decide +kernel

theorem cipher_entries :
    DiskDirEntry.parse referenceEnv cipherIndex 0 = .ok (some (markedEntry, 36)) ∧
    DiskDirEntry.parse referenceEnv cipherBucket 0 = .ok (some (unmarkedEntry, 38)) ∧
    DiskDirEntry.parse referenceEnv cipherBucket 38 = .ok (some (markedEntry, 74)) ∧
    cipherBucket.length = 74 ∧
    ((storedItems cipherItems).filter fun y =>
      y.1.objectid == 256 && y.1.itemType == dirIndexKey) = [(⟨256, dirIndexKey, 2⟩, cipherIndex)] ∧
    ((storedItems cipherItems).filter fun y => y.1.itemType == dirItemKey) =
      [(⟨256, dirItemKey, 0x1113aca4⟩, cipherBucket)] ∧
    nameHash markedEntry.name = 0x1113aca4 := by
  decide +kernel

/-- A search for the data of the file or the symlink finds a marked extent. -/
theorem cipher_extent {x : ℕ × ℕ} (hx : x ∈ [(257, 0o100644), (258, 0o120777)]) :
    ∃ leaf i item, (findFirstGe referenceEnv sampleMap 4096 0x100000 (extentsFrom x.1)).run
        cipherVolume.device.answer = .ok (some (leaf, i)) ∧
      leaf.leafItem referenceEnv i = .ok item ∧
      CipherExtent referenceEnv x.1 (.item leaf item) := by
  obtain ⟨-, hitems, hbyte⟩ := cipher_inodes x hx
  obtain ⟨leaf, i, item, hfind, hitem, hkey, hdata⟩ :=
    TreeHolds.findFirstGe_run cipher_holds referenceEnv_usize64 sampleNodesize
      cipherVolume.device.answer (by decide) cipher_at (congrArg List.head? hitems)
  exact ⟨leaf, i, item, hfind, hitem, isOf_iff.mpr (by rw [hkey]; exact ⟨rfl, rfl⟩), cipherBytes,
    hdata, 1, hbyte, by decide⟩

theorem cipher_metadata {x : ℕ × ℕ} (hx : x ∈ [(257, 0o100644), (258, 0o120777)]) :
    (readMetadata referenceEnv sampleMap 4096 0x100000 x.1).run cipherVolume.device.answer =
      .ok (cipherMetadata x.2) := by
  have hobject : x.1 ≠ emptySubvolDirObjectid := by
    revert x
    decide
  obtain ⟨hinode, -⟩ := cipher_inodes x hx
  exact TreeHolds.readMetadata referenceEnv_usize64 sampleNodesize (by decide) cipher_at
    cipher_holds hobject hinode

/-- What meets a mark there is an error: the reads of the file, the link, the listing and
the path to the marked entry. -/
theorem ciphertext_withheld_sample :
    (∃ error, (Prog.exec cipherReader
      (readFile referenceEnv sampleMap sampleGeometry 0x100000 257) ()).result = err error) ∧
    (∃ error, (Prog.exec cipherReader
      (readFileAt referenceEnv sampleMap sampleGeometry 0x100000 257 2 [7, 7]) ()).result =
        err error) ∧
    (∃ error, (Prog.exec cipherReader
      (readLink referenceEnv sampleMap sampleGeometry 0x100000 258) ()).result = err error) ∧
    (∃ error, (Prog.exec cipherReader
      (readDir referenceEnv cipherTrees cipherDir) ()).result = err error) ∧
    (Prog.exec cipherReader (resolvePath referenceEnv cipherTrees cipherDir
      ⟨0x2f :: markedEntry.name⟩) ()).result =
        err (.unsupportedFeature "feat_encryption") := by
  obtain ⟨hfiles, hdirs, hpaths⟩ :=
    ciphertext_withheld (by decide : 32 ≤ referenceEnv.usizeBits) cipherReader ()
  have hresult : ∀ {α : Type} (p : ReadM α) s, (Prog.exec cipherReader p s).result =
      p.run cipherVolume.device.answer :=
    fun p s => Prog.exec_result_of_answers (R := cipherReader) cipherVolume.device.answer
      (fun _ _ => rfl) p s
  have htrace : ∀ {α : Type} (p : ReadM α), (Prog.exec cipherReader p ()).trace =
      p.trace cipherVolume.device.answer := fun _ => rfl
  have hfile := cipher_metadata (x := (257, 0o100644)) (by decide)
  have hlink := cipher_metadata (x := (258, 0o120777)) (by decide)
  obtain ⟨leaf, i, item, hfind, hitem, hmarked⟩ := cipher_extent (x := (257, 0o100644)) (by decide)
  obtain ⟨hindex, hfirst, hsecond, hlen, hindexed, hbucket, hhash⟩ := cipher_entries
  refine ⟨(hfiles sampleMap sampleGeometry 0x100000 257).1.met (.item leaf item) ?_ hmarked,
    ((hfiles sampleMap sampleGeometry 0x100000 257).2.1 2 [7, 7]).met (.item leaf item) ?_ hmarked,
    ?_, ?_, ?_⟩
  · rw [htrace]
    unfold readFile
    refine Prog.mem_trace_bind_right hfile ?_
    rw [if_neg (by decide)]
    dsimp only
    refine Prog.mem_trace_bind_right (a := 5) (by rfl) ?_
    refine Prog.mem_trace_bind_right (a := ()) (by rfl) ?_
    exact Prog.mem_trace_bind_left (Walk.mem_trace_run
      (w := readFile.walk referenceEnv sampleMap sampleGeometry 0x100000 257
        (cipherMetadata 0o100644).size)
      (s := []) referenceEnv_usize64 sampleNodesize (by decide) hfind hitem)
  · rw [htrace]
    unfold readFileAt
    rw [if_neg (by decide)]
    refine Prog.mem_trace_bind_right hfile ?_
    rw [if_neg (by decide), if_neg (by decide)]
    refine Prog.mem_trace_bind_right (a := 3) (by rfl) ?_
    refine Prog.mem_trace_bind_right (a := 2) (by rfl) ?_
    refine Prog.mem_trace_bind_right (a := ()) (by rfl) ?_
    exact Prog.mem_trace_bind_left (Walk.mem_trace_run
      (w := readFileAt.walk referenceEnv sampleMap sampleGeometry 0x100000 257 2 2)
      (s := []) referenceEnv_usize64 sampleNodesize (by decide) hfind hitem)
  · -- the link
    obtain ⟨leaf, i, item, hfind, hitem, hmarked⟩ :=
      cipher_extent (x := (258, 0o120777)) (by decide)
    refine (hfiles sampleMap sampleGeometry 0x100000 258).2.2.2 leaf item
      ⟨cipherMetadata 0o120777, i, ?_, by decide, ?_, hitem⟩ hmarked
    · exact (hresult _ _).trans hlink
    · exact (hresult _ _).trans hfind
  · -- the listing takes the marked record
    obtain ⟨leaf, i, item, hfind, hitem, hkey, hdata⟩ :=
      TreeHolds.findFirstGe_run cipher_holds referenceEnv_usize64 sampleNodesize
        cipherVolume.device.answer (by decide) cipher_at (congrArg List.head? hindexed)
    have hmarked : CipherEntry referenceEnv cipherDir.objectid (.item leaf item) :=
      ⟨by rw [hkey]; rfl, by rw [hkey], cipherIndex, markedEntry, 36, hdata, hindex, by decide⟩
    refine (hdirs cipherTrees cipherDir).1.met (.item leaf item) ?_ hmarked
    rw [htrace]
    exact Walk.mem_trace_run (w := readDir.walk referenceEnv cipherTrees cipherDir) (s := [])
      referenceEnv_usize64 sampleNodesize rfl hfind hitem
  · -- the path looks at the unmarked record first
    obtain ⟨leaf, i, item, hfind, hitem, hdata⟩ :=
      TreeHolds.findExact_run cipher_holds referenceEnv_usize64 sampleNodesize
        cipherVolume.device.answer (by decide) cipher_at
        (List.mem_of_mem_filter (hbucket ▸ List.mem_cons_self))
    have hlooks : LooksAt referenceEnv cipherBucket markedEntry.name markedEntry :=
      ⟨38, 74, .next .first (by rw [hlen]; decide) hfirst (by decide) (by decide),
        by rw [hlen]; decide, hsecond⟩
    refine (hpaths cipherTrees cipherDir _).2 [] markedEntry.name [] cipherDir () leaf cipherBucket
      markedEntry (by decide) (.nil _ _) ⟨i, item, ?_, hitem, hdata⟩ hlooks (by decide)
    rw [hhash]
    exact (hresult _ _).trans hfind
