/-
What a loaded tree block promises to those who search it.

The one pass over the keys at load time stops at the first index that it cannot read or
that is out of order.  So a block that `read_tree_block` returns answers every index it
announces, with ascending keys (`Indexed`), and the binary searches, which read indices
of their own choosing, neither fail nor miss (`readTreeBlock_searchable`).  All of this
is the same for every pointer width from 32 bits on.
-/
import Lambutter.Width

open Ranges

/-- Every index below `n` can be read, and the keys read ascend. -/
structure Indexed {α : Type} (read : ℕ → Outcome α) (keyOf : α → DiskKey) (n : ℕ)
    (key : ℕ → DiskKey) : Prop where
  reads : ∀ i < n, ∃ a, read i = .ok a ∧ keyOf a = key i
  ascends : ∀ i j, i < j → j < n → key i < key j

/-- A listing of items, read one by one. -/
theorem indexed_of_sorted {α : Type} {read : ℕ → Outcome α} {keyOf : α → DiskKey} {l : List α}
    {key : ℕ → DiskKey} (hkey : ∀ i a, l[i]? = some a → keyOf a = key i)
    (hread : ∀ i a, l[i]? = some a → read i = .ok a)
    (hsorted : l.Pairwise fun x y => keyOf x < keyOf y) : Indexed read keyOf l.length key := by
  refine ⟨fun i hi => ⟨l[i], hread i _ (List.getElem?_eq_getElem hi),
    hkey i _ (List.getElem?_eq_getElem hi)⟩, fun i j hij hj => ?_⟩
  rw [← hkey i l[i] (List.getElem?_eq_getElem (hij.trans hj)),
    ← hkey j l[j] (List.getElem?_eq_getElem hj)]
  exact List.pairwise_iff_getElem.mp hsorted i j (hij.trans hj) hj hij

namespace TreeBlock

variable {env : Env} {b : TreeBlock}

/-- The key of a leaf's item `i`, wherever it lies. -/
def itemKey (b : TreeBlock) (i : ℕ) : DiskKey := (LeafItem.readAt b.body (101 + 25 * i)).key

/-- The key of an interior block's pointer `i`. -/
def ptrKey (b : TreeBlock) (i : ℕ) : DiskKey := (KeyPtr.readAt b.body (101 + 33 * i)).key

theorem itemKey_eq {i : ℕ} {item : LeafItem} (h : b.items[i]? = some item) :
    item.key = b.itemKey i := by
  have hlt : i < b.header.nritems := by
    rw [← b.length_items]
    exact (List.getElem?_eq_some_iff.mp h).1
  rw [getElem?_items hlt] at h
  exact congrArg LeafItem.key (Option.some.inj h).symm

theorem ptrKey_eq {i : ℕ} {kp : KeyPtr} (h : b.keyPtrs[i]? = some kp) : kp.key = b.ptrKey i := by
  have hlt : i < b.header.nritems := by
    rw [← b.length_keyPtrs]
    exact (List.getElem?_eq_some_iff.mp h).1
  rw [getElem?_keyPtrs hlt] at h
  exact congrArg KeyPtr.key (Option.some.inj h).symm

section Accepted

variable (hw : 32 ≤ env.usizeBits) (hb : b.Accepted)

include hw hb

theorem Accepted.leaf_indexed (hl : b.header.level = 0) :
    Indexed (b.leafItem env) LeafItem.key b.header.nritems b.itemKey := by
  rw [← b.length_items]
  refine indexed_of_sorted (fun i item => itemKey_eq) (fun i item hi => ?_) (hb.leaf_sorted hl)
  have hwidth : b.leafItem (env.width env.usizeBits) i = b.leafItem (env.width 64) i :=
    hb.leafItem_width hw (by omega : 32 ≤ 64) hl i
  exact hwidth.trans (hb.leafItem_ok (Env.usizeBits_width env 64) hl hi)

theorem Accepted.node_indexed (hl : b.header.level ≠ 0) :
    Indexed (b.keyPtr env) KeyPtr.key b.header.nritems b.ptrKey := by
  rw [← b.length_keyPtrs]
  refine indexed_of_sorted (fun i kp => ptrKey_eq) (fun i kp hi => ?_) (hb.node_sorted hl)
  have hwidth : b.keyPtr (env.width env.usizeBits) i = b.keyPtr (env.width 64) i :=
    hb.keyPtr_width hw (by omega : 32 ≤ 64) hl i
  exact hwidth.trans (hb.keyPtr_ok (Env.usizeBits_width env 64) hl hi)

/-- The search of a leaf does not fail, and finds the first item at or past the target. -/
theorem Accepted.searchLeaf (hl : b.header.level = 0) (target : DiskKey) :
    ∃ r, binarySearchLeaf env b target = .ok r ∧
      FirstAtLeast b.itemKey b.header.nritems target r := by
  have hwidth : binarySearchLeaf (env.width env.usizeBits) b target =
      binarySearchLeaf (env.width 64) b target :=
    binarySearchLeaf_width hw (by omega : 32 ≤ 64) hb hl target
  refine ⟨_, hwidth.trans (binarySearchLeaf_eq (Env.usizeBits_width env 64) hb hl target), ?_⟩
  rw [← b.length_items]
  exact firstAtLeast_partitionPoint (hb.leaf_sorted hl) (fun i item => itemKey_eq) target

/-- The search of an interior block does not fail, and finds the last pointer at or before
the target, or the first one. -/
theorem Accepted.searchInterior (hl : b.header.level ≠ 0) (hne : b.header.nritems ≠ 0)
    (target : DiskKey) :
    ∃ i, binarySearchInterior env b target = .ok i ∧
      LastAtMost b.ptrKey b.header.nritems target i := by
  have hwidth : binarySearchInterior (env.width env.usizeBits) b target =
      binarySearchInterior (env.width 64) b target :=
    binarySearchInterior_width hw (by omega : 32 ≤ 64) hb hl target
  refine ⟨_, hwidth.trans (binarySearchInterior_eq (Env.usizeBits_width env 64) hb hl hne target),
    ?_⟩
  rw [← b.length_keyPtrs]
  exact lastAtMost_partitionPoint (hb.node_sorted hl) (fun i kp => ptrKey_eq)
    (by rw [b.length_keyPtrs]; omega) target

end Accepted

/-- What a loaded block promises. -/
structure Searchable (env : Env) (logical : ℕ) (b : TreeBlock) : Prop where
  bytenr : b.header.bytenr = logical
  stored : b.header = Header.readAt b.body
  csum : leAt b.header.csum 0 4 = env.checksum (b.body.drop 32)
  leaf : b.header.level = 0 →
    Indexed (b.leafItem env) LeafItem.key b.header.nritems b.itemKey ∧
    ∀ target, ∃ r, binarySearchLeaf env b target = .ok r ∧
      FirstAtLeast b.itemKey b.header.nritems target r
  interior : b.header.level ≠ 0 →
    Indexed (b.keyPtr env) KeyPtr.key b.header.nritems b.ptrKey ∧
    (b.header.nritems ≠ 0 → ∀ target, ∃ i, binarySearchInterior env b target = .ok i ∧
      LastAtMost b.ptrKey b.header.nritems target i)

end TreeBlock

/-- Whatever the reader answers, a block that `read_tree_block` returns carries its own
address and checksum and can be searched. -/
theorem readTreeBlock_searchable {env : Env} (hw : 32 ≤ env.usizeBits) (map : ChunkMap)
    {nodesize : ℕ} (hmin : 4096 ≤ nodesize) (hmax : nodesize ≤ 65536) (logical : ℕ) {σ : Type}
    (R : (q : ReadReq) → σ → Ans q × σ) (s : σ) {b : TreeBlock}
    (h : (Prog.exec R (readTreeBlock env map nodesize logical) s).result = .ok b) :
    b.Searchable env logical := by
  have hwidth : readTreeBlock (env.width env.usizeBits) map nodesize logical =
      readTreeBlock (env.width 64) map nodesize logical :=
    readTreeBlock_width hw (by omega : 32 ≤ 64) ⟨hmin, hmax⟩ logical
  have hchecked := @readTreeBlock_checked _ (Env.usizeBits_width env 64) map _
    (⟨hmin, hmax⟩ : ValidNodesize nodesize) logical
  rw [← hwidth] at hchecked
  obtain ⟨hb, hbytenr, hcsum⟩ := hchecked.returns R s h
  refine ⟨hbytenr, hb.header_eq, ?_, fun hl => ⟨hb.leaf_indexed hw hl, hb.searchLeaf hw hl⟩,
    fun hl => ⟨hb.node_indexed hw hl, hb.searchInterior hw hl⟩⟩
  have hfirst : leAt b.header.csum 0 4 = leAt b.body 0 4 := by
    rw [hb.header_eq]
    show leAt (b.body.take 32) 0 4 = _
    simp [leAt, List.take_take]
  rw [hfirst]
  exact hcsum.symm

/-- The block of the sample volume can be searched. -/
theorem readTreeBlock_searchable_sample : sampleLeaf.Searchable referenceEnv 0x100000 :=
  readTreeBlock_searchable (by decide : 32 ≤ referenceEnv.usizeBits) sampleMap le_rfl (by decide)
    0x100000 (fun q (_ : Unit) => (sampleVolume.device.answer q, ())) () sampleLeaf_read
