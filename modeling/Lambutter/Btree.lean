/-
The B-tree walker: tree blocks, the two binary searches and the two finders.

A block that `read_tree_block` accepts has its keys in strict order and every
item it announces inside its body (`TreeBlock.Accepted`).  From that the binary
searches are partition points, and whatever a reader answers, a finder returns
only leaves it has searched correctly (`findFirstGe_ensures`).
-/
import Lambutter.Checksum
import Lambutter.LogicalReads

open Ranges

/-! ### Tree blocks -/

namespace TreeBlock

variable (env : Env) (b : TreeBlock)

/-- Leaf item at index `i`. -/
def leafItem (i : ℕ) : Outcome LeafItem := do
  if b.header.nritems ≤ i then
    err (.corruptBtree "leaf_item_oob" b.header.bytenr)
  else
    let p ← env.addUsize Header.size (← env.mulUsize i LeafItem.sizeOf)
    if b.body.length < (← env.addUsize p LeafItem.sizeOf) then
      err (.corruptBtree "leaf_item_short" b.header.bytenr)
    else LeafItem.parse b.body p

/-- The data tail of a leaf item. -/
def leafItemData (item : LeafItem) : Outcome (List UInt8) := do
  let start ← env.addUsize Header.size (env.asUsize item.offset)
  let stop ← okOr (checkedAdd env.usizeBits start (env.asUsize item.size))
    (.corruptBtree "item_overflow" b.header.bytenr)
  if b.body.length < stop then err (.corruptBtree "item_oob" b.header.bytenr)
  else slice b.body start stop

/-- Interior key pointer at index `i`. -/
def keyPtr (i : ℕ) : Outcome KeyPtr := do
  if b.header.nritems ≤ i then
    err (.corruptBtree "keyptr_oob" b.header.bytenr)
  else
    let p ← env.addUsize Header.size (← env.mulUsize i KeyPtr.size)
    if b.body.length < (← env.addUsize p KeyPtr.size) then
      err (.corruptBtree "keyptr_short" b.header.bytenr)
    else KeyPtr.parse b.body p

end TreeBlock

/-- The loop of `validate_keys_strictly_ascending`, `n` keys from `i` on. -/
def ascendFrom (key : ℕ → Outcome DiskKey) (disorder : Error) :
    ℕ → ℕ → DiskKey → Outcome Unit
  | 0, _, _ => .ok ()
  | n + 1, i, prev => do
    let cur ← key i
    if cur ≤ prev then err disorder else ascendFrom key disorder n (i + 1) cur

def validateKeysStrictlyAscending (env : Env) (block : TreeBlock) : Outcome Unit :=
  let n := block.header.nritems
  let disorder := .corruptBtree "key_order" block.header.bytenr
  if n < 2 then .ok ()
  else if block.header.level = 0 then do
    let first ← block.leafItem env 0
    ascendFrom (fun i => LeafItem.key <$> block.leafItem env i) disorder (n - 1) 1 first.key
  else do
    let first ← block.keyPtr env 0
    ascendFrom (fun i => KeyPtr.key <$> block.keyPtr env i) disorder (n - 1) 1 first.key

/-- What `read_tree_block` does with the bytes it has assembled. -/
def acceptBlock (env : Env) (logical : ℕ) (body : List UInt8) : Outcome TreeBlock := do
  let header ← okOr (← Header.parse body) (.corruptBtree "header_short" logical)
  let covered ← slice body csumLen body.length
  if ¬ verifyCrc32c env covered header.csum then err (.csumMismatch logical)
  else if header.bytenr ≠ logical then err (.corruptBtree "bytenr_mismatch" logical)
  else
    let block : TreeBlock := { header, body }
    validateKeysStrictlyAscending env block
    return block

def readTreeBlock (env : Env) (map : ChunkMap) (nodesize logical : ℕ) : ReadM TreeBlock := do
  note (.block logical)
  let body ← readBody env map nodesize logical
  acceptBlock env logical body

/-! ### Binary searches -/

/-- The loop both searches run: the first index in `[lo, hi)` that is not `below`. -/
def bisect (env : Env) (below : ℕ → Outcome Bool) : ℕ → ℕ → ℕ → Outcome ℕ
  | 0, _, _ => fault .fuel
  | n + 1, lo, hi =>
    if lo < hi then do
      let width ← env.sub 32 hi lo
      let mid ← env.addU32 lo (width / 2)
      if ← below mid then
        let lo ← env.addU32 mid 1
        bisect env below n lo hi
      else bisect env below n lo mid
    else .ok lo

/-- The index to descend into: the last key pointer at or before the target, or
the first one. -/
def binarySearchInterior (env : Env) (block : TreeBlock) (target : DiskKey) : Outcome ℕ := do
  let n := block.header.nritems
  if n = 0 then err (.corruptBtree "interior_empty" block.header.bytenr)
  else
    let lo ← bisect env (fun i => do
      let kp ← block.keyPtr env i
      return decide (kp.key ≤ target)) (n + 1) 0 n
    return lo - 1

/-- The first item at or after the target. -/
def binarySearchLeaf (env : Env) (block : TreeBlock) (target : DiskKey) :
    Outcome (Option ℕ) := do
  let n := block.header.nritems
  if n = 0 then return none
  let lo ← bisect env (fun i => do
    let item ← block.leafItem env i
    return decide (item.key < target)) (n + 1) 0 n
  return if lo = n then none else some lo

/-! ### Finders -/

section Finders

variable (env : Env) (map : ChunkMap) (nodesize : ℕ)

/-- The loop of `descend_to_leaf`; `depth` is a saturating `u8`. -/
def descendToLeaf.loop (target : DiskKey) :
    ℕ → TreeBlock → Option DiskKey → ℕ → ReadM (TreeBlock × Option DiskKey)
  | 0, _, _, _ => (fault .fuel : Outcome _)
  | n + 1, current, nextKey, depth =>
    if 0 < current.header.level then do
      let depth := min (depth + 1) 255
      if maxTreeDepth < depth then
        (err (.corruptBtree "infinite_recursion" current.header.bytenr) : Outcome Unit)
      if current.header.nritems = 0 then
        (err (.corruptBtree "interior_empty" current.header.bytenr) : Outcome Unit)
      let childIdx ← binarySearchInterior env current target
      let nextIdx ← env.addU32 childIdx 1
      let nextKey ← (if nextIdx < current.header.nritems
        then (fun kp => some kp.key) <$> current.keyPtr env nextIdx
        else .ok nextKey : Outcome _)
      let kp ← current.keyPtr env childIdx
      let child ← readTreeBlock env map nodesize kp.blockptr
      loop target n child nextKey depth
    else pure (current, nextKey)

/-- Descend to the leaf that should contain `target`, and the nearest separator to
the right of the path taken. -/
def descendToLeaf (rootLogical : ℕ) (target : DiskKey) : ReadM (TreeBlock × Option DiskKey) := do
  let root ← readTreeBlock env map nodesize rootLogical
  descendToLeaf.loop env map nodesize target (maxTreeDepth + 1) root none 0

/-- The leaf item with key `target`. -/
def findExact (rootLogical : ℕ) (target : DiskKey) : ReadM (Option (TreeBlock × ℕ)) := do
  let (leaf, _) ← descendToLeaf env map nodesize rootLogical target
  if leaf.header.nritems = 0 then return none
  match ← binarySearchLeaf env leaf target with
  | none => return none
  | some idx => do
    let item ← leaf.leafItem env idx
    return if item.key = target then some (leaf, idx) else none

/-- The check of the leaf a second descent reaches: its first item is past the target. -/
def firstPast (next : TreeBlock) (target : DiskKey) : Outcome Bool :=
  if next.header.nritems = 0 then .ok false
  else do
    let item ← next.leafItem env 0
    return decide (target < item.key)

/-- The first leaf item with key `≥ target`. -/
def findFirstGe (rootLogical : ℕ) (target : DiskKey) : ReadM (Option (TreeBlock × ℕ)) := do
  let (leaf, nextKey) ← descendToLeaf env map nodesize rootLogical target
  match ← binarySearchLeaf env leaf target with
  | some idx => return some (leaf, idx)
  | none =>
    match nextKey with
    | none => return none
    | some nextKey => do
      let (next, _) ← descendToLeaf env map nodesize rootLogical nextKey
      if ← firstPast env next target then return some (next, 0)
      else (err (.corruptBtree "separator_mismatch" next.header.bytenr) : Outcome _)

end Finders

/-! ### Accepted blocks -/

namespace TreeBlock

variable {env : Env} {b : TreeBlock}

/-- The items a leaf announces, wherever they lie. -/
def items (b : TreeBlock) : List LeafItem :=
  (List.range b.header.nritems).map fun i => LeafItem.readAt b.body (101 + 25 * i)

/-- The key pointers an interior block announces. -/
def keyPtrs (b : TreeBlock) : List KeyPtr :=
  (List.range b.header.nritems).map fun i => KeyPtr.readAt b.body (101 + 33 * i)

/-- What `read_tree_block` has checked of a block, at a valid node size. -/
structure Accepted (b : TreeBlock) : Prop where
  header_eq : b.header = Header.readAt b.body
  length_le : b.body.length ≤ maxNodeSize
  leaf_fits : b.header.level = 0 → 101 + 25 * b.header.nritems ≤ b.body.length
  node_fits : b.header.level ≠ 0 → 101 + 33 * b.header.nritems ≤ b.body.length
  leaf_sorted : b.header.level = 0 → b.items.Pairwise fun x y => x.key < y.key
  node_sorted : b.header.level ≠ 0 → b.keyPtrs.Pairwise fun x y => x.key < y.key

theorem length_items (b : TreeBlock) : b.items.length = b.header.nritems := by simp [items]

theorem length_keyPtrs (b : TreeBlock) : b.keyPtrs.length = b.header.nritems := by simp [keyPtrs]

theorem getElem?_items {i : ℕ} (hi : i < b.header.nritems) :
    b.items[i]? = some (LeafItem.readAt b.body (101 + 25 * i)) := by
  simp [items, hi]

theorem getElem?_keyPtrs {i : ℕ} (hi : i < b.header.nritems) :
    b.keyPtrs[i]? = some (KeyPtr.readAt b.body (101 + 33 * i)) := by
  simp [keyPtrs, hi]

theorem leafItem_eq {i : ℕ} (hi : 101 + 25 * i + 25 < 2 ^ env.usizeBits) :
    b.leafItem env i =
      if b.header.nritems ≤ i then err (.corruptBtree "leaf_item_oob" b.header.bytenr)
      else if b.body.length < 101 + 25 * i + 25 then
        err (.corruptBtree "leaf_item_short" b.header.bytenr)
      else .ok (LeafItem.readAt b.body (101 + 25 * i)) := by
  unfold leafItem
  simp only [LeafItem.sizeOf, DiskKey.size, Header.size, Nat.reduceAdd]
  by_cases hn : b.header.nritems ≤ i
  · rw [if_pos hn, if_pos hn]
  · have hp : 101 + i * 25 = 101 + 25 * i := by omega
    rw [if_neg hn, if_neg hn, Env.mulUsize_fits (by omega), Except.ok_bind,
      Env.addUsize_fits (by omega), Except.ok_bind, Env.addUsize_fits (by omega),
      Except.ok_bind, hp]
    by_cases hs : b.body.length < 101 + 25 * i + 25
    · rw [if_pos hs, if_pos hs]
    · rw [if_neg hs, if_neg hs, LeafItem.parse_ok (by omega)]

theorem keyPtr_eq {i : ℕ} (hi : 101 + 33 * i + 33 < 2 ^ env.usizeBits) :
    b.keyPtr env i =
      if b.header.nritems ≤ i then err (.corruptBtree "keyptr_oob" b.header.bytenr)
      else if b.body.length < 101 + 33 * i + 33 then
        err (.corruptBtree "keyptr_short" b.header.bytenr)
      else .ok (KeyPtr.readAt b.body (101 + 33 * i)) := by
  unfold keyPtr
  simp only [KeyPtr.size, DiskKey.size, Header.size, Nat.reduceAdd]
  by_cases hn : b.header.nritems ≤ i
  · rw [if_pos hn, if_pos hn]
  · have hp : 101 + i * 33 = 101 + 33 * i := by omega
    rw [if_neg hn, if_neg hn, Env.mulUsize_fits (by omega), Except.ok_bind,
      Env.addUsize_fits (by omega), Except.ok_bind, Env.addUsize_fits (by omega),
      Except.ok_bind, hp]
    by_cases hs : b.body.length < 101 + 33 * i + 33
    · rw [if_pos hs, if_pos hs]
    · rw [if_neg hs, if_neg hs, KeyPtr.parse_ok (by omega)]

theorem nritems_lt (h : b.header = Header.readAt b.body) : b.header.nritems < 2 ^ 32 := by
  rw [h]
  exact leAt_lt b.body 96 4

namespace Accepted

theorem nritems_lt (h : b.Accepted) : b.header.nritems < 2 ^ 32 := TreeBlock.nritems_lt h.header_eq

/-- Every announced item of an accepted leaf can be read. -/
theorem leafItem_ok (h : b.Accepted) (h64 : env.usizeBits = 64) (hl : b.header.level = 0) {i : ℕ}
    {item : LeafItem} (hi : b.items[i]? = some item) : b.leafItem env i = .ok item := by
  have hlt : i < b.header.nritems := by
    rw [← length_items]
    exact (List.getElem?_eq_some_iff.mp hi).1
  have hn := h.nritems_lt
  have hfit := h.leaf_fits hl
  rw [getElem?_items hlt] at hi
  rw [leafItem_eq (by rw [h64]; omega), if_neg (by omega), if_neg (by omega)]
  exact congrArg _ (Option.some.inj hi)

theorem keyPtr_ok (h : b.Accepted) (h64 : env.usizeBits = 64) (hl : b.header.level ≠ 0) {i : ℕ}
    {kp : KeyPtr} (hi : b.keyPtrs[i]? = some kp) : b.keyPtr env i = .ok kp := by
  have hlt : i < b.header.nritems := by
    rw [← length_keyPtrs]
    exact (List.getElem?_eq_some_iff.mp hi).1
  have hn := h.nritems_lt
  have hfit := h.node_fits hl
  rw [getElem?_keyPtrs hlt] at hi
  rw [keyPtr_eq (by rw [h64]; omega), if_neg (by omega), if_neg (by omega)]
  exact congrArg _ (Option.some.inj hi)

end Accepted

/-- The data a leaf item points at, when it lies inside the block. -/
theorem leafItemData_eq (h64 : env.usizeBits = 64) {item : LeafItem} (ho : item.offset < 2 ^ 32)
    (hs : item.size < 2 ^ 32) :
    b.leafItemData env item =
      if b.body.length < 101 + item.offset + item.size then
        err (.corruptBtree "item_oob" b.header.bytenr)
      else .ok ((b.body.drop (101 + item.offset)).take item.size) := by
  unfold leafItemData
  simp only [Header.size]
  rw [Env.asUsize_eq h64 (by omega), Env.asUsize_eq h64 (by omega),
    Env.addUsize_ok h64 (by omega), Except.ok_bind, h64, checkedAdd, if_pos (by omega), okOr_some,
    Except.ok_bind]
  by_cases hlt : b.body.length < 101 + item.offset + item.size
  · rw [if_pos hlt, if_pos hlt]
  · rw [if_neg hlt, if_neg hlt, slice_ok (Nat.le_add_right _ _) (not_lt.mp hlt),
      Nat.add_sub_cancel_left]

/-- Item data are no longer than a block. -/
theorem Accepted.leafItemData_length (hb : b.Accepted) {item : LeafItem} {data : List UInt8}
    (h : b.leafItemData env item = .ok data) : data.length ≤ maxNodeSize := by
  have hmax := hb.length_le
  unfold leafItemData at h
  obtain ⟨start, -, h⟩ := Except.bind_eq_ok.mp h
  obtain ⟨stop, -, h⟩ := Except.bind_eq_ok.mp h
  split_ifs at h
  · exact absurd h err_ne_ok
  · obtain ⟨-, hstop, hlen, -⟩ := slice_eq_ok h
    omega

theorem item_bounds {item : LeafItem} (h : item ∈ b.items) :
    item.offset < 2 ^ 32 ∧ item.size < 2 ^ 32 ∧ item.key.Bounded := by
  obtain ⟨i, -, rfl⟩ := List.mem_map.mp h
  exact ⟨leAt_lt b.body _ 4, leAt_lt b.body _ 4, DiskKey.readAt_bounded b.body _⟩

theorem leafItemData_safe (h64 : env.usizeBits = 64) {item : LeafItem} (h : item ∈ b.items) :
    Outcome.Safe (b.leafItemData env item) := by
  obtain ⟨ho, hs, -⟩ := item_bounds h
  rw [leafItemData_eq h64 ho hs]
  split_ifs
  · exact Outcome.safe_err _
  · exact Outcome.safe_ok _

end TreeBlock

/-! ### What `read_tree_block` checks -/

/-- The node sizes a validated superblock can name. -/
def ValidNodesize (n : ℕ) : Prop := minNodeSize ≤ n ∧ n ≤ maxNodeSize

/-- `K` lists the keys that `key` reads; a successful pass has read them in order. -/
theorem ascendFrom_ok {key : ℕ → Outcome DiskKey} {K : ℕ → DiskKey} {disorder : Error}
    (hK : ∀ j k, key j = .ok k → k = K j) {n i : ℕ} (hi : 0 < i)
    (h : ascendFrom key disorder n i (K (i - 1)) = .ok ()) :
    ∀ j, i ≤ j → j < i + n → key j = .ok (K j) ∧ K (j - 1) < K j := by
  induction n generalizing i with
  | zero => intro j h1 h2; omega
  | succ n ih =>
    rw [ascendFrom] at h
    obtain ⟨cur, hcur, h⟩ := Except.bind_eq_ok.mp h
    have heq := hK i cur hcur
    subst heq
    split_ifs at h with hle
    · exact absurd h err_ne_ok
    · intro j h1 h2
      by_cases hj : j = i
      · subst hj
        exact ⟨hcur, not_le.mp hle⟩
      · exact ih (Nat.succ_pos i) h j (by omega) (by omega)

theorem ascendFrom_safe {key : ℕ → Outcome DiskKey} (hkey : ∀ i, Outcome.Safe (key i))
    (disorder : Error) (n i : ℕ) (prev : DiskKey) :
    Outcome.Safe (ascendFrom key disorder n i prev) := by
  induction n generalizing i prev with
  | zero => exact Outcome.safe_ok _
  | succ n ih =>
    refine Outcome.Safe.bind (hkey i) fun cur _ => ?_
    split_ifs
    · exact Outcome.safe_err _
    · exact ih _ _

/-- Neighbours in order, all in order. -/
theorem pairwise_of_steps {α κ : Type} [Preorder κ] (key : α → κ) (f : ℕ → α) {n : ℕ}
    (h : ∀ j, 1 ≤ j → j < n → key (f (j - 1)) < key (f j)) :
    ((List.range n).map f).Pairwise fun x y => key x < key y := by
  have hlt : ∀ i j, i < j → j < n → key (f i) < key (f j) := by
    intro i j hij hj
    induction j with
    | zero => omega
    | succ j ih =>
      have hstep : key (f j) < key (f (j + 1)) := h (j + 1) (by omega) hj
      by_cases heq : i = j
      · rwa [heq]
      · exact (ih (by omega) (by omega)).trans hstep
  refine List.pairwise_iff_getElem.mpr fun i j hi hj hij => ?_
  simp only [List.getElem_map, List.getElem_range]
  exact hlt i j hij (by simpa using hj)

section Accept

variable {env : Env} (h64 : env.usizeBits = 64)
include h64

theorem TreeBlock.leafItem_safe {b : TreeBlock} (hn : b.header.nritems < 2 ^ 32) (i : ℕ) :
    Outcome.Safe (b.leafItem env i) := by
  by_cases hi : b.header.nritems ≤ i
  · rw [leafItem, if_pos hi]
    exact Outcome.safe_err _
  · rw [leafItem_eq (by rw [h64]; omega)]
    split_ifs
    · exact Outcome.safe_err _
    · exact Outcome.safe_ok _

theorem TreeBlock.keyPtr_safe {b : TreeBlock} (hn : b.header.nritems < 2 ^ 32) (i : ℕ) :
    Outcome.Safe (b.keyPtr env i) := by
  by_cases hi : b.header.nritems ≤ i
  · rw [keyPtr, if_pos hi]
    exact Outcome.safe_err _
  · rw [keyPtr_eq (by rw [h64]; omega)]
    split_ifs
    · exact Outcome.safe_err _
    · exact Outcome.safe_ok _

theorem validate_safe {b : TreeBlock} (hn : b.header.nritems < 2 ^ 32) :
    Outcome.Safe (validateKeysStrictlyAscending env b) := by
  have hleaf := TreeBlock.leafItem_safe h64 hn
  have hnode := TreeBlock.keyPtr_safe h64 hn
  unfold validateKeysStrictlyAscending
  dsimp only
  split_ifs
  · exact Outcome.safe_ok _
  · exact Outcome.Safe.bind (hleaf 0) fun first _ => ascendFrom_safe
      (fun i => Outcome.Safe.bind (hleaf i) fun _ _ => Outcome.safe_ok _) _ _ _ _
  · exact Outcome.Safe.bind (hnode 0) fun first _ => ascendFrom_safe
      (fun i => Outcome.Safe.bind (hnode i) fun _ _ => Outcome.safe_ok _) _ _ _ _

/-- A key that could be read is the announced one, and lies inside the body. -/
theorem TreeBlock.leafItem_key {b : TreeBlock} {i : ℕ} (hn : b.header.nritems < 2 ^ 32)
    {k : DiskKey} (h : LeafItem.key <$> b.leafItem env i = .ok k) :
    101 + 25 * i + 25 ≤ b.body.length ∧ k = (LeafItem.readAt b.body (101 + 25 * i)).key := by
  by_cases hi : b.header.nritems ≤ i
  · rw [leafItem, if_pos hi] at h
    cases h
  · rw [leafItem_eq (by rw [h64]; omega), if_neg hi] at h
    split_ifs at h
    · cases h
    · cases h
      exact ⟨by omega, rfl⟩

theorem TreeBlock.keyPtr_key {b : TreeBlock} {i : ℕ} (hn : b.header.nritems < 2 ^ 32)
    {k : DiskKey} (h : KeyPtr.key <$> b.keyPtr env i = .ok k) :
    101 + 33 * i + 33 ≤ b.body.length ∧ k = (KeyPtr.readAt b.body (101 + 33 * i)).key := by
  by_cases hi : b.header.nritems ≤ i
  · rw [keyPtr, if_pos hi] at h
    cases h
  · rw [keyPtr_eq (by rw [h64]; omega), if_neg hi] at h
    split_ifs at h
    · cases h
    · cases h
      exact ⟨by omega, rfl⟩

/-- The pass over the keys of a leaf: each of them lies in the body, and they ascend. -/
theorem validate_leaf {b : TreeBlock} (hn : b.header.nritems < 2 ^ 32)
    (hlen : minNodeSize ≤ b.body.length) (hl : b.header.level = 0)
    (h : validateKeysStrictlyAscending env b = .ok ()) :
    101 + 25 * b.header.nritems ≤ b.body.length ∧
      b.items.Pairwise fun x y => x.key < y.key := by
  set f : ℕ → LeafItem := fun i => LeafItem.readAt b.body (101 + 25 * i) with hf
  have hitems : b.items = (List.range b.header.nritems).map f := rfl
  unfold validateKeysStrictlyAscending at h
  dsimp only at h
  by_cases h2 : b.header.nritems < 2
  · have hmin : 4096 ≤ b.body.length := hlen
    exact ⟨by omega, hitems ▸ pairwise_of_steps LeafItem.key f fun j h1 hj => by omega⟩
  · rw [if_neg h2, if_pos hl] at h
    obtain ⟨first, hfirst, h⟩ := Except.bind_eq_ok.mp h
    have hkey : ∀ j k, LeafItem.key <$> b.leafItem env j = .ok k → k = (f j).key :=
      fun j k hk => (TreeBlock.leafItem_key h64 hn hk).2
    have h0 : first.key = (f 0).key := hkey 0 _ (by rw [hfirst]; rfl)
    rw [h0] at h
    have hall := ascendFrom_ok hkey Nat.one_pos h
    refine ⟨?_, hitems ▸ pairwise_of_steps LeafItem.key f fun j h1 hj => (hall j h1 (by omega)).2⟩
    have hlast := (TreeBlock.leafItem_key h64 hn (hall (b.header.nritems - 1) (by omega)
      (by omega)).1).1
    omega

theorem validate_node {b : TreeBlock} (hn : b.header.nritems < 2 ^ 32)
    (hlen : minNodeSize ≤ b.body.length) (hl : b.header.level ≠ 0)
    (h : validateKeysStrictlyAscending env b = .ok ()) :
    101 + 33 * b.header.nritems ≤ b.body.length ∧
      b.keyPtrs.Pairwise fun x y => x.key < y.key := by
  set f : ℕ → KeyPtr := fun i => KeyPtr.readAt b.body (101 + 33 * i) with hf
  have hptrs : b.keyPtrs = (List.range b.header.nritems).map f := rfl
  unfold validateKeysStrictlyAscending at h
  dsimp only at h
  by_cases h2 : b.header.nritems < 2
  · have hmin : 4096 ≤ b.body.length := hlen
    exact ⟨by omega, hptrs ▸ pairwise_of_steps KeyPtr.key f fun j h1 hj => by omega⟩
  · rw [if_neg h2, if_neg hl] at h
    obtain ⟨first, hfirst, h⟩ := Except.bind_eq_ok.mp h
    have hkey : ∀ j k, KeyPtr.key <$> b.keyPtr env j = .ok k → k = (f j).key :=
      fun j k hk => (TreeBlock.keyPtr_key h64 hn hk).2
    have h0 : first.key = (f 0).key := hkey 0 _ (by rw [hfirst]; rfl)
    rw [h0] at h
    have hall := ascendFrom_ok hkey Nat.one_pos h
    refine ⟨?_, hptrs ▸ pairwise_of_steps KeyPtr.key f fun j h1 hj => (hall j h1 (by omega)).2⟩
    have hlast := (TreeBlock.keyPtr_key h64 hn (hall (b.header.nritems - 1) (by omega)
      (by omega)).1).1
    omega

/-- The checks on an assembled block. -/
theorem acceptBlock_ok {logical : ℕ} {body : List UInt8} (hlen : ValidNodesize body.length)
    {b : TreeBlock} (h : acceptBlock env logical body = .ok b) :
    b.Accepted ∧ b.header.bytenr = logical ∧ b.body = body ∧
      env.checksum (body.drop 32) = leAt body 0 4 := by
  have hmin : 4096 ≤ body.length := hlen.1
  have hsz : Header.size = 101 := rfl
  have hcl : csumLen = 32 := rfl
  unfold acceptBlock at h
  rw [Header.parse_eq, if_neg (by omega), Except.ok_bind, okOr_some, Except.ok_bind,
    slice_ok (by omega) le_rfl, Except.ok_bind] at h
  -- the source's checks in its order: checksum, address, then the keys
  by_cases hcsum : ¬ verifyCrc32c env ((body.drop csumLen).take (body.length - csumLen))
      (Header.readAt body).csum = true
  · rw [if_pos hcsum] at h
    exact absurd h err_ne_ok
  rw [if_neg hcsum] at h
  by_cases hbytenr : (Header.readAt body).bytenr ≠ logical
  · rw [if_pos hbytenr] at h
    exact absurd h err_ne_ok
  rw [if_neg hbytenr] at h
  obtain ⟨u, hval, hb⟩ := Except.bind_eq_ok.mp h
  cases hb
  have hn : (Header.readAt body).nritems < 2 ^ 32 := leAt_lt body 96 4
  refine ⟨⟨rfl, hlen.2, fun hl => (validate_leaf h64 hn hmin hl hval).1,
    fun hl => (validate_node h64 hn hmin hl hval).1,
    fun hl => (validate_leaf h64 hn hmin hl hval).2,
    fun hl => (validate_node h64 hn hmin hl hval).2⟩, not_not.mp hbytenr, rfl, ?_⟩
  have hstored : (Header.readAt body).csum = body.take 32 := rfl
  have htake : (body.drop csumLen).take (body.length - csumLen) = body.drop 32 := by
    rw [List.take_of_length_le (by simp)]
  have hfirst : leAt (body.take 32) 0 4 = leAt body 0 4 := by
    simp [leAt, List.take_take]
  rw [verifyCrc32c, hstored, htake, if_neg (by simp; omega), hfirst, beq_iff_eq, not_not] at hcsum
  exact hcsum

theorem acceptBlock_safe (logical : ℕ) {body : List UInt8} (hlen : ValidNodesize body.length) :
    Outcome.Safe (acceptBlock env logical body) := by
  have hmin : 4096 ≤ body.length := hlen.1
  have hsz : Header.size = 101 := rfl
  have hcl : csumLen = 32 := rfl
  unfold acceptBlock
  rw [Header.parse_eq, if_neg (by omega), Except.ok_bind, okOr_some, Except.ok_bind,
    slice_ok (by omega) le_rfl, Except.ok_bind]
  have hn : (Header.readAt body).nritems < 2 ^ 32 := leAt_lt body 96 4
  split_ifs
  · exact Outcome.safe_err _
  · exact Outcome.Safe.bind (validate_safe h64 (b := ⟨Header.readAt body, body⟩) hn)
      fun _ _ => Outcome.safe_ok _
  · exact Outcome.safe_err _

/-- What `read_tree_block` has checked of a block that it returns. -/
theorem readTreeBlock_checked {map : ChunkMap} {nodesize : ℕ} (hnode : ValidNodesize nodesize)
    (logical : ℕ) : Prog.Ensures Stop.Typed (readTreeBlock env map nodesize logical) fun b =>
      b.Accepted ∧ b.header.bytenr = logical ∧
        env.checksum (b.body.drop 32) = leAt b.body 0 4 := by
  have hmax : nodesize ≤ 65536 := hnode.2
  refine Prog.Ensures.bind (P := fun _ => True) trivial fun _ _ => ?_
  rw [readBody_eq (by rw [h64]; omega)]
  refine Prog.Ensures.bind (fetch_ensures _ _ _ _ (Nat.lt_succ_self _)) fun body hbody => ?_
  have hlen : ValidNodesize body.length := by rwa [hbody]
  refine Prog.Ensures.lift (fun b hb => ?_) fun x hx =>
    (acceptBlock_safe h64 logical hlen).typed hx
  obtain ⟨hacc, hbytenr, rfl, hcsum⟩ := acceptBlock_ok h64 hlen hb
  exact ⟨hacc, hbytenr, hcsum⟩

/-- A block that `read_tree_block` returns is accepted and carries its own address. -/
theorem readTreeBlock_ensures {map : ChunkMap} {nodesize : ℕ} (hnode : ValidNodesize nodesize)
    (logical : ℕ) : Prog.Ensures Stop.Typed (readTreeBlock env map nodesize logical) fun b =>
      b.Accepted ∧ b.header.bytenr = logical :=
  (readTreeBlock_checked h64 hnode logical).mono fun _ h => ⟨h.1, h.2.1⟩

end Accept

/-! ### What the binary searches find -/

section Search

variable {env : Env}

theorem bisect_eq {α : Type} {p : α → Bool} {pre post : List α} (hpre : ∀ a ∈ pre, p a = true)
    (hpost : ∀ b ∈ post, ¬ p b = true) (hlen : (pre ++ post).length < 2 ^ 32)
    {below : ℕ → Outcome Bool} (hbelow : ∀ i a, (pre ++ post)[i]? = some a → below i = .ok (p a))
    (n lo hi : ℕ) (hlo : lo ≤ pre.length) (hhi : pre.length ≤ hi) (hhi' : hi ≤ (pre ++ post).length)
    (hn : hi - lo < n) : bisect env below n lo hi = .ok pre.length := by
  induction n generalizing lo hi with
  | zero => omega
  | succ n ih =>
    rw [bisect]
    by_cases hlt : lo < hi
    · rw [if_pos hlt, Env.sub_ok env hlt.le, Except.ok_bind, Env.addU32_ok env (by omega),
        Except.ok_bind]
      set mid := lo + (hi - lo) / 2 with hmid
      have hmidlt : mid < (pre ++ post).length := by omega
      rw [hbelow mid _ (List.getElem?_eq_getElem hmidlt), Except.ok_bind]
      by_cases hside : mid < pre.length
      · have hp : p (pre ++ post)[mid] = true := by
          rw [List.getElem_append_left hside]
          exact hpre _ (List.getElem_mem hside)
        rw [if_pos hp, Env.addU32_ok env (by omega), Except.ok_bind]
        exact ih (mid + 1) hi (by omega) hhi hhi' (by omega)
      · have hp : ¬ p (pre ++ post)[mid] = true := by
          rw [List.getElem_append_right (by omega)]
          exact hpost _ (List.getElem_mem _)
        rw [if_neg hp]
        exact ih lo mid hlo (by omega) (by omega) (by omega)
    · rw [if_neg hlt]
      exact congrArg _ (by omega)

/-- The loop computes the partition point of a sorted list. -/
theorem bisect_partitionPoint {α : Type} {p : α → Bool} {l : List α}
    (hsorted : l.Pairwise fun a b => p b → p a) (hlen : l.length < 2 ^ 32)
    {below : ℕ → Outcome Bool} (hbelow : ∀ i a, l[i]? = some a → below i = .ok (p a)) :
    bisect env below (l.length + 1) 0 l.length = .ok (partitionPoint p l) := by
  obtain ⟨pre, post, rfl, hpos, hpre, hpost⟩ := Ranges.exists_split p hsorted
  rw [hpos]
  exact bisect_eq hpre hpost hlen hbelow _ 0 _ (Nat.zero_le _) (by simp) le_rfl (by omega)

variable {b : TreeBlock}

theorem binarySearchInterior_eq (h64 : env.usizeBits = 64) (h : b.Accepted)
    (hl : b.header.level ≠ 0) (hne : b.header.nritems ≠ 0) (target : DiskKey) :
    binarySearchInterior env b target =
      .ok (partitionPoint (fun kp => decide (kp.key ≤ target)) b.keyPtrs - 1) := by
  unfold binarySearchInterior
  dsimp only
  have hn := h.nritems_lt
  rw [if_neg hne, ← b.length_keyPtrs]
  rw [← b.length_keyPtrs] at hn
  rw [bisect_partitionPoint (p := fun kp => decide (kp.key ≤ target)) ?_ hn ?_]
  · rfl
  · exact (h.node_sorted hl).imp fun hab hb =>
      decide_eq_true (hab.le.trans (of_decide_eq_true hb))
  · intro i kp hi
    rw [h.keyPtr_ok h64 hl hi]
    rfl

theorem binarySearchLeaf_eq (h64 : env.usizeBits = 64) (h : b.Accepted)
    (hl : b.header.level = 0) (target : DiskKey) :
    binarySearchLeaf env b target =
      .ok (let i := partitionPoint (fun x => decide (x.key < target)) b.items
        if i < b.items.length then some i else none) := by
  unfold binarySearchLeaf
  dsimp only
  have hn := h.nritems_lt
  have hle : partitionPoint (fun x => decide (x.key < target)) b.items ≤ b.items.length :=
    (List.takeWhile_sublist _).length_le
  rw [← b.length_items] at hn ⊢
  by_cases h0 : b.items.length = 0
  · rw [if_pos h0, if_neg (by omega)]
    rfl
  · rw [if_neg h0, bisect_partitionPoint (p := fun x => decide (x.key < target)) ?_ hn ?_]
    · show Except.ok _ = _
      by_cases heq : partitionPoint (fun x => decide (x.key < target)) b.items = b.items.length
      · rw [if_pos heq, if_neg (by omega)]
      · rw [if_neg heq, if_pos (by omega)]
    · exact (h.leaf_sorted hl).imp fun hab hb =>
        decide_eq_true (hab.trans (of_decide_eq_true hb))
    · intro i x hi
      rw [h.leafItem_ok h64 hl hi]
      rfl

end Search
