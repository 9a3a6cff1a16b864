/-
Search trees with separators.

A tree of height `n` is a leaf (`n = 0`) or a list of children, each under a
separator key.  The first separator of a node is never compared with what lies
below it; every other one is at most the keys below its own child and above the
keys below the child to its left (`Separated`).  Separators need not be stored
keys.

`descend` follows a target down to a leaf and remembers the nearest separator to
the right of its path, from whatever level.  `firstGe` searches the leaf, and
when the leaf has nothing at or after the target, descends once more to the
remembered separator.  `firstGe_spec`: that is enough to find the least key of
the whole tree at or after the target.
-/
import Lambutter.Ranges

namespace SearchTree

open Ranges

/-- Trees of height `n` with leaves in `Λ` and separators in `κ`. -/
def Tree (κ Λ : Type) : ℕ → Type
  | 0 => Λ
  | n + 1 => List (κ × Tree κ Λ n)

variable {κ Λ ι : Type}

def Tree.leaf (leaf : Λ) : Tree κ Λ 0 := leaf

def Tree.node {n : ℕ} (kids : List (κ × Tree κ Λ n)) : Tree κ Λ (n + 1) := kids

def Tree.kids {n : ℕ} (t : Tree κ Λ (n + 1)) : List (κ × Tree κ Λ n) := t

/-- The leaves, left to right. -/
def leaves : (n : ℕ) → Tree κ Λ n → List Λ
  | 0, leaf => [leaf]
  | n + 1, t => t.kids.flatMap fun kid => leaves n kid.2

theorem leaves_leaf (leaf : Λ) : leaves 0 (.leaf leaf : Tree κ Λ 0) = [leaf] := rfl

theorem leaves_node {n : ℕ} (kids : List (κ × Tree κ Λ n)) :
    leaves (n + 1) (.node kids) = kids.flatMap fun kid => leaves n kid.2 := rfl

theorem Tree.eq_leaf (t : Tree κ Λ 0) : ∃ leaf, t = .leaf leaf := ⟨t, rfl⟩

theorem Tree.eq_node {n : ℕ} (t : Tree κ Λ (n + 1)) : ∃ kids, t = .node kids := ⟨t, rfl⟩

section Items

variable (items : Λ → List ι) (key : ι → κ)

/-- The items of all leaves, left to right. -/
def allItems (n : ℕ) (t : Tree κ Λ n) : List ι := (leaves n t).flatMap items

variable [LinearOrder κ]

/-- What a separator says about the child to its left and its own child. -/
def Separates {n : ℕ} (a b : κ × Tree κ Λ n) : Prop :=
  (∀ x ∈ allItems items n a.2, key x < b.1) ∧ ∀ x ∈ allItems items n b.2, b.1 ≤ key x

/-- Separators ascend and separate, and below a node no leaf is empty. -/
def Separated : (n : ℕ) → Tree κ Λ n → Prop
  | 0, _ => True
  | n + 1, t =>
    t.kids ≠ [] ∧ t.kids.Pairwise (fun a b => a.1 < b.1) ∧
      t.kids.IsChain (Separates items key) ∧
      ∀ kid ∈ t.kids, Separated n kid.2 ∧ ∀ leaf ∈ leaves n kid.2, items leaf ≠ []

theorem separated_node {n : ℕ} {kids : List (κ × Tree κ Λ n)} :
    Separated items key (n + 1) (.node kids) ↔
      kids ≠ [] ∧ kids.Pairwise (fun a b => a.1 < b.1) ∧
        kids.IsChain (Separates items key) ∧
        ∀ kid ∈ kids, Separated items key n kid.2 ∧ ∀ leaf ∈ leaves n kid.2, items leaf ≠ [] :=
  Iff.rfl

/-- The leaf a descent reaches, and the nearest separator right of the path. -/
def descend : (n : ℕ) → Tree κ Λ n → κ → Option κ → Option (Λ × Option κ)
  | 0, leaf, _, next => some (leaf, next)
  | n + 1, t, target, next =>
    let i := partitionPoint (fun kid => decide (kid.1 ≤ target)) t.kids - 1
    match t.kids[i]? with
    | none => none
    | some kid => descend n kid.2 target ((t.kids[i + 1]?.map Prod.fst).or next)

theorem descend_leaf (leaf : Λ) (target : κ) (next : Option κ) :
    descend 0 (.leaf leaf) target next = some (leaf, next) := rfl

theorem descend_kid {n : ℕ} {kids : List (κ × Tree κ Λ n)} {target : κ} {i : ℕ}
    (hi : partitionPoint (fun kid => decide (kid.1 ≤ target)) kids - 1 = i)
    {kid : κ × Tree κ Λ n} (hkid : kids[i]? = some kid) (next : Option κ) :
    descend (n + 1) (.node kids) target next =
      descend n kid.2 target ((kids[i + 1]?.map Prod.fst).or next) := by
  rw [descend]
  simp only [Tree.kids, Tree.node, hi, hkid]

/-- The first item at or after the target, as its leaf and its place there. -/
def firstGe (n : ℕ) (t : Tree κ Λ n) (target : κ) : Option (Λ × ℕ) := do
  let (leaf, next) ← descend n t target none
  let i := partitionPoint (fun x => decide (key x < target)) (items leaf)
  if i < (items leaf).length then return (leaf, i)
  let next ← next
  let (leaf, _) ← descend n t next none
  return (leaf, 0)

end Items

-- from here on the lemmas above are the only way into a tree
attribute [irreducible] Tree.leaf Tree.node

/-! ### Descents -/

section Descend

variable [LinearOrder κ] {items : Λ → List ι} {key : ι → κ} {n : ℕ}

/-- A node's descent goes to the last child whose separator is at or before the
target, and to the first child when there is none. -/
theorem descend_node {before after : List (κ × Tree κ Λ n)} {kid : κ × Tree κ Λ n} {target : κ}
    (hsorted : (before ++ kid :: after).Pairwise fun a b => a.1 < b.1)
    (hkid : before ≠ [] → kid.1 ≤ target) (hafter : ∀ b ∈ after, target < b.1)
    (next : Option κ) :
    descend (n + 1) (.node (before ++ kid :: after)) target next =
      descend n kid.2 target ((after.head?.map Prod.fst).or next) := by
  have hi : partitionPoint (fun kid => decide (kid.1 ≤ target)) (before ++ kid :: after) - 1 =
      before.length := by
    have hneg : ∀ b ∈ after, ¬ decide (b.1 ≤ target) = true := by
      intro b hb
      simpa using hafter b hb
    -- the partition point lies right behind the child, or at 0 when it is the first and too big
    by_cases hle : kid.1 ≤ target
    · have hpos : ∀ a ∈ before ++ [kid], decide (a.1 ≤ target) = true := by
        intro a ha
        rcases List.mem_append.mp ha with ha | ha
        · have hlt : a.1 < kid.1 := (List.pairwise_append.mp hsorted).2.2 a ha kid (by simp)
          exact decide_eq_true (hlt.le.trans hle)
        · rw [List.mem_singleton.mp ha]
          exact decide_eq_true hle
      have hsplit : before ++ kid :: after = (before ++ [kid]) ++ after := by simp
      rw [hsplit, partitionPoint_append hpos hneg]
      simp
    · have hnil : before = [] := by
        by_contra hne
        exact hle (hkid hne)
      have hall : ∀ b ∈ kid :: after, ¬ decide (b.1 ≤ target) = true := by
        intro b hb
        rcases List.mem_cons.mp hb with rfl | hb
        · simpa using hle
        · exact hneg b hb
      rw [hnil, partitionPoint_append (by simp) hall]
      rfl
  have hget : (before ++ kid :: after)[before.length]? = some kid := getElem?_length _ _
  have hget' : (before ++ kid :: after)[before.length + 1]? = after.head? := by
    rw [List.getElem?_append_right (by omega), List.head?_eq_getElem?]
    simp
  rw [descend_kid hi hget, hget']

/-- The split of a node's children at a target. -/
theorem exists_child {kids : List (κ × Tree κ Λ n)} (hne : kids ≠ [])
    (hsorted : kids.Pairwise fun a b => a.1 < b.1) (target : κ) :
    ∃ before kid after, kids = before ++ kid :: after ∧ (before ≠ [] → kid.1 ≤ target) ∧
      ∀ b ∈ after, target < b.1 := by
  obtain ⟨pre, post, rfl, -, hpre, hpost⟩ := Ranges.exists_split
    (fun kid : κ × Tree κ Λ n => decide (kid.1 ≤ target))
    (hsorted.imp fun hab hb => decide_eq_true (hab.le.trans (of_decide_eq_true hb)))
  have hlt : ∀ b ∈ post, target < b.1 := fun b hb => by simpa using hpost b hb
  rcases List.eq_nil_or_concat pre with rfl | ⟨before, kid, rfl⟩
  · cases post with
    | nil => exact absurd rfl hne
    | cons kid after =>
      exact ⟨[], kid, after, rfl, fun h => absurd rfl h, fun b hb => hlt b (by simp [hb])⟩
  · exact ⟨before, kid, post, by simp, fun _ => of_decide_eq_true (hpre kid (by simp)), hlt⟩

omit [LinearOrder κ] in
theorem allItems_ne_nil {t : Tree κ Λ n} (hleaves : leaves n t ≠ [])
    (hne : ∀ leaf ∈ leaves n t, items leaf ≠ []) : allItems items n t ≠ [] := by
  intro h
  obtain ⟨leaf, hleaf⟩ := List.exists_mem_of_ne_nil _ hleaves
  exact hne leaf hleaf (List.flatMap_eq_nil_iff.mp h leaf hleaf)

theorem Separated.leaves_ne_nil {t : Tree κ Λ n} (h : Separated items key n t) :
    leaves n t ≠ [] := by
  induction n with
  | zero =>
    obtain ⟨l, rfl⟩ := t.eq_leaf
    simp [leaves_leaf]
  | succ n ih =>
    obtain ⟨kids, rfl⟩ := t.eq_node
    obtain ⟨hne, -, -, hkids⟩ := (separated_node items key).mp h
    obtain ⟨kid, hkid⟩ := List.exists_mem_of_ne_nil _ hne
    rw [leaves_node]
    intro hnil
    exact ih (hkids kid hkid).1 (List.flatMap_eq_nil_iff.mp hnil kid hkid)

/-- Only the one leaf of a tree of a single leaf may be empty. -/
theorem Separated.leaf_ne_nil {t : Tree κ Λ n} (h : Separated items key n t)
    (hlen : 1 < (leaves n t).length) {leaf : Λ} (hleaf : leaf ∈ leaves n t) :
    items leaf ≠ [] := by
  cases n with
  | zero =>
    obtain ⟨l, rfl⟩ := t.eq_leaf
    simp [leaves_leaf] at hlen
  | succ n =>
    obtain ⟨kids, rfl⟩ := t.eq_node
    obtain ⟨-, -, -, hkids⟩ := (separated_node items key).mp h
    rw [leaves_node] at hleaf
    obtain ⟨kid, hkid, hleaf⟩ := List.mem_flatMap.mp hleaf
    exact (hkids kid hkid).2 leaf hleaf

/-- Below a node every child has an item. -/
theorem Separated.allItems_ne_nil {kids : List (κ × Tree κ Λ n)}
    (h : Separated items key (n + 1) (.node kids)) {kid : κ × Tree κ Λ n} (hkid : kid ∈ kids) :
    allItems items n kid.2 ≠ [] := by
  obtain ⟨-, -, -, hkids⟩ := (separated_node items key).mp h
  exact SearchTree.allItems_ne_nil (hkids kid hkid).1.leaves_ne_nil (hkids kid hkid).2

theorem Separated.tail {a : κ × Tree κ Λ n} {kids : List (κ × Tree κ Λ n)} (hne : kids ≠ [])
    (h : Separated items key (n + 1) (.node (a :: kids))) :
    Separated items key (n + 1) (.node kids) := by
  obtain ⟨-, hsorted, hchain, hkids⟩ := (separated_node items key).mp h
  exact (separated_node items key).mpr ⟨hne, hsorted.of_cons, hchain.of_cons,
    fun kid hkid => hkids kid (List.mem_cons_of_mem a hkid)⟩

/-- Separators bound all children to their left and, but for the first, their own. -/
theorem Separated.bounds {before after : List (κ × Tree κ Λ n)} {kid : κ × Tree κ Λ n}
    (h : Separated items key (n + 1) (.node (before ++ kid :: after))) :
    (∀ a ∈ before, ∀ x ∈ allItems items n a.2, key x < kid.1) ∧
      (before ≠ [] → ∀ x ∈ allItems items n kid.2, kid.1 ≤ key x) := by
  obtain ⟨-, hsorted, hchain, -⟩ := (separated_node items key).mp h
  induction before with
  | nil => exact ⟨by simp, fun hne => absurd rfl hne⟩
  | cons a before ih =>
    obtain ⟨hbefore, hown⟩ := ih (h.tail (by simp)) hsorted.of_cons hchain.of_cons
    have hfirst : (∀ x ∈ allItems items n a.2, key x < kid.1) ∧
        (before = [] → ∀ x ∈ allItems items n kid.2, kid.1 ≤ key x) := by
      cases before with
      | nil =>
        have hsep : Separates items key a kid := (List.isChain_cons_cons.mp hchain).1
        exact ⟨hsep.1, fun _ => hsep.2⟩
      | cons b before =>
        have hsep : Separates items key a b := (List.isChain_cons_cons.mp hchain).1
        have hlt : b.1 < kid.1 :=
          (List.pairwise_append.mp hsorted.of_cons).2.2 b (by simp) kid (by simp)
        exact ⟨fun x hx => (hsep.1 x hx).trans hlt, fun hnil => by cases hnil⟩
    refine ⟨fun c hc => ?_, fun _ => ?_⟩
    · rcases List.mem_cons.mp hc with rfl | hc
      · exact hfirst.1
      · exact hbefore c hc
    · by_cases hnil : before = []
      · exact hfirst.2 hnil
      · exact hown hnil

/-- A target at or before everything leads to the leftmost leaf. -/
theorem descend_leftmost {t : Tree κ Λ n} (h : Separated items key n t) {target : κ}
    (htarget : ∀ x ∈ allItems items n t, target ≤ key x) (next : Option κ) :
    ∃ leaf rest next', leaves n t = leaf :: rest ∧
      descend n t target next = some (leaf, next') := by
  induction n generalizing next with
  | zero =>
    obtain ⟨l, rfl⟩ := t.eq_leaf
    exact ⟨l, [], next, leaves_leaf l, descend_leaf l target next⟩
  | succ n ih =>
    obtain ⟨kids, rfl⟩ := t.eq_node
    obtain ⟨hne, hsorted, hchain, hkids⟩ := (separated_node items key).mp h
    cases kids with
    | nil => exact absurd rfl hne
    | cons kid after =>
      -- the items of the first child are before the other separators
      have hafter : ∀ b ∈ after, target < b.1 := by
        intro b hb
        obtain ⟨pre, post, rfl⟩ := List.append_of_mem hb
        obtain ⟨x, hx⟩ := List.exists_mem_of_ne_nil _ (h.allItems_ne_nil (by simp : kid ∈ _))
        have hall : x ∈ allItems items (n + 1) (.node (kid :: (pre ++ b :: post))) := by
          rw [allItems, leaves_node, List.flatMap_cons, List.flatMap_append]
          exact List.mem_append_left _ hx
        have hbound := (@Separated.bounds _ _ _ _ _ _ _ (kid :: pre) _ _ h).1 kid (by simp) x hx
        exact (htarget x hall).trans_lt hbound
      obtain ⟨leaf, rest, next', hleaves, hdesc⟩ := ih (hkids kid (by simp)).1 (fun x hx => by
          refine htarget x ?_
          rw [allItems, leaves_node, List.flatMap_cons, List.flatMap_append]
          exact List.mem_append_left _ hx) ((after.head?.map Prod.fst).or next)
      refine ⟨leaf, rest ++ after.flatMap fun kid => leaves n kid.2, next', ?_, ?_⟩
      · rw [leaves_node, List.flatMap_cons, hleaves, List.cons_append]
      · exact (@descend_node _ _ _ _ [] _ _ _ hsorted (fun hnil => absurd rfl hnil) hafter
          next).trans
          hdesc

/-- Where a descent ends: every item to the left is before the target, and the
remembered separator is what leads to the next leaf. -/
structure Reaches (items : Λ → List ι) (key : ι → κ) (n : ℕ) (t : Tree κ Λ n) (target : κ)
    (next : Option κ) (pre : List Λ) (leaf : Λ) (post : List Λ) : Prop where
  split : leaves n t = pre ++ leaf :: post
  left : ∀ x ∈ pre.flatMap items, key x < target
  last : post = [] → descend n t target next = some (leaf, next)
  more : ∀ after rest, post = after :: rest → ∃ sep,
    descend n t target next = some (leaf, some sep) ∧ target < sep ∧
    (∀ x ∈ items leaf, key x < sep) ∧ (∀ x ∈ post.flatMap items, sep ≤ key x) ∧
    ∀ next', ∃ next'', descend n t sep next' = some (after, next'')

theorem exists_reaches {t : Tree κ Λ n} (h : Separated items key n t) (target : κ)
    (next : Option κ) : ∃ pre leaf post, Reaches items key n t target next pre leaf post := by
  induction n generalizing next with
  | zero =>
    obtain ⟨l, rfl⟩ := t.eq_leaf
    exact ⟨[], l, [], leaves_leaf l, by simp, fun _ => descend_leaf l target next,
      fun _ _ h => by cases h⟩
  | succ n ih =>
    obtain ⟨kids, rfl⟩ := t.eq_node
    obtain ⟨hne, hsorted, hchain, hkids⟩ := (separated_node items key).mp h
    obtain ⟨before, kid, after, rfl, hkid, hafter⟩ := exists_child hne hsorted target
    have hdesc := descend_node hsorted hkid hafter next
    obtain ⟨pre, leaf, post, hr⟩ :=
      ih (hkids kid (by simp)).1 ((after.head?.map Prod.fst).or next)
    obtain ⟨hbefore, hown⟩ := h.bounds
    have hleft : ∀ x ∈ (before.flatMap fun kid => leaves n kid.2).flatMap items,
        key x < kid.1 ∧ kid.1 ≤ target := by
      intro x hx
      rw [List.flatMap_assoc] at hx
      obtain ⟨a, ha, hx⟩ := List.mem_flatMap.mp hx
      exact ⟨hbefore a ha x hx, hkid (List.ne_nil_of_mem ha)⟩
    refine ⟨(before.flatMap fun kid => leaves n kid.2) ++ pre, leaf,
      post ++ after.flatMap fun kid => leaves n kid.2, ?_, ?_, ?_, ?_⟩
    · rw [leaves_node, List.flatMap_append, List.flatMap_cons, hr.split]
      simp
    · intro x hx
      rw [List.flatMap_append] at hx
      rcases List.mem_append.mp hx with hx | hx
      · exact (hleft x hx).1.trans_le (hleft x hx).2
      · exact hr.left x hx
    · intro hnil
      obtain ⟨hpost, hrest⟩ := List.append_eq_nil_iff.mp hnil
      have hnone : after = [] := by
        by_contra hafterne
        obtain ⟨b, hb⟩ := List.exists_mem_of_ne_nil _ hafterne
        exact (hkids b (by simp [hb])).1.leaves_ne_nil
          (List.flatMap_eq_nil_iff.mp hrest b hb)
      subst hnone
      rw [hdesc, hr.last hpost]
      rfl
    · intro nextLeaf rest hcons
      cases post with
      | cons nextLeaf' post =>
        -- the next leaf hangs below the same child
        obtain ⟨rfl, rfl⟩ := List.cons.inj hcons
        obtain ⟨sep, hdesc', hlt, hleaf, hpost, hagain⟩ := hr.more nextLeaf' post rfl
        have hleafItems : items nextLeaf' ≠ [] := by
          refine (hkids kid (by simp)).2 nextLeaf' ?_
          rw [hr.split]
          simp
        obtain ⟨y, hy⟩ := List.exists_mem_of_ne_nil _ hleafItems
        have hyKid : y ∈ allItems items n kid.2 := by
          rw [allItems, hr.split]
          exact List.mem_flatMap.mpr ⟨nextLeaf', by simp, hy⟩
        have hsepAfter : ∀ b ∈ after, sep < b.1 := by
          intro b hb
          obtain ⟨mid, tail, rfl⟩ := List.append_of_mem hb
          have hsplit : before ++ kid :: (mid ++ b :: tail) = (before ++ kid :: mid) ++ b :: tail :=
            by simp
          have hb := h
          rw [hsplit] at hb
          have hyb := hb.bounds.1 kid (by simp) y hyKid
          exact (hpost y (List.mem_flatMap.mpr ⟨nextLeaf', by simp, hy⟩)).trans_lt hyb
        refine ⟨sep, by rw [hdesc, hdesc'], hlt, hleaf, ?_, fun next' => ?_⟩
        · intro x hx
          rw [List.flatMap_append] at hx
          rcases List.mem_append.mp hx with hx | hx
          · exact hpost x hx
          · rw [List.flatMap_assoc] at hx
            obtain ⟨b, hb, hxb⟩ := List.mem_flatMap.mp hx
            obtain ⟨mid, tail, rfl⟩ := List.append_of_mem hb
            have hsplit : before ++ kid :: (mid ++ b :: tail) =
                (before ++ kid :: mid) ++ b :: tail := by simp
            have hb' := h
            rw [hsplit] at hb'
            exact (hsepAfter b hb).le.trans (hb'.bounds.2 (by simp) x hxb)
        · rw [descend_node hsorted (fun hb => (hkid hb).trans hlt.le) hsepAfter]
          exact hagain _
      | nil =>
        -- the next leaf is the first one of the next child
        cases after with
        | nil => cases hcons
        | cons kid' after =>
          have hkid'mem : kid' ∈ before ++ kid :: kid' :: after := by simp
          have hsplit : before ++ kid :: kid' :: after = (before ++ [kid]) ++ kid' :: after := by
            simp
          have h' := h
          rw [hsplit] at h'
          obtain ⟨hbefore', hown'⟩ := h'.bounds
          have hown' := hown' (by simp)
          obtain ⟨leaf', rest', next₁, hleaves', -⟩ :=
            descend_leftmost (hkids kid' hkid'mem).1 hown' none
          have hnext : nextLeaf = leaf' := by
            rw [List.nil_append, List.flatMap_cons, hleaves'] at hcons
            exact (List.cons.inj hcons).1.symm
          subst hnext
          have hsorted' := hsorted
          rw [hsplit] at hsorted'
          have hafter' : ∀ b ∈ after, kid'.1 < b.1 :=
            (List.pairwise_cons.mp (List.pairwise_append.mp hsorted').2.1).1
          refine ⟨kid'.1, ?_, hafter kid' (by simp), ?_, ?_, fun next' => ?_⟩
          · rw [hdesc, hr.last rfl]
            rfl
          · intro x hx
            refine hbefore' kid (by simp) x ?_
            rw [allItems, hr.split]
            exact List.mem_flatMap.mpr ⟨leaf, by simp, hx⟩
          · intro x hx
            rw [List.nil_append, List.flatMap_assoc] at hx
            obtain ⟨b, hb, hxb⟩ := List.mem_flatMap.mp hx
            rcases List.mem_cons.mp hb with rfl | hb
            · exact hown' x hxb
            · obtain ⟨mid, tail, rfl⟩ := List.append_of_mem hb
              have hsplit' : before ++ kid :: kid' :: (mid ++ b :: tail) =
                  (before ++ kid :: kid' :: mid) ++ b :: tail := by simp
              have hb' := h
              rw [hsplit'] at hb'
              exact (hafter' b hb).le.trans (hb'.bounds.2 (by simp) x hxb)
          · obtain ⟨leaf₂, rest₂, next₂, hleaves₂, hdesc₂⟩ := descend_leftmost
              (hkids kid' hkid'mem).1 hown' ((after.head?.map Prod.fst).or next')
            rw [hleaves'] at hleaves₂
            obtain ⟨rfl, rfl⟩ := List.cons.inj hleaves₂
            refine ⟨next₂, ?_⟩
            rw [hsplit, descend_node hsorted' (fun _ => le_rfl) hafter', hdesc₂]

/-! ### The search -/

/-- The children of a node follow one another in key order. -/
theorem Separated.cross {kids : List (κ × Tree κ Λ n)}
    (h : Separated items key (n + 1) (.node kids)) :
    kids.Pairwise fun a b => ∀ x ∈ allItems items n a.2, ∀ y ∈ allItems items n b.2,
      key x < key y := by
  induction kids with
  | nil => exact List.Pairwise.nil
  | cons a kids ih =>
    refine List.pairwise_cons.mpr ⟨fun b hb x hx y hy => ?_, ?_⟩
    · obtain ⟨mid, tail, rfl⟩ := List.append_of_mem hb
      obtain ⟨hbefore, hown⟩ := @Separated.bounds _ _ _ _ _ _ _ (a :: mid) _ _ h
      exact (hbefore a (by simp) x hx).trans_le (hown (by simp) y hy)
    · by_cases hne : kids = []
      · rw [hne]
        exact List.Pairwise.nil
      · exact ih (h.tail hne)

/-- The items of a tree with sorted leaves are sorted. -/
theorem Separated.sorted {t : Tree κ Λ n} (h : Separated items key n t)
    (hleaves : ∀ leaf ∈ leaves n t, (items leaf).Pairwise fun x y => key x < key y) :
    (allItems items n t).Pairwise fun x y => key x < key y := by
  induction n with
  | zero =>
    obtain ⟨l, rfl⟩ := t.eq_leaf
    rw [allItems, leaves_leaf, List.flatMap_singleton]
    exact hleaves l (by simp [leaves_leaf])
  | succ n ih =>
    obtain ⟨kids, rfl⟩ := t.eq_node
    obtain ⟨-, -, -, hkids⟩ := (separated_node items key).mp h
    rw [allItems, leaves_node, List.flatMap_assoc]
    refine List.pairwise_flatMap.mpr ⟨fun kid hkid => ih (hkids kid hkid).1 fun leaf hleaf => ?_,
      h.cross⟩
    refine hleaves leaf ?_
    rw [leaves_node]
    exact List.mem_flatMap.mpr ⟨kid, hkid, hleaf⟩

/-- A leaf splits at a target. -/
theorem leaf_split {l : List ι} (hsorted : l.Pairwise fun x y => key x < key y) (target : κ) :
    ∃ low high, l = low ++ high ∧
      partitionPoint (fun x => decide (key x < target)) l = low.length ∧
      (∀ x ∈ low, key x < target) ∧ ∀ x ∈ high, target ≤ key x := by
  obtain ⟨low, high, rfl, hpos, hlow, hhigh⟩ := Ranges.exists_split
    (fun x => decide (key x < target))
    (hsorted.imp fun hxy hy => decide_eq_true (hxy.trans (of_decide_eq_true hy)))
  exact ⟨low, high, rfl, hpos, fun x hx => of_decide_eq_true (hlow x hx),
    fun x hx => by simpa using hhigh x hx⟩

/-- The search finds the first item of the tree at or after the target: everything
before it is smaller, and there is no such item only when the search says so. -/
theorem firstGe_spec {t : Tree κ Λ n} (h : Separated items key n t)
    (hleaves : ∀ leaf ∈ leaves n t, (items leaf).Pairwise fun x y => key x < key y)
    (target : κ) :
    match firstGe items key n t target with
    | none => ∀ x ∈ allItems items n t, key x < target
    | some (leaf, i) => ∃ pre post low x high, leaves n t = pre ++ leaf :: post ∧
        items leaf = low ++ x :: high ∧ i = low.length ∧ target ≤ key x ∧
        ∀ y ∈ pre.flatMap items ++ low, key y < target := by
  obtain ⟨pre, leaf, post, hr⟩ := exists_reaches h target none
  have hsorted := hleaves leaf (by rw [hr.split]; simp)
  obtain ⟨low, high, hitems, hpos, hlow, hhigh⟩ := leaf_split hsorted target
  have hbefore : ∀ y ∈ pre.flatMap items ++ low, key y < target := by
    intro y hy
    rcases List.mem_append.mp hy with hy | hy
    · exact hr.left y hy
    · exact hlow y hy
  -- the leaf holds such an item, or it is the first of the next leaf
  cases high with
  | cons x high =>
    have hfound : firstGe items key n t target = some (leaf, low.length) := by
      have hlt : low.length < (items leaf).length := by rw [hitems]; simp
      have hdesc : ∃ next, descend n t target none = some (leaf, next) := by
        cases post with
        | nil => exact ⟨none, hr.last rfl⟩
        | cons after rest =>
          obtain ⟨sep, hdesc, -⟩ := hr.more after rest rfl
          exact ⟨some sep, hdesc⟩
      obtain ⟨next, hdesc⟩ := hdesc
      simp [firstGe, hdesc, hpos, hlt]
    rw [hfound]
    exact ⟨pre, post, low, x, high, hr.split, hitems, rfl, hhigh x (by simp), hbefore⟩
  | nil =>
    rw [List.append_nil] at hitems
    have hnot : ¬ low.length < (items leaf).length := by rw [hitems]; exact lt_irrefl _
    cases post with
    | nil =>
      have hnone : firstGe items key n t target = none := by
        simp [firstGe, hr.last rfl, hpos, hnot]
      rw [hnone]
      intro y hy
      rw [allItems, hr.split, List.flatMap_append, List.flatMap_singleton, hitems] at hy
      exact hbefore y hy
    | cons after rest =>
      obtain ⟨sep, hdesc, hlt, hleaf, hpost, hagain⟩ := hr.more after rest rfl
      obtain ⟨next', hagain⟩ := hagain none
      have hfound : firstGe items key n t target = some (after, 0) := by
        simp [firstGe, hdesc, hpos, hnot, hagain]
      rw [hfound]
      -- no leaf is empty but a lone root, so that item exists
      have hne : items after ≠ [] := by
        refine h.leaf_ne_nil ?_ (by rw [hr.split]; simp)
        rw [hr.split, List.length_append, List.length_cons, List.length_cons]
        omega
      obtain ⟨x, high, hx⟩ := List.exists_cons_of_ne_nil hne
      refine ⟨pre ++ [leaf], rest, [], x, high, ?_, hx, rfl, ?_, ?_⟩
      · rw [hr.split]
        simp
      · exact hlt.le.trans (hpost x (List.mem_flatMap.mpr ⟨after, by simp, by simp [hx]⟩))
      · simpa [hitems] using hbefore

end Descend

end SearchTree
