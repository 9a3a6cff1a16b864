/-
Ranges laid out side by side.

A list of ranges `[start a, stop a)` is `Laid` when it is in order and no two
ranges overlap.  A sorted vector of ranges is searched with a partition point;
this file has the two facts such a search rests on:

* a new range that clears the neighbours at its partition point clears every
  range of the list (`Laid.insert`);
* the range that covers a point, if there is one, is the last one that starts at
  or before it (`Laid.locate`), and there is at most one (`Laid.covers_unique`).

Ranges may be empty; an empty range covers nothing.
-/
import Mathlib.Data.List.Basic
import Mathlib.Data.List.TakeWhile
import Mathlib.Data.List.Sort
import Mathlib.Order.Basic
import Mathlib.Tactic.Common

namespace Ranges

/-! ### Partition points -/

section Partition

variable {α : Type}

/-- `slice::partition_point` on a slice that `p` partitions. -/
def partitionPoint (p : α → Bool) (l : List α) : ℕ := (l.takeWhile p).length

/-- `pos.checked_sub(1).and_then(|i| l.get(i))`. -/
def before (l : List α) (pos : ℕ) : Option α := if pos = 0 then none else l[pos - 1]?

theorem partitionPoint_append {p : α → Bool} {pre post : List α} (hpre : ∀ a ∈ pre, p a)
    (hpost : ∀ b ∈ post, ¬ p b) : partitionPoint p (pre ++ post) = pre.length := by
  rw [partitionPoint, List.takeWhile_append_of_pos hpre]
  cases post with
  | nil => simp
  | cons b post =>
    have hb : ¬ p b := hpost b List.mem_cons_self
    rw [List.takeWhile_cons_of_neg hb, List.append_nil]

/-- The partition point splits a partitioned list. -/
theorem exists_split (p : α → Bool) {l : List α} (h : l.Pairwise fun a b => p b → p a) :
    ∃ pre post, l = pre ++ post ∧ partitionPoint p l = pre.length ∧
      (∀ a ∈ pre, p a) ∧ ∀ b ∈ post, ¬ p b := by
  induction l with
  | nil => exact ⟨[], [], rfl, rfl, by simp, by simp⟩
  | cons a l ih =>
    obtain ⟨ha, hl⟩ := List.pairwise_cons.mp h
    by_cases hp : p a
    · obtain ⟨pre, post, rfl, -, hpre, hpost⟩ := ih hl
      have hcons : ∀ x ∈ a :: pre, p x := by
        intro x hx
        rcases List.mem_cons.mp hx with rfl | hx
        · exact hp
        · exact hpre x hx
      exact ⟨a :: pre, post, rfl, partitionPoint_append hcons hpost, hcons, hpost⟩
    · have hall : ∀ b ∈ a :: l, ¬ p b := by
        intro b hb hpb
        rcases List.mem_cons.mp hb with rfl | hb
        · exact hp hpb
        · exact hp (ha b hb hpb)
      have hnil : ∀ b ∈ ([] : List α), p b := by simp
      exact ⟨[], a :: l, rfl, partitionPoint_append hnil hall, hnil, hall⟩

theorem before_length (pre post : List α) : before (pre ++ post) pre.length = pre.getLast? := by
  unfold before
  by_cases h : pre.length = 0
  · rw [if_pos h, List.eq_nil_of_length_eq_zero h]
    rfl
  · rw [if_neg h, List.getElem?_append_left (by omega), List.getLast?_eq_getElem?]

theorem getElem?_length (pre post : List α) : (pre ++ post)[pre.length]? = post.head? := by
  rw [List.getElem?_append_right le_rfl, Nat.sub_self, List.head?_eq_getElem?]

theorem insertIdx_length (pre post : List α) (a : α) :
    (pre ++ post).insertIdx pre.length a = pre ++ a :: post := by
  induction pre with
  | nil => rfl
  | cons b pre ih => simp [ih]

theorem partitionPoint_map {β : Type} (f : β → α) (p : α → Bool) (l : List β) :
    partitionPoint p (l.map f) = partitionPoint (fun b => p (f b)) l := by
  rw [partitionPoint, List.takeWhile_map, List.length_map]
  rfl

theorem partitionPoint_le (p : α → Bool) (l : List α) : partitionPoint p l ≤ l.length :=
  (List.takeWhile_sublist p).length_le

end Partition

/-! ### Searches in ascending keys -/

section Searches

variable {α κ : Type} [LinearOrder κ]

/-- The least of the indices below `n` whose key is at or past the target. -/
def FirstAtLeast (key : ℕ → κ) (n : ℕ) (target : κ) : Option ℕ → Prop
  | none => ∀ j < n, key j < target
  | some i => i < n ∧ target ≤ key i ∧ ∀ j < i, key j < target

/-- The greatest of the indices below `n` whose key is at or before the target, or 0
when there is none. -/
structure LastAtMost (key : ℕ → κ) (n : ℕ) (target : κ) (i : ℕ) : Prop where
  lt : i < n
  last : ∀ j < n, key j ≤ target → j ≤ i
  found : key i ≤ target ∨ i = 0 ∧ ∀ j < n, target < key j

variable {f : α → κ} {l : List α} {key : ℕ → κ}

theorem firstAtLeast_partitionPoint (hsorted : l.Pairwise fun a b => f a < f b)
    (hkey : ∀ i a, l[i]? = some a → f a = key i) (target : κ) :
    FirstAtLeast key l.length target
      (let i := partitionPoint (fun a => decide (f a < target)) l
        if i < l.length then some i else none) := by
  obtain ⟨pre, post, rfl, hpoint, hpre, hpost⟩ :=
    exists_split (fun a => decide (f a < target)) (hsorted.imp fun hab hb =>
      decide_eq_true (hab.trans (of_decide_eq_true hb)))
  dsimp only
  rw [hpoint]
  have hbefore : ∀ j < pre.length, key j < target := by
    intro j hj
    rw [← hkey j pre[j] (by rw [List.getElem?_append_left hj, List.getElem?_eq_getElem hj])]
    exact of_decide_eq_true (hpre _ (List.getElem_mem hj))
  cases post with
  | nil =>
    rw [List.append_nil, if_neg (lt_irrefl _)]
    exact hbefore
  | cons b post =>
    rw [if_pos (by simp)]
    refine ⟨by simp, ?_, hbefore⟩
    rw [← hkey pre.length b (getElem?_length pre (b :: post))]
    exact not_lt.mp fun h => hpost b List.mem_cons_self (decide_eq_true h)

theorem lastAtMost_partitionPoint (hsorted : l.Pairwise fun a b => f a < f b)
    (hkey : ∀ i a, l[i]? = some a → f a = key i) (hne : 0 < l.length) (target : κ) :
    LastAtMost key l.length target
      (partitionPoint (fun a => decide (f a ≤ target)) l - 1) := by
  obtain ⟨pre, post, rfl, hpoint, hpre, hpost⟩ :=
    exists_split (fun a => decide (f a ≤ target)) (hsorted.imp fun hab hb =>
      decide_eq_true (hab.le.trans (of_decide_eq_true hb)))
  have hafter : ∀ j < (pre ++ post).length, pre.length ≤ j → target < key j := by
    intro j hj hge
    rw [← hkey j (pre ++ post)[j] (List.getElem?_eq_getElem hj),
      List.getElem_append_right hge]
    exact not_le.mp fun h => hpost _ (List.getElem_mem _) (decide_eq_true h)
  rw [hpoint]
  refine ⟨?_, fun j hj hle => ?_, ?_⟩
  · rw [List.length_append] at hne ⊢
    omega
  · by_contra hgt
    exact absurd hle (not_le.mpr (hafter j hj (by omega)))
  · by_cases hnil : pre.length = 0
    · exact .inr ⟨by omega, fun j hj => hafter j hj (by omega)⟩
    · have hlast : pre.length - 1 < pre.length := by omega
      refine .inl ?_
      rw [← hkey (pre.length - 1) pre[pre.length - 1]
        (by rw [List.getElem?_append_left hlast, List.getElem?_eq_getElem hlast])]
      exact of_decide_eq_true (hpre _ (List.getElem_mem hlast))

end Searches

/-! ### Laid-out lists -/

section Laid

variable {α κ : Type} [LinearOrder κ] {start stop : α → κ}

/-- The ranges stand in order and do not overlap. -/
structure Laid (start stop : α → κ) (l : List α) : Prop where
  proper : ∀ a ∈ l, start a ≤ stop a
  apart : l.Pairwise fun a b => stop a ≤ start b

/-- The range of `a` covers the point `x`. -/
def Covers (start stop : α → κ) (a : α) (x : κ) : Prop := start a ≤ x ∧ x < stop a

theorem Laid.nil : Laid start stop ([] : List α) := ⟨by simp, List.Pairwise.nil⟩

theorem Laid.starts {l : List α} (h : Laid start stop l) :
    l.Pairwise fun a b => start a ≤ start b :=
  h.apart.imp_of_mem fun ha _ hab => (h.proper _ ha).trans hab

/-- The split of a laid-out list at a bound on the starts that is closed downwards. -/
theorem Laid.exists_split {l : List α} (h : Laid start stop l) (p : α → Bool)
    (hp : ∀ a b, start a ≤ start b → p b → p a) :
    ∃ pre post, l = pre ++ post ∧ partitionPoint p l = pre.length ∧
      (∀ a ∈ pre, p a) ∧ ∀ b ∈ post, ¬ p b :=
  Ranges.exists_split p (h.starts.imp fun hab => hp _ _ hab)

/-- Clearing the two neighbours is clearing every range. -/
theorem Laid.insert {pre post : List α} {a : α} (h : Laid start stop (pre ++ post))
    (ha : start a ≤ stop a) (hprev : ∀ b ∈ pre.getLast?, stop b ≤ start a)
    (hnext : ∀ b ∈ post.head?, stop a ≤ start b) : Laid start stop (pre ++ a :: post) := by
  obtain ⟨hpre, hpost, hcross⟩ := List.pairwise_append.mp h.apart
  have hbefore : ∀ b ∈ pre, stop b ≤ start a := by
    intro b hb
    have hne : pre ≠ [] := List.ne_nil_of_mem hb
    have hlast : stop (pre.getLast hne) ≤ start a :=
      hprev _ (List.getLast?_eq_some_getLast hne)
    -- an earlier range ends before the last one starts
    rw [← List.dropLast_append_getLast hne] at hb hpre
    rcases List.mem_append.mp hb with hb | hb
    · have hle : stop b ≤ start (pre.getLast hne) :=
        (List.pairwise_append.mp hpre).2.2 b hb _ (by simp)
      have hprop := h.proper (pre.getLast hne) (by simp)
      exact (hle.trans hprop).trans hlast
    · rw [List.mem_singleton.mp hb]
      exact hlast
  have hafter : ∀ b ∈ post, stop a ≤ start b := by
    intro b hb
    cases post with
    | nil => cases hb
    | cons c post =>
      have hc : stop a ≤ start c := hnext c rfl
      rcases List.mem_cons.mp hb with rfl | hb
      · exact hc
      · have hle : stop c ≤ start b := (List.pairwise_cons.mp hpost).1 b hb
        have hprop := h.proper c (by simp)
        exact (hc.trans hprop).trans hle
  refine ⟨?_, List.pairwise_append.mpr ⟨hpre, List.pairwise_cons.mpr ⟨hafter, hpost⟩, ?_⟩⟩
  · intro b hb
    rcases List.mem_append.mp hb with hb | hb
    · exact h.proper b (by simp [hb])
    · rcases List.mem_cons.mp hb with rfl | hb
      · exact ha
      · exact h.proper b (by simp [hb])
  · intro b hb c hc
    rcases List.mem_cons.mp hc with rfl | hc
    · exact hbefore b hb
    · exact hcross b hb c hc

/-- No other range of a laid-out list covers a covered point. -/
theorem Laid.covers_unique {pre post : List α} {a : α} {x : κ}
    (h : Laid start stop (pre ++ a :: post)) (ha : Covers start stop a x) :
    ∀ b ∈ pre ++ post, ¬ Covers start stop b x := by
  obtain ⟨-, hcons, hcross⟩ := List.pairwise_append.mp h.apart
  intro b hb hbx
  rcases List.mem_append.mp hb with hb | hb
  · have hle : stop b ≤ start a := hcross b hb a (by simp)
    exact absurd (hbx.2.trans_le (hle.trans ha.1)) (lt_irrefl x)
  · have hle : stop a ≤ start b := (List.pairwise_cons.mp hcons).1 b hb
    exact absurd (ha.2.trans_le (hle.trans hbx.1)) (lt_irrefl x)

/-- The range that covers a point is the last one that starts at or before it. -/
theorem Laid.locate {l : List α} (h : Laid start stop l) {a : α} {x : κ} (ha : a ∈ l)
    (hx : Covers start stop a x) :
    before l (partitionPoint (fun b => decide (start b ≤ x)) l) = some a := by
  obtain ⟨pre, post, rfl⟩ := List.append_of_mem ha
  obtain ⟨-, hcons, hcross⟩ := List.pairwise_append.mp h.apart
  have hpre : ∀ b ∈ pre ++ [a], decide (start b ≤ x) = true := by
    intro b hb
    rcases List.mem_append.mp hb with hb | hb
    · have hle : stop b ≤ start a := hcross b hb a (by simp)
      have hprop := h.proper b (by simp [hb])
      exact decide_eq_true ((hprop.trans hle).trans hx.1)
    · rw [List.mem_singleton.mp hb]
      exact decide_eq_true hx.1
  have hpost : ∀ b ∈ post, ¬ decide (start b ≤ x) = true := by
    intro b hb
    have hle : stop a ≤ start b := (List.pairwise_cons.mp hcons).1 b hb
    simpa using hx.2.trans_le hle
  have hsplit : pre ++ a :: post = (pre ++ [a]) ++ post := by simp
  rw [hsplit, partitionPoint_append hpre hpost, before_length]
  simp

/-- The range a search for `x` looks at belongs to the list. -/
theorem before_mem {l : List α} {pos : ℕ} {a : α} (h : before l pos = some a) : a ∈ l := by
  unfold before at h
  split at h
  · cases h
  · exact List.mem_of_getElem? h

/-- The range a search for `x` looks at starts at or before `x`. -/
theorem Laid.start_le_of_before {l : List α} (h : Laid start stop l) {a : α} {x : κ}
    (ha : before l (partitionPoint (fun b => decide (start b ≤ x)) l) = some a) :
    start a ≤ x := by
  obtain ⟨pre, post, rfl, hpos, hpre, -⟩ := h.exists_split (fun b => decide (start b ≤ x))
    (fun a b hab hb => decide_eq_true (hab.trans (of_decide_eq_true hb)))
  rw [hpos, before_length] at ha
  exact of_decide_eq_true (hpre a (List.mem_of_getLast? ha))

/-- Two laid-out lists of the same non-empty ranges are the same list. -/
theorem Laid.eq_of_perm {l l' : List α} (h : Laid start stop l) (h' : Laid start stop l')
    (hne : ∀ a ∈ l, start a < stop a) (hperm : l.Perm l') : l = l' := by
  refine hperm.eq_of_pairwise (fun a b ha _ hab hba => ?_) h.apart h'.apart
  exact absurd (((hne a ha).trans_le hab).trans_le (h'.proper b ‹_›)) (not_lt.mpr hba)

end Laid

end Ranges
