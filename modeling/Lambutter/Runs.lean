/-
The runs of a list between separators.

`Runs sep l rs` says that `rs` are the maximal non-empty stretches of `l` without the
separator, from left to right.  Every list has them, exactly once (`Runs.exists`,
`Runs.unique`), and where a list is cut before a separator the runs of the two parts
are the runs of the whole (`Runs.append`).
-/
import Mathlib.Data.List.TakeWhile
import Mathlib.Tactic.Common

namespace Splitting

variable {α : Type} {sep : α}

/-- A list that is over, or goes on with the separator. -/
def Stops (sep : α) (l : List α) : Prop := ∀ a, l.head? = some a → a = sep

inductive Runs (sep : α) : List α → List (List α) → Prop
  | nil : Runs sep [] []
  | sep {l rs} (h : Runs sep l rs) : Runs sep (sep :: l) rs
  | run {r l rs} (hne : r ≠ []) (hfree : sep ∉ r) (hmax : Stops sep l) (h : Runs sep l rs) :
    Runs sep (r ++ l) (r :: rs)

theorem stops_cons (l : List α) : Stops sep (sep :: l) := by
  intro a ha
  cases ha
  rfl

theorem Stops.append {l l' : List α} (h : Stops sep l) (h' : Stops sep l') :
    Stops sep (l ++ l') := by
  cases l with
  | nil => exact h'
  | cons a l =>
    intro b hb
    exact h b hb

/-- A run and what follows it, cut where the run ends. -/
theorem run_unique {r r' l l' : List α} (hfree : sep ∉ r) (hfree' : sep ∉ r')
    (hmax : Stops sep l) (hmax' : Stops sep l') (h : r ++ l = r' ++ l') : r = r' ∧ l = l' := by
  induction r generalizing r' with
  | nil =>
    cases r' with
    | nil => exact ⟨rfl, h⟩
    | cons a r' =>
      have ha : a = sep := hmax a (by rw [show l = a :: (r' ++ l') from h]; rfl)
      exact absurd (List.mem_cons.mpr (.inl ha.symm)) hfree'
  | cons a r ih =>
    cases r' with
    | nil =>
      have ha : a = sep := hmax' a (by rw [← show a :: (r ++ l) = l' from h]; rfl)
      exact absurd (List.mem_cons.mpr (.inl ha.symm)) hfree
    | cons b r' =>
      obtain ⟨rfl, htail⟩ := List.cons.inj h
      obtain ⟨rfl, rfl⟩ := ih (fun hr => hfree (List.mem_cons_of_mem _ hr))
        (fun hr => hfree' (List.mem_cons_of_mem _ hr)) htail
      exact ⟨rfl, rfl⟩

theorem Runs.unique {l : List α} {rs rs' : List (List α)} (h : Runs sep l rs)
    (h' : Runs sep l rs') : rs = rs' := by
  induction h generalizing rs' with
  | nil =>
    generalize hl : ([] : List α) = l at h'
    cases h' with
    | nil => rfl
    | sep _ => cases hl
    | run hne _ _ _ => exact absurd (List.append_eq_nil_iff.mp hl.symm).1 hne
  | @sep l rs h ih =>
    generalize hl : sep :: l = whole at h'
    cases h' with
    | nil => cases hl
    | sep h'' =>
      cases hl
      exact ih h''
    | @run r l' rs'' hne hfree _ _ =>
      obtain ⟨a, r, rfl⟩ := List.exists_cons_of_ne_nil hne
      cases hl
      exact absurd List.mem_cons_self hfree
  | @run r l rs hne hfree hmax h ih =>
    generalize hl : r ++ l = whole at h'
    cases h' with
    | nil => exact absurd (List.append_eq_nil_iff.mp hl).1 hne
    | sep _ =>
      obtain ⟨a, r, rfl⟩ := List.exists_cons_of_ne_nil hne
      cases hl
      exact absurd List.mem_cons_self hfree
    | @run r' l' rs' hne' hfree' hmax' h'' =>
      obtain ⟨rfl, rfl⟩ := run_unique hfree hfree' hmax hmax' hl
      rw [ih h'']

theorem Runs.exists [DecidableEq α] (sep : α) (l : List α) : ∃ rs, Runs sep l rs := by
  generalize hn : l.length = n
  induction n using Nat.strong_induction_on generalizing l with
  | _ n ih =>
    cases l with
    | nil => exact ⟨[], .nil⟩
    | cons a l =>
      by_cases ha : a = sep
      · subst ha
        obtain ⟨rs, h⟩ := ih l.length (by rw [← hn]; exact Nat.lt_succ_self _) l rfl
        exact ⟨rs, .sep h⟩
      · -- the run that starts here, and what follows it
        set p : α → Bool := fun b => decide (b ≠ sep) with hp
        have hpa : p a = true := decide_eq_true ha
        obtain ⟨rs, h⟩ := ih ((a :: l).dropWhile p).length (by
          rw [← hn, List.dropWhile_cons_of_pos hpa]
          exact Nat.lt_succ_of_le (List.dropWhile_sublist p).length_le) _ rfl
        have hcut : a :: l = (a :: l).takeWhile p ++ (a :: l).dropWhile p :=
          List.takeWhile_append_dropWhile.symm
        rw [hcut]
        refine ⟨_, .run ?_ ?_ ?_ h⟩
        · rw [List.takeWhile_cons_of_pos hpa]
          exact List.cons_ne_nil _ _
        · intro hmem
          have := List.mem_takeWhile_imp hmem
          exact absurd rfl (of_decide_eq_true this)
        · intro b hb
          have := List.head?_dropWhile_not p (a :: l)
          rw [hb] at this
          simpa [hp] using this

/-- Cut before a separator. -/
theorem Runs.append {a b : List α} {as bs : List (List α)} (ha : Runs sep a as)
    (hb : Runs sep b bs) (hcut : Stops sep b) : Runs sep (a ++ b) (as ++ bs) := by
  induction ha with
  | nil => exact hb
  | sep _ ih => exact .sep ih
  | run hne hfree hmax _ ih =>
    rw [List.append_assoc]
    exact .run hne hfree (hmax.append hcut) ih

end Splitting
