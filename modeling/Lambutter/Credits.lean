/-
What a run costs, with credit.

Each note has a weight, positive for work and negative for credit.  `Costs w n p` bounds
the sum of the weights over every run of `p` by `n`.  A loop whose passes pay for
themselves then costs what its last pass does, however long it runs.
-/
import Lambutter.Programs
import Mathlib.Algebra.BigOperators.Group.List.Basic
import Mathlib.Algebra.Order.Ring.Int

namespace Prog

variable {Q : Type} {A : Q → Type} {E X α β : Type} {w : E → ℤ} {n m : ℤ}

/-- The notes of every run weigh at most `n` together. -/
def Costs (w : E → ℤ) (n : ℤ) (p : Prog Q A E X α) : Prop := p.Sat fun t _ => (t.map w).sum ≤ n

theorem Costs.mono {p : Prog Q A E X α} (h : Costs w n p) (hnm : n ≤ m) : Costs w m p :=
  Sat.mono h fun _ _ ht => ht.trans hnm

theorem costs_pure (a : α) (h : 0 ≤ n) : Costs w n (Pure.pure a : Prog Q A E X α) := h

theorem costs_lift (r : Except X α) (h : 0 ≤ n) : Costs w n (lift r : Prog Q A E X α) :=
  sat_lift.mpr h

theorem Costs.note {e : E} {p : Prog Q A E X α} (h : Costs w (n - w e) p) :
    Costs w n (.note e p) := by
  show p.Sat fun t _ => ((e :: t).map w).sum ≤ n
  refine Sat.mono h fun t _ ht => ?_
  rw [List.map_cons, List.sum_cons]
  omega

/-- One part after the other; a run that stops in the first has paid for it alone. -/
theorem Costs.bind {p : Prog Q A E X α} {f : α → Prog Q A E X β} (h : Costs w n p)
    (hm : 0 ≤ m) (hf : ∀ a, Costs w m (f a)) : Costs w (n + m) (p >>= f) := by
  refine Sat.bind h (fun t a ht => Sat.mono (hf a) fun t' _ ht' => ?_) fun t x ht => ?_
  · rw [List.map_append, List.sum_append]
    exact add_le_add ht ht'
  · exact ht.trans (le_add_of_nonneg_right hm)

/-- A part that costs nothing before another. -/
theorem Costs.free_bind {p : Prog Q A E X α} {f : α → Prog Q A E X β} (h : Costs w 0 p)
    (hm : 0 ≤ m) (hf : ∀ a, Costs w m (f a)) : Costs w m (p >>= f) := by
  have hbind := h.bind hm hf
  rwa [zero_add] at hbind

/-- What asks nothing and notes nothing is free. -/
theorem Costs.lift_bind {r : Except X α} {f : α → Prog Q A E X β} (hm : 0 ≤ m)
    (hf : ∀ a, Costs w m (f a)) : Costs w m ((lift r : Prog Q A E X α) >>= f) :=
  (costs_lift r le_rfl).free_bind hm hf

end Prog
