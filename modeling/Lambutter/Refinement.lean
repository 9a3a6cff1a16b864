/-
Refinement of computations that may fail.

`Refines E spec impl`: the implementation returns what the specification returns, and
where the specification fails it fails too, with an error that `E` allows.  Refinement
goes through sequencing, through folds whose state keeps an invariant, and through maps
over a list; the continuations only have to refine where the specification gets to.
-/
import Lambutter.Programs

theorem Except.mapError_eq_ok {ε ε' α : Type} {r : Except ε α} {f : ε → ε'} {a : α} :
    r.mapError f = .ok a ↔ r = .ok a := by
  cases r with
  | ok b => simp [Except.mapError]
  | error e => simp [Except.mapError]

/-- `impl` does what `spec` says, up to `E` in the errors. -/
def Refines {ε ε' α : Type} (E : ε → ε' → Prop) (spec : Except ε α) (impl : Except ε' α) : Prop :=
  match spec with
  | .ok a => impl = .ok a
  | .error e => ∃ e', impl = .error e' ∧ E e e'

namespace Refines

variable {ε ε' α β : Type} {E : ε → ε' → Prop}

theorem ok (a : α) : Refines E (.ok a) (.ok a) := rfl

theorem error {e : ε} {e' : ε'} (h : E e e') : Refines E (.error e : Except ε α) (.error e') :=
  ⟨e', rfl, h⟩

/-- A specification that returns fixes the result. -/
theorem returns {spec : Except ε α} {impl : Except ε' α} (h : Refines E spec impl) {a : α}
    (hspec : spec = .ok a) : impl = .ok a := by
  subst hspec
  exact h

/-- The implementation returns only what is specified. -/
theorem sound {spec : Except ε α} {impl : Except ε' α} (h : Refines E spec impl) {a : α}
    (himpl : impl = .ok a) : spec = .ok a := by
  subst himpl
  cases spec with
  | ok b => exact congrArg Except.ok (Except.ok.inj h).symm
  | error e =>
    obtain ⟨e', he', -⟩ := h
    cases he'

/-- Both return alike, or both fail. -/
theorem cases {spec : Except ε α} {impl : Except ε' α} (h : Refines E spec impl) :
    (∃ a, spec = .ok a ∧ impl = .ok a) ∨
      ∃ e e', spec = .error e ∧ impl = .error e' ∧ E e e' := by
  cases spec with
  | ok a => exact .inl ⟨a, rfl, h⟩
  | error e =>
    obtain ⟨e', himpl, he⟩ := h
    exact .inr ⟨e, e', rfl, himpl, he⟩

theorem bind {spec : Except ε α} {impl : Except ε' α} {f : α → Except ε β} {g : α → Except ε' β}
    (h : Refines E spec impl) (hf : ∀ a, spec = .ok a → Refines E (f a) (g a)) :
    Refines E (spec >>= f) (impl >>= g) := by
  rcases h.cases with ⟨a, rfl, rfl⟩ | ⟨e, e', rfl, rfl, he⟩
  · exact hf a rfl
  · exact error he

theorem map {spec : Except ε α} {impl : Except ε' α} (f : α → β) (h : Refines E spec impl) :
    Refines E (f <$> spec) (f <$> impl) := by
  rcases h.cases with ⟨a, rfl, rfl⟩ | ⟨e, e', rfl, rfl, he⟩
  · exact ok (f a)
  · exact error he

/-- Renaming the errors on either side. -/
theorem rename {δ δ' : Type} {D : δ → δ' → Prop} {f : ε → δ} {f' : ε' → δ'} {spec : Except ε α}
    {impl : Except ε' α} (h : Refines E spec impl)
    (hD : ∀ e e', spec = .error e → E e e' → D (f e) (f' e')) :
    Refines D (spec.mapError f) (impl.mapError f') := by
  rcases h.cases with ⟨a, rfl, rfl⟩ | ⟨e, e', rfl, rfl, he⟩
  · exact ok a
  · exact error (hD e e' rfl he)

/-- Renaming the errors of the specification. -/
theorem mapError {δ : Type} {D : δ → ε' → Prop} {f : ε → δ} {spec : Except ε α}
    {impl : Except ε' α} (h : Refines E spec impl)
    (hD : ∀ e e', spec = .error e → E e e' → D (f e) e') : Refines D (spec.mapError f) impl := by
  rcases h.cases with ⟨a, rfl, rfl⟩ | ⟨e, e', rfl, rfl, he⟩
  · exact ok a
  · exact error (hD e e' rfl he)

/-- A fold refines when each step does, in every state that the specification reaches. -/
theorem foldlM {f : β → α → Except ε β} {g : β → α → Except ε' β} {I : β → Prop} {l : List α}
    (hstep : ∀ s, I s → ∀ a ∈ l, Refines E (f s a) (g s a))
    (hkeeps : ∀ s, I s → ∀ a ∈ l, ∀ s', f s a = .ok s' → I s') {s : β} (hs : I s) :
    Refines E (l.foldlM f s) (l.foldlM g s) := by
  induction l generalizing s with
  | nil => exact ok s
  | cons a rest ih =>
    rw [List.foldlM_cons, List.foldlM_cons]
    refine bind (hstep s hs a (by simp)) fun s' hs' => ?_
    exact ih (fun s hs b hb => hstep s hs b (by simp [hb]))
      (fun s hs b hb => hkeeps s hs b (by simp [hb])) (hkeeps s hs a (by simp) s' hs')

/-- A map over related lists refines when it does element by element. -/
theorem mapM {γ : Type} {R : α → γ → Prop} {f : α → Except ε β} {g : γ → Except ε' β} {l : List α}
    {l' : List γ} (hl : List.Forall₂ R l l') (h : ∀ a c, R a c → Refines E (f a) (g c)) :
    Refines E (l.mapM f) (l'.mapM g) := by
  induction hl with
  | nil => exact ok []
  | cons hac _ ih =>
    rw [List.mapM_cons, List.mapM_cons]
    exact bind (h _ _ hac) fun b _ => bind ih fun bs _ => ok (b :: bs)

end Refines

/-! ### Programs as implementations -/

section Run

variable {Q : Type} {A : Q → Type} {Ev X α β : Type} (g : (q : Q) → A q)

/-- A run of a fold is a fold of runs. -/
theorem Prog.run_foldlM (f : β → α → Prog Q A Ev X β) (l : List α) (s : β) :
    (l.foldlM f s).run g = l.foldlM (fun s a => (f s a).run g) s := by
  induction l generalizing s with
  | nil => rfl
  | cons a rest ih =>
    rw [List.foldlM_cons, List.foldlM_cons, Prog.run_bind]
    exact congrArg (_ >>= ·) (funext ih)

theorem Prog.run_map (f : α → β) (p : Prog Q A Ev X α) : (f <$> p).run g = f <$> p.run g := by
  rw [← bind_pure_comp, Prog.run_bind]
  cases p.run g with
  | ok a => rfl
  | error x => rfl

theorem Prog.run_mapStop (f : X → X) (p : Prog Q A Ev X α) :
    (p.mapStop f).run g = (p.run g).mapError f := by
  induction p with
  | pure a => rfl
  | stop x => rfl
  | ask q k ih => exact ih (g q)
  | note e p ih => exact ih

variable {g} {ε : Type} {E : ε → X → Prop} {spec : Except ε α} {p : Prog Q A Ev X α}

theorem Refines.run_bind {f : α → Except ε β} {k : α → Prog Q A Ev X β}
    (h : Refines E spec (p.run g)) (hk : ∀ a, spec = .ok a → Refines E (f a) ((k a).run g)) :
    Refines E (spec >>= f) ((p >>= k).run g) := by
  rw [Prog.run_bind]
  exact h.bind hk

theorem Refines.run_map (f : α → β) (h : Refines E spec (p.run g)) :
    Refines E (f <$> spec) ((f <$> p).run g) := by
  rw [Prog.run_map]
  exact h.map f

end Run
