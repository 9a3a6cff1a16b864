/-
Programs that ask questions.

A `Prog Q A E X α` is a sequential program that may put a question `q : Q` to
its surroundings and go on with whatever answer of type `A q` it gets, may leave
a note of type `E` in its trace, may stop early with `x : X`, and otherwise
returns a value of type `α`.  Nothing is fixed about who answers:

* `exec` runs a program against a respondent with a state of its own;
* `run` and `trace` run it against answers that depend on the question alone;
* `Sat` and `Ensures` speak about every run at once, whatever the answers;
* `Asks` bounds every question a program can ever put.

Each of them has one rule for `>>=`, and proofs about larger programs use these
rules and never unfold the recursions.
-/
import Mathlib.Tactic.Common

/-- Programs over questions `Q` answered in `A q`, notes `E` and early stops `X`. -/
inductive Prog (Q : Type) (A : Q → Type) (E X α : Type) : Type
  | pure (a : α)
  | stop (x : X)
  | ask (q : Q) (k : A q → Prog Q A E X α)
  | note (e : E) (p : Prog Q A E X α)

namespace Prog

variable {Q : Type} {A : Q → Type} {E X α β σ : Type}

/-- Run `p`, then go on with `f` from the value it returned. -/
def bind : Prog Q A E X α → (α → Prog Q A E X β) → Prog Q A E X β
  | .pure a, f => f a
  | .stop x, _ => .stop x
  | .ask q k, f => .ask q fun a => (k a).bind f
  | .note e p, f => .note e (p.bind f)

instance : Monad (Prog Q A E X) where
  pure := .pure
  bind := .bind

/-- A computation that asks nothing, as a program. -/
def lift : Except X α → Prog Q A E X α
  | .ok a => .pure a
  | .error x => .stop x

instance : MonadLift (Except X) (Prog Q A E X) := ⟨lift⟩

theorem bind_pure_id (p : Prog Q A E X α) : p.bind (fun a => .pure (id a)) = p := by
  induction p with
  | pure a => rfl
  | stop x => rfl
  | ask q k ih => exact congrArg (Prog.ask q) (funext ih)
  | note e p ih => exact congrArg (Prog.note e) ih

theorem bind_bind (p : Prog Q A E X α) (f : α → Prog Q A E X β) (g : β → Prog Q A E X σ) :
    (p.bind f).bind g = p.bind (fun a => (f a).bind g) := by
  induction p with
  | pure a => rfl
  | stop x => rfl
  | ask q k ih => exact congrArg (Prog.ask q) (funext ih)
  | note e p ih => exact congrArg (Prog.note e) ih

instance : LawfulMonad (Prog Q A E X) :=
  LawfulMonad.mk' _ bind_pure_id (fun _ _ => rfl) bind_bind

theorem bind_def (p : Prog Q A E X α) (f : α → Prog Q A E X β) : p >>= f = p.bind f := rfl

theorem liftM_def (r : Except X α) : (liftM r : Prog Q A E X α) = lift r := rfl

/-- The same program, with another reason for each early stop. -/
def mapStop (f : X → X) : Prog Q A E X α → Prog Q A E X α
  | .pure a => .pure a
  | .stop x => .stop (f x)
  | .ask q k => .ask q fun a => (k a).mapStop f
  | .note e p => .note e (p.mapStop f)

/-! ### Running against a respondent -/

/-- What a finished run leaves: its result, the respondent's state and the notes. -/
structure Run (E X σ α : Type) where
  result : Except X α
  state : σ
  trace : List E

/-- Run a program against a respondent that may change its state as it answers. -/
def exec (R : (q : Q) → σ → A q × σ) : Prog Q A E X α → σ → Run E X σ α
  | .pure a, s => ⟨.ok a, s, []⟩
  | .stop x, s => ⟨.error x, s, []⟩
  | .ask q k, s => exec R (k (R q s).1) (R q s).2
  | .note e p, s => ⟨(exec R p s).result, (exec R p s).state, e :: (exec R p s).trace⟩

theorem exec_lift (R : (q : Q) → σ → A q × σ) (r : Except X α) (s : σ) :
    exec R (lift r : Prog Q A E X α) s = ⟨r, s, []⟩ := by
  cases r <;> rfl

theorem exec_bind (R : (q : Q) → σ → A q × σ) (p : Prog Q A E X α)
    (f : α → Prog Q A E X β) (s : σ) :
    exec R (p >>= f) s = match exec R p s with
      | ⟨.ok a, s', t⟩ =>
        ⟨(exec R (f a) s').result, (exec R (f a) s').state, t ++ (exec R (f a) s').trace⟩
      | ⟨.error x, s', t⟩ => ⟨.error x, s', t⟩ := by
  rw [bind_def]
  induction p generalizing s with
  | pure a => rfl
  | stop x => rfl
  | ask q k ih => exact ih (R q s).1 (R q s).2
  | note e p ih =>
    show Run.mk _ _ _ = _
    rw [ih s]
    simp only [exec]
    rcases exec R p s with ⟨r, s', t⟩
    cases r <;> rfl

/-- A run of `p >>= f` whose first part stopped, or went on from a value. -/
theorem exec_bind_result (R : (q : Q) → σ → A q × σ) (p : Prog Q A E X α)
    (f : α → Prog Q A E X β) (s : σ) :
    (exec R (p >>= f) s).result =
      (exec R p s).result.bind fun a => (exec R (f a) (exec R p s).state).result := by
  rw [exec_bind]
  rcases exec R p s with ⟨r, s', t⟩
  cases r <;> rfl

/-- A run of `p >>= f` that returns went through both parts. -/
theorem exec_bind_eq_ok {R : (q : Q) → σ → A q × σ} {p : Prog Q A E X α}
    {f : α → Prog Q A E X β} {s : σ} {b : β} : (exec R (p >>= f) s).result = .ok b ↔
      ∃ a, (exec R p s).result = .ok a ∧ (exec R (f a) (exec R p s).state).result = .ok b := by
  rw [exec_bind_result]
  cases (exec R p s).result with
  | error x =>
    constructor
    · intro h
      cases h
    · rintro ⟨a, h, -⟩
      cases h
  | ok a =>
    constructor
    · intro h
      exact ⟨a, rfl, h⟩
    · rintro ⟨a', h, hb⟩
      cases h
      exact hb

/-- A note of `p >>= f` is one of `p`, or of what follows the value it returned. -/
theorem mem_trace_bind {R : (q : Q) → σ → A q × σ} {p : Prog Q A E X α}
    {f : α → Prog Q A E X β} {s : σ} {e : E} (h : e ∈ (exec R (p >>= f) s).trace) :
    e ∈ (exec R p s).trace ∨ ∃ a, (exec R p s).result = .ok a ∧
      e ∈ (exec R (f a) (exec R p s).state).trace := by
  rw [exec_bind] at h
  revert h
  rcases exec R p s with ⟨x | a, s', t⟩
  · exact .inl
  · intro h
    rcases List.mem_append.mp h with h | h
    · exact .inl h
    · exact .inr ⟨a, rfl, h⟩

/-! ### Running against fixed answers -/

/-- The result of a run in which every question gets its one fixed answer. -/
def run (g : (q : Q) → A q) (p : Prog Q A E X α) : Except X α :=
  (exec (fun q (_ : Unit) => (g q, ())) p ()).result

/-- The notes of a run in which every question gets its one fixed answer. -/
def trace (g : (q : Q) → A q) (p : Prog Q A E X α) : List E :=
  (exec (fun q (_ : Unit) => (g q, ())) p ()).trace

section Fixed

variable (g : (q : Q) → A q)

@[simp] theorem run_pure (a : α) : run g (Pure.pure a : Prog Q A E X α) = .ok a := rfl

@[simp] theorem run_lift (r : Except X α) : run g (lift r : Prog Q A E X α) = r := by
  rw [run, exec_lift]

@[simp] theorem run_liftM (r : Except X α) : run g (liftM r : Prog Q A E X α) = r :=
  run_lift g r

@[simp] theorem run_stop (x : X) : run g (.stop x : Prog Q A E X α) = .error x := rfl

@[simp] theorem run_ask (q : Q) (k : A q → Prog Q A E X α) :
    run g (.ask q k) = run g (k (g q)) := rfl

@[simp] theorem run_note (e : E) (p : Prog Q A E X α) : run g (.note e p) = run g p := rfl

@[simp] theorem run_bind (p : Prog Q A E X α) (f : α → Prog Q A E X β) :
    run g (p >>= f) = (run g p >>= fun a => run g (f a)) :=
  exec_bind_result _ p f ()

/-- A run that returns went through both parts. -/
theorem run_bind_eq_ok {p : Prog Q A E X α} {f : α → Prog Q A E X β} {b : β} :
    run g (p >>= f) = .ok b ↔ ∃ a, run g p = .ok a ∧ run g (f a) = .ok b :=
  exec_bind_eq_ok

theorem run_mapStop_eq_ok {f : X → X} {p : Prog Q A E X α} {a : α} :
    run g (p.mapStop f) = .ok a ↔ run g p = .ok a := by
  induction p with
  | pure b => rfl
  | stop x =>
    constructor
    · intro h
      cases h
    · intro h
      cases h
  | ask q k ih => exact ih (g q)
  | note e p ih => exact ih

/-- A respondent whose answers depend on the question alone gives the result of `run`,
whatever state it keeps. -/
theorem exec_result_of_answers {R : (q : Q) → σ → A q × σ} (hR : ∀ q s, (R q s).1 = g q)
    (p : Prog Q A E X α) (s : σ) : (exec R p s).result = run g p := by
  induction p generalizing s with
  | pure a => rfl
  | stop x => rfl
  | ask q k ih =>
    show (exec R (k (R q s).1) (R q s).2).result = run g (k (g q))
    rw [hR]
    exact ih (g q) _
  | note e p ih => exact ih s

@[simp] theorem trace_pure (a : α) : trace g (Pure.pure a : Prog Q A E X α) = [] := rfl

@[simp] theorem trace_lift (r : Except X α) : trace g (lift r : Prog Q A E X α) = [] := by
  rw [trace, exec_lift]

@[simp] theorem trace_liftM (r : Except X α) : trace g (liftM r : Prog Q A E X α) = [] :=
  trace_lift g r

@[simp] theorem trace_stop (x : X) : trace g (.stop x : Prog Q A E X α) = [] := rfl

@[simp] theorem trace_ask (q : Q) (k : A q → Prog Q A E X α) :
    trace g (.ask q k) = trace g (k (g q)) := rfl

@[simp] theorem trace_note (e : E) (p : Prog Q A E X α) :
    trace g (.note e p) = e :: trace g p := rfl

theorem trace_bind (p : Prog Q A E X α) (f : α → Prog Q A E X β) :
    trace g (p >>= f) = trace g p ++ match run g p with
      | .ok a => trace g (f a)
      | .error _ => [] := by
  rw [trace, exec_bind, trace, run]
  rcases exec (fun q (_ : Unit) => (g q, ())) p () with ⟨r, s', t⟩
  cases r with
  | ok a => rfl
  | error x => exact (List.append_nil t).symm

variable {g} in
theorem mem_trace_bind_left {p : Prog Q A E X α} {f : α → Prog Q A E X β} {e : E}
    (he : e ∈ trace g p) : e ∈ trace g (p >>= f) := by
  rw [trace_bind]
  exact List.mem_append_left _ he

variable {g} in
theorem mem_trace_bind_right {p : Prog Q A E X α} {f : α → Prog Q A E X β} {a : α} {e : E}
    (hp : run g p = .ok a) (he : e ∈ trace g (f a)) : e ∈ trace g (p >>= f) := by
  rw [trace_bind, hp]
  exact List.mem_append_right _ he

end Fixed

/-! ### Every run at once -/

/-- `P` holds of the notes and the result of every run of the program. -/
def Sat : Prog Q A E X α → (List E → Except X α → Prop) → Prop
  | .pure a, P => P [] (.ok a)
  | .stop x, P => P [] (.error x)
  | .ask _ k, P => ∀ a, (k a).Sat P
  | .note e p, P => p.Sat fun t r => P (e :: t) r

theorem Sat.mono {p : Prog Q A E X α} {P P' : List E → Except X α → Prop}
    (h : p.Sat P) (hP : ∀ t r, P t r → P' t r) : p.Sat P' := by
  induction p generalizing P P' with
  | pure a => exact hP _ _ h
  | stop x => exact hP _ _ h
  | ask q k ih => exact fun a => ih a (h a) hP
  | note e p ih => exact ih h fun t r => hP (e :: t) r

theorem sat_bind {p : Prog Q A E X α} {f : α → Prog Q A E X β}
    {P : List E → Except X β → Prop} :
    (p >>= f).Sat P ↔ p.Sat fun t r => match r with
      | .ok a => (f a).Sat fun t' r' => P (t ++ t') r'
      | .error x => P t (.error x) := by
  rw [bind_def]
  induction p generalizing P with
  | pure a => exact Iff.rfl
  | stop x => exact Iff.rfl
  | ask q k ih => exact forall_congr' fun a => ih a
  | note e p ih => exact ih

theorem Sat.bind {p : Prog Q A E X α} {f : α → Prog Q A E X β}
    {P : List E → Except X α → Prop} {P' : List E → Except X β → Prop} (h : p.Sat P)
    (hok : ∀ t a, P t (.ok a) → (f a).Sat fun t' r' => P' (t ++ t') r')
    (herr : ∀ t x, P t (.error x) → P' t (.error x)) : (p >>= f).Sat P' := by
  refine sat_bind.mpr (h.mono fun t r hr => ?_)
  cases r with
  | ok a => exact hok t a hr
  | error x => exact herr t x hr

theorem sat_lift {r : Except X α} {P : List E → Except X α → Prop} :
    (lift r : Prog Q A E X α).Sat P ↔ P [] r := by
  cases r <;> exact Iff.rfl

/-- What every run satisfies, a run against any respondent satisfies. -/
theorem Sat.exec {p : Prog Q A E X α} {P : List E → Except X α → Prop} (h : p.Sat P)
    (R : (q : Q) → σ → A q × σ) (s : σ) : P (exec R p s).trace (exec R p s).result := by
  induction p generalizing P s with
  | pure a => exact h
  | stop x => exact h
  | ask q k ih => exact ih _ (h _) _
  | note e p ih => exact ih h s

theorem Sat.run {p : Prog Q A E X α} {P : List E → Except X α → Prop} (h : p.Sat P)
    (g : (q : Q) → A q) : P (trace g p) (run g p) :=
  h.exec _ ()

theorem Sat.and {p : Prog Q A E X α} {P P' : List E → Except X α → Prop}
    (h : p.Sat P) (h' : p.Sat P') : p.Sat fun t r => P t r ∧ P' t r := by
  induction p generalizing P P' with
  | pure a => exact ⟨h, h'⟩
  | stop x => exact ⟨h, h'⟩
  | ask q k ih => exact fun a => ih a (h a) (h' a)
  | note e p ih => exact ih h h'

/-! ### Postconditions without the notes -/

/-- Every run that returns does so with a value in `P`, every run that stops
early with a reason in `S`. -/
def Ensures (S : X → Prop) (p : Prog Q A E X α) (P : α → Prop) : Prop :=
  p.Sat fun _ r => match r with
    | .ok a => P a
    | .error x => S x

section Ensures

variable {S : X → Prop}

theorem Ensures.pure {a : α} {P : α → Prop} (h : P a) :
    Ensures S (Pure.pure a : Prog Q A E X α) P := h

theorem Ensures.bind {p : Prog Q A E X α} {f : α → Prog Q A E X β} {P : α → Prop}
    {P' : β → Prop} (h : Ensures S p P) (hf : ∀ a, P a → Ensures S (f a) P') :
    Ensures S (p >>= f) P' :=
  Sat.bind h (fun _ a ha => hf a ha) (fun _ _ hx => hx)

/-- What follows a program matters only at the values it can return. -/
theorem Ensures.bind_congr {p : Prog Q A E X α} {f f' : α → Prog Q A E X β} {P : α → Prop}
    (h : Ensures S p P) (hf : ∀ a, P a → f a = f' a) : p >>= f = p >>= f' := by
  rw [bind_def, bind_def]
  induction p with
  | pure a => exact hf a h
  | stop x => rfl
  | ask q k ih => exact congrArg (Prog.ask q) (funext fun a => ih a (h a))
  | note e p ih => exact congrArg (Prog.note e) (ih h)

theorem Ensures.mono {p : Prog Q A E X α} {P P' : α → Prop} (h : Ensures S p P)
    (hP : ∀ a, P a → P' a) : Ensures S p P' := by
  refine Sat.mono h fun t r hr => ?_
  cases r with
  | ok a => exact hP a hr
  | error x => exact hr

theorem Ensures.weaken {S' : X → Prop} {p : Prog Q A E X α} {P : α → Prop} (h : Ensures S p P)
    (hS : ∀ x, S x → S' x) : Ensures S' p P := by
  refine Sat.mono h fun t r hr => ?_
  cases r with
  | ok a => exact hr
  | error x => exact hS x hr

theorem Ensures.lift {r : Except X α} {P : α → Prop} (hok : ∀ a, r = .ok a → P a)
    (herr : ∀ x, r = .error x → S x) : Ensures S (Prog.lift r : Prog Q A E X α) P := by
  refine sat_lift.mpr ?_
  cases r with
  | ok a => exact hok a rfl
  | error x => exact herr x rfl

theorem Ensures.mapStop {f : X → X} {p : Prog Q A E X α} {P : α → Prop} (h : Ensures S p P)
    (hf : ∀ x, S x → S (f x)) : Ensures S (p.mapStop f) P := by
  induction p with
  | pure a => exact h
  | stop x => exact hf x h
  | ask q k ih => exact fun a => ih a (h a)
  | note e p ih => exact ih h

/-- Any run of a program that ensures something stops only for an allowed reason. -/
theorem Ensures.stops {p : Prog Q A E X α} {P : α → Prop} (h : Ensures S p P)
    (R : (q : Q) → σ → A q × σ) (s : σ) {x : X}
    (hx : (Prog.exec R p s).result = .error x) : S x := by
  have := Sat.exec h R s
  rw [hx] at this
  exact this

/-- Any run of a program that ensures something returns only allowed values. -/
theorem Ensures.returns {p : Prog Q A E X α} {P : α → Prop} (h : Ensures S p P)
    (R : (q : Q) → σ → A q × σ) (s : σ) {a : α}
    (ha : (Prog.exec R p s).result = .ok a) : P a := by
  have := Sat.exec h R s
  rw [ha] at this
  exact this

end Ensures

/-! ### The questions a program can put -/

/-- Every question the program can put, whatever the earlier answers, is in `P`. -/
def Asks (P : Q → Prop) : Prog Q A E X α → Prop
  | .pure _ => True
  | .stop _ => True
  | .ask q k => P q ∧ ∀ a, (k a).Asks P
  | .note _ p => p.Asks P

section Asks

variable {P : Q → Prop}

theorem asks_pure (a : α) : (Pure.pure a : Prog Q A E X α).Asks P := trivial

theorem asks_lift (r : Except X α) : (lift r : Prog Q A E X α).Asks P := by
  cases r <;> trivial

theorem Asks.mono {P' : Q → Prop} {p : Prog Q A E X α} (h : p.Asks P) (hP : ∀ q, P q → P' q) :
    p.Asks P' := by
  induction p with
  | pure a => trivial
  | stop x => trivial
  | ask q k ih => exact ⟨hP q h.1, fun a => ih a (h.2 a)⟩
  | note e p ih => exact ih h

theorem Asks.bind_lift {r : Except X α} {f : α → Prog Q A E X β}
    (hf : ∀ a, r = .ok a → (f a).Asks P) : ((lift r : Prog Q A E X α) >>= f).Asks P := by
  cases r with
  | ok a => exact hf a rfl
  | error x => trivial

theorem Asks.bind {p : Prog Q A E X α} {f : α → Prog Q A E X β} (h : p.Asks P)
    (hf : ∀ a, (f a).Asks P) : (p >>= f).Asks P := by
  rw [bind_def]
  induction p with
  | pure a => exact hf a
  | stop x => trivial
  | ask q k ih => exact ⟨h.1, fun a => ih a (h.2 a)⟩
  | note e p ih => exact ih h

theorem Asks.mapStop {f : X → X} {p : Prog Q A E X α} (h : p.Asks P) : (p.mapStop f).Asks P := by
  induction p with
  | pure a => trivial
  | stop x => trivial
  | ask q k ih => exact ⟨h.1, fun a => ih a (h.2 a)⟩
  | note e p ih => exact ih h

end Asks

/-! ### The notes a program can leave -/

/-- Every note the program can leave, whatever the answers, is in `P`. -/
def Notes (P : E → Prop) : Prog Q A E X α → Prop
  | .pure _ => True
  | .stop _ => True
  | .ask _ k => ∀ a, (k a).Notes P
  | .note e p => P e ∧ p.Notes P

section Notes

variable {P : E → Prop}

theorem notes_pure (a : α) : (Pure.pure a : Prog Q A E X α).Notes P := trivial

theorem notes_lift (r : Except X α) : (lift r : Prog Q A E X α).Notes P := by
  cases r <;> trivial

theorem Notes.bind {p : Prog Q A E X α} {f : α → Prog Q A E X β} (h : p.Notes P)
    (hf : ∀ a, (f a).Notes P) : (p >>= f).Notes P := by
  rw [bind_def]
  induction p with
  | pure a => exact hf a
  | stop x => trivial
  | ask q k ih => exact fun a => ih a (h a)
  | note e p ih => exact ⟨h.1, ih h.2⟩

theorem Notes.mono {P' : E → Prop} {p : Prog Q A E X α} (h : p.Notes P) (hP : ∀ e, P e → P' e) :
    p.Notes P' := by
  induction p with
  | pure a => trivial
  | stop x => trivial
  | ask q k ih => exact fun a => ih a (h a)
  | note e p ih => exact ⟨hP e h.1, ih h.2⟩

theorem Notes.mapStop {f : X → X} {p : Prog Q A E X α} (h : p.Notes P) :
    (p.mapStop f).Notes P := by
  induction p with
  | pure a => trivial
  | stop x => trivial
  | ask q k ih => exact fun a => ih a (h a)
  | note e p ih => exact ⟨h.1, ih h.2⟩

theorem Notes.sat {p : Prog Q A E X α} (h : p.Notes P) : p.Sat fun t _ => ∀ e ∈ t, P e := by
  induction p with
  | pure a => exact fun e he => by cases he
  | stop x => exact fun e he => by cases he
  | ask q k ih => exact fun a => ih a (h a)
  | note e p ih =>
    refine (ih h.2).mono fun t r ht e' he' => ?_
    rcases List.mem_cons.mp he' with rfl | he'
    · exact h.1
    · exact ht e' he'

end Notes

/-! ### Notes and results together -/

/-- Every run leaves only notes in `P` and returns, if it does, a value in `Q`. -/
def Within (P : E → Prop) (p : Prog Q A E X α) (F : α → Prop) : Prop :=
  p.Sat fun t r => (∀ e ∈ t, P e) ∧ ∀ a, r = .ok a → F a

section Within

variable {P : E → Prop}

theorem within_pure {a : α} {F : α → Prop} (h : F a) :
    Within P (Pure.pure a : Prog Q A E X α) F := by
  refine ⟨by simp, fun a' ha' => ?_⟩
  cases ha'
  exact h

theorem within_lift {r : Except X α} {F : α → Prop} (h : ∀ a, r = .ok a → F a) :
    Within P (lift r : Prog Q A E X α) F :=
  sat_lift.mpr ⟨by simp, h⟩

theorem Within.bind {p : Prog Q A E X α} {f : α → Prog Q A E X β} {F : α → Prop} {F' : β → Prop}
    (h : Within P p F) (hf : ∀ a, F a → Within P (f a) F') : Within P (p >>= f) F' := by
  refine Sat.bind h (fun t a ht => ?_) fun t x ht => ⟨ht.1, fun a ha => by cases ha⟩
  refine (hf a (ht.2 a rfl)).mono fun t' r' ht' => ⟨fun e he => ?_, ht'.2⟩
  rcases List.mem_append.mp he with he | he
  · exact ht.1 e he
  · exact ht'.1 e he

theorem Within.mono {p : Prog Q A E X α} {F F' : α → Prop} (h : Within P p F)
    (hF : ∀ a, F a → F' a) : Within P p F' :=
  Sat.mono h fun _ _ ht => ⟨ht.1, fun a ha => hF a (ht.2 a ha)⟩

/-- The two halves proved apart. -/
theorem Notes.within {p : Prog Q A E X α} {F : α → Prop} (h : p.Notes P)
    (hF : Ensures (fun _ => True) p F) : Within P p F := by
  refine (h.sat.and hF).mono fun t r ht => ⟨ht.1, fun a ha => ?_⟩
  have hr := ht.2
  rw [ha] at hr
  exact hr

end Within

/-! ### Notes after which nothing is returned -/

/-- A run that leaves a note in `Bad` does not return: it stops, for a reason in `S`. -/
def Refuses (Bad : E → Prop) (S : X → Prop) (p : Prog Q A E X α) : Prop :=
  p.Sat fun t r => (∃ e ∈ t, Bad e) → ∃ x, r = .error x ∧ S x

section Refuses

variable {Bad : E → Prop} {S : X → Prop}

theorem Notes.refuses {p : Prog Q A E X α} (h : p.Notes fun e => ¬ Bad e) : p.Refuses Bad S := by
  refine h.sat.mono fun t r ht hbad => ?_
  obtain ⟨e, he, hb⟩ := hbad
  exact absurd hb (ht e he)

theorem refuses_pure (a : α) : (Pure.pure a : Prog Q A E X α).Refuses Bad S :=
  (notes_pure a).refuses

theorem refuses_lift (r : Except X α) : (lift r : Prog Q A E X α).Refuses Bad S :=
  (notes_lift r).refuses

/-- A program that goes on from a value has left no such note before. -/
theorem Refuses.bind {p : Prog Q A E X α} {f : α → Prog Q A E X β} {P : α → Prop}
    (hp : p.Refuses Bad S) (hP : Ensures (fun _ => True) p P)
    (hf : ∀ a, P a → (f a).Refuses Bad S) : (p >>= f).Refuses Bad S := by
  refine Sat.bind (hp.and hP) (fun t a h => ?_) fun t x h hbad => ?_
  · refine (hf a h.2).mono fun t' r h' hbad => h' ?_
    obtain ⟨e, he, hb⟩ := hbad
    rcases List.mem_append.mp he with he | he
    · -- noted before the value: then there was no value
      obtain ⟨x, hx, -⟩ := h.1 ⟨e, he, hb⟩
      cases hx
    · exact ⟨e, he, hb⟩
  · obtain ⟨y, hy, hS⟩ := h.1 hbad
    cases hy
    exact ⟨x, rfl, hS⟩

theorem Refuses.note {e : E} {p : Prog Q A E X α} (hp : p.Refuses Bad S)
    (h : Bad e → Ensures S p fun _ => False) : (Prog.note e p).Refuses Bad S := by
  show p.Sat fun t r => (∃ e' ∈ e :: t, Bad e') → ∃ x, r = .error x ∧ S x
  by_cases he : Bad e
  · refine Sat.mono (h he) fun t r hr _ => ?_
    cases r with
    | ok a => exact absurd hr id
    | error x => exact ⟨x, rfl, hr⟩
  · refine Sat.mono hp fun t r hr hbad => hr ?_
    obtain ⟨e', he', hb⟩ := hbad
    rcases List.mem_cons.mp he' with rfl | he'
    · exact absurd hb he
    · exact ⟨e', he', hb⟩

end Refuses

/-! ### Leaving notes out -/

/-- The same program without the notes in `drop`. -/
def without (drop : E → Bool) : Prog Q A E X α → Prog Q A E X α
  | .pure a => .pure a
  | .stop x => .stop x
  | .ask q k => .ask q fun a => (k a).without drop
  | .note e p => if drop e then p.without drop else .note e (p.without drop)

section Without

variable {drop : E → Bool}

theorem without_lift (r : Except X α) :
    (lift r : Prog Q A E X α).without drop = lift r := by
  cases r <;> rfl

theorem without_bind (p : Prog Q A E X α) (f : α → Prog Q A E X β) :
    (p >>= f).without drop = p.without drop >>= fun a => (f a).without drop := by
  rw [bind_def, bind_def]
  induction p with
  | pure a => rfl
  | stop x => rfl
  | ask q k ih => exact congrArg (Prog.ask q) (funext ih)
  | note e p ih =>
    show (if drop e then _ else _) = Prog.bind (if drop e then _ else _) _
    by_cases he : drop e = true
    · rw [if_pos he, if_pos he]
      exact ih
    · rw [if_neg he, if_neg he]
      exact congrArg (Prog.note e) ih

/-- A program that leaves no such note stays as it is. -/
theorem Notes.without_eq {p : Prog Q A E X α} (h : p.Notes fun e => drop e = false) :
    p.without drop = p := by
  induction p with
  | pure a => rfl
  | stop x => rfl
  | ask q k ih => exact congrArg (Prog.ask q) (funext fun a => ih a (h a))
  | note e p ih =>
    show (if drop e then _ else _) = _
    rw [h.1]
    exact congrArg (Prog.note e) (ih h.2)

end Without

end Prog
