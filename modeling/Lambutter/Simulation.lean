/-
Programs that differ in their questions only.

`Alike B p p'` says that `p` and `p'` do the same with whatever they learn, and that
each part in which one puts questions has a counterpart in the other: a `q` against a
`q'` with `B q q'`.  The two may ask about different things and be answered by
different respondents.  A statement about the parts then carries over to the programs:

* if a part comes to the same result on both sides, or fails for a reason in `S` on
  the first, so does the program (`Alike.upholds`);
* if the parts ask only questions in `P`, so does the program (`Alike.asks`);
* if the parts show where the answers of two respondents differ, so does the program
  (`Alike.reveals`);
* if the parts give up at the first bad answer, so does the program (`Alike.givesUp`),
  and then a bad answer is the last one of any run and decides its result
  (`GivesUp.exec`).
-/
import Lambutter.Programs

namespace Prog

variable {Q Q' : Type} {A : Q → Type} {A' : Q' → Type} {E X α β σ : Type}

/-! ### Results that agree but for some failures -/

/-- `r'` is `r` again, unless `r` is a failure for a reason in `S`. -/
def Upholds (S : X → Prop) (r r' : Except X α) : Prop := r' = r ∨ ∃ x, r = .error x ∧ S x

section Upholds

variable {S : X → Prop}

@[refl] theorem Upholds.refl (r : Except X α) : Upholds S r r := .inl rfl

theorem Upholds.trans {r r' r'' : Except X α} (h : Upholds S r r') (h' : Upholds S r' r'') :
    Upholds S r r'' := by
  rcases h with rfl | h
  · exact h'
  · exact .inr h

theorem Upholds.ok {r r' : Except X α} (h : Upholds S r r') {a : α} (ha : r = .ok a) :
    r' = .ok a := by
  rcases h with rfl | ⟨x, hx, -⟩
  · exact ha
  · rw [ha] at hx
    cases hx

theorem Upholds.bind {r r' : Except X β} {f f' : β → Except X α} (h : Upholds S r r')
    (hf : ∀ b, r = .ok b → Upholds S (f b) (f' b)) : Upholds S (r.bind f) (r'.bind f') := by
  rcases h with rfl | ⟨x, rfl, hx⟩
  · cases r' with
    | error x => exact Upholds.refl _
    | ok b => exact hf b rfl
  · exact .inr ⟨x, rfl, hx⟩

end Upholds

/-! ### Programs built alike -/

/-- The same program but for the parts related by `B`, in which all questions are put. -/
inductive Alike (B : Prog Q A E X β → Prog Q' A' E X β → Prop) :
    Prog Q A E X α → Prog Q' A' E X α → Prop
  | pure (a : α) : Alike B (.pure a) (.pure a)
  | stop (x : X) : Alike B (.stop x) (.stop x)
  | note (e : E) {p : Prog Q A E X α} {p' : Prog Q' A' E X α} (h : Alike B p p') :
      Alike B (.note e p) (.note e p')
  | part {q : Prog Q A E X β} {q' : Prog Q' A' E X β} {k : β → Prog Q A E X α}
      {k' : β → Prog Q' A' E X α} (hq : B q q') (hk : ∀ b, Alike B (k b) (k' b)) :
      Alike B (q.bind k) (q'.bind k')

section Alike

variable {B : Prog Q A E X β → Prog Q' A' E X β → Prop}

theorem alike_pure (a : α) :
    Alike B (Pure.pure a : Prog Q A E X α) (Pure.pure a : Prog Q' A' E X α) := .pure a

theorem alike_lift (r : Except X α) :
    Alike B (lift r : Prog Q A E X α) (lift r : Prog Q' A' E X α) := by
  cases r with
  | ok a => exact .pure a
  | error x => exact .stop x

/-- A part on its own. -/
theorem alike_part {q : Prog Q A E X β} {q' : Prog Q' A' E X β} (h : B q q') : Alike B q q' := by
  have hq : Alike B (q.bind .pure) (q'.bind .pure) := .part h .pure
  rwa [show q.bind .pure = q from bind_pure_id q,
    show q'.bind .pure = q' from bind_pure_id q'] at hq

theorem Alike.bind {γ : Type} {p : Prog Q A E X α} {p' : Prog Q' A' E X α}
    {f : α → Prog Q A E X γ} {f' : α → Prog Q' A' E X γ} (h : Alike B p p')
    (hf : ∀ a, Alike B (f a) (f' a)) : Alike B (p >>= f) (p' >>= f') := by
  rw [bind_def, bind_def]
  induction h with
  | pure a => exact hf a
  | stop x => exact .stop x
  | note e _ ih => exact .note e ih
  | part hq _ ih =>
    rw [bind_bind, bind_bind]
    exact .part hq ih

/-- What comes before a computation that asks nothing is the same on both sides. -/
theorem Alike.bind_lift {γ : Type} {r : Except X α} {f : α → Prog Q A E X γ}
    {f' : α → Prog Q' A' E X γ} (hf : ∀ a, r = .ok a → Alike B (f a) (f' a)) :
    Alike B ((lift r : Prog Q A E X α) >>= f) ((lift r : Prog Q' A' E X α) >>= f') := by
  cases r with
  | ok a => exact hf a rfl
  | error x => exact .stop x

/-! ### What carries over from the parts -/

theorem Alike.asks {P : Q → Prop} (hB : ∀ q q', B q q' → q.Asks P) {p : Prog Q A E X α}
    {p' : Prog Q' A' E X α} (h : Alike B p p') : p.Asks P := by
  induction h with
  | pure a => trivial
  | stop x => trivial
  | note e _ ih => exact ih
  | part hq _ ih => exact Asks.bind (hB _ _ hq) ih

/-- The first program against any respondent, the second against fixed answers. -/
theorem Alike.upholds {S : X → Prop} {R : (q : Q) → σ → A q × σ} {g' : (q : Q') → A' q}
    (hB : ∀ q q', B q q' → ∀ s, Upholds S (exec R q s).result (run g' q'))
    {p : Prog Q A E X α} {p' : Prog Q' A' E X α} (h : Alike B p p') (s : σ) :
    Upholds S (exec R p s).result (run g' p') := by
  induction h generalizing s with
  | pure a => exact Upholds.refl _
  | stop x => exact Upholds.refl _
  | note e _ ih => exact ih s
  | @part q q' k k' hq _ ih =>
    have hp := exec_bind_result R q k s
    have hp' := exec_bind_result (fun q (_ : Unit) => (g' q, ())) q' k' ()
    rw [bind_def] at hp hp'
    rw [hp, run, hp']
    exact (hB _ _ hq s).bind fun b _ => ih b _

/-- Both programs against fixed answers. -/
theorem Alike.upholds_run {S : X → Prop} {g : (q : Q) → A q} {g' : (q : Q') → A' q}
    (hB : ∀ q q', B q q' → Upholds S (run g q) (run g' q')) {p : Prog Q A E X α}
    {p' : Prog Q' A' E X α} (h : Alike B p p') : Upholds S (run g p) (run g' p') :=
  h.upholds (fun q q' hq _ => hB q q' hq) ()

/-- `r'` is `r` again, unless `r` fails for a reason in `S`, or `r'` fails for one that
something noted on the way to `r` accounts for. -/
def Reveals (S : X → Prop) (N : E → X → Prop) (t : List E) (r r' : Except X α) : Prop :=
  r' = r ∨ (∃ x, r = .error x ∧ S x) ∨ ∃ e ∈ t, ∃ x, r' = .error x ∧ N e x

/-- A difference in the answers is revealed by the program when it is revealed by the
parts, each of which may count on what is known of the notes. -/
theorem Alike.reveals {S : X → Prop} {N : E → X → Prop} {P : E → Prop} {g : (q : Q) → A q}
    {g' : (q : Q') → A' q} (hB : ∀ q q', B q q' → (∀ e ∈ trace g q, P e) →
      Reveals S N (trace g q) (run g q) (run g' q')) {p : Prog Q A E X α}
    {p' : Prog Q' A' E X α} (h : Alike B p p') (hP : ∀ e ∈ trace g p, P e) :
    Reveals S N (trace g p) (run g p) (run g' p') := by
  induction h with
  | pure a => exact .inl rfl
  | stop x => exact .inl rfl
  | note e _ ih =>
    rcases ih fun e' he' => hP e' (List.mem_cons_of_mem e he') with h | h | ⟨e', he', h⟩
    · exact .inl h
    · exact .inr (.inl h)
    · exact .inr (.inr ⟨e', List.mem_cons_of_mem e he', h⟩)
  | @part q q' k k' hq _ ih =>
    have hrun := run_bind g q k
    have hrun' := run_bind g' q' k'
    have htrace := trace_bind g q k
    rw [bind_def] at hrun hrun' htrace
    rw [htrace] at hP ⊢
    rw [hrun, hrun']
    rcases hB q q' hq fun e he => hP e (List.mem_append_left _ he) with h | ⟨x, h, hx⟩ |
      ⟨e, he, x, h, hx⟩
    · rw [h]
      cases hr : run g q with
      | error x => exact .inl rfl
      | ok b =>
        rw [hr] at hP
        rcases ih b fun e he => hP e (List.mem_append_right _ he) with h | h | ⟨e, he, h⟩
        · exact .inl h
        · exact .inr (.inl h)
        · exact .inr (.inr ⟨e, List.mem_append_right _ he, h⟩)
    · rw [h]
      exact .inr (.inl ⟨x, rfl, hx⟩)
    · rw [h]
      exact .inr (.inr ⟨e, List.mem_append_left _ he, x, rfl, hx⟩)

end Alike

/-! ### Questions and answers of a run -/

/-- The questions of a run with the answers they got, in order. -/
def dialogue (R : (q : Q) → σ → A q × σ) : Prog Q A E X α → σ → List ((q : Q) × A q)
  | .pure _, _ => []
  | .stop _, _ => []
  | .ask q k, s => ⟨q, (R q s).1⟩ :: dialogue R (k (R q s).1) (R q s).2
  | .note _ p, s => dialogue R p s

section Dialogue

variable {R : (q : Q) → σ → A q × σ}

/-- Every answer is one the respondent gave. -/
theorem mem_dialogue {p : Prog Q A E X α} {s : σ} {d : (q : Q) × A q}
    (h : d ∈ dialogue R p s) : ∃ s', d.2 = (R d.1 s').1 := by
  induction p generalizing s with
  | pure a => cases h
  | stop x => cases h
  | ask q k ih =>
    rcases List.mem_cons.mp h with rfl | h
    · exact ⟨s, rfl⟩
    · exact ih _ h
  | note e p ih => exact ih h

/-- A run whose answers were the fixed ones has the result of `run`. -/
theorem exec_of_dialogue {g : (q : Q) → A q} {p : Prog Q A E X α} {s : σ}
    (h : ∀ d ∈ dialogue R p s, d.2 = g d.1) : (exec R p s).result = run g p := by
  induction p generalizing s with
  | pure a => rfl
  | stop x => rfl
  | ask q k ih =>
    have hq : (R q s).1 = g q := h _ List.mem_cons_self
    show (exec R (k (R q s).1) (R q s).2).result = run g (k (g q))
    rw [← hq]
    exact ih _ fun d hd => h d (List.mem_cons_of_mem _ hd)
  | note e p ih => exact ih h

/-- Every question of a run is one the program can put. -/
theorem Asks.dialogue {P : Q → Prop} {p : Prog Q A E X α} (h : p.Asks P) {s : σ} :
    ∀ d ∈ dialogue R p s, P d.1 := by
  induction p generalizing s with
  | pure a => exact fun d hd => absurd hd List.not_mem_nil
  | stop x => exact fun d hd => absurd hd List.not_mem_nil
  | ask q k ih =>
    intro d hd
    rcases List.mem_cons.mp hd with rfl | hd
    · exact h.1
    · exact ih _ (h.2 _) d hd
  | note e p ih => exact ih h

end Dialogue

/-! ### Giving up at the first bad answer -/

/-- After a bad answer to `q` the program stops at once, for a reason in `S q`. -/
def GivesUp (Bad : (q : Q) → A q → Prop) (S : Q → X → Prop) : Prog Q A E X α → Prop
  | .pure _ => True
  | .stop _ => True
  | .ask q k => ∀ a, (Bad q a → ∃ x, k a = .stop x ∧ S q x) ∧ (k a).GivesUp Bad S
  | .note _ p => p.GivesUp Bad S

section GivesUp

variable {Bad : (q : Q) → A q → Prop} {S : Q → X → Prop}

theorem givesUp_pure (a : α) : (Pure.pure a : Prog Q A E X α).GivesUp Bad S := trivial

theorem givesUp_lift (r : Except X α) : (lift r : Prog Q A E X α).GivesUp Bad S := by
  cases r <;> trivial

theorem GivesUp.bind {p : Prog Q A E X α} {f : α → Prog Q A E X β} (h : p.GivesUp Bad S)
    (hf : ∀ a, (f a).GivesUp Bad S) : (p >>= f).GivesUp Bad S := by
  rw [bind_def]
  induction p with
  | pure a => exact hf a
  | stop x => trivial
  | ask q k ih =>
    intro a
    refine ⟨fun hbad => ?_, ih a (h a).2⟩
    obtain ⟨x, hx, hS⟩ := (h a).1 hbad
    refine ⟨x, ?_, hS⟩
    show (k a).bind f = .stop x
    rw [hx]
    rfl
  | note e p ih => exact ih h

theorem Alike.givesUp {B : Prog Q A E X β → Prog Q' A' E X β → Prop}
    (hB : ∀ q q', B q q' → q.GivesUp Bad S) {p : Prog Q A E X α} {p' : Prog Q' A' E X α}
    (h : Alike B p p') : p.GivesUp Bad S := by
  induction h with
  | pure a => trivial
  | stop x => trivial
  | note e _ ih => exact ih
  | part hq _ ih => exact GivesUp.bind (hB _ _ hq) ih

/-- A run of such a program either got no bad answer, or the bad answer was its last
one and gave the reason it stopped for. -/
theorem GivesUp.exec {p : Prog Q A E X α} (h : p.GivesUp Bad S) (R : (q : Q) → σ → A q × σ)
    (s : σ) : (∀ d ∈ dialogue R p s, ¬ Bad d.1 d.2) ∨
      ∃ before q a x, dialogue R p s = before ++ [⟨q, a⟩] ∧ (∀ d ∈ before, ¬ Bad d.1 d.2) ∧
        Bad q a ∧ (exec R p s).result = .error x ∧ S q x := by
  induction p generalizing s with
  | pure a => exact .inl fun d hd => absurd hd List.not_mem_nil
  | stop x => exact .inl fun d hd => absurd hd List.not_mem_nil
  | ask q k ih =>
    by_cases hbad : Bad q (R q s).1
    · obtain ⟨x, hx, hS⟩ := (h (R q s).1).1 hbad
      refine .inr ⟨[], q, (R q s).1, x, ?_, fun d hd => absurd hd List.not_mem_nil, hbad, ?_, hS⟩
      · show _ :: dialogue R (k (R q s).1) (R q s).2 = _
        rw [hx]
        rfl
      · show (Prog.exec R (k (R q s).1) (R q s).2).result = _
        rw [hx]
        rfl
    · rcases ih _ (h (R q s).1).2 (R q s).2 with hgood | ⟨before, q', a, x, hd, hgood, hrest⟩
      · refine .inl fun d hd => ?_
        rcases List.mem_cons.mp hd with rfl | hd
        · exact hbad
        · exact hgood d hd
      · refine .inr ⟨⟨q, (R q s).1⟩ :: before, q', a, x, ?_, fun d hd => ?_, hrest⟩
        · show _ :: dialogue R (k (R q s).1) (R q s).2 = _
          rw [hd]
          rfl
        · rcases List.mem_cons.mp hd with rfl | hd
          · exact hbad
          · exact hgood d hd
  | note e p ih => exact ih h s

end GivesUp

/-! ### Questions of runs that return -/

/-- Some run of the program returns this value. -/
def CanReturn : Prog Q A E X α → α → Prop
  | .pure a, b => a = b
  | .stop _, _ => False
  | .ask _ k, b => ∃ a, (k a).CanReturn b
  | .note _ p, b => p.CanReturn b

/-- In a run that returns `a` every question is in `P a`. -/
def AsksFor (P : α → Q → Prop) : Prog Q A E X α → Prop
  | .pure _ => True
  | .stop _ => True
  | .ask q k => ∀ a, (∀ b, (k a).CanReturn b → P b q) ∧ (k a).AsksFor P
  | .note _ p => p.AsksFor P

section AsksFor

theorem Ensures.of_canReturn {S : X → Prop} {p : Prog Q A E X α} {F : α → Prop}
    (h : Ensures S p F) {a : α} (ha : p.CanReturn a) : F a := by
  induction p with
  | pure b =>
    obtain rfl : b = a := ha
    exact h
  | stop x => exact absurd ha id
  | ask q k ih =>
    obtain ⟨ans, ha⟩ := ha
    exact ih ans (h ans) ha
  | note e p ih => exact ih h ha

theorem canReturn_bind {p : Prog Q A E X α} {f : α → Prog Q A E X β} {b : β} :
    (p >>= f).CanReturn b ↔ ∃ a, p.CanReturn a ∧ (f a).CanReturn b := by
  rw [bind_def]
  induction p with
  | pure a =>
    constructor
    · intro h
      exact ⟨a, rfl, h⟩
    · rintro ⟨a', rfl, h⟩
      exact h
  | stop x =>
    constructor
    · intro h
      exact absurd h id
    · rintro ⟨a, h, -⟩
      exact h
  | ask q k ih =>
    constructor
    · rintro ⟨ans, h⟩
      obtain ⟨a, ha, hb⟩ := (ih ans).mp h
      exact ⟨a, ⟨ans, ha⟩, hb⟩
    · rintro ⟨a, ⟨ans, ha⟩, hb⟩
      exact ⟨ans, (ih ans).mpr ⟨a, ha, hb⟩⟩
  | note e p ih => exact ih

variable {P : α → Q → Prop}

theorem asksFor_pure (a : α) : (Pure.pure a : Prog Q A E X α).AsksFor P := trivial

theorem asksFor_lift (r : Except X α) : (lift r : Prog Q A E X α).AsksFor P := by
  cases r <;> trivial

/-- What is known of the questions and of the value returned, taken together. -/
theorem AsksFor.mono {P' : α → Q → Prop} {p : Prog Q A E X α} (h : p.AsksFor P)
    (hP : ∀ a q, p.CanReturn a → P a q → P' a q) : p.AsksFor P' := by
  induction p with
  | pure a => trivial
  | stop x => trivial
  | ask q k ih =>
    intro a
    refine ⟨fun b hb => hP b q ⟨a, hb⟩ ((h a).1 b hb), ih a (h a).2 fun b q' hb => ?_⟩
    exact hP b q' ⟨a, hb⟩
  | note e p ih => exact ih h hP

theorem Asks.asksFor {P : Q → Prop} {p : Prog Q A E X α} (h : p.Asks P) :
    p.AsksFor fun _ => P := by
  induction p with
  | pure a => trivial
  | stop x => trivial
  | ask q k ih => exact fun a => ⟨fun _ _ => h.1, ih a (h.2 a)⟩
  | note e p ih => exact ih h

theorem AsksFor.bind {P' : β → Q → Prop} {p : Prog Q A E X α} {f : α → Prog Q A E X β}
    (h : p.AsksFor P) (hf : ∀ a, p.CanReturn a → (f a).AsksFor P')
    (hP : ∀ a b q, p.CanReturn a → (f a).CanReturn b → P a q → P' b q) : (p >>= f).AsksFor P' := by
  rw [bind_def]
  induction p with
  | pure a => exact hf a rfl
  | stop x => trivial
  | ask q k ih =>
    intro ans
    refine ⟨fun b hb => ?_, ih ans (h ans).2 (fun a ha => hf a ⟨ans, ha⟩)
      fun a b q' ha => hP a b q' ⟨ans, ha⟩⟩
    obtain ⟨a, ha, hb⟩ := canReturn_bind.mp (show ((k ans) >>= f).CanReturn b from hb)
    exact hP a b q ⟨ans, ha⟩ hb ((h ans).1 a ha)
  | note e p ih => exact ih h hf hP

theorem canReturn_of_exec {R : (q : Q) → σ → A q × σ} {p : Prog Q A E X α} {s : σ} {a : α}
    (h : (exec R p s).result = .ok a) : p.CanReturn a := by
  induction p generalizing s with
  | pure b => exact Except.ok.inj h
  | stop x => cases h
  | ask q k ih => exact ⟨_, ih _ h⟩
  | note e p ih => exact ih h

theorem AsksFor.exec {p : Prog Q A E X α} (h : p.AsksFor P) {R : (q : Q) → σ → A q × σ} {s : σ}
    {a : α} (ha : (Prog.exec R p s).result = .ok a) : ∀ d ∈ Prog.dialogue R p s, P a d.1 := by
  induction p generalizing s with
  | pure b => exact fun d hd => absurd hd List.not_mem_nil
  | stop x => exact fun d hd => absurd hd List.not_mem_nil
  | ask q k ih =>
    intro d hd
    rcases List.mem_cons.mp hd with rfl | hd
    · exact (h _).1 a (canReturn_of_exec ha)
    · exact ih _ (h _).2 ha d hd
  | note e p ih => exact ih h ha

end AsksFor

end Prog
