/-
Computations that go through positions in order.

`Scans Good Trip tripped S p q r` says of the result `r` of a computation over the
positions from `p` up to `q` that it returns exactly when each of them is good, and that
otherwise the first that is not decides how it stops: with `tripped` when that position
trips, with an error in `S` when it does not.

How such a computation is cut into parts does not show in its result (`Scans.bind`), so a
bound on what a part may take is no reason for it to end differently (`Scans.stops_iff`).
-/
import Mathlib.Order.Nat
import Mathlib.Order.Basic

structure Scans {ε α : Type} (Good Trip : ℕ → Prop) (tripped : ε) (S : ε → Prop) (p q : ℕ)
    (r : Except ε α) : Prop where
  ok_iff : (∃ a, r = .ok a) ↔ ∀ i, p ≤ i → i < q → Good i
  trip_iff : r = .error tripped ↔
    ∃ i, p ≤ i ∧ i < q ∧ (∀ j, p ≤ j → j < i → Good j) ∧ Trip i
  stops : ∀ x, r = .error x → x = tripped ∨ S x

namespace Scans

variable {ε α β : Type} {Good Trip : ℕ → Prop} {tripped : ε} {S : ε → Prop} {p m q : ℕ}

theorem congr {Good' Trip' : ℕ → Prop} {r : Except ε α} (h : Scans Good' Trip' tripped S p q r)
    (hgood : ∀ i, p ≤ i → i < q → (Good i ↔ Good' i))
    (htrip : ∀ i, p ≤ i → i < q → (Trip i ↔ Trip' i)) : Scans Good Trip tripped S p q r where
  ok_iff := h.ok_iff.trans (forall_congr' fun i => forall_congr' fun hp => forall_congr' fun hq =>
    (hgood i hp hq).symm)
  trip_iff := by
    rw [h.trip_iff]
    refine exists_congr fun i => and_congr_right fun hp => and_congr_right fun hq => ?_
    refine and_congr (forall_congr' fun j => forall_congr' fun hj => forall_congr' fun hji => ?_)
      (htrip i hp hq).symm
    exact (hgood j hj (hji.trans hq)).symm
  stops := h.stops

section Exclusive

variable (hexcl : ∀ i, Trip i → ¬ Good i)

include hexcl

/-- Over good positions a computation returns. -/
theorem of_good (a : α) (h : ∀ i, p ≤ i → i < q → Good i) :
    Scans Good Trip tripped S p q (.ok a : Except ε α) where
  ok_iff := ⟨fun _ => h, fun _ => ⟨a, rfl⟩⟩
  trip_iff := by
    refine ⟨fun h => (nomatch h), ?_⟩
    rintro ⟨i, hp, hq, -, htrip⟩
    exact absurd (h i hp hq) (hexcl i htrip)
  stops x hx := by cases hx

/-- One part after the other: the position at which the first part ends does not matter. -/
theorem bind {r : Except ε α} {f : α → Except ε β} (hpm : p ≤ m) (hmq : m ≤ q)
    (hr : Scans Good Trip tripped S p m r)
    (hf : ∀ a, r = .ok a → Scans Good Trip tripped S m q (f a)) :
    Scans Good Trip tripped S p q (r >>= f) := by
  -- where the first part stops decides: past its end all before is good, and a stop in it is
  -- the stop of the whole
  cases r with
  | ok a =>
    have hfront : ∀ i, p ≤ i → i < m → Good i := hr.ok_iff.mp ⟨a, rfl⟩
    have hrest := hf a rfl
    show Scans Good Trip tripped S p q (f a)
    refine ⟨hrest.ok_iff.trans ⟨fun h i hp hq => ?_, fun h i hm hq => h i (hpm.trans hm) hq⟩,
      hrest.trip_iff.trans ⟨?_, ?_⟩, hrest.stops⟩
    · by_cases hi : i < m
      · exact hfront i hp hi
      · exact h i (not_lt.mp hi) hq
    · rintro ⟨i, hm, hq, hbefore, htrip⟩
      refine ⟨i, hpm.trans hm, hq, fun j hp hj => ?_, htrip⟩
      by_cases hjm : j < m
      · exact hfront j hp hjm
      · exact hbefore j (not_lt.mp hjm) hj
    · rintro ⟨i, hp, hq, hbefore, htrip⟩
      have hm : m ≤ i := by
        by_contra hlt
        exact hexcl i htrip (hfront i hp (not_le.mp hlt))
      exact ⟨i, hm, hq, fun j hj hji => hbefore j (hpm.trans hj) hji, htrip⟩
  | error x =>
    have hnot : ¬ ∀ i, p ≤ i → i < m → Good i := by
      rw [← hr.ok_iff]
      rintro ⟨a, ha⟩
      cases ha
    show Scans Good Trip tripped S p q (.error x)
    refine ⟨⟨fun ⟨a, ha⟩ => (nomatch ha),
      fun h => absurd (fun i hp hm => h i hp (hm.trans_le hmq)) hnot⟩, ⟨fun hx => ?_, ?_⟩,
      fun y hy => ?_⟩
    · cases hx
      obtain ⟨i, hp, hm, hrest⟩ := hr.trip_iff.mp rfl
      exact ⟨i, hp, hm.trans_le hmq, hrest⟩
    · rintro ⟨i, hp, hq, hbefore, htrip⟩
      have him : i < m := by
        by_contra hge
        exact hnot fun j hj hjm => hbefore j hj (hjm.trans_le (not_lt.mp hge))
      cases hr.trip_iff.mpr ⟨i, hp, him, hbefore, htrip⟩
      rfl
    · cases hy
      exact hr.stops x rfl

/-- Good positions in front do not show. -/
theorem after_good {r : Except ε α} (hpm : p ≤ m) (hmq : m ≤ q)
    (hgood : ∀ i, p ≤ i → i < m → Good i) (h : Scans Good Trip tripped S m q r) :
    Scans Good Trip tripped S p q r :=
  bind hexcl hpm hmq (of_good hexcl () hgood) fun _ _ => h

theorem map {r : Except ε α} (f : α → β) (h : Scans Good Trip tripped S p q r) (hpq : p ≤ q) :
    Scans Good Trip tripped S p q (r >>= fun a => .ok (f a)) :=
  bind hexcl hpq le_rfl h fun _ _ => of_good hexcl _ fun _ hq hlt => absurd hlt (not_lt.mpr hq)

/-- When a computation stops with an error in `S`: the first position that is not good does
not trip. -/
theorem stops_iff (hS : ¬ S tripped) {r : Except ε α} (h : Scans Good Trip tripped S p q r) :
    (∃ x, S x ∧ r = .error x) ↔
      ∃ i, p ≤ i ∧ i < q ∧ (∀ j, p ≤ j → j < i → Good j) ∧ ¬ Good i ∧ ¬ Trip i := by
  classical
  constructor
  · rintro ⟨x, hx, rfl⟩
    have hbad : ∃ i, p ≤ i ∧ i < q ∧ ¬ Good i := by
      by_contra hall
      obtain ⟨a, ha⟩ := h.ok_iff.mpr fun i hp hq => by
        by_contra hi
        exact hall ⟨i, hp, hq, hi⟩
      cases ha
    obtain ⟨hp, hq, hi⟩ := Nat.find_spec hbad
    have hbefore : ∀ j, p ≤ j → j < Nat.find hbad → Good j := by
      intro j hj hlt
      by_contra hj'
      exact Nat.find_min hbad hlt ⟨hj, hlt.trans hq, hj'⟩
    refine ⟨Nat.find hbad, hp, hq, hbefore, hi, fun htrip => ?_⟩
    cases h.trip_iff.mpr ⟨_, hp, hq, hbefore, htrip⟩
    exact hS hx
  · rintro ⟨i, hp, hq, hbefore, hi, htrip⟩
    cases r with
    | ok a => exact absurd (h.ok_iff.mp ⟨a, rfl⟩ i hp hq) hi
    | error x =>
      rcases h.stops x rfl with rfl | hx
      · obtain ⟨k, hkp, hkq, hkbefore, hk⟩ := h.trip_iff.mp rfl
        -- both are the first that is not good
        rcases lt_trichotomy k i with hlt | rfl | hlt
        · exact absurd (hbefore k hkp hlt) (hexcl k hk)
        · exact absurd hk htrip
        · exact absurd (hkbefore i hp hlt) hi
      · exact ⟨x, hx, rfl⟩

end Exclusive

/-- A position that is not good, and does not trip, stops the computation. -/
theorem of_stop {x : ε} (h : p < q) (hS : S x) (hx : x ≠ tripped) (hgood : ¬ Good p)
    (htrip : ¬ Trip p) : Scans Good Trip tripped S p q (.error x : Except ε α) where
  ok_iff := ⟨fun ⟨a, ha⟩ => (nomatch ha), fun hall => absurd (hall p le_rfl h) hgood⟩
  trip_iff := by
    refine ⟨fun heq => absurd (Except.error.inj heq) hx, ?_⟩
    rintro ⟨i, hp, -, hbefore, hi⟩
    rcases Nat.eq_or_lt_of_le hp with rfl | hlt
    · exact absurd hi htrip
    · exact absurd (hbefore p le_rfl hlt) hgood
  stops y hy := by
    cases hy
    exact .inr hS

end Scans
