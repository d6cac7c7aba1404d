import Mathlib.Data.Finset.Card
import Mathlib.Order.Interval.Finset.Nat

/-!
# Loops without a bound

A C loop `for (;;)` is a step that either leaves or goes on with a new state.  It
may run for ever, so a run is given fuel and a loop terminates if some fuel is
enough.  The rounds of a loop that terminates are in pairwise distinct states, so a
loop that stays in a finite set terminates within as many rounds as the set has
elements, or never.
-/

namespace Medusa
namespace Machine

variable {σ τ : Type}

/-- Repeat `step` until it leaves; the result is the state it leaves in. -/
def runLoop (step : σ → Option σ) : Nat → σ → Option σ
  | 0, _ => none
  | fuel + 1, s =>
    match step s with
    | none => some s
    | some s' => runLoop step fuel s'

/-- The state after `k` rounds, if the loop gets that far. -/
def rounds (step : σ → Option σ) : Nat → σ → Option σ
  | 0, s => some s
  | k + 1, s => (step s).bind (rounds step k)

variable {step : σ → Option σ}

theorem runLoop_of_none {s : σ} (h : step s = none) (fuel : Nat) :
    runLoop step (fuel + 1) s = some s := by
  rw [runLoop, h]

theorem runLoop_of_some {s s' : σ} (h : step s = some s') (fuel : Nat) :
    runLoop step (fuel + 1) s = runLoop step fuel s' := by
  rw [runLoop, h]

theorem rounds_succ_of_step {s s' : σ} (h : step s = some s') (k : Nat) :
    rounds step (k + 1) s = rounds step k s' := by
  rw [rounds, h, Option.bind_some]

theorem rounds_add (j k : Nat) (s : σ) :
    rounds step (j + k) s = (rounds step j s).bind (rounds step k) := by
  induction j generalizing s with
  | zero => rw [Nat.zero_add, rounds, Option.bind_some]
  | succ j ih =>
    rw [Nat.add_right_comm, rounds, rounds]
    cases step s with
    | none => rfl
    | some s' => exact ih s'

theorem rounds_succ_last (k : Nat) (s : σ) :
    rounds step (k + 1) s = (rounds step k s).bind step := by
  rw [rounds_add]
  congr 1
  funext t
  rw [rounds]
  cases step t with
  | none => rfl
  | some t' => rfl

/-- A loop that gets to round `k` has been at every round before. -/
theorem rounds_le {j k : Nat} {s t : σ} (h : rounds step k s = some t) (hjk : j ≤ k) :
    ∃ u, rounds step j s = some u ∧ rounds step (k - j) u = some t := by
  rw [show k = j + (k - j) by omega, rounds_add] at h
  exact Option.bind_eq_some_iff.mp h

theorem rounds_stop {s : σ} (hs : step s = none) {k : Nat} {t : σ}
    (h : rounds step k s = some t) : k = 0 := by
  cases k with
  | zero => rfl
  | succ k =>
    rw [rounds, hs] at h
    simp at h

/-- A run returns exactly when the loop leaves within its fuel. -/
theorem runLoop_eq_some_iff {fuel : Nat} {s t : σ} :
    runLoop step fuel s = some t ↔
      ∃ k, k < fuel ∧ rounds step k s = some t ∧ step t = none := by
  induction fuel generalizing s with
  | zero =>
    constructor
    · intro h
      cases h
    · rintro ⟨k, hk, -⟩
      exact absurd hk (Nat.not_lt_zero k)
  | succ fuel ih =>
    rw [runLoop]
    cases hs : step s with
    | none =>
      constructor
      · intro h
        obtain rfl := Option.some.inj h
        exact ⟨0, Nat.succ_pos fuel, rfl, hs⟩
      · rintro ⟨k, -, hk, -⟩
        obtain rfl := rounds_stop hs hk
        exact hk
    | some s' =>
      constructor
      · intro h
        obtain ⟨k, hlt, hk, ht⟩ := ih.mp h
        exact ⟨k + 1, Nat.succ_lt_succ hlt, by rw [rounds_succ_of_step hs, hk], ht⟩
      · rintro ⟨k, hlt, hk, ht⟩
        cases k with
        | zero =>
          obtain rfl := Option.some.inj hk
          rw [hs] at ht
          simp at ht
        | succ k =>
          rw [rounds_succ_of_step hs] at hk
          exact ih.mpr ⟨k, Nat.lt_of_succ_lt_succ hlt, hk, ht⟩

/-- Two rounds of a loop that leaves are in different states. -/
theorem rounds_ne {i j k : Nat} {s t u : σ} (hk : rounds step k s = some t) (ht : step t = none)
    (hij : i < j) (hjk : j ≤ k) (hi : rounds step i s = some u) : rounds step j s ≠ some u := by
  intro hj
  obtain ⟨u', hu', htail⟩ := rounds_le hk hjk
  rw [hj] at hu'
  obtain rfl := Option.some.inj hu'
  -- from the repeated state the loop leaves after `k - j` rounds, which is too early
  have hearly : rounds step (i + (k - j)) s = some t := by
    rw [rounds_add, hi, Option.bind_some, htail]
  have hlate := hk
  rw [show k = i + (k - j) + (j - i) by omega, rounds_add, hearly, Option.bind_some] at hlate
  have hzero := rounds_stop ht hlate
  omega

/-- **A loop in a finite set.**  If it leaves, it leaves within as many rounds as
the set has elements. -/
theorem rounds_lt_card {k : Nat} {s t : σ} (hk : rounds step k s = some t) (ht : step t = none)
    (F : Finset σ) (hF : ∀ j u, rounds step j s = some u → u ∈ F) : k < F.card := by
  have hmaps : ∀ j ∈ Finset.range (k + 1), ∃ u ∈ F, rounds step j s = some u := by
    intro j hj
    obtain ⟨u, hu, -⟩ := rounds_le hk (Nat.lt_succ_iff.mp (Finset.mem_range.mp hj))
    exact ⟨u, hF j u hu, hu⟩
  have : Nonempty σ := ⟨s⟩
  choose! at_ hmem hat using hmaps
  have hinj : Set.InjOn at_ (Finset.range (k + 1) : Set Nat) := by
    intro i hi j hj heq
    rw [Finset.mem_coe] at hi hj
    have hi' := hat i hi
    have hj' := hat j hj
    have hik := Nat.lt_succ_iff.mp (Finset.mem_range.mp hi)
    have hjk := Nat.lt_succ_iff.mp (Finset.mem_range.mp hj)
    rw [heq] at hi'
    rcases Nat.lt_trichotomy i j with hlt | rfl | hlt
    · exact absurd hj' (rounds_ne hk ht hlt hjk hi')
    · rfl
    · exact absurd hi' (rounds_ne hk ht hlt hik hj')
  have hcard := Finset.card_le_card_of_injOn at_ hmem hinj
  rw [Finset.card_range] at hcard
  exact hcard

/-- A loop that computes more along the way makes the same rounds. -/
theorem rounds_map {step' : τ → Option τ} (p : τ → σ)
    (hp : ∀ x, (step' x).map p = step (p x)) (k : Nat) (x : τ) :
    (rounds step' k x).map p = rounds step k (p x) := by
  induction k generalizing x with
  | zero => rfl
  | succ k ih =>
    rw [rounds, rounds, ← hp x]
    cases step' x with
    | none => rfl
    | some x' => exact ih x'

end Machine
end Medusa
