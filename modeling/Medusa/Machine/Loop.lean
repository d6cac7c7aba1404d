import Mathlib.Data.List.Range
import Mathlib.Logic.Function.Basic

/-!
# Counted loops

A C loop `for (i = 0; i < n; i++)` is a fold over `List.range n`.  A loop that
can leave early is the same fold in `Except`, the value that leaves being the
error.  Each of the two has one rule: name an invariant, check one round.  Code
that may stop is a sequence in `Except`, taken apart from the front.
-/

namespace Medusa
namespace Machine

/-- Invariant rule for a loop that runs to its end. -/
theorem foldl_range_induction {σ : Type} {f : σ → Nat → σ} {n : Nat}
    (I : Nat → σ → Prop) {s : σ} (hinit : I 0 s)
    (hstep : ∀ k t, k < n → I k t → I (k + 1) (f t k)) :
    I n ((List.range n).foldl f s) := by
  induction n with
  | zero => exact hinit
  | succ n ih =>
    rw [List.range_succ, List.foldl_append]
    have hprev := ih (fun k t hk => hstep k t (Nat.lt_succ_of_lt hk))
    exact hstep n _ (Nat.lt_succ_self n) hprev

/-- What a loop that may leave early promises: the invariant when it runs to its
end, and `E` of the value it leaves with. -/
def Exits {ε σ : Type} (I : σ → Prop) (E : ε → Prop) : Except ε σ → Prop
  | .ok s => I s
  | .error e => E e

/-- Invariant rule for a loop with an early exit. -/
theorem foldlM_range_induction {ε σ : Type} {f : σ → Nat → Except ε σ} {n : Nat}
    (I : Nat → σ → Prop) (E : ε → Prop) {s : σ} (hinit : I 0 s)
    (hstep : ∀ k t, k < n → I k t → Exits (I (k + 1)) E (f t k)) :
    Exits (I n) E ((List.range n).foldlM f s) := by
  induction n with
  | zero => exact hinit
  | succ n ih =>
    have hprev := ih (fun k t hk => hstep k t (Nat.lt_succ_of_lt hk))
    rw [List.range_succ, List.foldlM_append]
    cases hrun : (List.range n).foldlM f s with
    | error e =>
      rw [hrun] at hprev
      exact hprev
    | ok t =>
      rw [hrun] at hprev
      have hlast := hstep n t (Nat.lt_succ_self n) hprev
      cases hb : f t n with
      | error e =>
        rw [hb] at hlast
        simpa [bind, Except.bind, hb] using hlast
      | ok t' =>
        rw [hb] at hlast
        simpa [bind, Except.bind, hb, pure, Except.pure] using hlast

/-- A loop that has nothing to leave with runs to its end. -/
theorem exits_false {ε σ : Type} {I : σ → Prop} {r : Except ε σ}
    (h : Exits I (fun _ => False) r) : ∃ t, r = .ok t ∧ I t := by
  cases r with
  | error e => exact False.elim h
  | ok t => exact ⟨t, rfl, h⟩

/-- A family with one more member. -/
theorem forall_update_of_lt {α : Type} {P : Nat → α → Prop} {f : Nat → α} {k : Nat} {a : α}
    (hlast : P k a) (hbefore : ∀ m, m < k → P m (f m)) :
    ∀ m, m < k + 1 → P m (Function.update f k a m) := by
  intro m hm
  by_cases hmk : m = k
  · rw [hmk, Function.update_self]
    exact hlast
  · rw [Function.update_of_ne hmk]
    exact hbefore m (by omega)

theorem ok_bind {ε α β : Type} (a : α) (f : α → Except ε β) :
    (Except.ok a : Except ε α) >>= f = f a := rfl

/-- A sequence that returns has returned from its first part. -/
theorem bind_eq_ok {ε α β : Type} {x : Except ε α} {f : α → Except ε β} {b : β}
    (h : x >>= f = .ok b) : ∃ a, x = .ok a ∧ f a = .ok b := by
  cases x with
  | error e => cases h
  | ok a => exact ⟨a, rfl, h⟩

theorem exits_imp {ε σ : Type} {I J : σ → Prop} {E : ε → Prop} {r : Except ε σ} (h : Exits I E r)
    (himp : ∀ s, I s → J s) : Exits J E r := by
  cases r with
  | error e => exact h
  | ok s => exact himp s h

/-- Sequencing rule for code that may leave early. -/
theorem exits_bind {ε α β : Type} {I : α → Prop} {J : β → Prop} {E : ε → Prop} {x : Except ε α}
    {f : α → Except ε β} (hx : Exits I E x) (hf : ∀ a, I a → Exits J E (f a)) :
    Exits J E (x >>= f) := by
  cases x with
  | error e => exact hx
  | ok a => exact hf a hx

/-- The value of a run whose stops are forgotten comes from a run that returned. -/
theorem of_toOption_map {ε α β : Type} {x : Except ε α} {f : α → β} {b : β}
    (h : x.toOption.map f = some b) : ∃ a, x = .ok a ∧ f a = b := by
  cases x with
  | error e => cases h
  | ok a => exact ⟨a, rfl, Option.some.inj h⟩

/-- A sequence whose parts have one error to end with. -/
theorem error_or_bind {ε α β : Type} {e : ε} {x : Except ε α} {f : α → Except ε β} {P : β → Prop}
    (h : x = .error e ∨ ∃ a, x = .ok a ∧ (f a = .error e ∨ ∃ b, f a = .ok b ∧ P b)) :
    x >>= f = .error e ∨ ∃ b, x >>= f = .ok b ∧ P b := by
  rcases h with herror | ⟨a, hok, hrest⟩
  · rw [herror]
    exact .inl rfl
  · rw [hok]
    exact hrest

end Machine
end Medusa
