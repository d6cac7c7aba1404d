import Mathlib.Data.Nat.Find
import Mathlib.Logic.Function.Basic

/-!
# Linear probing

A table of `n` slots around a circle.  Each key has a home, and a probe goes from there to
the first slot that is free or holds the key.  Every key is found as long as no free slot
lies between a key and its home, and storing a key where its probe ends keeps it so.
-/

namespace Medusa
namespace Machine
namespace Probing

variable {κ : Type}

/-- The slot at a distance from the home `h`. -/
def slot (n h d : Nat) : Nat := (h + d) % n

/-- The distance of slot `i` from the home `h`. -/
def distance (n h i : Nat) : Nat := (i + (n - h)) % n

/-- A table of `n` slots, as the keys in them. -/
structure Findable (n : Nat) (home : κ → Nat) (keys : Nat → Option κ) : Prop where
  distinct : ∀ i < n, ∀ j < n, ∀ k, keys i = some k → keys j = some k → i = j
  chained : ∀ i < n, ∀ k, keys i = some k → ∀ d < distance n (home k) i,
    keys (slot n (home k) d) ≠ none

/-- The probe for `k` ends after `d` steps. -/
structure EndsAt (n h : Nat) (keys : Nat → Option κ) (k : κ) (d : Nat) : Prop where
  before : ∀ j < d, ∃ k', keys (slot n h j) = some k' ∧ k' ≠ k
  here : keys (slot n h d) = none ∨ keys (slot n h d) = some k

variable {n h i d : Nat} {home : κ → Nat} {keys : Nat → Option κ} {k : κ}

/-! ## Around the circle -/

theorem slot_lt (hn : 0 < n) (h d : Nat) : slot n h d < n := Nat.mod_lt _ hn

theorem slot_zero (hh : h < n) : slot n h 0 = h := Nat.mod_eq_of_lt hh

theorem distance_slot (hh : h < n) (hd : d < n) : distance n h (slot n h d) = d := by
  rw [slot, distance, Nat.mod_add_mod, show h + d + (n - h) = d + n by omega,
    Nat.add_mod_right, Nat.mod_eq_of_lt hd]

/-! ## Probes -/

/-- The probe for an absent key ends at a free slot. -/
theorem EndsAt.free (he : EndsAt n h keys k d) (hn : 0 < n) (habsent : ∀ i < n, keys i ≠ some k) :
    keys (slot n h d) = none :=
  he.here.resolve_right (habsent _ (slot_lt hn h d))

/-- A key that is stored where its probe ends can be found, and so can the others. -/
theorem Findable.insert (hf : Findable n home keys) (hhome : home k < n) (hd : d < n)
    (he : EndsAt n (home k) keys k d) (habsent : ∀ i < n, keys i ≠ some k) :
    Findable n home (Function.update keys (slot n (home k) d) (some k)) := by
  have hn : 0 < n := by omega
  have hfree := he.free hn habsent
  have hkept : ∀ j, keys j ≠ none →
      Function.update keys (slot n (home k) d) (some k) j ≠ none := by
    intro j hj
    rw [Function.update_of_ne (fun heq => hj (by rw [heq, hfree]))]
    exact hj
  refine ⟨?_, ?_⟩
  · intro i hi j hj k' hk hk'
    by_cases hnew : i = slot n (home k) d
    · subst hnew
      rw [Function.update_self] at hk
      obtain rfl := Option.some.inj hk
      by_contra hne
      rw [Function.update_of_ne (Ne.symm hne)] at hk'
      exact habsent j hj hk'
    · rw [Function.update_of_ne hnew] at hk
      by_cases hnew' : j = slot n (home k) d
      · subst hnew'
        rw [Function.update_self] at hk'
        obtain rfl := Option.some.inj hk'
        exact absurd hk (habsent i hi)
      · rw [Function.update_of_ne hnew'] at hk'
        exact hf.distinct i hi j hj k' hk hk'
  · intro i hi k' hk j hj
    by_cases hnew : i = slot n (home k) d
    · subst hnew
      rw [Function.update_self] at hk
      obtain rfl := Option.some.inj hk
      rw [distance_slot hhome hd] at hj
      obtain ⟨k'', hk'', -⟩ := he.before j hj
      exact hkept _ (by rw [hk'']; exact Option.some_ne_none k'')
    · rw [Function.update_of_ne hnew] at hk
      exact hkept _ (hf.chained i hi k' hk j hj)

end Probing
end Machine
end Medusa
