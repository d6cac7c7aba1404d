import Mathlib.Data.Nat.Init

/-!
# Reading a changing record twice

A record that changes by itself is read one component after another, so a reading can
mix two states of it.  If the changes are far enough apart, two readings in a row that
agree show a state that the record had, and of four readings in a row two neighbours
agree.

`Sampler.sample` puts a reading together from the states at the times of its accesses.
It is asked for nothing but that a record that stands still is read as it is.
-/

namespace Medusa
namespace Machine

variable {α : Type}

/-- The state at the next time is another one. -/
def ChangesAt (x : Nat → α) (t : Nat) : Prop := x t ≠ x (t + 1)

/-- Two changes are at least `gap` apart. -/
def Spaced (x : Nat → α) (gap : Nat) : Prop :=
  ∀ t u, t < u → ChangesAt x t → ChangesAt x u → t + gap ≤ u

variable {x : Nat → α} {gap : Nat}

/-- Without a change the state stays. -/
theorem eq_of_not_changesAt {lo hi : Nat} (h : ∀ t, lo ≤ t → t < hi → ¬ ChangesAt x t) {t : Nat}
    (hlo : lo ≤ t) (hhi : t ≤ hi) : x t = x lo := by
  induction t, hlo using Nat.le_induction with
  | base => rfl
  | succ t hlo ih =>
    rw [← ih (Nat.le_of_succ_le hhi)]
    exact (Classical.not_not.mp (h t hlo hhi)).symm

/-- **One change in a window.**  Within `gap` of any time there are at most two states,
one before some time `c` and one behind it. -/
theorem Spaced.window (h : Spaced x gap) (lo : Nat) :
    ∃ c, (∀ t, lo ≤ t → t ≤ c → t ≤ lo + gap → x t = x lo) ∧
      ∀ t, c < t → lo ≤ t → t ≤ lo + gap → x t = x (lo + gap) := by
  by_cases hchange : ∃ c, lo ≤ c ∧ c < lo + gap ∧ ChangesAt x c
  · obtain ⟨c, hlo, hhi, hc⟩ := hchange
    -- any other change in the window would be too close to `c`
    have hother : ∀ u, lo ≤ u → u < lo + gap → ChangesAt x u → u = c := by
      intro u hu hu' hchange
      rcases Nat.lt_trichotomy u c with hlt | rfl | hgt
      · have hfar := h u c hlt hchange hc
        omega
      · rfl
      · have hfar := h c u hgt hc hchange
        omega
    refine ⟨c, fun t ht htc _ => ?_, fun t htc ht ht' => ?_⟩
    · have hquiet : ∀ u, lo ≤ u → u < c → ¬ ChangesAt x u := fun u hu huc hchange =>
        Nat.ne_of_lt huc (hother u hu (by omega) hchange)
      exact eq_of_not_changesAt hquiet ht htc
    · have hquiet : ∀ u, c + 1 ≤ u → u < lo + gap → ¬ ChangesAt x u := fun u hu hu' hchange =>
        absurd (hother u (by omega) hu' hchange) (by omega)
      rw [eq_of_not_changesAt hquiet (Nat.succ_le_of_lt htc) ht',
        eq_of_not_changesAt hquiet (Nat.succ_le_of_lt hhi) (Nat.le_refl _)]
  · have hquiet : ∀ t, lo ≤ t → t < lo + gap → ¬ ChangesAt x t := fun t ht ht' hc =>
      hchange ⟨t, ht, ht', hc⟩
    exact ⟨lo + gap, fun t ht _ ht' => eq_of_not_changesAt hquiet ht ht',
      fun t hc _ ht' => absurd ht' (Nat.not_le_of_lt hc)⟩

/-- A reading that takes `span` accesses. -/
structure Sampler (α : Type) where
  span : Nat
  sample : (Nat → α) → α
  sample_congr : ∀ x y, (∀ k, k < span → x k = y k) → sample x = sample y
  sample_const : ∀ a, sample (fun _ => a) = a

namespace Sampler

/-- The reading whose first access is at time `t`. -/
def readAt (S : Sampler α) (x : Nat → α) (t : Nat) : α := S.sample fun k => x (t + k)

variable (S : Sampler α)

/-- A reading during which nothing changes. -/
theorem readAt_of_eq {t : Nat} {a : α} (h : ∀ u, t ≤ u → u < t + S.span → x u = a) :
    S.readAt x t = a := by
  rw [readAt, S.sample_congr _ (fun _ => a) (fun k hk => h (t + k) (by omega) (by omega))]
  exact S.sample_const a

/-- **Twice the same.**  Two readings in a row that agree show the state at the begin of
one of them. -/
theorem eq_of_twice (h : Spaced x gap) {t u : Nat} (hnext : t + S.span ≤ u)
    (hwindow : u + S.span ≤ t + gap) (htwice : S.readAt x t = S.readAt x u) :
    S.readAt x u = x t ∨ S.readAt x u = x u := by
  obtain ⟨c, hbefore, hbehind⟩ := h.window t
  by_cases hc : c < u
  · right
    have hu : x u = x (t + gap) := hbehind u hc (by omega) (by omega)
    rw [hu]
    exact S.readAt_of_eq fun v hv hv' => hbehind v (by omega) (by omega) (by omega)
  · left
    rw [← htwice]
    exact S.readAt_of_eq fun v hv hv' => hbefore v hv (by omega) (by omega)

/-- **At most three times more.**  Of four readings in a row two neighbours agree. -/
theorem agree_of_four (h : Spaced x gap) {t₀ t₁ t₂ t₃ : Nat} (h₁ : t₀ + S.span ≤ t₁)
    (h₂ : t₁ + S.span ≤ t₂) (h₃ : t₂ + S.span ≤ t₃) (hwindow : t₃ + S.span ≤ t₀ + gap) :
    S.readAt x t₀ = S.readAt x t₁ ∨ S.readAt x t₂ = S.readAt x t₃ := by
  obtain ⟨c, hbefore, hbehind⟩ := h.window t₀
  by_cases hc : t₁ + S.span ≤ c + 1
  · left
    rw [S.readAt_of_eq fun v hv hv' => hbefore v hv (by omega) (by omega),
      S.readAt_of_eq fun v hv hv' => hbefore v (by omega) (by omega) (by omega)]
  · right
    rw [S.readAt_of_eq fun v hv hv' => hbehind v (by omega) (by omega) (by omega),
      S.readAt_of_eq fun v hv hv' => hbehind v (by omega) (by omega) (by omega)]

end Sampler

end Machine
end Medusa
