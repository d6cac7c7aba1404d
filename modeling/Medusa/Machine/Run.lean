import Mathlib.Init

/-!
# Runs of a machine that takes events

A machine takes one event after another, and a step that does not return ends the
run.  `Throughout step A s es` says that every step the run takes from `s` has the
property `A`.  Two properties that agree on the states of an invariant agree on
runs, so a run has a property exactly when each of its steps meets a condition that
can be read off the state before the step.
-/

namespace Medusa
namespace Machine

variable {σ ε : Type}

/-- Every step that the run takes has the property `A`. -/
def Throughout (step : σ → ε → Option σ) (A : σ → ε → Prop) : σ → List ε → Prop
  | _, [] => True
  | s, e :: es => A s e ∧ ∀ s', step s e = some s' → Throughout step A s' es

variable {step : σ → ε → Option σ} {A C P : σ → ε → Prop}

/-- **Exact conditions for runs.**  A property that is equivalent to a condition, under an
invariant and an assumption on the steps, is equivalent to it along every run that starts
in the invariant and meets the assumption. -/
theorem throughout_iff_of (Inv : σ → Prop) (hiff : ∀ s e, Inv s → P s e → (A s e ↔ C s e))
    (hkeep : ∀ s e s', Inv s → P s e → C s e → step s e = some s' → Inv s') {s : σ} (hs : Inv s)
    {es : List ε} (hP : Throughout step P s es) :
    Throughout step A s es ↔ Throughout step C s es := by
  induction es generalizing s with
  | nil => exact Iff.rfl
  | cons e es ih =>
    have hhead := hiff s e hs hP.1
    constructor
    · intro h
      have hC := hhead.mp h.1
      exact ⟨hC, fun s' hs' => (ih (hkeep s e s' hs hP.1 hC hs') (hP.2 s' hs')).mp (h.2 s' hs')⟩
    · intro h
      exact ⟨hhead.mpr h.1, fun s' hs' =>
        (ih (hkeep s e s' hs hP.1 h.1 hs') (hP.2 s' hs')).mpr (h.2 s' hs')⟩

theorem throughout_of_forall (h : ∀ s e, A s e) (s : σ) (es : List ε) : Throughout step A s es := by
  induction es generalizing s with
  | nil => trivial
  | cons e es ih => exact ⟨h s e, fun s' _ => ih s'⟩

theorem throughout_cons {s s' : σ} {e : ε} {es : List ε} (hA : A s e) (hstep : step s e = some s')
    (hrest : Throughout step A s' es) : Throughout step A s (e :: es) := by
  refine ⟨hA, fun t ht => ?_⟩
  obtain rfl := Option.some.inj (hstep.symm.trans ht)
  exact hrest

/-- A run whose steps all meet a condition that is enough under an invariant. -/
theorem throughout_of (Inv : σ → Prop) (hsound : ∀ s e, Inv s → C s e → A s e)
    (hkeep : ∀ s e s', Inv s → C s e → step s e = some s' → Inv s') {s : σ} (hs : Inv s)
    {es : List ε} (hC : Throughout step C s es) : Throughout step A s es := by
  induction es generalizing s with
  | nil => trivial
  | cons e es ih =>
    refine ⟨hsound s e hs hC.1, fun s' hs' => ?_⟩
    exact ih (hkeep s e s' hs hC.1 hs') (hC.2 s' hs')

theorem throughout_iff (Inv : σ → Prop) (hiff : ∀ s e, Inv s → (A s e ↔ C s e))
    (hkeep : ∀ s e s', Inv s → C s e → step s e = some s' → Inv s') {s : σ} (hs : Inv s)
    (es : List ε) : Throughout step A s es ↔ Throughout step C s es :=
  throughout_iff_of (P := fun _ _ => True) Inv (fun s e h _ => hiff s e h)
    (fun s e s' h _ => hkeep s e s' h) hs (throughout_of_forall (fun _ _ => trivial) s es)

end Machine
end Medusa
