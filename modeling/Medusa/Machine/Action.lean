import Mathlib.Init

/-!
# Actions that leave their state behind

An action over states `σ` returns a value or stops with an `ε`, and its last state is
known either way.  `Keeps R x` says that `R` relates the states before and after
every run of `x`; `R` also sees whether the run returned.  For a relation that
composes there is one rule for each form of program, so a proof about a program
follows its text.
-/

namespace Medusa
namespace Machine

structure Action (ε σ α : Type) where
  run : σ → Except ε α × σ

namespace Action

variable {ε σ α β : Type}

instance : Monad (Action ε σ) where
  pure a := ⟨fun s => (.ok a, s)⟩
  bind x f := ⟨fun s =>
    match x.run s with
    | (.ok a, t) => (f a).run t
    | (.error e, t) => (.error e, t)⟩

def stop (e : ε) : Action ε σ α := ⟨fun s => (.error e, s)⟩

def read (f : σ → α) : Action ε σ α := ⟨fun s => (.ok (f s), s)⟩

def modify (f : σ → σ) : Action ε σ Unit := ⟨fun s => (.ok (), f s)⟩

/-- The rounds `i`, …, `i + n - 1` of a loop that carries a value. -/
def rounds (f : Nat → β → Action ε σ β) (i : Nat) : Nat → β → Action ε σ β
  | 0, b => pure b
  | n + 1, b => do
    let b ← f i b
    rounds f (i + 1) n b

theorem bind_ok {x : Action ε σ α} {f : α → Action ε σ β} {s t : σ} {a : α}
    (h : x.run s = (.ok a, t)) : (x >>= f).run s = (f a).run t := by
  change (match x.run s with
    | (.ok a, t) => (f a).run t
    | (.error e, t) => (.error e, t)) = _
  rw [h]

theorem bind_error {x : Action ε σ α} {f : α → Action ε σ β} {s t : σ} {e : ε}
    (h : x.run s = (.error e, t)) : (x >>= f).run s = (.error e, t) := by
  change (match x.run s with
    | (.ok a, t) => (f a).run t
    | (.error e, t) => (.error e, t)) = _
  rw [h]

theorem run_bind_eq_ok {x : Action ε σ α} {f : α → Action ε σ β} {s u : σ} {b : β}
    (h : (x >>= f).run s = (.ok b, u)) :
    ∃ a t, x.run s = (.ok a, t) ∧ (f a).run t = (.ok b, u) := by
  match hrun : x.run s with
  | (.ok a, t) =>
    rw [bind_ok hrun] at h
    exact ⟨a, t, rfl, h⟩
  | (.error e, t) =>
    rw [bind_error hrun] at h
    cases h

/-- The rule for a loop: an invariant that each round takes from its number to the
next holds at the end. -/
theorem rounds_run {f : Nat → β → Action ε σ β} {I : Nat → β → σ → Prop} {i n : Nat} {b : β}
    {s : σ} (h : I i b s)
    (hstep : ∀ k b s, i ≤ k → k < i + n → I k b s →
      ∃ b' t, (f k b).run s = (.ok b', t) ∧ I (k + 1) b' t) :
    ∃ b' t, (rounds f i n b).run s = (.ok b', t) ∧ I (i + n) b' t := by
  induction n generalizing i b s with
  | zero => exact ⟨b, s, rfl, h⟩
  | succ n ih =>
    obtain ⟨b', t, hrun, hnext⟩ := hstep i b s (Nat.le_refl i) (by omega) h
    obtain ⟨b'', u, hrest, hlast⟩ := ih hnext fun k b s hlo hhi => hstep k b s (by omega) (by omega)
    rw [Nat.add_right_comm] at hlast
    exact ⟨b'', u, by rw [rounds, bind_ok hrun, hrest], hlast⟩

/-! ## Relations between the states before and after -/

def Keeps (R : Bool → σ → σ → Prop) (x : Action ε σ α) : Prop :=
  ∀ s, R (x.run s).1.isOk s (x.run s).2

/-- What happens in the part of a run that returned counts for the whole. -/
structure Composes (R : Bool → σ → σ → Prop) : Prop where
  refl : ∀ b s, R b s s
  trans : ∀ {b s t u}, R true s t → R b t u → R b s u

variable {R R' : Bool → σ → σ → Prop}

theorem Keeps.mono {x : Action ε σ α} (h : Keeps R x) (hR : ∀ {b s t}, R b s t → R' b s t) :
    Keeps R' x := fun s => hR (h s)

namespace Composes

variable (hR : Composes R)

include hR

theorem pure (a : α) : Keeps R (pure a : Action ε σ α) := fun s => hR.refl true s

theorem stop (e : ε) : Keeps R (stop e : Action ε σ α) := fun s => hR.refl false s

theorem read (f : σ → α) : Keeps R (read f : Action ε σ α) := fun s => hR.refl true s

/-- What comes after a part of a run may rely on what that part left. -/
theorem bind_run {x : Action ε σ α} {f : α → Action ε σ β} {s : σ}
    (hx : R (x.run s).1.isOk s (x.run s).2)
    (hf : ∀ a t, x.run s = (.ok a, t) → R ((f a).run t).1.isOk t ((f a).run t).2) :
    R ((x >>= f).run s).1.isOk s ((x >>= f).run s).2 := by
  match hrun : x.run s with
  | (.ok a, t) =>
    rw [hrun] at hx
    rw [bind_ok hrun]
    exact hR.trans hx (hf a t hrun)
  | (.error e, t) =>
    rw [hrun] at hx
    rw [bind_error hrun]
    exact hx

theorem bind {x : Action ε σ α} {f : α → Action ε σ β} (hx : Keeps R x)
    (hf : ∀ a, Keeps R (f a)) : Keeps R (x >>= f) :=
  fun s => hR.bind_run (hx s) fun a t _ => hf a t

theorem rounds {f : Nat → β → Action ε σ β} (hf : ∀ i b, Keeps R (f i b)) (i n : Nat) (b : β) :
    Keeps R (rounds f i n b) := by
  induction n generalizing i b with
  | zero => exact hR.pure b
  | succ n ih => exact hR.bind (hf i b) fun b' => ih (i + 1) b'

end Composes

end Action
end Machine
end Medusa
