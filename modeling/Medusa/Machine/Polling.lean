import Medusa.Machine.Ports

/-!
# Waiting for a device

A driver that waits reads a port again and again until the answer passes a test.  While it
waits it makes no other access, so what it leaves behind is a number of readings; and
whether it comes to an end is up to the answers alone.
-/

namespace Medusa
namespace Machine

variable {ε : Type} {hw : Hardware} {e : ε} {port : BitVec 16} {passes : BitVec 8 → Bool}

/-- Stops with `e` after `fuel` answers that do not pass. -/
def pollUntil (hw : Hardware) (e : ε) (port : BitVec 16) (passes : BitVec 8 → Bool) :
    Nat → PortAction ε Unit
  | 0 => Action.stop e
  | fuel + 1 => do
    if passes (← inb hw port) then pure () else pollUntil hw e port passes fuel

/-- `k` readings of a port. -/
def readings (h : Trace) (port : BitVec 16) (k : Nat) : Trace := h ++ List.replicate k (.input port)

theorem readings_zero (h : Trace) (port : BitVec 16) : readings h port 0 = h :=
  List.append_nil h

theorem readings_succ (h : Trace) (port : BitVec 16) (k : Nat) :
    readings h port (k + 1) = readings (h ++ [.input port]) port k := by
  rw [readings, readings, List.replicate_succ, List.append_assoc, List.singleton_append]

theorem pollUntil_succ (h : Trace) (fuel : Nat) :
    (pollUntil hw e port passes (fuel + 1)).run h =
      if passes (hw h port) then (.ok (), h ++ [.input port])
      else (pollUntil hw e port passes fuel).run (h ++ [.input port]) := by
  rw [pollUntil, Action.bind_ok (inb_run port h)]
  cases passes (hw h port) <;> rfl

/-- Waiting ends at the first answer that passes, or runs out of fuel. -/
theorem pollUntil_run (hw : Hardware) (e : ε) (port : BitVec 16) (passes : BitVec 8 → Bool)
    (h : Trace) (fuel : Nat) :
    (∃ k, k < fuel ∧ passes (hw (readings h port k) port) = true ∧
      (pollUntil hw e port passes fuel).run h = (.ok (), readings h port (k + 1))) ∨
    (∀ k, k < fuel → passes (hw (readings h port k) port) = false) ∧
      (pollUntil hw e port passes fuel).run h = (.error e, readings h port fuel) := by
  induction fuel generalizing h with
  | zero =>
    refine Or.inr ⟨fun k hk => absurd hk (Nat.not_lt_zero k), ?_⟩
    rw [readings_zero]
    rfl
  | succ fuel ih =>
    rw [pollUntil_succ]
    by_cases hpass : passes (hw h port) = true
    · refine Or.inl ⟨0, Nat.succ_pos fuel, ?_, ?_⟩
      · rwa [readings_zero]
      · rw [if_pos hpass]
        rfl
    · rw [if_neg hpass]
      cases ih (h ++ [.input port]) with
      | inl hfound =>
        obtain ⟨k, hk, hat, hrun⟩ := hfound
        rw [← readings_succ] at hat
        rw [← readings_succ] at hrun
        exact Or.inl ⟨k + 1, Nat.succ_lt_succ hk, hat, hrun⟩
      | inr hnone =>
        refine Or.inr ⟨fun k hk => ?_, ?_⟩
        · cases k with
          | zero => rwa [readings_zero, ← Bool.not_eq_true]
          | succ k =>
            rw [readings_succ]
            exact hnone.1 k (Nat.lt_of_succ_lt_succ hk)
        · rw [readings_succ]
          exact hnone.2

end Machine
end Medusa
