import Medusa.Machine.Action

/-!
# Ports

A processor talks to its devices through byte ports.  What a device answers may depend
on every access that came before, so the hardware is a function of the trace.
-/

namespace Medusa
namespace Machine

inductive PortAccess where
  | input (port : BitVec 16)
  | output (port : BitVec 16) (value : BitVec 8)
deriving DecidableEq, Repr

abbrev Trace := List PortAccess

/-- The answer to an input, by the accesses before it. -/
abbrev Hardware := Trace → BitVec 16 → BitVec 8

/-- A program that runs on ports. -/
abbrev PortAction (ε α : Type) := Action ε Trace α

variable {ε α β : Type} {hw : Hardware}

def inb (hw : Hardware) (port : BitVec 16) : PortAction ε (BitVec 8) :=
  ⟨fun h => (.ok (hw h port), h ++ [.input port])⟩

def outb (port : BitVec 16) (value : BitVec 8) : PortAction ε Unit :=
  ⟨fun h => (.ok (), h ++ [.output port value])⟩

theorem inb_run (port : BitVec 16) (h : Trace) :
    (inb hw port : PortAction ε _).run h = (.ok (hw h port), h ++ [.input port]) := rfl

theorem outb_run (port : BitVec 16) (value : BitVec 8) (h : Trace) :
    (outb port value : PortAction ε _).run h = (.ok (), h ++ [.output port value]) := rfl

theorem pure_run (a : α) (h : Trace) : (pure a : PortAction ε α).run h = (.ok a, h) := rfl

/-- The first element that passes a test. -/
def firstWhere (test : α → PortAction ε Bool) : List α → PortAction ε (Option α)
  | [] => pure none
  | a :: as => do
    if ← test a then return some a else firstWhere test as

/-- A test that fails everywhere, wherever it is run. -/
theorem firstWhere_none {test : α → PortAction ε Bool}
    (htest : ∀ a h, ∃ h', (test a).run h = (.ok false, h')) (as : List α) (h : Trace) :
    ∃ h', (firstWhere test as).run h = (.ok none, h') := by
  induction as generalizing h with
  | nil => exact ⟨h, rfl⟩
  | cons a as ih =>
    obtain ⟨h', hrun⟩ := htest a h
    obtain ⟨h'', hrest⟩ := ih h'
    exact ⟨h'', by rw [firstWhere, Action.bind_ok hrun]; exact hrest⟩

theorem firstWhere_head {test : α → PortAction ε Bool} {a : α} {as : List α} {h h' : Trace}
    (htest : (test a).run h = (.ok true, h')) :
    (firstWhere test (a :: as)).run h = (.ok (some a), h') := by
  rw [firstWhere, Action.bind_ok htest]
  rfl

/-- A test that makes the same accesses `added` each time, and passes by the answer it
gets: the search passes over the elements before the first that passes. -/
theorem firstWhere_run {test : α → PortAction ε Bool} {added : Trace} {passes : Trace → Bool}
    (htest : ∀ a h, (test a).run h = (.ok (passes h), h ++ added)) (as : List α) (h : Trace) :
    (∃ a h', (firstWhere test as).run h = (.ok (some a), h')) ↔
      ∃ k, k < as.length ∧ passes (h ++ (List.replicate k added).flatten) = true := by
  induction as generalizing h with
  | nil => simp [firstWhere, pure_run]
  | cons a as ih =>
    have hsplit : (∃ k, k < (a :: as).length ∧
        passes (h ++ (List.replicate k added).flatten) = true) ↔
        passes h = true ∨ ∃ k, k < as.length ∧
          passes (h ++ added ++ (List.replicate k added).flatten) = true := by
      constructor
      · rintro ⟨k, hk, hpasses⟩
        cases k with
        | zero => exact Or.inl (by simpa using hpasses)
        | succ k =>
          refine Or.inr ⟨k, Nat.lt_of_succ_lt_succ hk, ?_⟩
          rwa [List.replicate_succ, List.flatten_cons, ← List.append_assoc] at hpasses
      · rintro (hpasses | ⟨k, hk, hpasses⟩)
        · exact ⟨0, Nat.succ_pos _, by simpa using hpasses⟩
        · refine ⟨k + 1, Nat.succ_lt_succ hk, ?_⟩
          rwa [List.replicate_succ, List.flatten_cons, ← List.append_assoc]
    rw [hsplit, ← ih, firstWhere, Action.bind_ok (htest a h)]
    cases hpasses : passes h with
    | true =>
      simp only [if_true, true_or, iff_true]
      exact ⟨a, _, rfl⟩
    | false => simp

end Machine
end Medusa
