import Mathlib.Algebra.BigOperators.Group.Finset.Basic
import Mathlib.Algebra.Order.BigOperators.Group.Finset
import Mathlib.Algebra.Order.Ring.Int

/-!
# Traces of allocations

What a piece of code does to a heap, as the list of its allocations and releases.
A block is known by its number and a pointer into it by an offset.  A trace is
disciplined if it releases only pointers to the start of live blocks.  The bytes in
use after any prefix of a disciplined trace are those of the blocks still live, so
the trace never gives back more than it took.
-/

namespace Medusa
namespace Machine

inductive Pointer where
  | null
  | literal
  | block (id offset : Nat)
deriving DecidableEq, Repr

inductive HeapEvent where
  | alloc (id size : Nat)
  | free (p : Pointer)
deriving DecidableEq, Repr

def replayEvent (live : Finset Nat) : HeapEvent → Option (Finset Nat)
  | .alloc id _ => if id ∈ live then none else some (insert id live)
  | .free (.block id 0) => if id ∈ live then some (live.erase id) else none
  | .free _ => none

/-- The blocks that are live after a trace; `none` if it releases anything else. -/
def replay (live : Finset Nat) (trace : List HeapEvent) : Option (Finset Nat) :=
  trace.foldlM replayEvent live

def Disciplined (trace : List HeapEvent) : Prop :=
  (replay ∅ trace).isSome = true

instance (trace : List HeapEvent) : Decidable (Disciplined trace) :=
  inferInstanceAs (Decidable (_ = true))

variable {live live' : Finset Nat} {trace rest : List HeapEvent}

theorem replay_append (live : Finset Nat) (trace rest : List HeapEvent) :
    replay live (trace ++ rest) = (replay live trace).bind fun live => replay live rest := by
  simp only [replay, List.foldlM_append]
  rfl

theorem replay_snoc (h : replay live trace = some live') (e : HeapEvent) :
    replay live (trace ++ [e]) = replayEvent live' e := by
  rw [replay_append, h]
  show (replayEvent live' e >>= fun l => some l) = _
  cases replayEvent live' e with
  | none => rfl
  | some l => rfl

/-- A trace that went wrong does not recover. -/
theorem replay_append_none (h : replay live trace = none) :
    replay live (trace ++ rest) = none := by
  rw [replay_append, h]
  rfl

theorem replay_take (h : (replay live trace).isSome = true) (n : Nat) :
    (replay live (trace.take n)).isSome = true := by
  rw [← List.take_append_drop n trace, replay_append] at h
  cases hn : replay live (trace.take n) with
  | none => simp [hn] at h
  | some l => rfl

/-! ## Bytes in use -/

/-- What the bytes in use change by; `capacity` is what the header in front of a
pointer says. -/
def netUse (capacity : Pointer → Nat) : List HeapEvent → Int
  | [] => 0
  | .alloc id _ :: trace => capacity (.block id 0) + netUse capacity trace
  | .free p :: trace => netUse capacity trace - capacity p

theorem netUse_eq (capacity : Pointer → Nat) (h : replay live trace = some live') :
    netUse capacity trace + ∑ id ∈ live, (capacity (.block id 0) : Int) =
      ∑ id ∈ live', (capacity (.block id 0) : Int) := by
  induction trace generalizing live with
  | nil =>
    obtain rfl := Option.some.inj h
    simp [netUse]
  | cons e trace ih =>
    obtain ⟨l, hevent, hrest⟩ := Option.bind_eq_some_iff.mp h
    have htail := ih hrest
    cases e with
    | alloc id size =>
      rw [replayEvent] at hevent
      split at hevent
      · cases hevent
      · next hfresh =>
        obtain rfl := Option.some.inj hevent
        rw [Finset.sum_insert hfresh] at htail
        rw [netUse]
        omega
    | free p =>
      unfold replayEvent at hevent
      split at hevent
      · next heq => cases heq
      · next id heq =>
        obtain rfl := HeapEvent.free.inj heq
        split at hevent
        · next hlive =>
          obtain rfl := Option.some.inj hevent
          rw [netUse, ← Finset.add_sum_erase _ _ hlive]
          omega
        · cases hevent
      · cases hevent

/-- **A disciplined trace never gives back more than it took.** -/
theorem Disciplined.netUse_nonneg (h : Disciplined trace) (capacity : Pointer → Nat) (n : Nat) :
    0 ≤ netUse capacity (trace.take n) := by
  have htake := replay_take h n
  obtain ⟨l, hl⟩ := Option.isSome_iff_exists.mp htake
  have hsum := netUse_eq capacity hl
  simp only [Finset.sum_empty, add_zero] at hsum
  rw [hsum]
  exact Finset.sum_nonneg fun id _ => Int.natCast_nonneg _

end Machine
end Medusa
