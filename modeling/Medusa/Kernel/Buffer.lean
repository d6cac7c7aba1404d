import Medusa.Kernel.Misc

/-!
# Buffers

A C array, or a block from `kmalloc`, as the list of its elements.  An access past
its end stops the model, so code that returns has stayed inside its buffers.
-/

namespace Medusa
namespace Kernel

variable {α : Type}

def fetch (buf : List α) (i : Nat) : Except Stop α :=
  match buf[i]? with
  | some x => .ok x
  | none => .error .fault

def store (buf : List α) (i : Nat) (x : α) : Except Stop (List α) :=
  if i < buf.length then .ok (buf.set i x) else .error .fault

theorem fetch_eq_ok {buf : List α} {i : Nat} {x : α} (h : buf[i]? = some x) :
    fetch buf i = .ok x := by
  simp [fetch, h]

theorem store_eq_ok {buf : List α} {i : Nat} (h : i < buf.length) (x : α) :
    store buf i x = .ok (buf.set i x) := if_pos h

/-- A store that returns was inside the buffer. -/
theorem store_inside {buf buf' : List α} {i : Nat} {x : α} (h : store buf i x = .ok buf') :
    i < buf.length ∧ buf' = buf.set i x := by
  unfold store at h
  split at h
  · exact ⟨‹_›, (Except.ok.inj h).symm⟩
  · cases h

/-- The element at the border of two parts. -/
@[simp]
theorem fetch_append_cons (done rest : List α) (x : α) :
    fetch (done ++ x :: rest) done.length = .ok x :=
  fetch_eq_ok (by simp)

/-- An element stored at the border of two parts replaces the first of the second. -/
@[simp]
theorem store_append_cons (done rest : List α) (x y : α) :
    store (done ++ y :: rest) done.length x = .ok (done ++ x :: rest) := by
  unfold store
  rw [if_pos (by simp)]
  simp

/-- An access past a first part is an access to the second. -/
theorem fetch_append_add (done rest : List α) (k : Nat) :
    fetch (done ++ rest) (done.length + k) = fetch rest k := by
  unfold fetch
  rw [List.getElem?_append_right (by omega), Nat.add_sub_cancel_left]

end Kernel
end Medusa
