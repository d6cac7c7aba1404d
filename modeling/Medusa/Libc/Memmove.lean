import Medusa.Machine.Loop
import Medusa.Machine.Memory
import Medusa.Machine.Word

/-!
# `memmove`

The copy that allows its two ranges to overlap.  Below the source it goes up, and what
is still to be copied lies above what has been written; otherwise it goes down, and the
rest lies below.
-/

namespace Medusa
namespace Libc

open Machine

/-- `dst[i] = src[i]`. -/
def moveByte (dst src : Nat) (m : Mem) (i : Nat) : Mem :=
  Function.update m (wrap (dst + i)) (m (wrap (src + i)))

/-- `for (i = size; i != 0; i--)`. -/
def moveDown (dst src : Nat) (m : Mem) : Nat → Mem
  | 0 => m
  | i + 1 => moveDown dst src (moveByte dst src m i) i

/-- `memmove`: what it returns, and the memory. -/
def memmove (m : Mem) (dst src size : Nat) : Nat × Mem :=
  if dst < src then (dst, (List.range size).foldl (moveByte dst src) m)
  else (dst, moveDown dst src m size)

/-- The bytes of the source have arrived, and nothing else has changed. -/
structure MovedBytes (m m' : Mem) (dst src size : Nat) : Prop where
  arrived : ∀ i < size, m' (dst + i) = m (src + i)
  outside : ∀ x, x < dst ∨ dst + size ≤ x → m' x = m x

variable {m : Mem} {dst src size : Nat}

theorem moveByte_eq {i : Nat} (hdst : dst + i < 2 ^ 32) (hsrc : src + i < 2 ^ 32) :
    moveByte dst src m i = Function.update m (dst + i) (m (src + i)) := by
  rw [moveByte, wrap_of_lt hdst, wrap_of_lt hsrc]

/-- Upwards, the first `n` rounds move the first `n` bytes. -/
theorem moved_up (hlt : dst < src) (hsrc : src + size ≤ 2 ^ 32) :
    MovedBytes m ((List.range size).foldl (moveByte dst src) m) dst src size := by
  refine foldl_range_induction (fun n t => MovedBytes m t dst src n) ?_ ?_
  · exact ⟨fun i hi => absurd hi (Nat.not_lt_zero i), fun _ _ => rfl⟩
  · intro n t hn h
    -- the source byte of this round lies above everything written so far
    have hnext : t (src + n) = m (src + n) := h.outside _ (.inr (by omega))
    rw [moveByte_eq (by omega) (by omega), hnext]
    constructor
    · intro i hi
      rcases Nat.lt_succ_iff_lt_or_eq.mp hi with hlt | rfl
      · rw [Function.update_of_ne (by omega)]
        exact h.arrived i hlt
      · exact Function.update_self ..
    · intro x hx
      rw [Function.update_of_ne (by omega)]
      exact h.outside x (by omega)

/-- Downwards, the bytes that are left are moved behind the one of this round. -/
theorem moved_down (hle : src ≤ dst) (hdst : dst + size ≤ 2 ^ 32) (hsrc : src + size ≤ 2 ^ 32) :
    MovedBytes m (moveDown dst src m size) dst src size := by
  induction size generalizing m with
  | zero => exact ⟨fun i hi => absurd hi (Nat.not_lt_zero i), fun _ _ => rfl⟩
  | succ n ih =>
    have h := @ih (moveByte dst src m n) (by omega) (by omega)
    have hround := @moveByte_eq m dst src n (by omega) (by omega)
    rw [moveDown]
    constructor
    · intro i hi
      rcases Nat.lt_succ_iff_lt_or_eq.mp hi with hlt | rfl
      · rw [h.arrived i hlt, hround]
        exact Function.update_of_ne (by omega) _ _
      · rw [h.outside _ (.inr (Nat.le_refl _)), hround]
        exact Function.update_self ..
    · intro x hx
      rw [h.outside x (by omega), hround]
      exact Function.update_of_ne (by omega) _ _

/-- **`memmove` moves.**  However the ranges overlap, the destination gets the bytes the
source had, and all other bytes stay. -/
theorem memmove_moved (m : Mem) (dst src size : Nat) (hdst : dst + size ≤ 2 ^ 32)
    (hsrc : src + size ≤ 2 ^ 32) : MovedBytes m (memmove m dst src size).2 dst src size := by
  unfold memmove
  by_cases hlt : dst < src
  · rw [if_pos hlt]
    exact moved_up hlt hsrc
  · rw [if_neg hlt]
    exact moved_down (Nat.not_lt.mp hlt) hdst hsrc

/-- Memory in which every byte is its address. -/
def addresses : Mem := fun x => BitVec.ofNat 8 x

/-- Three bytes, one address up. -/
theorem memmove_moved_byOne : MovedBytes addresses (memmove addresses 101 100 3).2 101 100 3 :=
  memmove_moved addresses 101 100 3 (by decide) (by decide)

end Libc
end Medusa
