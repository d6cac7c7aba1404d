import Medusa.Machine.Loop
import Medusa.Machine.Memory

/-!
# Copying and filling memory

`memcpy` and `memset` of the C library, byte by byte as they are written.  A
forward copy gives the source's old bytes when the destination starts below the
source or past its end.
-/

namespace Medusa
namespace Libc

open Machine

def memcpy (m : Mem) (dst src size : Nat) : Mem :=
  (List.range size).foldl (fun t i => Function.update t (dst + i) (t (src + i))) m

def memset (m : Mem) (buf : Nat) (value : BitVec 8) (size : Nat) : Mem :=
  (List.range size).foldl (fun t i => Function.update t (buf + i) value) m

theorem memcpy_outside {m : Mem} {dst src size x : Nat} (hx : x < dst ∨ dst + size ≤ x) :
    memcpy m dst src size x = m x := by
  refine foldl_range_induction (fun _ (t : Mem) => t x = m x) rfl ?_
  intro i t hi ht
  rw [Function.update_of_ne (by omega), ht]

theorem memcpy_apply {m : Mem} {dst src size i : Nat} (hov : dst ≤ src ∨ src + size ≤ dst)
    (hi : i < size) : memcpy m dst src size (dst + i) = m (src + i) := by
  -- after `n` rounds the first `n` bytes are copied and the rest of the source is intact
  have hinv := foldl_range_induction (n := size) (s := m)
    (f := fun (t : Mem) i => Function.update t (dst + i) (t (src + i)))
    (fun n (t : Mem) => (∀ j, j < n → t (dst + j) = m (src + j)) ∧
      ∀ j, n ≤ j → j < size → t (src + j) = m (src + j))
    ⟨fun j hj => absurd hj (Nat.not_lt_zero j), fun _ _ _ => rfl⟩
    (by
      rintro n t hn ⟨hdone, htodo⟩
      refine ⟨fun j hj => ?_, fun j hj hj' => ?_⟩
      · rcases (by omega : j < n ∨ j = n) with hlt | rfl
        · rw [Function.update_of_ne (by omega), hdone j hlt]
        · rw [Function.update_self, htodo j (Nat.le_refl j) hn]
      · rw [Function.update_of_ne (by omega), htodo j (by omega) hj'])
  exact hinv.1 i hi

theorem memcpy_zero (m : Mem) (dst src : Nat) : memcpy m dst src 0 = m := rfl

theorem memcpy_succ (m : Mem) (dst src size : Nat) :
    memcpy m dst src (size + 1) =
      Function.update (memcpy m dst src size) (dst + size)
        (memcpy m dst src size (src + size)) := by
  rw [memcpy, List.range_succ, List.foldl_append]
  rfl

theorem memset_zero (m : Mem) (buf : Nat) (value : BitVec 8) : memset m buf value 0 = m := rfl

theorem memset_succ (m : Mem) (buf : Nat) (value : BitVec 8) (size : Nat) :
    memset m buf value (size + 1) =
      Function.update (memset m buf value size) (buf + size) value := by
  rw [memset, List.range_succ, List.foldl_append]
  rfl

theorem memset_apply {m : Mem} {buf size i : Nat} {value : BitVec 8} (hi : i < size) :
    memset m buf value size (buf + i) = value := by
  induction size with
  | zero => exact absurd hi (Nat.not_lt_zero i)
  | succ n ih =>
    rw [memset_succ]
    rcases (by omega : i < n ∨ i = n) with hlt | rfl
    · rw [Function.update_of_ne (by omega), ih hlt]
    · rw [Function.update_self]

theorem memset_outside {m : Mem} {buf size x : Nat} {value : BitVec 8}
    (hx : x < buf ∨ buf + size ≤ x) : memset m buf value size x = m x := by
  refine foldl_range_induction (fun _ (t : Mem) => t x = m x) rfl ?_
  intro i t hi ht
  rw [Function.update_of_ne (by omega), ht]

-- callers use the lemmas; unfolding a copy of thousands of bytes helps nobody
attribute [irreducible] memcpy memset

end Libc
end Medusa
