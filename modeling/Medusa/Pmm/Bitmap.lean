import Mathlib.Data.Finset.Card
import Mathlib.Order.Interval.Finset.Nat
import Medusa.Kernel.Misc
import Medusa.Machine.Loop

/-!
# The block bitmap

Physical memory is handed out in blocks of 4096 bytes (`PMM_BLOCK_SIZE`), and
bit `b % 32` of word `b / 32` says whether block `b` is taken.  The array has
32768 words, one bit for each block below 4 GiB.  The functions of `pmm.c` never
check an index against that bound, so the state also records whether a word
past the array has been written.
-/

namespace Medusa
namespace Pmm

open Machine Kernel

/-- The static variables of `pmm.c`. -/
structure State where
  bitmap : Nat → BitVec 32
  memSize : Nat
  usedBlocks : Nat
  maxBlocks : Nat
  kernelEnd : Nat
  /-- Whether a store has gone past the 32768 words of the array. -/
  strayed : Bool

/-- `NTHBIT`. -/
def nthBit (n : Nat) : BitVec 32 := 1#32 <<< n

def mmapSet (s : State) (bit : Nat) : State :=
  { s with
    bitmap := Function.update s.bitmap (bit / 32) (s.bitmap (bit / 32) ||| nthBit (bit % 32))
    usedBlocks := wrap (s.usedBlocks + 1)
    strayed := s.strayed || decide (32768 ≤ bit / 32) }

def mmapUnset (s : State) (bit : Nat) : State :=
  { s with
    bitmap := Function.update s.bitmap (bit / 32) (s.bitmap (bit / 32) &&& ~~~nthBit (bit % 32))
    usedBlocks := wsub s.usedBlocks 1
    strayed := s.strayed || decide (32768 ≤ bit / 32) }

/-- The loops `mmap_set(first)`, …, `mmap_set(first + num - 1)` of the allocators
and of `pmm_deinit_region`. -/
def setBlocks (s : State) (first num : Nat) : State :=
  (List.range num).foldl (fun t i => mmapSet t (wrap (first + i))) s

/-- The same loops over `mmap_unset`. -/
def unsetBlocks (s : State) (first num : Nat) : State :=
  (List.range num).foldl (fun t i => mmapUnset t (wrap (first + i))) s

/-- Whether block `k` is marked used. -/
def taken (s : State) (k : Nat) : Bool := (s.bitmap (k / 32)).getLsbD (k % 32)

/-! ## One bit -/

theorem getLsbD_or_nthBit (w : BitVec 32) {j k : Nat} (hk : k < 32) :
    (w ||| nthBit j).getLsbD k = (w.getLsbD k || decide (k = j)) := by
  have hbit : (nthBit j).getLsbD k = decide (k = j) := by
    simp only [nthBit, BitVec.getLsbD_shiftLeft, hk, decide_true, Bool.true_and,
      BitVec.getLsbD_one]
    by_cases h : k = j
    · simp [h]
    · simp only [h, decide_false]
      by_cases hlt : k < j
      · simp [hlt]
      · simp
        omega
  rw [BitVec.getLsbD_or, hbit]

theorem getLsbD_and_not_nthBit (w : BitVec 32) {j k : Nat} (hk : k < 32) :
    (w &&& ~~~nthBit j).getLsbD k = (w.getLsbD k && !decide (k = j)) := by
  have hzero := getLsbD_or_nthBit 0#32 (j := j) hk
  simp only [BitVec.getLsbD_or, BitVec.getLsbD_zero, Bool.false_or] at hzero
  rw [BitVec.getLsbD_and, BitVec.getLsbD_not, hzero]
  simp [hk]

theorem and_nthBit_eq_zero (w : BitVec 32) {j : Nat} (hj : j < 32) :
    w &&& nthBit j = 0#32 ↔ w.getLsbD j = false := by
  have hbit : ∀ k, k < 32 → (w &&& nthBit j).getLsbD k = (w.getLsbD k && decide (k = j)) := by
    intro k hk
    have hzero := getLsbD_or_nthBit 0#32 (j := j) hk
    simp only [BitVec.getLsbD_or, BitVec.getLsbD_zero, Bool.false_or] at hzero
    rw [BitVec.getLsbD_and, hzero]
  constructor
  · intro h
    have hj' := hbit j hj
    rw [h] at hj'
    simpa using hj'.symm
  · intro h
    refine BitVec.eq_of_getLsbD_eq fun k hk => ?_
    rw [hbit k hk, BitVec.getLsbD_zero]
    by_cases he : k = j
    · rw [he, h]
      rfl
    · simp [he]

/-- A word compares equal to `0xFFFFFFFF` exactly when its 32 blocks are all
taken. -/
theorem eq_full_iff (w : BitVec 32) :
    w = 0xFFFFFFFF#32 ↔ ∀ k, k < 32 → w.getLsbD k = true := by
  have hones : (0xFFFFFFFF#32 : BitVec 32) = BitVec.allOnes 32 := by decide
  rw [hones]
  constructor
  · rintro rfl k hk
    rw [BitVec.getLsbD_allOnes, decide_eq_true hk]
  · intro h
    refine BitVec.eq_of_getLsbD_eq fun k hk => ?_
    rw [h k hk, BitVec.getLsbD_allOnes, decide_eq_true hk]

theorem taken_mmapSet (s : State) (b k : Nat) :
    taken (mmapSet s b) k = (taken s k || decide (k = b)) := by
  simp only [taken, mmapSet]
  by_cases hw : k / 32 = b / 32
  · rw [hw, Function.update_self, getLsbD_or_nthBit _ (Nat.mod_lt _ (by decide))]
    congr 1
    exact decide_eq_decide.mpr (by omega)
  · have hne : k ≠ b := fun h => hw (by rw [h])
    rw [Function.update_of_ne hw]
    simp [hne]

theorem taken_mmapUnset (s : State) (b k : Nat) :
    taken (mmapUnset s b) k = (taken s k && !decide (k = b)) := by
  simp only [taken, mmapUnset]
  by_cases hw : k / 32 = b / 32
  · rw [hw, Function.update_self, getLsbD_and_not_nthBit _ (Nat.mod_lt _ (by decide))]
    congr 2
    exact decide_eq_decide.mpr (by omega)
  · have hne : k ≠ b := fun h => hw (by rw [h])
    rw [Function.update_of_ne hw]
    simp [hne]

/-! ## Ranges of blocks -/

/-- What the two marking loops leave alone. -/
structure SameSizes (s t : State) : Prop where
  memSize : t.memSize = s.memSize
  maxBlocks : t.maxBlocks = s.maxBlocks
  kernelEnd : t.kernelEnd = s.kernelEnd

theorem setBlocks_spec (s : State) {first num : Nat} (h : first + num ≤ 2 ^ 32) :
    (∀ k, taken (setBlocks s first num) k = (taken s k || decide (first ≤ k ∧ k < first + num))) ∧
      wrap (setBlocks s first num).usedBlocks = wrap (s.usedBlocks + num) ∧
      SameSizes s (setBlocks s first num) := by
  refine foldl_range_induction
    (fun n t => (∀ k, taken t k = (taken s k || decide (first ≤ k ∧ k < first + n))) ∧
      wrap t.usedBlocks = wrap (s.usedBlocks + n) ∧ SameSizes s t) ⟨?_, rfl, rfl, rfl, rfl⟩ ?_
  · intro k
    have hnone : ¬ (first ≤ k ∧ k < first + 0) := by omega
    rw [decide_eq_false hnone, Bool.or_false]
  · rintro n t hn ⟨htaken, hused, hsame⟩
    rw [wrap_of_lt (show first + n < 2 ^ 32 by omega)]
    refine ⟨fun k => ?_, ?_, hsame.1, hsame.2, hsame.3⟩
    · rw [taken_mmapSet, htaken, Bool.or_assoc, ← Bool.decide_or]
      congr 1
      exact decide_eq_decide.mpr (by omega)
    · show wrap (wrap (t.usedBlocks + 1)) = _
      rw [wrap_wrap, ← wrap_add_wrap, hused, wrap_add_wrap, Nat.add_assoc]

theorem unsetBlocks_spec (s : State) {first num : Nat} (h : first + num ≤ 2 ^ 32) :
    (∀ k, taken (unsetBlocks s first num) k =
        (taken s k && !decide (first ≤ k ∧ k < first + num))) ∧
      wrap ((unsetBlocks s first num).usedBlocks + num) = wrap s.usedBlocks ∧
      SameSizes s (unsetBlocks s first num) := by
  refine foldl_range_induction
    (fun n t => (∀ k, taken t k = (taken s k && !decide (first ≤ k ∧ k < first + n))) ∧
      wrap (t.usedBlocks + n) = wrap s.usedBlocks ∧ SameSizes s t) ⟨?_, rfl, rfl, rfl, rfl⟩ ?_
  · intro k
    have hnone : ¬ (first ≤ k ∧ k < first + 0) := by omega
    rw [decide_eq_false hnone, Bool.not_false, Bool.and_true]
  · rintro n t hn ⟨htaken, hused, hsame⟩
    rw [wrap_of_lt (show first + n < 2 ^ 32 by omega)]
    refine ⟨fun k => ?_, ?_, hsame.1, hsame.2, hsame.3⟩
    · rw [taken_mmapUnset, htaken, Bool.and_assoc, ← Bool.not_or, ← Bool.decide_or]
      congr 2
      exact decide_eq_decide.mpr (by omega)
    · show wrap (wsub t.usedBlocks 1 + (n + 1)) = _
      rw [← hused]
      unfold wsub wrap
      omega

/-- A marking loop goes past the array exactly when its last block does. -/
theorem strayed_blocks {mark : State → Nat → State} (hmark : ∀ t bit, (mark t bit).strayed =
      (t.strayed || decide (32768 ≤ bit / 32)))
    (s : State) {first num : Nat} (h : first + num ≤ 2 ^ 32) :
    ((List.range num).foldl (fun t i => mark t (wrap (first + i))) s).strayed =
      (s.strayed || decide (0 < num ∧ 2 ^ 20 < first + num)) := by
  apply foldl_range_induction
    (fun n (t : State) => t.strayed = (s.strayed || decide (0 < n ∧ 2 ^ 20 < first + n)))
  · simp
  · intro n t hn ht
    rw [hmark, ht, wrap_of_lt (by omega), Bool.or_assoc, ← Bool.decide_or]
    congr 1
    exact decide_eq_decide.mpr (by omega)

theorem strayed_setBlocks (s : State) {first num : Nat} (h : first + num ≤ 2 ^ 32) :
    (setBlocks s first num).strayed =
      (s.strayed || decide (0 < num ∧ 2 ^ 20 < first + num)) :=
  strayed_blocks (fun _ _ => rfl) s h

theorem strayed_unsetBlocks (s : State) {first num : Nat} (h : first + num ≤ 2 ^ 32) :
    (unsetBlocks s first num).strayed =
      (s.strayed || decide (0 < num ∧ 2 ^ 20 < first + num)) :=
  strayed_blocks (fun _ _ => rfl) s h

theorem taken_setBlocks (s : State) {first num : Nat} (h : first + num ≤ 2 ^ 32) (k : Nat) :
    taken (setBlocks s first num) k = (taken s k || decide (first ≤ k ∧ k < first + num)) :=
  (setBlocks_spec s h).1 k

theorem taken_unsetBlocks (s : State) {first num : Nat} (h : first + num ≤ 2 ^ 32) (k : Nat) :
    taken (unsetBlocks s first num) k = (taken s k && !decide (first ≤ k ∧ k < first + num)) :=
  (unsetBlocks_spec s h).1 k

theorem usedBlocks_setBlocks (s : State) {first num : Nat} (h : first + num ≤ 2 ^ 32) :
    wrap (setBlocks s first num).usedBlocks = wrap (s.usedBlocks + num) :=
  (setBlocks_spec s h).2.1

theorem usedBlocks_unsetBlocks (s : State) {first num : Nat} (h : first + num ≤ 2 ^ 32) :
    wrap ((unsetBlocks s first num).usedBlocks + num) = wrap s.usedBlocks :=
  (unsetBlocks_spec s h).2.1

theorem sameSizes_setBlocks (s : State) {first num : Nat} (h : first + num ≤ 2 ^ 32) :
    SameSizes s (setBlocks s first num) :=
  (setBlocks_spec s h).2.2

theorem sameSizes_unsetBlocks (s : State) {first num : Nat} (h : first + num ≤ 2 ^ 32) :
    SameSizes s (unsetBlocks s first num) :=
  (unsetBlocks_spec s h).2.2

end Pmm
end Medusa
