import Medusa.Pmm.BootSafety

/-!
# Marking a region

`pmm_init_region` and `pmm_deinit_region` mark whole blocks for regions that may start and
end inside one.  The blocks they touch are the ones the region meets.
-/

namespace Medusa
namespace Pmm

open Machine Kernel

/-- Every sum that the two functions compute: the argument of `divide_up`, its rounded
quotient, and `base_block` before and after each round. -/
def regionSums (addr size : Nat) : List Nat :=
  let n := size + addr % 4096
  n :: (1 + wrap n / 4096) ::
    (List.range (divideUp (wrap n) 4096 + 1)).map fun i => addr / 4096 + i

/-- What marks the blocks of a region: they get the mark, the others keep theirs, and no
store goes past the bitmap. -/
structure Marked (s t : State) (marks : Nat → Prop) (mark : Nat → Bool) : Prop where
  marked : ∀ k, marks k → taken t k = mark k
  others : ∀ k, ¬ marks k → taken t k = taken s k
  inside : t.strayed = s.strayed

variable {addr size : Nat}

/-- The block count is that of the blocks met, from the first one on. -/
theorem meets_region_iff (hsize : 0 < size) (k : Nat) :
    Meets k addr (addr + size) ↔ addr / 4096 ≤ k ∧ k < addr / 4096 + span addr size := by
  rw [mem_span, Meets]
  constructor
  · rintro ⟨hlo, hhi, -⟩
    exact ⟨Nat.le_of_lt_succ (Nat.div_lt_of_lt_mul (by omega)), hhi⟩
  · rintro ⟨hlo, hhi⟩
    have hfirst := Nat.lt_div_mul_add (a := addr) (show 0 < 4096 by decide)
    omega

theorem regionSums_lt (h : addr + size < 2 ^ 32) : ∀ x ∈ regionSums addr size, x < 2 ^ 32 := by
  have hbound := span_bound h
  intro x hx
  simp only [regionSums, divideUp_span h, List.mem_cons, List.mem_map, List.mem_range] at hx
  rcases hx with rfl | rfl | ⟨i, hi, rfl⟩
  · omega
  · have hlt := wrap_lt (size + addr % 4096)
    omega
  · omega

theorem pmmDeinitRegion_marked (s : State) (hsize : 0 < size) (h : addr + size < 2 ^ 32) :
    Marked s (pmmDeinitRegion s addr size) (fun k => Meets k addr (addr + size)) fun _ => true := by
  obtain ⟨htaken, -, -, hstrayed⟩ := pmmDeinitRegion_spec s h
  refine ⟨fun k hk => ?_, fun k hk => ?_, hstrayed⟩
  · rw [htaken, decide_eq_true ((meets_region_iff hsize k).mp hk), Bool.or_true]
  · rw [htaken, decide_eq_false (mt (meets_region_iff hsize k).mpr hk), Bool.or_false]

/-- Making a region available clears the blocks it meets, and takes block 0. -/
theorem pmmInitRegion_marked (s : State) (hsize : 0 < size) (h : addr + size < 2 ^ 32) :
    Marked s (pmmInitRegion s addr size) (fun k => k = 0 ∨ Meets k addr (addr + size))
      fun k => decide (k = 0) := by
  have hbound := span_bound h
  have htaken : ∀ k, taken (pmmInitRegion s addr size) k =
      ((taken s k && !decide (addr / 4096 ≤ k ∧ k < addr / 4096 + span addr size)) ||
        decide (k = 0)) := by
    intro k
    rw [pmmInitRegion]
    simp only [divideUp_span h]
    rw [taken_mmapSet, taken_unsetBlocks s (by omega)]
  refine ⟨fun k hk => ?_, fun k hk => ?_, ?_⟩
  · rw [htaken]
    rcases hk with rfl | hk
    · rw [decide_eq_true rfl, Bool.or_true]
    · rw [decide_eq_true ((meets_region_iff hsize k).mp hk), Bool.not_true, Bool.and_false,
        Bool.false_or]
  · obtain ⟨hzero, hmeets⟩ := not_or.mp hk
    rw [htaken, decide_eq_false (mt (meets_region_iff hsize k).mpr hmeets), decide_eq_false hzero,
      Bool.not_false, Bool.and_true, Bool.or_false]
  · have hstrayed := strayed_unsetBlocks s (show addr / 4096 + span addr size ≤ 2 ^ 32 by omega)
    rw [decide_eq_false (by omega), Bool.or_false] at hstrayed
    rw [pmmInitRegion]
    simp only [divideUp_span h]
    rw [← hstrayed]
    exact Bool.or_false _

/-- **Region marking is exact.**  For a region below 4 GiB both functions touch the blocks
the region meets and no others, block 0 stays taken, and no sum is cut. -/
theorem region_exact (s : State) (hsize : 0 < size) (h : addr + size < 2 ^ 32) :
    Marked s (pmmDeinitRegion s addr size) (fun k => Meets k addr (addr + size))
        (fun _ => true) ∧
      Marked s (pmmInitRegion s addr size) (fun k => k = 0 ∨ Meets k addr (addr + size))
        (fun k => decide (k = 0)) ∧
      ∀ x ∈ regionSums addr size, x < 2 ^ 32 :=
  ⟨pmmDeinitRegion_marked s hsize h, pmmInitRegion_marked s hsize h, regionSums_lt h⟩

/-- Two bytes on the border of two blocks. -/
theorem region_exact_border :
    Marked State.zero (pmmDeinitRegion State.zero 4095 2) (fun k => Meets k 4095 (4095 + 2))
        (fun _ => true) ∧
      Marked State.zero (pmmInitRegion State.zero 4095 2) (fun k => k = 0 ∨ Meets k 4095 (4095 + 2))
        (fun k => decide (k = 0)) ∧
      ∀ x ∈ regionSums 4095 2, x < 2 ^ 32 :=
  region_exact State.zero (by decide) (by decide)

end Pmm
end Medusa
