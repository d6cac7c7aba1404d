import Medusa.Pmm.Alloc

/-!
# The supply of pages

How many pages `pmm_alloc_page` still has to give: the clear blocks of its search
window, and none at all once block 0 is clear, since the search then answers 0.
The counter it tests is a number of its own; when that runs out it aborts.
-/

namespace Medusa
namespace Pmm

open Machine Kernel

/-- The blocks of the search window that are not taken. -/
def clearWindow (s : State) : Finset Nat :=
  (Finset.range (window s)).filter fun k => taken s k = false

def available (s : State) : Nat := if taken s 0 then (clearWindow s).card else 0

theorem available_le (s : State) : available s ≤ window s - 1 := by
  rw [available]
  by_cases h0 : taken s 0 = true
  · have hsub : clearWindow s ⊆ Finset.Ico 1 (window s) := by
      intro k hk
      obtain ⟨hlt, hclear⟩ := Finset.mem_filter.mp hk
      refine Finset.mem_Ico.mpr ⟨?_, Finset.mem_range.mp hlt⟩
      rw [Nat.one_le_iff_ne_zero]
      intro hzero
      rw [hzero, h0] at hclear
      simp at hclear
    have hcard := Finset.card_le_card hsub
    rw [if_pos h0]
    rwa [Nat.card_Ico] at hcard
  · rw [if_neg h0]
    exact Nat.zero_le _

/-- `pmm_get_free_blocks`. -/
def pmmGetFreeBlocks (s : State) : Nat := wsub s.maxBlocks s.usedBlocks

/-- A page was handed out: `t` is `s` with the block of `addr` marked. -/
structure Served (s t : State) (addr : Nat) : Prop where
  pos : addr ≠ 0
  aligned : addr % 4096 = 0
  lt : addr < 2 ^ 32
  clear : taken s (addr / 4096) = false
  marked : ∀ k, taken t k = (taken s k || decide (k = addr / 4096))
  maxBlocks : t.maxBlocks = s.maxBlocks
  available : Pmm.available s = Pmm.available t + 1
  free : pmmGetFreeBlocks s = pmmGetFreeBlocks t + 1

variable {s t : State} {addr : Nat}

theorem Served.keeps (h : Served s t addr) {k : Nat} (hk : taken s k = true) :
    taken t k = true := by
  rw [h.marked, hk, Bool.true_or]

theorem Served.taken (h : Served s t addr) : Pmm.taken t (addr / 4096) = true := by
  rw [h.marked, decide_eq_true rfl, Bool.or_true]

theorem pmmAllocPage_abort (h : pmmGetFreeBlocks s = 0) : pmmAllocPage s = .error .abort :=
  if_pos (Nat.le_of_eq h)

/-- Marking a clear block of the window takes it from the supply. -/
theorem clearWindow_mmapSet {b : Nat} (hb : b < window s) (hclear : taken s b = false) :
    (clearWindow s).card = (clearWindow (mmapSet s b)).card + 1 := by
  have hmem : b ∈ clearWindow s :=
    Finset.mem_filter.mpr ⟨Finset.mem_range.mpr hb, hclear⟩
  have herase : clearWindow (mmapSet s b) = (clearWindow s).erase b := by
    ext k
    rw [clearWindow, clearWindow, Finset.mem_erase, Finset.mem_filter, Finset.mem_filter,
      taken_mmapSet]
    by_cases hk : k = b
    · simp [hk]
    · simp only [hk, decide_false, Bool.or_false, ne_eq, not_false_eq_true, true_and]
      exact Iff.rfl
  rw [herase, Finset.card_erase_add_one hmem]

/-- The counter goes down with every page. -/
theorem pmmGetFreeBlocks_mmapSet (b : Nat) (h : pmmGetFreeBlocks s ≠ 0) :
    pmmGetFreeBlocks s = pmmGetFreeBlocks (mmapSet s b) + 1 := by
  rw [pmmGetFreeBlocks] at h ⊢
  show _ = wsub s.maxBlocks (wrap (s.usedBlocks + 1)) + 1
  unfold wsub wrap at *
  omega

theorem pmmAllocPage_zero (hmax : s.maxBlocks ≤ 2 ^ 20) (hfree : pmmGetFreeBlocks s ≠ 0)
    (hnone : available s = 0) : pmmAllocPage s = .ok (0, s) := by
  have hfind : mmapFindFree s = 0 := by
    rcases mmapFindFree_spec (s := s) (by omega) with ⟨hlt, hclear, hleast⟩ | ⟨hzero, -⟩
    · by_contra hpos
      have h0 : taken s 0 = true := hleast 0 (by omega)
      rw [available, h0, if_pos rfl, Finset.card_eq_zero] at hnone
      have hmem : mmapFindFree s ∈ clearWindow s :=
        Finset.mem_filter.mpr ⟨Finset.mem_range.mpr hlt, hclear⟩
      rw [hnone] at hmem
      exact absurd hmem (Finset.notMem_empty _)
    · exact hzero
  rw [pmmAllocPage, if_neg (show ¬ wsub s.maxBlocks s.usedBlocks ≤ 0 from
    fun h => hfree (Nat.le_zero.mp h)), hfind]
  rfl

theorem pmmAllocPage_served (hmax : s.maxBlocks ≤ 2 ^ 20) (hfree : pmmGetFreeBlocks s ≠ 0)
    (hsome : available s ≠ 0) : ∃ addr t, pmmAllocPage s = .ok (addr, t) ∧ Served s t addr := by
  have h0 : taken s 0 = true := by
    by_contra h0
    exact hsome (if_neg h0)
  rcases mmapFindFree_spec (s := s) (by omega) with ⟨hlt, hclear, -⟩ | ⟨-, hfull⟩
  · have hpos : mmapFindFree s ≠ 0 := by
      intro hzero
      rw [hzero, h0] at hclear
      simp at hclear
    have hw := window_le s
    have hword : wrap (mmapFindFree s * 4096) = mmapFindFree s * 4096 := wrap_of_lt (by omega)
    have hblock : mmapFindFree s * 4096 / 4096 = mmapFindFree s :=
      Nat.mul_div_cancel _ (by decide)
    refine ⟨mmapFindFree s * 4096, mmapSet s (mmapFindFree s), ?_, ?_⟩
    · rw [pmmAllocPage, if_neg (show ¬ wsub s.maxBlocks s.usedBlocks ≤ 0 from
        fun h => hfree (Nat.le_zero.mp h))]
      simp only [if_neg hpos, hword]
    · refine ⟨by omega, by omega, by omega, by rwa [hblock], fun k => ?_, rfl, ?_,
        pmmGetFreeBlocks_mmapSet _ hfree⟩
      · rw [hblock]
        exact taken_mmapSet s _ k
      · have h0' : taken (mmapSet s (mmapFindFree s)) 0 = true := by
          rw [taken_mmapSet, h0, Bool.true_or]
        rw [available, available, h0, h0', if_pos rfl, if_pos rfl]
        exact clearWindow_mmapSet hlt hclear
  · exfalso
    refine hsome ?_
    rw [available, h0, if_pos rfl, Finset.card_eq_zero, clearWindow, Finset.filter_eq_empty_iff]
    intro k hk
    rw [hfull k (Finset.mem_range.mp hk)]
    simp

/-- The three answers of `pmm_alloc_page`. -/
theorem pmmAllocPage_cases (hmax : s.maxBlocks ≤ 2 ^ 20) :
    (pmmGetFreeBlocks s = 0 ∧ pmmAllocPage s = .error .abort) ∨
      (pmmGetFreeBlocks s ≠ 0 ∧ available s = 0 ∧ pmmAllocPage s = .ok (0, s)) ∨
      ∃ addr t, pmmAllocPage s = .ok (addr, t) ∧ Served s t addr := by
  by_cases hfree : pmmGetFreeBlocks s = 0
  · exact Or.inl ⟨hfree, pmmAllocPage_abort hfree⟩
  · by_cases hsome : available s = 0
    · exact Or.inr (Or.inl ⟨hfree, hsome, pmmAllocPage_zero hmax hfree hsome⟩)
    · exact Or.inr (Or.inr (pmmAllocPage_served hmax hfree hsome))

end Pmm
end Medusa
