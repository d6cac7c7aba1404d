import Medusa.Pmm.BootSafety
import Medusa.Pmm.Ownership

/-!
# Counting free blocks, and finding them

`init_pmm` sets `used_blocks` to `max_blocks` after it has cleared the available
regions, and the calls that protect memory then push it higher.  The difference
the allocators test is therefore a small negative number read as unsigned, from
boot on and in every run: it never is the number of clear bits, and it never
stops an allocation that could succeed.

What does stop one is the search window, which is as long as the available
memory is large.  Blocks past it are lost.
-/

namespace Medusa
namespace Pmm

open Machine Kernel Multiboot

/-! ## The counter -/

variable {info : BootInfo} {kernelEndPhys : Nat} {s : State} {b : Book}

theorem protectCalls_bounds (info : BootInfo) (kernelEndPhys : Nat)
    (h : kernelEndPhys ≤ 0x400000) :
    0 < protectCalls info kernelEndPhys ∧ protectCalls info kernelEndPhys ≤ 2 ^ 21 := by
  have hlt := protectedEnd_lt info kernelEndPhys (by omega)
  have hlow := divideUp_page hlt
  have hinfo := divideUp_span info.fits
  have hbound := span_bound info.fits
  have hsize := info.rounds
  have hpos : 0 < span info.addr (totalSize info.mem info.addr) := by
    unfold span
    omega
  unfold protectCalls
  omega

theorem Booted.taken_zero (hboot : Booted info kernelEndPhys s) : taken s 0 = true := by
  by_contra hfree
  have hres := ((hboot.clear_iff 0 (by decide)).mp (by simpa using hfree)).2
  exact hres (Or.inl rfl)

theorem Booted.maxBlocks_le (hboot : Booted info kernelEndPhys s) : s.maxBlocks ≤ 2 ^ 20 := by
  have hlt := wrap_lt (availableBytes info)
  rw [hboot.maxBlocks]
  omega

theorem card_clearBlocks_le (s : State) : (clearBlocks s).card ≤ 2 ^ 20 := by
  have hle := Finset.card_filter_le (Finset.range (2 ^ 20)) (taken s · = false)
  rw [Finset.card_range] at hle
  exact hle

/-- In every run after boot, the difference of the two counters is the number of
protecting calls and of blocks held, negated as a word. -/
theorem free_counter (hk : kernelEndPhys ≤ 0x400000) (hboot : Booted info kernelEndPhys s)
    (hrun : Reachable s b) :
    wsub b.pmm.maxBlocks b.pmm.usedBlocks =
      2 ^ 32 - (protectCalls info kernelEndPhys + heldBlocks b.held) ∧
    protectCalls info kernelEndPhys + heldBlocks b.held ≤ 2 ^ 22 := by
  have hsound := hrun.sound hboot.taken_zero hboot.maxBlocks_le
  have hmax := hboot.maxBlocks_le
  have hcount := hsound.count
  have hcard := card_clearBlocks_le s
  obtain ⟨hpos, hcalls⟩ := protectCalls_bounds info kernelEndPhys hk
  have hused : wrap b.pmm.usedBlocks =
      wrap (s.maxBlocks + (protectCalls info kernelEndPhys + heldBlocks b.held)) := by
    rw [hsound.used, ← wrap_add_wrap, hboot.used, wrap_add_wrap, Nat.add_assoc]
  unfold wsub
  rw [hsound.sizes.maxBlocks, hused]
  unfold wrap
  omega

/-- The counters never give the number of clear bits, whatever the memory map
and whatever was allocated and freed since boot. -/
theorem free_counter_ne_clear (hk : kernelEndPhys ≤ 0x400000)
    (hinit : initPmm info.mem kernelEndPhys info.addr State.zero = .ok s) (hrun : Reachable s b) :
    wsub b.pmm.maxBlocks b.pmm.usedBlocks ≠ (clearBlocks b.pmm).card := by
  obtain ⟨s', hs', hboot⟩ := initPmm_booted info kernelEndPhys hk
  rw [hinit] at hs'
  cases hs'
  obtain ⟨hdiff, hsmall⟩ := free_counter hk hboot hrun
  have hcard := card_clearBlocks_le b.pmm
  omega

theorem free_counter_ne_clear_flatMemory :
    ∃ s, initPmm flatMemory.mem 0x200000 flatMemory.addr State.zero = .ok s ∧
      wsub s.maxBlocks s.usedBlocks ≠ (clearBlocks s).card := by
  obtain ⟨s, hs, -⟩ := initPmm_booted flatMemory 0x200000 (by decide)
  exact ⟨s, hs, free_counter_ne_clear (by decide) hs Relation.ReflTransGen.refl⟩

/-- The available regions start and end on block boundaries, lie below 4 GiB and
do not overlap. -/
structure TidyMap (info : BootInfo) : Prop where
  aligned : ∀ e ∈ info.available, e.baseAddr % 4096 = 0 ∧ e.length % 4096 = 0
  below : ∀ e ∈ info.available, e.baseAddr + e.length ≤ 2 ^ 32
  apart : info.available.Pairwise fun e e' =>
    e.baseAddr + e.length ≤ e'.baseAddr ∨ e'.baseAddr + e'.length ≤ e.baseAddr

/-- One tidy region, and yet the counters disagree with the bitmap as soon as
`init_pmm` has returned. -/
theorem free_counter_flatMemory_wrong :
    TidyMap flatMemory ∧
      ∃ s, initPmm flatMemory.mem 0x200000 flatMemory.addr State.zero = .ok s ∧
        ¬ wsub s.maxBlocks s.usedBlocks = (clearBlocks s).card := by
  refine ⟨⟨?_, ?_, ?_⟩, ?_⟩
  · rw [flatMemory_available]
    decide
  · rw [flatMemory_available]
    decide
  · rw [flatMemory_available]
    exact List.pairwise_singleton _ _
  · obtain ⟨s, hs, hboot⟩ := initPmm_booted flatMemory 0x200000 (by decide)
    obtain ⟨hdiff, hsmall⟩ := free_counter (by decide) hboot Relation.ReflTransGen.refl
    have hcard := card_clearBlocks_le s
    simp only at hdiff hsmall
    exact ⟨s, hs, by omega⟩

/-! ## The window -/

/-- The end of the search window: as many blocks as there is available memory,
cut to whole words of the bitmap. -/
def windowEnd (info : BootInfo) : Nat := wrap (availableBytes info) / 4096 / 32 * 32

theorem Booted.window_eq (hboot : Booted info kernelEndPhys s) : window s = windowEnd info := by
  unfold window windowEnd
  rw [hboot.maxBlocks]

end Pmm
end Medusa
