import Medusa.Pmm.Boot

/-!
# What the bitmap promises after boot

Two promises are asked of `init_pmm`: a clear block is memory that the firmware
declared available, and a block that holds the kernel, a module or the
information block is taken.  Both fail on blocks that GRUB can hand over.  The
first fails when an entry is not aligned to blocks, lies above 4 GiB, or is so
long that its 32-bit length says less; the second fails for a module that ends
at or above 2 GiB, which the signed `max` ignores.  Each theorem says exactly
which information blocks are served well.
-/

namespace Medusa
namespace Pmm

open Machine Kernel Multiboot

/-! ## Clear blocks are available memory -/

/-- Every byte of block `k` belongs to some available entry. -/
def Covered (info : BootInfo) (k : Nat) : Prop :=
  ∀ a, k * 4096 ≤ a → a < (k + 1) * 4096 →
    ∃ e ∈ info.available, e.baseAddr ≤ a ∧ a < e.baseAddr + e.length

/-- Entry `e` alone covers block `k`. -/
def Contains (e : Entry) (k : Nat) : Prop :=
  e.baseAddr ≤ k * 4096 ∧ (k + 1) * 4096 ≤ e.baseAddr + e.length

/-- Every clear bit of the array stands for available memory, and no word past
the array was written. -/
def MapSound (info : BootInfo) (s : State) : Prop :=
  (∀ k, k < 2 ^ 20 → taken s k = false → Covered info k) ∧ s.strayed = false

/-- The condition on the memory map.  The blocks an entry clears stay below
4 GiB, and a block that is cleared without lying inside the entry, because base
and length were rounded to blocks or cut to 32 bits, is taken back afterwards or
is made up of other available entries. -/
structure MapFits (info : BootInfo) (kernelEndPhys : Nat) : Prop where
  below : ∀ e ∈ info.available, firstBlock e + numBlocks e ≤ 2 ^ 20
  spill : ∀ e ∈ info.available, ∀ k, Clears e k → ¬ Contains e k →
    Reserved info kernelEndPhys k ∨ Covered info k

theorem Contains.covered {info : BootInfo} {e : Entry} {k : Nat} (he : e ∈ info.available)
    (h : Contains e k) : Covered info k :=
  fun a hlo hhi => ⟨e, he, by have := h.1; omega, by have := h.2; omega⟩

/-- The bitmap built at boot is sound exactly for the memory maps that fit. -/
theorem initPmm_mapSound_iff (info : BootInfo) (kernelEndPhys : Nat)
    (h : kernelEndPhys ≤ 0x400000) :
    ∃ s, initPmm info.mem kernelEndPhys info.addr State.zero = .ok s ∧
      (MapSound info s ↔ MapFits info kernelEndPhys) := by
  obtain ⟨s, hs, hboot⟩ := initPmm_booted info kernelEndPhys h
  refine ⟨s, hs, ?_⟩
  constructor
  · rintro ⟨hclear, hstray⟩
    have hbelow := hboot.strayed_iff.mp hstray
    refine ⟨hbelow, fun e he k hk _ => ?_⟩
    have hlt : k < 2 ^ 20 := Nat.lt_of_lt_of_le hk.2 (hbelow e he)
    by_cases hres : Reserved info kernelEndPhys k
    · exact Or.inl hres
    · exact Or.inr (hclear k hlt ((hboot.clear_iff k hlt).mpr ⟨⟨e, he, hk⟩, hres⟩))
  · intro hfit
    refine ⟨fun k hk hclear => ?_, hboot.strayed_iff.mpr hfit.below⟩
    obtain ⟨⟨e, he, hck⟩, hres⟩ := (hboot.clear_iff k hk).mp hclear
    by_cases hin : Contains e k
    · exact hin.covered he
    · exact (hfit.spill e he k hck hin).resolve_left hres

/-- A machine with one available region, the first 4 MiB. -/
def flatMemory : BootInfo where
  mem := wordsAt 0x10000
    [56, 0,
     6, 40, 24, 0,
     0, 0, 0x400000, 0, 1, 0,
     0, 8]
  addr := 0x10000
  tags := [0x10008]
  mmap := 0x10008
  aligned := by decide
  fits := by decide
  chain := ⟨rfl, by decide, by decide, by decide, by decide⟩
  mmap_first := by decide
  entry_size := by decide
  entries_fit := by decide
  modules_ordered := by decide

theorem flatMemory_available : flatMemory.available = [Entry.mk 0 0x400000 1] := by decide

theorem flatMemory_clears {e : Entry} {k : Nat} (he : e ∈ flatMemory.available)
    (hk : Clears e k) : k < 1024 ∧ e = Entry.mk 0 0x400000 1 := by
  rw [flatMemory_available, List.mem_singleton] at he
  have hfirst : firstBlock (Entry.mk 0 0x400000 1) = 0 := by decide
  have hnum : numBlocks (Entry.mk 0 0x400000 1) = 1024 := by decide
  rw [he, Clears, hfirst, hnum] at hk
  exact ⟨by omega, he⟩

theorem flatMemory_mapFits : MapFits flatMemory 0x200000 where
  below := by rw [flatMemory_available]; decide
  spill := by
    intro e he k hk hout
    obtain ⟨hlt, rfl⟩ := flatMemory_clears he hk
    exact absurd ⟨by simp only; omega, by simp only; omega⟩ hout

theorem initPmm_mapSound_flatMemory :
    ∃ s, initPmm flatMemory.mem 0x200000 flatMemory.addr State.zero = .ok s ∧
      MapSound flatMemory s := by
  obtain ⟨s, hs, hiff⟩ := initPmm_mapSound_iff flatMemory 0x200000 (by decide)
  exact ⟨s, hs, hiff.mpr flatMemory_mapFits⟩

/-- A machine with 2 MiB of low memory and one page at 4 GiB + 4 MiB. -/
def highMemory : BootInfo where
  mem := wordsAt 0x10000
    [80, 0,
     6, 64, 24, 0,
     0, 0, 0x200000, 0, 1, 0,
     0x400000, 1, 0x1000, 0, 1, 0,
     0, 8]
  addr := 0x10000
  tags := [0x10008]
  mmap := 0x10008
  aligned := by decide
  fits := by decide
  chain := ⟨rfl, by decide, by decide, by decide, by decide⟩
  mmap_first := by decide
  entry_size := by decide
  entries_fit := by decide
  modules_ordered := by decide

theorem highMemory_available :
    highMemory.available = [Entry.mk 0 0x200000 1, Entry.mk 0x100400000 0x1000 1] := by decide

/-- The page above 4 GiB is cut to the block at 4 MiB, which no entry covers. -/
theorem initPmm_highMemory_unsound :
    ∃ s, initPmm highMemory.mem 0x200000 highMemory.addr State.zero = .ok s ∧
      ¬ MapSound highMemory s := by
  obtain ⟨s, hs, hboot⟩ := initPmm_booted highMemory 0x200000 (by decide)
  refine ⟨s, hs, fun hsound => ?_⟩
  have hclear : taken s 1024 = false := by
    refine (hboot.clear_iff 1024 (by decide)).mpr ⟨?_, by decide⟩
    rw [highMemory_available]
    exact ⟨Entry.mk 0x100400000 0x1000 1, by simp, by decide⟩
  obtain ⟨e, he, hlo, hhi⟩ := hsound.1 1024 (by decide) hclear 0x400000 (by decide) (by decide)
  rw [highMemory_available] at he
  rcases List.mem_pair.mp he with rfl | rfl
  · exact absurd hhi (by decide)
  · exact absurd hlo (by decide)

/-! ## The kernel, its modules and the information block are taken -/

/-- Block `k` and the bytes `[lo, hi)` have a byte in common. -/
def Meets (k lo hi : Nat) : Prop := lo < (k + 1) * 4096 ∧ k * 4096 < hi ∧ lo < hi

end Pmm
end Medusa
