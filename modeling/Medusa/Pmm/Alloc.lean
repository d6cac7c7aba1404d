import Medusa.Pmm.Search

/-!
# Allocating and freeing blocks

The three allocators and the two free functions of `pmm.c`.  An allocator that
succeeds marks a run of clear blocks that the search found, so one statement
covers the three: `Grants`.
-/

namespace Medusa
namespace Pmm

open Machine Kernel

/-- The test `max_blocks - used_blocks <= 0` is on unsigned words, so it asks
whether the two counters are equal. -/
def pmmAllocPage (s : State) : Except Stop (Nat × State) :=
  if wsub s.maxBlocks s.usedBlocks ≤ 0 then .error .abort
  else
    let block := mmapFindFree s
    if block = 0 then .ok (0, s)
    else .ok (wrap (block * 4096), mmapSet s block)

def pmmAllocAlignedLargePage (s : State) : Nat × State :=
  if wsub s.maxBlocks s.usedBlocks < 2 * 1024 then (0, s)
  else
    let freeBlock := mmapFindFreeFrame s (2 * 1024)
    if freeBlock = 0 then (0, s)
    else
      let alignedBlock := wrap ((freeBlock / 1024 + 1) * 1024)
      (wrap (alignedBlock * 4096), setBlocks s alignedBlock 1024)

def pmmAllocPages (s : State) (num : Nat) : Nat × State :=
  if wsub s.maxBlocks s.usedBlocks < num then (0, s)
  else
    let firstBlock := mmapFindFreeFrame s num
    if firstBlock = 0 then (0, s)
    else (wrap (firstBlock * 4096), setBlocks s firstBlock num)

def pmmFreePage (s : State) (addr : Nat) : State := mmapUnset s (addr / 4096)

def pmmFreePages (s : State) (addr num : Nat) : State := unsetBlocks s (addr / 4096) num

/-- A call of one of the three allocators. -/
inductive Request where
  | page
  | pages (num : Nat)
  | largePage
deriving DecidableEq, Repr

namespace Request

/-- The number of blocks a successful call hands out. -/
def blocks : Request → Nat
  | page => 1
  | pages num => num
  | largePage => 1024

/-- Callers never ask for zero pages. -/
def Valid (r : Request) : Prop := 0 < r.blocks

instance (r : Request) : Decidable r.Valid := inferInstanceAs (Decidable (0 < r.blocks))

/-- Carry out the call.  Only `pmm_alloc_page` can abort. -/
def run : Request → State → Except Stop (Nat × State)
  | page, s => pmmAllocPage s
  | pages num, s => .ok (pmmAllocPages s num)
  | largePage, s => .ok (pmmAllocAlignedLargePage s)

end Request

/-- A block range in the hands of a caller: the address the allocator returned
and the number of blocks asked for. -/
structure Grant where
  addr : Nat
  num : Nat
deriving DecidableEq, Repr

namespace Grant

def first (g : Grant) : Nat := g.addr / 4096

def blocks (g : Grant) : Finset Nat := Finset.Ico g.first (g.first + g.num)

theorem mem_blocks {g : Grant} {k : Nat} :
    k ∈ g.blocks ↔ g.first ≤ k ∧ k < g.first + g.num := Finset.mem_Ico

end Grant

/-- The range of `g` was clear in `s`, lies above block 0 and inside the search
window, and `t` is `s` with the range marked. -/
structure Grants (s t : State) (g : Grant) : Prop where
  aligned : g.addr = g.first * 4096
  pos : 0 < g.first
  fits : g.first + g.num ≤ window s
  run : Run s g.first g.num
  marked : t = setBlocks s g.first g.num

theorem window_le (s : State) : window s ≤ s.maxBlocks := Nat.div_mul_le_self _ _

theorem mmapSet_eq_setBlocks (s : State) {b : Nat} (hb : b < 2 ^ 32) :
    mmapSet s b = setBlocks s b 1 := by
  show _ = mmapSet s (wrap (b + 0))
  rw [Nat.add_zero, wrap_of_lt hb]

/-- The address of a marked run, cut to a word, still names its first block. -/
theorem grants_of_run {s : State} {f n : Nat} (hmax : s.maxBlocks ≤ 2 ^ 20) (hpos : 0 < f)
    (hn : 0 < n) (hfits : f + n ≤ window s) (hrun : Run s f n) :
    Grants s (setBlocks s f n) { addr := wrap (f * 4096), num := n } := by
  have hw := window_le s
  have haddr : wrap (f * 4096) = f * 4096 := wrap_of_lt (by omega)
  have hfirst : f * 4096 / 4096 = f := Nat.mul_div_cancel f (by decide)
  rw [haddr]
  constructor <;> simp only [Grant.first, hfirst]
  · exact hpos
  · exact hfits
  · exact hrun

/-- A call that returns has found a block or none. -/
theorem pmmAllocPage_ok {s t : State} {addr : Nat} (h : pmmAllocPage s = .ok (addr, t)) :
    0 < wsub s.maxBlocks s.usedBlocks ∧
      ((mmapFindFree s = 0 ∧ addr = 0 ∧ t = s) ∨
        (mmapFindFree s ≠ 0 ∧ addr = wrap (mmapFindFree s * 4096) ∧
          t = mmapSet s (mmapFindFree s))) := by
  rw [pmmAllocPage] at h
  by_cases hfull : wsub s.maxBlocks s.usedBlocks ≤ 0
  · rw [if_pos hfull] at h
    cases h
  · rw [if_neg hfull] at h
    refine ⟨Nat.pos_of_ne_zero fun hz => hfull hz.le, ?_⟩
    by_cases hnone : mmapFindFree s = 0
    · simp only [if_pos hnone] at h
      obtain ⟨haddr, ht⟩ := Prod.mk.inj (Except.ok.inj h)
      exact .inl ⟨hnone, haddr.symm, ht.symm⟩
    · simp only [if_neg hnone] at h
      obtain ⟨haddr, ht⟩ := Prod.mk.inj (Except.ok.inj h)
      exact .inr ⟨hnone, haddr.symm, ht.symm⟩

theorem pmmAllocPage_aligned {s t : State} {addr : Nat} (h : pmmAllocPage s = .ok (addr, t)) :
    addr % 4096 = 0 ∧ addr < 2 ^ 32 := by
  rcases (pmmAllocPage_ok h).2 with ⟨-, rfl, -⟩ | ⟨-, rfl, -⟩
  · exact ⟨rfl, by decide⟩
  · refine ⟨?_, wrap_lt _⟩
    rw [wrap]
    omega

theorem pmmAllocPage_spec {s t : State} {addr : Nat} (h0 : taken s 0 = true)
    (hmax : s.maxBlocks ≤ 2 ^ 20) (h : pmmAllocPage s = .ok (addr, t)) :
    (addr = 0 ∧ t = s ∧ ∀ k, k < window s → taken s k = true) ∨
      Grants s t { addr := addr, num := 1 } := by
  obtain ⟨hroom, hfound⟩ := pmmAllocPage_ok h
  rcases mmapFindFree_spec (s := s) (by omega) with ⟨hlt, hclear, -⟩ | ⟨hzero, hnone⟩
  · have hpos : mmapFindFree s ≠ 0 := fun he => by rw [he, h0] at hclear; simp at hclear
    have hw := window_le s
    obtain ⟨-, haddr, ht⟩ := hfound.resolve_left fun hz => hpos hz.1
    rw [haddr, ht, mmapSet_eq_setBlocks s (by omega)]
    refine Or.inr (grants_of_run hmax (by omega) (by decide) (by omega) ?_)
    intro k hk hk'
    rw [show k = mmapFindFree s by omega]
    exact hclear
  · obtain ⟨-, haddr, ht⟩ := hfound.resolve_right fun hne => hne.1 hzero
    exact Or.inl ⟨haddr, ht, hnone⟩

theorem pmmAllocPages_spec {s : State} {n : Nat} (h0 : taken s 0 = true)
    (hmax : s.maxBlocks ≤ 2 ^ 20) (hn : 0 < n) :
    ((pmmAllocPages s n).1 = 0 ∧ (pmmAllocPages s n).2 = s ∧
        (wsub s.maxBlocks s.usedBlocks < n ∨
          ∀ g, g + n ≤ window s → ¬ Run s g n)) ∨
      Grants s (pmmAllocPages s n).2 { addr := (pmmAllocPages s n).1, num := n } := by
  unfold pmmAllocPages
  by_cases hfew : wsub s.maxBlocks s.usedBlocks < n
  · rw [if_pos hfew]
    exact Or.inl ⟨rfl, rfl, Or.inl hfew⟩
  · rw [if_neg hfew]
    rcases mmapFindFreeFrame_spec h0 hn (by omega) with hf | ⟨hzero, hnone⟩
    · have hpos := hf.pos
      simp only [show mmapFindFreeFrame s n ≠ 0 by omega, if_false]
      exact Or.inr (grants_of_run hmax hf.pos hn hf.fits hf.run)
    · simp only [hzero, if_true]
      exact Or.inl ⟨by trivial, by trivial, Or.inr hnone⟩

/-- The 4 MiB block that starts at the first 1024-block boundary above the run
lies inside the 8 MiB run. -/
theorem pmmAllocAlignedLargePage_spec {s : State} (h0 : taken s 0 = true)
    (hmax : s.maxBlocks ≤ 2 ^ 20) :
    ((pmmAllocAlignedLargePage s).1 = 0 ∧ (pmmAllocAlignedLargePage s).2 = s) ∨
      (Grants s (pmmAllocAlignedLargePage s).2
          { addr := (pmmAllocAlignedLargePage s).1, num := 1024 } ∧
        (pmmAllocAlignedLargePage s).1 % (4 * 1024 * 1024) = 0) := by
  unfold pmmAllocAlignedLargePage
  by_cases hfew : wsub s.maxBlocks s.usedBlocks < 2 * 1024
  · rw [if_pos hfew]
    exact Or.inl ⟨rfl, rfl⟩
  · rw [if_neg hfew]
    rcases mmapFindFreeFrame_spec (n := 2 * 1024) h0 (by decide) (by omega) with hf | ⟨hzero, -⟩
    · have hpos := hf.pos
      have hfits := hf.fits
      have hw := window_le s
      simp only [show mmapFindFreeFrame s (2 * 1024) ≠ 0 by omega, if_false]
      generalize mmapFindFreeFrame s (2 * 1024) = f at *
      rw [wrap_of_lt (n := (f / 1024 + 1) * 1024) (by omega)]
      refine Or.inr ⟨grants_of_run hmax (by omega) (by decide) (by omega)
        (hf.run.mono (by omega) (by omega)), ?_⟩
      rw [wrap_of_lt (by omega)]
      omega
    · simp only [hzero, if_true]
      exact Or.inl ⟨by trivial, by trivial⟩

/-- Every call that returns either hands out a clear range or changes nothing. -/
theorem Request.run_spec {req : Request} {s t : State} {addr : Nat} (h0 : taken s 0 = true)
    (hmax : s.maxBlocks ≤ 2 ^ 20) (hreq : req.Valid) (h : req.run s = .ok (addr, t)) :
    (addr = 0 ∧ t = s) ∨ Grants s t { addr := addr, num := req.blocks } := by
  cases req with
  | page =>
    rcases pmmAllocPage_spec h0 hmax h with ⟨hz, hs, -⟩ | hg
    · exact Or.inl ⟨hz, hs⟩
    · exact Or.inr hg
  | pages num =>
    have hres : pmmAllocPages s num = (addr, t) := Except.ok.inj h
    rcases pmmAllocPages_spec (n := num) h0 hmax hreq with ⟨hz, hs, -⟩ | hg
    · rw [hres] at hz hs
      exact Or.inl ⟨hz, hs⟩
    · rw [hres] at hg
      exact Or.inr hg
  | largePage =>
    have hres : pmmAllocAlignedLargePage s = (addr, t) := Except.ok.inj h
    rcases pmmAllocAlignedLargePage_spec h0 hmax with ⟨hz, hs⟩ | ⟨hg, -⟩
    · rw [hres] at hz hs
      exact Or.inl ⟨hz, hs⟩
    · rw [hres] at hg
      exact Or.inr hg

end Pmm
end Medusa
