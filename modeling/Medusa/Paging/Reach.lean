import Medusa.Paging.Map

/-!
# Reachable page tables

The states that `init_paging` leads to and that calls of `paging.c` lead to from
there.  Callers stay below the recursive window, and tables come from frames that
hold no other table; between calls other code may do anything to the allocator
and to memory outside the directory.  Every such state is `Ready`.
-/

namespace Medusa
namespace Paging

open Machine Kernel Pmm

variable {s t : State} {virt phys num flags : Nat}

/-! ## Calls that return -/

theorem getPage_unaligned (hv : virt % 0x1000 ≠ 0) (create : Bool) :
    pagingGetPage s virt create flags = .error .abort := by
  rw [pagingGetPage, pagingGetPageSelectDir, if_pos hv]

/-- A page that was mapped was aligned and free before. -/
theorem mapPage_ok (h : s.Ready) (hlt : virt < 0xFFC00000) (hsup : Supplied s virt)
    (hrun : pagingMapPage s virt phys flags = .ok t) :
    virt % 0x1000 = 0 ∧ Edits s t {virt / 4096} flags ∧
      present (t.pde (directoryIndex virt)) = true := by
  have hi := directoryIndex_lt hlt
  by_cases hv : virt % 0x1000 = 0
  · by_cases hmap : Mapped s virt
    · rw [mapPage_aborts h hv (by omega) hmap] at hrun
      simp at hrun
    · obtain ⟨t', hrun', hedits, hpt, -⟩ :=
        mapPage_edits h hv hlt hsup hmap phys flags
      rw [hrun'] at hrun
      rw [← Except.ok.inj hrun]
      exact ⟨hv, hedits, hpt⟩
  · rw [pagingMapPage, getPage_unaligned hv true] at hrun
    cases hrun

theorem mapPages_ok (h : s.Ready) (hlt : virt + num * 0x1000 ≤ 0xFFC00000)
    (hsup : SuppliedRange s virt phys num flags)
    (hrun : pagingMapPages s virt phys num flags = .ok t) :
    Edits s t (Set.Ico (virt / 4096) (virt / 4096 + num)) flags := by
  induction num generalizing s virt phys with
  | zero =>
    rw [← Except.ok.inj hrun]
    exact (Edits.refl h).mono (by simp)
  | succ num ih =>
    obtain ⟨hfirst, hrest⟩ := hsup
    obtain ⟨s₁, hpage, hrun'⟩ := bind_eq_ok hrun
    obtain ⟨hv, hedits, -⟩ := mapPage_ok h (by omega) hfirst hpage
    have hsup' := hrest s₁ hpage
    rw [wrap_of_lt (show virt + 0x1000 < 2 ^ 32 by omega)] at hsup' hrun'
    refine (hedits.trans (ih hedits.ready (by omega) hsup' hrun')).mono fun p hp => ?_
    rw [Set.mem_union, Set.mem_singleton_iff, Set.mem_Ico] at hp
    rw [Set.mem_Ico]
    omega

/-- A range that starts at 0 cannot run into the window: the first page it would
map there is the table of page 0. -/
theorem mapPages_window (h : s.Ready) (hv : virt % 0x1000 = 0) (hle : virt ≤ 0xFFC00000)
    (hzero : virt = 0 ∨ present (s.pde 0) = true) (hover : 0xFFC00000 < virt + num * 0x1000)
    (hsup : SuppliedRange s virt phys num flags) :
    pagingMapPages s virt phys num flags ≠ .ok t := by
  intro hrun
  induction num generalizing s virt phys with
  | zero => omega
  | succ num ih =>
    obtain ⟨hfirst, hrest⟩ := hsup
    obtain ⟨s₁, hpage, hrun'⟩ := bind_eq_ok hrun
    by_cases hwin : virt = 0xFFC00000
    · have hp : present (s.pde 0) = true := hzero.resolve_left (by omega)
      have hmap : Mapped s virt := by
        rw [hwin]
        refine ⟨h.recursive.present, ?_⟩
        rw [← hp]
        exact congrArg present (h.recursive.pte_eq 0)
      rw [mapPage_aborts h hv (by rw [hwin]; decide) hmap] at hpage
      simp at hpage
    · obtain ⟨-, hedits, hpt⟩ := mapPage_ok h (by omega) hfirst hpage
      have hsup' := hrest s₁ hpage
      rw [wrap_of_lt (show virt + 0x1000 < 2 ^ 32 by omega)] at hsup' hrun'
      refine ih hedits.ready (by omega) (by omega) (Or.inr ?_) (by omega) hsup' hrun'
      rcases hzero with rfl | hp
      · exact hpt
      · rw [hedits.dirs 0 (by decide) hp]
        exact hp

/-- A range whose tables exist needs no frames. -/
theorem suppliedRange_of_present (h : s.Ready) (hlt : virt + num * 0x1000 ≤ 0xFFC00000)
    (hp : ∀ k, k < num → present (s.pde (directoryIndex (virt + 4096 * k))) = true) :
    SuppliedRange s virt phys num flags := by
  induction num generalizing s virt phys with
  | zero => exact trivial
  | succ num ih =>
    have hfirst : Supplied s virt := by
      intro habsent
      have hp0 : present (s.pde (directoryIndex virt)) = true := hp 0 (by omega)
      rw [hp0] at habsent
      simp at habsent
    refine ⟨hfirst, fun t hrun => ?_⟩
    obtain ⟨-, hedits, -⟩ := mapPage_ok h (by omega) hfirst hrun
    rw [wrap_of_lt (by omega)]
    refine ih hedits.ready (by omega) fun k hk => ?_
    have hpk := hp (k + 1) (by omega)
    rw [show virt + 4096 * (k + 1) = virt + 0x1000 + 4096 * k by omega] at hpk
    rwa [hedits.dirs _ (by rw [directoryIndex_eq]; omega) hpk]

/-- A range inside one table needs at most one frame. -/
theorem suppliedRange_of_table (h : s.Ready) (hlt : virt + num * 0x1000 ≤ 0xFFC00000)
    (htable : virt % 2 ^ 22 + num * 0x1000 ≤ 2 ^ 22) (hsup : Supplied s virt) :
    SuppliedRange s virt phys num flags := by
  cases num with
  | zero => exact trivial
  | succ num =>
    refine ⟨hsup, fun t hrun => ?_⟩
    obtain ⟨-, hedits, hpt⟩ := mapPage_ok h (by omega) hsup hrun
    rw [wrap_of_lt (by omega)]
    refine suppliedRange_of_present hedits.ready (by omega) fun k hk => ?_
    rw [← hpt, directoryIndex_eq, directoryIndex_eq]
    congr 2
    omega

/-- What `paging_unmap_page` does, told by its entry. -/
theorem unmapPage_eq (h : s.Recursive) (hv : virt % 0x1000 = 0)
    (hi : directoryIndex virt < 1024) :
    pagingUnmapPage s virt =
      if present (s.pde (directoryIndex virt)) then
        .ok { s with
          pmm := pmmFreePage s.pmm (frame (s.pte (directoryIndex virt) (tableIndex virt)))
          mem := write32 s.mem (frame (s.pde (directoryIndex virt)) + 4 * tableIndex virt) 0 }
      else .ok s := by
  have hj := tableIndex_lt virt
  cases hp : present (s.pde (directoryIndex virt)) with
  | true =>
    have hne : tableAddr (directoryIndex virt) + 4 * tableIndex virt ≠ 0 := by
      rw [tableAddr_eq hi]
      omega
    rw [pagingUnmapPage, getPage_present h hv hi hp false]
    simp only [bind, Except.bind, if_pos hne, load_entry h hi hp hj, if_true]
    exact store_entry (s := ⟨pmmFreePage s.pmm (frame (s.pte (directoryIndex virt)
      (tableIndex virt))), s.mem, s.cr3⟩) h hi hp hj 0
  | false =>
    rw [pagingUnmapPage, getPage_absent h hv hi hp]
    rfl

/-- What a call that returns has left. -/
theorem unmapPage_of_ok (h : s.Recursive) (hlt : virt < 0xFFC00000)
    (hrun : pagingUnmapPage s virt = .ok t) :
    t = if present (s.pde (directoryIndex virt)) then
        { s with
          pmm := pmmFreePage s.pmm (frame (s.pte (directoryIndex virt) (tableIndex virt)))
          mem := write32 s.mem (frame (s.pde (directoryIndex virt)) + 4 * tableIndex virt) 0 }
      else s := by
  have hi := directoryIndex_lt hlt
  by_cases hv : virt % 0x1000 = 0
  · rw [unmapPage_eq h hv (by omega), ← apply_ite Except.ok] at hrun
    exact (Except.ok.inj hrun).symm
  · rw [pagingUnmapPage, getPage_unaligned hv false] at hrun
    cases hrun

theorem unmapPage_ok (h : s.Ready) (hlt : virt < 0xFFC00000)
    (hrun : pagingUnmapPage s virt = .ok t) (flags : Nat) : Edits s t {virt / 4096} flags := by
  rw [unmapPage_of_ok h.recursive hlt hrun]
  cases hp : present (s.pde (directoryIndex virt)) with
  | true =>
    rw [if_pos rfl, ← index_page]
    exact edits_store h (directoryIndex_lt hlt) hp (tableIndex_lt virt) 0 flags
  | false =>
    rw [if_neg Bool.false_ne_true]
    exact (Edits.refl h).mono (by simp)

theorem unmapPages_ok (h : s.Ready) (hlt : virt + num * 0x1000 ≤ 0xFFC00000)
    (hrun : pagingUnmapPages s virt num = .ok t) : t.Ready := by
  induction num generalizing s virt with
  | zero =>
    rw [← Except.ok.inj hrun]
    exact h
  | succ num ih =>
    obtain ⟨s₁, hpage, hrun'⟩ := bind_eq_ok hrun
    have hedits := unmapPage_ok h (by omega) hpage 0
    rw [wrap_of_lt (show virt + 0x1000 < 2 ^ 32 by omega)] at hrun'
    exact ih hedits.ready (by omega) hrun'

/-- The table for the page that `paging_alloc_pages` is about to enter comes from
an unused frame. -/
def AllocSupplied (s : State) (virt : Nat) : Prop :=
  ∀ page p, pmmAllocPage s.pmm = .ok (page, p) → page ≠ 0 → Supplied { s with pmm := p } virt

def AllocSuppliedRange (s : State) (virt i : Nat) : Nat → Prop
  | 0 => True
  | rounds + 1 =>
    AllocSupplied s (wrap (virt + i * 0x1000)) ∧
      ∀ page t, pagingAllocPage s (wrap (virt + i * 0x1000)) = .ok (some page, t) →
        AllocSuppliedRange t virt (i + 1) rounds

theorem allocPage_ok (h : s.Ready) (hlt : virt < 0xFFC00000) (hsup : AllocSupplied s virt)
    {r : Option Nat} (hrun : pagingAllocPage s virt = .ok (r, t)) : t.Ready := by
  obtain ⟨⟨page, p⟩, halloc, hrun⟩ := bind_eq_ok hrun
  by_cases hpage : page = 0
  · simp only [if_pos hpage] at hrun
    rw [← (Prod.mk.inj (Except.ok.inj hrun)).2]
    exact h
  · simp only [if_neg hpage] at hrun
    obtain ⟨⟨entry, u⟩, hget, hrun⟩ := bind_eq_ok hrun
    obtain ⟨u', hstore, hrun⟩ := bind_eq_ok hrun
    by_cases hv : virt % 0x1000 = 0
    · have hi := directoryIndex_lt hlt
      obtain ⟨w, hget', hedits, hpw, -⟩ := getPage_edits (s := { s with pmm := p })
        h hv hlt (hsup page p halloc hpage) (pageRw ||| pageUser)
      have hready := hedits.ready
      obtain ⟨hentry, hu⟩ := Prod.mk.inj (Except.ok.inj (hget.symm.trans hget'))
      rw [hu, hentry, store_entry hready.recursive (by omega) hpw (tableIndex_lt virt)] at hstore
      rw [← (Prod.mk.inj (Except.ok.inj hrun)).2, ← Except.ok.inj hstore]
      exact (edits_store hready hi hpw (tableIndex_lt virt) _ 0).ready
    · rw [getPage_unaligned hv true] at hget
      simp at hget

/-- The page of the first round, and the rounds that are left. -/
theorem round_below {i rounds : Nat} (h : virt + (i + (rounds + 1)) * 0x1000 ≤ 0xFFC00000) :
    wrap (virt + i * 0x1000) < 0xFFC00000 ∧ virt + (i + 1 + rounds) * 0x1000 ≤ 0xFFC00000 := by
  constructor
  · rw [wrap_of_lt (by omega)]
    omega
  · rwa [Nat.add_assoc, Nat.add_comm 1 rounds]

theorem allocLoop_ok {i rounds : Nat} (h : s.Ready)
    (hlt : virt + (i + rounds) * 0x1000 ≤ 0xFFC00000) (hsup : AllocSuppliedRange s virt i rounds)
    {r : Nat} (hrun : allocLoop s virt i rounds = .ok (r, t)) : t.Ready := by
  induction rounds generalizing s i with
  | zero =>
    rw [← (Prod.mk.inj (Except.ok.inj hrun)).2]
    exact h
  | succ rounds ih =>
    obtain ⟨hfirst, hrest⟩ := hsup
    obtain ⟨haddr, hlt'⟩ := round_below hlt
    obtain ⟨⟨page, s₁⟩, hpage, hrun⟩ := bind_eq_ok hrun
    have hready := allocPage_ok h haddr hfirst hpage
    cases page with
    | none =>
      rw [← (Prod.mk.inj (Except.ok.inj hrun)).2]
      exact hready
    | some page => exact ih hready hlt' (hrest page s₁ hpage) hrun

/-! ## Start-up -/

/-- The state in which `init_paging` is called: the directory of `boot.S` with
four large identity pages and one for the kernel, itself in the first of them. -/
structure Boot (s : State) : Prop where
  aligned : s.cr3 % 4096 = 0
  pos : 0 < s.cr3
  low : s.cr3 + 4096 ≤ 0x400000
  identity : ∀ i, i < 4 → s.pde i = 0x400000 * i + 0x83
  kernel : s.pde 768 = 0x83
  blank : ∀ i, 4 ≤ i → i < 1024 → i ≠ 768 → s.pde i = 0

/-- The kernel sees the first 4 MiB at `KERNEL_BASE_VIRT`. -/
theorem translate_kernel {m : Mem} {cr3 o : Nat} (hk : Machine.pde m cr3 768 = 0x83)
    (ho : o < 2 ^ 22) : Machine.translate m cr3 (0xC0000000 + o) = some o := by
  have hdir : (0xC0000000 + o) / 2 ^ 22 = 768 := by omega
  have hoff : (0xC0000000 + o) % 2 ^ 22 = o := by omega
  have hp : present 0x83 = true := by decide
  have hl : large 0x83 = true := by decide
  have hbase : 0x83 &&& 0xFFC00000 = 0 := by decide
  rw [Machine.translate, hdir, hoff, hk, hp, hl, if_pos rfl, if_pos rfl, hbase, Nat.zero_add]

/-- `s` with the recursive entry stored. -/
def withSlot (s : State) : State :=
  { s with mem := write32 s.mem (s.cr3 + 4 * 1023) (s.cr3 ||| 1 ||| pageRw) }

/-- `s` with the recursive entry stored and the entries below the kernel's
cleared. -/
def withoutBoot (s : State) : State :=
  { s with mem := Libc.memset (withSlot s).mem s.cr3 0#8 3068 }

theorem withoutBoot_cr3 (s : State) : (withoutBoot s).cr3 = s.cr3 := rfl

theorem withoutBoot_outside {x : Nat} (hx : x < s.cr3 ∨ s.cr3 + 3068 ≤ x) :
    (withoutBoot s).mem x = (withSlot s).mem x := by
  rw [withoutBoot]
  exact Libc.memset_outside hx

/-- The directory after the boot mapping is gone: the kernel's page and the
recursive entry. -/
structure Cleared (s : State) : Prop where
  slot : s.pde 1023 = s.cr3 ||| 1 ||| pageRw
  kernel : s.pde 768 = 0x83
  blank : ∀ i, i < 1023 → i ≠ 768 → s.pde i = 0

theorem withoutBoot_cleared (hb : Boot s) : Cleared (withoutBoot s) := by
  have hlow := hb.low
  have hbits : s.cr3 ||| 1 ||| pageRw < 2 ^ 32 := by
    rw [Nat.or_assoc]
    exact (frame_or hb.aligned (by omega) (by decide)).1
  have hpast : ∀ i, 767 ≤ i → (withoutBoot s).pde i = (withSlot s).pde i :=
    fun i hi => read32_congr fun x hlo _ => withoutBoot_outside (by
      rw [withoutBoot_cr3] at hlo
      omega)
  refine ⟨?_, ?_, fun i hi hne => ?_⟩
  · rw [hpast 1023 (by decide)]
    exact pde_write_self hbits
  · rw [hpast 768 (by decide)]
    exact (pde_write_ne _ (by decide)).trans hb.kernel
  · by_cases hlo : i < 767
    · exact read32_memset (by omega)
    · rw [hpast i (by omega)]
      exact (pde_write_ne _ (by omega)).trans (hb.blank i (by omega) (by omega) hne)

theorem Cleared.present_cases {i : Nat} (hc : Cleared s) (hi : i < 1024)
    (hp : present (s.pde i) = true) : i = 768 ∨ i = 1023 := by
  by_contra hno
  rw [hc.blank i (by omega) (by omega)] at hp
  cases hp

theorem Cleared.kernel_frame (hc : Cleared s) : frame (s.pde 768) = 0 := by
  rw [hc.kernel]
  decide

theorem Cleared.ready (hc : Cleared s) (hal : s.cr3 % 4096 = 0) (hpos : 0 < s.cr3)
    (hlt : s.cr3 + 4096 ≤ 2 ^ 32) : s.Ready := by
  have hslot := hc.slot
  rw [Nat.or_assoc] at hslot
  obtain ⟨-, hframe, -⟩ := frame_or (x := 1 ||| pageRw) hal (by omega) (by decide)
  have hself : frame (s.pde 1023) = s.cr3 := by
    rw [hslot]
    exact hframe
  have hpresent : present (s.pde 1023) = true := by
    rw [hslot, present_or hal (by omega) (by decide)]
    decide
  have hsmall : large (s.pde 1023) = false := by
    rw [hslot, large_or hal (by omega) (by decide)]
    decide
  refine ⟨⟨hal, hlt, hpresent, hsmall, hself⟩, ?_⟩
  intro i j hi hj hne hpi hpj
  change frame (s.pde i) ≠ frame (s.pde j)
  rcases hc.present_cases hi hpi with rfl | rfl <;>
    rcases hc.present_cases hj hpj with rfl | rfl
  · exact absurd rfl hne
  · rw [hc.kernel_frame, hself]
    omega
  · rw [hc.kernel_frame, hself]
    omega
  · exact absurd rfl hne

/-- Frames other than the kernel's first and the directory's are unused. -/
theorem Cleared.unused {f : Nat} (hc : Cleared s) (h : s.Ready) (hf : f ≠ 0) (hdir : f ≠ s.cr3) :
    s.Unused f := by
  intro i hi hp
  rcases hc.present_cases hi hp with rfl | rfl
  · exact fun heq => hf (heq.symm.trans hc.kernel_frame)
  · exact fun heq => hdir (heq.symm.trans h.self)

theorem withoutBoot_ready (hb : Boot s) : (withoutBoot s).Ready := by
  have hlow := hb.low
  have hal := hb.aligned
  have hpos := hb.pos
  rw [← withoutBoot_cr3 s] at hal hpos hlow
  exact (withoutBoot_cleared hb).ready hal hpos (by omega)

/-- The number of pages `init_paging` maps when the information block at `addr`
is `totalSize` bytes long. -/
def pagesToMap (s : State) (addr totalSize : Nat) : Nat :=
  divideUp (maxInt (wrap (addr + totalSize)) (pmmGetKernelEnd s.pmm)) 0x1000

theorem preparePaging_eq (hb : Boot s) (addr : Nat) :
    preparePaging s addr = (load (withSlot s) addr).bind fun totalSize =>
      .ok (pagesToMap s addr totalSize, withoutBoot s) := by
  have hlow := hb.low
  have hdirAddr : wrap (s.cr3 + kernelBaseVirt) = 0xC0000000 + s.cr3 := by
    rw [kernelBaseVirt, wrap_of_lt (by omega), Nat.add_comm]
  have hsize : (directoryIndex kernelBaseVirt - 1) * 4 = 3068 := by decide
  have hslot : store s (0xC0000000 + s.cr3 + 4 * 1023) (s.cr3 ||| 1 ||| pageRw) =
      .ok (withSlot s) := by
    rw [store, Nat.add_assoc, translate_kernel hb.kernel (by omega)]
    rfl
  have hclear : memset (withSlot s) (0xC0000000 + s.cr3) 0#8 3068 = .ok (withoutBoot s) := by
    refine memset_eq fun m k hk hm => ?_
    have hkeep : Machine.pde m s.cr3 768 = (withSlot s).pde 768 :=
      read32_congr fun x hlo _ => hm x (by
        change s.cr3 + 4 * 768 ≤ x at hlo
        omega)
    have hkernel := hkeep.trans ((pde_write_ne _ (by decide)).trans hb.kernel)
    rw [wrap_of_lt (by omega), Nat.add_assoc]
    exact translate_kernel hkernel (by omega)
  rw [preparePaging, hdirAddr, hsize, hslot]
  simp only [bind, Except.bind, hclear]
  rfl

theorem preparePaging_state (hb : Boot s) {addr toMap : Nat}
    (h : preparePaging s addr = .ok (toMap, t)) : t = withoutBoot s := by
  rw [preparePaging_eq hb] at h
  obtain ⟨totalSize, -, h⟩ := bind_eq_ok h
  exact (Prod.mk.inj (Except.ok.inj h)).2.symm

/-- The tables that `init_paging` makes come from unused frames. -/
def InitSupplied (s : State) (addr : Nat) : Prop :=
  ∀ toMap t, preparePaging s addr = .ok (toMap, t) → SuppliedRange t 0 0 toMap pageRw

theorem initPaging_ready (hb : Boot s) {addr : Nat} (hsup : InitSupplied s addr)
    (hrun : initPaging s addr = .ok t) : t.Ready := by
  obtain ⟨⟨toMap, s₁⟩, hprep, hrun⟩ := bind_eq_ok hrun
  have hready : s₁.Ready := by
    rw [preparePaging_state hb hprep]
    exact withoutBoot_ready hb
  have hsup' := hsup toMap s₁ hprep
  by_cases hmap : toMap * 0x1000 ≤ 0xFFC00000
  · exact (mapPages_ok hready (by omega) hsup' hrun).ready
  · exact absurd hrun (mapPages_window hready rfl (by decide) (Or.inl rfl) (by omega) hsup')

/-- With a readable information block and unused frames for its tables,
`init_paging` returns; every page it maps is mapped to itself. -/
theorem initPaging_edits (hb : Boot s) {addr totalSize : Nat}
    (hload : load (withSlot s) addr = .ok totalSize)
    (hfit : pagesToMap s addr totalSize * 0x1000 ≤ 0xC0000000)
    (hsup : SuppliedRange (withoutBoot s) 0 0 (pagesToMap s addr totalSize) pageRw) :
    ∃ t, initPaging s addr = .ok t ∧ InitSupplied s addr ∧
      Edits (withoutBoot s) t (Set.Ico 0 (pagesToMap s addr totalSize)) pageRw ∧
      ∀ k, k < pagesToMap s addr totalSize →
        present (t.pde (directoryIndex (4096 * k))) = true ∧
          t.pte (directoryIndex (4096 * k)) (tableIndex (4096 * k)) = rangeEntry 0 pageRw k := by
  have hprep : preparePaging s addr = .ok (pagesToMap s addr totalSize, withoutBoot s) := by
    rw [preparePaging_eq hb, hload]
    rfl
  generalize pagesToMap s addr totalSize = toMap at *
  have hfree : ∀ k, k < toMap → ¬ Mapped (withoutBoot s) (0 + 4096 * k) := by
    intro k hk hmap
    have hi : directoryIndex (0 + 4096 * k) < 768 := by
      rw [directoryIndex_eq]
      omega
    have hp := hmap.1
    rw [(withoutBoot_cleared hb).blank _ (by omega) (by omega)] at hp
    cases hp
  obtain ⟨t, hrun, hedits, hpages⟩ := mapPages_edits (withoutBoot_ready hb) rfl (by omega) rfl
    (by decide) hsup hfree
  refine ⟨t, ?_, ?_, ?_, fun k hk => ?_⟩
  · rw [initPaging, hprep]
    exact hrun
  · intro toMap' t' hprep'
    rw [hprep] at hprep'
    obtain ⟨rfl, rfl⟩ := Prod.mk.inj (Except.ok.inj hprep')
    exact hsup
  · rwa [Nat.zero_div, Nat.zero_add] at hedits
  · have hk' := hpages k hk
    rwa [Nat.zero_add] at hk'

/-! ## Runs -/

/-- One call of `paging.c` below the window, or a step of other code. -/
inductive Step : State → State → Prop
  | mapPages {s t : State} {virt phys num flags : Nat}
      (hrange : virt + num * 0x1000 ≤ 0xFFC00000) (hsup : SuppliedRange s virt phys num flags)
      (hrun : pagingMapPages s virt phys num flags = .ok t) : Step s t
  | unmapPages {s t : State} {virt num : Nat} (hrange : virt + num * 0x1000 ≤ 0xFFC00000)
      (hrun : pagingUnmapPages s virt num = .ok t) : Step s t
  | allocPages {s t : State} {virt size r : Nat} (hrange : virt + size * 0x1000 ≤ 0xFFC00000)
      (hsup : AllocSuppliedRange s virt 0 size)
      (hrun : pagingAllocPages s virt size = .ok (r, t)) : Step s t
  | other {s : State} (p : Pmm.State) {m : Mem} (hdir : Agree s.mem m s.cr3 (s.cr3 + 4096)) :
      Step s { s with pmm := p, mem := m }

/-- The states that start-up and then any number of steps lead to. -/
inductive Reachable : State → Prop
  | init {s t : State} {addr : Nat} (hb : Boot s) (hsup : InitSupplied s addr)
      (hrun : initPaging s addr = .ok t) : Reachable t
  | step {s t : State} (hs : Reachable s) (hstep : Step s t) : Reachable t

theorem step_ready (h : s.Ready) (hstep : Step s t) : t.Ready := by
  cases hstep with
  | mapPages hrange hsup hrun => exact (mapPages_ok h hrange hsup hrun).ready
  | unmapPages hrange hrun => exact unmapPages_ok h hrange hrun
  | allocPages hrange hsup hrun => exact allocLoop_ok h (by rwa [Nat.zero_add]) hsup hrun
  | other p hdir => exact h.congr hdir

theorem reachable_ready (h : Reachable s) : s.Ready := by
  induction h with
  | init hb hsup hrun => exact initPaging_ready hb hsup hrun
  | step _ hstep ih => exact step_ready ih hstep

end Paging
end Medusa
