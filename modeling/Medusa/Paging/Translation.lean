import Medusa.Paging.Reach

/-!
# The translation map

Seen from outside, page tables are a map from addresses to addresses.  Mapping a
range adds that range to the map and leaves the rest of it alone, provided that
no table is made with the bit that turns its directory entry into a 4 MiB page.
-/

namespace Medusa
namespace Paging

open Machine Kernel Pmm

variable {s t : State} {virt phys num flags v : Nat}

theorem State.translate_eq (s : State) (v : Nat) :
    s.translate v =
      if present (s.pde (directoryIndex v)) then
        if large (s.pde (directoryIndex v)) then
          some ((s.pde (directoryIndex v) &&& 0xFFC00000) + v % 2 ^ 22)
        else if present (s.pte (directoryIndex v) (tableIndex v)) then
          some (frame (s.pte (directoryIndex v) (tableIndex v)) + v % 2 ^ 12)
        else none
      else none := by
  rw [directoryIndex_eq, tableIndex_eq]
  rfl

/-- A page that does not translate has no entry marked present. -/
theorem not_mapped_of_translate (hnone : s.translate v = none) : ¬ Mapped s v := by
  rintro ⟨hp, hpte⟩
  rw [State.translate_eq, hp, hpte] at hnone
  cases hl : large (s.pde (directoryIndex v)) with
  | true =>
    rw [hl] at hnone
    simp at hnone
  | false =>
    rw [hl] at hnone
    simp at hnone

/-- A page that does not translate is not part of a large page. -/
theorem small_of_translate (hnone : s.translate v = none)
    (hp : present (s.pde (directoryIndex v)) = true) :
    large (s.pde (directoryIndex v)) = false := by
  rw [← Bool.not_eq_true]
  intro hl
  rw [State.translate_eq, hp, hl] at hnone
  simp at hnone

theorem directoryIndex_lt' (hlt : v < 2 ^ 32) : directoryIndex v < 1024 := by
  rw [directoryIndex_eq]
  omega

theorem virtToPhys_eq (h : s.Recursive) (hlt : v < 2 ^ 32)
    (hp : present (s.pde (directoryIndex v)) = true) :
    pagingVirtToPhys s v =
      .ok (wrap (frame (s.pte (directoryIndex v) (tableIndex v)) + v % 4096)) := by
  have hi := directoryIndex_lt' hlt
  have hframe : frame v = v / 2 ^ 12 * 2 ^ 12 := frame_eq hlt
  have hdir : directoryIndex (frame v) = directoryIndex v := by
    rw [directoryIndex_eq, directoryIndex_eq, hframe]
    omega
  have htab : tableIndex (frame v) = tableIndex v := by
    rw [tableIndex_eq, tableIndex_eq, hframe]
    omega
  have hoff : v &&& 0xFFF = v % 4096 := Nat.and_two_pow_sub_one_eq_mod _ 12
  have hget : pagingGetPage s (frame v) false 0 = _ := getPage_present h (by rw [hframe]; omega)
    (by rw [hdir]; omega) (by rw [hdir]; exact hp) false
  have hne : tableAddr (directoryIndex v) + 4 * tableIndex v ≠ 0 := by
    rw [tableAddr_eq (by omega)]
    omega
  rw [hdir, htab] at hget
  rw [pagingVirtToPhys, hget]
  simp only [bind, Except.bind, if_neg hne, hoff,
    load_entry h (show directoryIndex v < 1024 by omega) hp (tableIndex_lt v)]
  rfl

/-! ## What edits do to translation -/

/-- No table of `R` is missing, or tables are made as tables. -/
def Plain (s : State) (R : Set Nat) (flags : Nat) : Prop :=
  large flags = false ∨ ∀ p ∈ R, present (s.pde (p / 1024)) = true

/-- A table that was made for an edit has small pages. -/
theorem Edits.created_small {R : Set Nat} {i : Nat} (h : Edits s t R flags)
    (hplain : Plain s R flags) (hi : i < 1024) (hp : present (s.pde i) = false)
    (hpt : present (t.pde i) = true) : large (t.pde i) = false := by
  obtain ⟨hlarge, p, hpR, hpi⟩ := h.created i hi hp hpt
  rw [hlarge]
  refine hplain.resolve_right fun hall => ?_
  have hpp := hall p hpR
  rw [hpi, hp] at hpp
  simp at hpp

/-- Outside the pages edited translation is what it was. -/
theorem Edits.translate_outside {R : Set Nat} (h : Edits s t R flags) (hplain : Plain s R flags)
    (hlt : v < 0xFFC00000) (hout : v / 4096 ∉ R) : t.translate v = s.translate v := by
  have hi := directoryIndex_lt hlt
  have hj := tableIndex_lt v
  rw [← index_page] at hout
  rw [State.translate_eq, State.translate_eq]
  cases hp : present (s.pde (directoryIndex v)) with
  | true => rw [h.dirs _ (by omega) hp, hp, h.kept _ _ hi hj hout hp]
  | false =>
    cases hpt : present (t.pde (directoryIndex v)) with
    | false => rfl
    | true =>
      rw [h.created_small hplain (by omega) hp hpt, h.blank _ _ hi hj hout hp hpt]
      rfl

/-- The address a page of the range is mapped to. -/
theorem range_address (hphys : phys % 4096 = 0) (k : Nat) {o : Nat} (ho : o < 4096) :
    wrap (phys + 4096 * k) + o = wrap (phys + (4096 * k + o)) := by
  rw [wrap, wrap]
  omega

/-! ## A machine with 16 MiB -/

/-- Block `b` alone is free. -/
def freeBlock (b : Nat) : Pmm.State where
  bitmap := fun i => if i = b / 32 then ~~~nthBit (b % 32) else 0xFFFFFFFF#32
  memSize := 0x1000000
  usedBlocks := 4095
  maxBlocks := 4096
  kernelEnd := 0x200000
  strayed := false

theorem freeBlock_alloc {b : Nat} (hb : b = 1024 ∨ b = 2048 ∨ b = 3072) :
    pmmAllocPage (freeBlock b) = .ok (4096 * b, mmapSet (freeBlock b) b) := by
  have hfind : mmapFindFree (freeBlock b) = b := by
    rcases hb with rfl | rfl | rfl <;> decide +kernel
  have hroom : ¬ wsub (freeBlock b).maxBlocks (freeBlock b).usedBlocks ≤ 0 :=
    show ¬ wsub 4096 4095 ≤ 0 by decide
  rw [pmmAllocPage, if_neg hroom, hfind]
  simp only [show b ≠ 0 by omega, if_false]
  rw [wrap_of_lt (by omega), Nat.mul_comm]

/-- The directory of `boot.S` and the size of an information block at 0x10000. -/
def bootMem : Mem :=
  [(0x10000, 56), (0x108000, 0x83), (0x108004, 0x400083), (0x108008, 0x800083),
    (0x10800C, 0xC00083), (0x108C00, 0x83)].foldl (fun m w => write32 m w.1 w.2) fun _ => 0#8

def bootState : State := { pmm := freeBlock 1024, mem := bootMem, cr3 := 0x108000 }

theorem bootState_boot : Boot bootState where
  aligned := by decide
  pos := by decide
  low := by decide
  identity := by decide
  kernel := by decide
  blank := by
    intro i hi hi' hne
    have hzero : Agree (fun _ => 0#8) bootMem (0x108000 + 4 * i) (0x108000 + 4 * i + 4) := by
      intro x hlo hhi
      simp only [bootMem, List.foldl_cons, List.foldl_nil]
      rw [write32_outside (by omega), write32_outside (by omega), write32_outside (by omega),
        write32_outside (by omega), write32_outside (by omega), write32_outside (by omega)]
    exact (read32_congr hzero).trans rfl

theorem bootState_load : load (withSlot bootState) 0x10000 = .ok 56 := by
  have htrans : Machine.translate (withSlot bootState).mem (withSlot bootState).cr3 0x10000 =
      some 0x10000 := by decide
  have hread : read32 (withSlot bootState).mem 0x10000 = 56 := by decide
  rw [load, htrans]
  simp only [hread]

theorem bootState_pages : pagesToMap bootState 0x10000 56 = 513 := by decide

/-- What `init_paging` makes of `bootState`. -/
def started : State := (initPaging bootState 0x10000).toOption.getD bootState

/-- Start-up returns, and every page it maps is mapped to itself. -/
theorem started_pages : initPaging bootState 0x10000 = .ok started ∧
    InitSupplied bootState 0x10000 ∧
    Edits (withoutBoot bootState) started (Set.Ico 0 513) pageRw ∧
    ∀ k, k < 513 → present (started.pde (directoryIndex (4096 * k))) = true ∧
      started.pte (directoryIndex (4096 * k)) (tableIndex (4096 * k)) = rangeEntry 0 pageRw k := by
  have hsup : SuppliedRange (withoutBoot bootState) 0 0 513 pageRw := by
    have hready := withoutBoot_ready bootState_boot
    refine suppliedRange_of_table hready (by decide) (by decide) fun _ => ?_
    exact ⟨_, _, freeBlock_alloc (Or.inl rfl),
      (withoutBoot_cleared bootState_boot).unused hready (by decide) (by decide)⟩
  rw [← bootState_pages] at hsup
  obtain ⟨t, hrun, hinit, hedits, hpages⟩ := initPaging_edits bootState_boot bootState_load
    (by rw [bootState_pages]; decide) hsup
  rw [bootState_pages] at hedits hpages
  have ht : started = t := by
    rw [started, hrun]
    rfl
  rw [ht]
  exact ⟨hrun, hinit, hedits, hpages⟩

theorem started_init : initPaging bootState 0x10000 = .ok started ∧
    InitSupplied bootState 0x10000 ∧
    Edits (withoutBoot bootState) started (Set.Ico 0 513) pageRw ∧
    present (started.pde 0) = true := by
  obtain ⟨hrun, hinit, hedits, hpages⟩ := started_pages
  exact ⟨hrun, hinit, hedits, (hpages 0 (by decide)).1⟩

theorem started_reachable : Reachable started :=
  .init bootState_boot started_init.2.1 started_init.1

/-- The memory after start-up; a variable in the lemmas below, so that nothing
tries to compute it. -/
def AfterInit (t : State) : Prop := Edits (withoutBoot bootState) t (Set.Ico 0 513) pageRw

/-- The directory after start-up: the first table, the kernel and the window. -/
theorem AfterInit.pde_cases {i : Nat} (h : AfterInit t) (hi : i < 1024)
    (hp : present (t.pde i) = true) :
    i = 0 ∨ (i = 768 ∧ t.pde i = 0x83) ∨ (i = 1023 ∧ frame (t.pde i) = 0x108000) := by
  have hc := withoutBoot_cleared bootState_boot
  have hself : frame (t.pde 1023) = 0x108000 := by
    rw [show frame (t.pde 1023) = t.cr3 from h.ready.self, h.cr3]
    rfl
  cases hpb : present ((withoutBoot bootState).pde i) with
  | false =>
    obtain ⟨-, p, hpR, hpi⟩ := h.created i hi hpb hp
    rw [Set.mem_Ico] at hpR
    exact Or.inl (by omega)
  | true =>
    rcases hc.present_cases hi hpb with rfl | rfl
    · exact Or.inr (Or.inl ⟨rfl, (h.dirs 768 hi hpb).trans hc.kernel⟩)
    · exact Or.inr (Or.inr ⟨rfl, hself⟩)

/-- A block that does not hold the first table. -/
def spareBlock (t : State) : Nat := if frame (t.pde 0) = 0x800000 then 3072 else 2048

theorem spareBlock_cases (t : State) : spareBlock t = 2048 ∨ spareBlock t = 3072 := by
  rw [spareBlock]
  by_cases h : frame (t.pde 0) = 0x800000
  · exact Or.inr (if_pos h)
  · exact Or.inl (if_neg h)

/-- `t` once the allocator has a block again. -/
def refill (t : State) : State := { t with pmm := freeBlock (spareBlock t) }

theorem refill_reachable (h : Reachable t) : Reachable (refill t) :=
  .step h (.other (freeBlock (spareBlock t)) (Agree.refl _ _ _))

theorem AfterInit.unused (h : AfterInit t) : (refill t).Unused (4096 * spareBlock t) := by
  have hspare := spareBlock_cases t
  intro i hi hp
  change frame (t.pde i) ≠ _
  rcases h.pde_cases hi hp with rfl | ⟨-, hkernel⟩ | ⟨-, hself⟩
  · rw [spareBlock]
    by_cases hframe : frame (t.pde 0) = 0x800000
    · rw [if_pos hframe, hframe]
      decide
    · rw [if_neg hframe]
      exact hframe
  · rw [hkernel, show frame 0x83 = 0 by decide]
    omega
  · rw [hself]
    omega

theorem AfterInit.supplied (h : AfterInit t) (virt : Nat) : Supplied (refill t) virt := fun _ =>
  ⟨_, _, freeBlock_alloc (Or.inr (spareBlock_cases t)), h.unused⟩

theorem AfterInit.absent {i : Nat} (h : AfterInit t) (hi : i < 1023) (h0 : i ≠ 0)
    (h768 : i ≠ 768) : present ((refill t).pde i) = false := by
  rw [← Bool.not_eq_true]
  intro hp
  rcases h.pde_cases (by omega) hp with hi | ⟨hi, -⟩ | ⟨hi, -⟩ <;> omega

/-- The third table is missing after start-up, and a frame is there for it. -/
theorem AfterInit.third (h : AfterInit t) {num : Nat} (hn : num ≤ 1024) (phys flags : Nat) :
    SuppliedRange (refill t) 0x800000 phys num flags ∧
      ∀ v, 0x800000 ≤ v → v < 0xC00000 → (refill t).translate v = none := by
  have hready : (refill t).Ready := h.ready
  refine ⟨suppliedRange_of_table hready (by omega) (by omega) (h.supplied _), ?_⟩
  intro v hlo hhi
  have hdir : directoryIndex v = 2 := by
    rw [directoryIndex_eq]
    omega
  rw [State.translate_eq, hdir, h.absent (by decide) (by decide) (by decide)]
  rfl

/-! ## Mapping a range -/

/-- Every address of a range lies in one of its pages. -/
theorem page_of_range (hv : virt % 0x1000 = 0)
    (hpages : ∀ k, k < num → present (t.pde (directoryIndex (virt + 4096 * k))) = true ∧
      t.pte (directoryIndex (virt + 4096 * k)) (tableIndex (virt + 4096 * k)) =
        rangeEntry phys flags k) (hlo : virt ≤ v) (hhi : v < virt + num * 0x1000) :
    ∃ k, 4096 * k + v % 4096 = v - virt ∧ present (t.pde (directoryIndex v)) = true ∧
      t.pte (directoryIndex v) (tableIndex v) = rangeEntry phys flags k := by
  refine ⟨(v - virt) / 4096, by omega, ?_⟩
  have hk := hpages ((v - virt) / 4096) (by omega)
  have hdir : directoryIndex (virt + 4096 * ((v - virt) / 4096)) = directoryIndex v := by
    rw [directoryIndex_eq, directoryIndex_eq]
    omega
  have htab : tableIndex (virt + 4096 * ((v - virt) / 4096)) = tableIndex v := by
    rw [tableIndex_eq, tableIndex_eq]
    omega
  rwa [hdir, htab] at hk

theorem plain_of_range (hv : virt % 0x1000 = 0)
    (hplain : large flags = false ∨ ∀ v, virt ≤ v → v < virt + num * 0x1000 →
      present (s.pde (directoryIndex v)) = true) :
    Plain s (Set.Ico (virt / 4096) (virt / 4096 + num)) flags := by
  refine hplain.imp_right fun hall p hp => ?_
  rw [Set.mem_Ico] at hp
  have hp' := hall (4096 * p) (by omega) (by omega)
  rwa [directoryIndex_eq, show 4096 * p / 2 ^ 22 = p / 1024 by omega] at hp'

/-- **Mapping a range refines an update of the translation map.**  For all flags
the entries of the range are the ones asked for; when tables are made as tables,
the processor translates the range as asked and the rest as before. -/
theorem mapPages_translation (hs : Reachable s) (hv : virt % 0x1000 = 0)
    (hrange : virt + num * 0x1000 ≤ 0xFFC00000) (hphys : phys % 0x1000 = 0)
    (hphys' : phys < 2 ^ 32)
    (hclear : ∀ v, virt ≤ v → v < virt + num * 0x1000 → s.translate v = none)
    (hsup : SuppliedRange s virt phys num flags) :
    ∃ t, pagingMapPages s virt phys num flags = .ok t ∧
      (∀ v, virt ≤ v → v < virt + num * 0x1000 →
        pagingVirtToPhys t v = .ok (wrap (phys + (v - virt))) ∧
        pageFlags (t.pte (directoryIndex v) (tableIndex v)) = 1 ||| pageFlags flags) ∧
      ((large flags = false ∨ ∀ v, virt ≤ v → v < virt + num * 0x1000 →
          present (s.pde (directoryIndex v)) = true) →
        (∀ v, virt ≤ v → v < virt + num * 0x1000 →
          t.translate v = some (wrap (phys + (v - virt)))) ∧
        ∀ v, v < 0xFFC00000 → v < virt ∨ virt + num * 0x1000 ≤ v →
          t.translate v = s.translate v) := by
  have hready := reachable_ready hs
  have hfree : ∀ k, k < num → ¬ Mapped s (virt + 4096 * k) := fun k hk =>
    not_mapped_of_translate (hclear _ (by omega) (by omega))
  obtain ⟨t, hrun, hedits, hpages⟩ :=
    mapPages_edits hready hv hrange hphys hphys' hsup hfree
  have hindex : ∀ v, v < virt + num * 0x1000 → directoryIndex v < 1024 := by
    intro v hhi
    have hlt := directoryIndex_lt (show v < 0xFFC00000 by omega)
    omega
  refine ⟨t, hrun, fun v hlo hhi => ?_, fun hplain => ⟨fun v hlo hhi => ?_, fun v hlt hout => ?_⟩⟩
  · obtain ⟨k, hsplit, hp, hpte⟩ := page_of_range hv hpages hlo hhi
    obtain ⟨-, hframe, hlow, -⟩ := rangeEntry_spec hphys flags k
    refine ⟨?_, ?_⟩
    · rw [virtToPhys_eq hedits.ready.recursive (by omega) hp, hpte, hframe,
        range_address hphys k (Nat.mod_lt v (by decide)), hsplit, wrap_wrap]
    · rw [hpte, ← hlow]
      exact Nat.and_two_pow_sub_one_eq_mod _ 12
  · obtain ⟨k, hsplit, hp, hpte⟩ := page_of_range hv hpages hlo hhi
    obtain ⟨-, hframe, -, hpresent⟩ := rangeEntry_spec hphys flags k
    have hl : large (t.pde (directoryIndex v)) = false := by
      cases hps : present (s.pde (directoryIndex v)) with
      | true =>
        rw [hedits.dirs _ (hindex v hhi) hps]
        exact small_of_translate (hclear v hlo hhi) hps
      | false => exact hedits.created_small (plain_of_range hv hplain) (hindex v hhi) hps hp
    rw [State.translate_eq, hp, hl, hpte, hpresent, hframe]
    exact congrArg some ((range_address hphys k (Nat.mod_lt v (by decide))).trans (by rw [hsplit]))
  · refine hedits.translate_outside (plain_of_range hv hplain) hlt ?_
    rw [Set.mem_Ico]
    omega

theorem mapPages_translation_third :
    ∃ t, pagingMapPages (refill started) 0x800000 0x300000 2 pageRw = .ok t ∧
      pagingVirtToPhys t 0x801234 = .ok 0x301234 ∧ t.translate 0x801234 = some 0x301234 ∧
      t.translate 0x802000 = none := by
  have hafter : AfterInit started := started_init.2.2.1
  obtain ⟨hsup, hnone⟩ := hafter.third (show 2 ≤ 1024 by decide) 0x300000 pageRw
  obtain ⟨t, hrun, hpages, htrans⟩ := mapPages_translation (refill_reachable started_reachable)
    (by decide) (by decide) (by decide) (by decide)
    (fun v hlo hhi => hnone v hlo (by omega)) hsup
  obtain ⟨hin, hout⟩ := htrans (Or.inl (by decide))
  refine ⟨t, hrun, ?_, ?_, ?_⟩
  · rw [(hpages 0x801234 (by decide) (by decide)).1]
    decide
  · rw [hin 0x801234 (by decide) (by decide)]
    decide
  · rw [hout 0x802000 (by decide) (by decide)]
    exact hnone 0x802000 (by decide) (by decide)

/-- With bit 7 among the flags the new directory entry is a 4 MiB page, and a page
outside the range translates that did not before. -/
theorem mapPages_largePage :
    Reachable (refill started) ∧ SuppliedRange (refill started) 0x800000 0x300000 1 0x80 ∧
      (∀ v, 0x800000 ≤ v → v < 0x801000 → (refill started).translate v = none) ∧
      (refill started).translate 0x801000 = none ∧
      ∃ t, pagingMapPages (refill started) 0x800000 0x300000 1 0x80 = .ok t ∧
        t.translate 0x801000 ≠ none := by
  have hafter : AfterInit started := started_init.2.2.1
  obtain ⟨hsup, hnone⟩ := hafter.third (show 1 ≤ 1024 by decide) 0x300000 0x80
  have hreach := refill_reachable started_reachable
  obtain ⟨t, hrun, hedits, hpages⟩ := mapPages_edits (reachable_ready hreach) (by decide)
    (by decide) (by decide) (by decide) hsup
    fun k hk => not_mapped_of_translate (hnone _ (by omega) (by omega))
  have hp : present (t.pde 2) = true := (hpages 0 (by decide)).1
  obtain ⟨hlarge, -⟩ := hedits.created 2 (by decide)
    (hafter.absent (by decide) (by decide) (by decide)) hp
  refine ⟨hreach, hsup, fun v hlo hhi => hnone v hlo (by omega),
    hnone 0x801000 (by decide) (by decide), t, hrun, ?_⟩
  rw [State.translate_eq, show directoryIndex 0x801000 = 2 by decide, hp, hlarge]
  exact Option.some_ne_none _

end Paging
end Medusa
