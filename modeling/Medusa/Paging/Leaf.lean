import Medusa.Paging.Unmap

/-!
# The entry behind a page

The entry that ends the walk for a page: that of a table, or the directory's own
for a 4 MiB page.  It is what the processor keeps of a translation and what holds
a frame.  The lemmas say what each function does to these entries.
-/

namespace Medusa
namespace Paging

open Machine Kernel Pmm

inductive Leaf where
  | page (entry : Nat)
  | largePage (entry : Nat)
deriving DecidableEq

/-- Where an access to `v` goes. -/
def Leaf.address (v : Nat) : Leaf → Nat
  | page entry => frame entry + v % 2 ^ 12
  | largePage entry => (entry &&& 0xFFC00000) + v % 2 ^ 22

/-- The present entry of page number `q`. -/
def State.leaf (s : State) (q : Nat) : Option Leaf :=
  if present (s.pde (q / 1024)) then
    if large (s.pde (q / 1024)) then some (.largePage (s.pde (q / 1024)))
    else if present (s.pte (q / 1024) (q % 1024)) then some (.page (s.pte (q / 1024) (q % 1024)))
    else none
  else none

variable {s t : State} {virt phys num flags q : Nat} {l : Leaf} {R : Set Nat}

theorem page_directoryIndex (v : Nat) : v / 4096 / 1024 = directoryIndex v := by
  rw [directoryIndex_eq]
  omega

theorem page_tableIndex (v : Nat) : v / 4096 % 1024 = tableIndex v := (tableIndex_eq v).symm

theorem State.translate_leaf (s : State) (v : Nat) :
    s.translate v = (s.leaf (v / 4096)).map (Leaf.address v) := by
  rw [State.translate_eq, State.leaf, page_directoryIndex, page_tableIndex]
  cases present (s.pde (directoryIndex v)) with
  | false => rfl
  | true =>
    cases large (s.pde (directoryIndex v)) with
    | true => rfl
    | false => cases present (s.pte (directoryIndex v) (tableIndex v)) <;> rfl

theorem leaf_eq_page_iff {entry : Nat} :
    s.leaf q = some (.page entry) ↔
      present (s.pde (q / 1024)) = true ∧ large (s.pde (q / 1024)) = false ∧
        present entry = true ∧ s.pte (q / 1024) (q % 1024) = entry := by
  rw [State.leaf]
  cases present (s.pde (q / 1024)) with
  | false => simp
  | true =>
    cases large (s.pde (q / 1024)) with
    | true => simp
    | false =>
      cases hpte : present (s.pte (q / 1024) (q % 1024)) with
      | false =>
        simp only [if_true, Bool.false_eq_true, if_false, true_and]
        constructor
        · intro h
          simp at h
        · rintro ⟨hp, rfl⟩
          rw [hpte] at hp
          simp at hp
      | true =>
        simp only [if_true, Bool.false_eq_true, if_false, true_and, Option.some.injEq,
          Leaf.page.injEq]
        constructor
        · rintro rfl
          exact ⟨hpte, rfl⟩
        · exact fun h => h.2

/-- A page with an entry has a table, or lies in a 4 MiB page. -/
theorem present_of_leaf (h : s.leaf q = some l) : present (s.pde (q / 1024)) = true := by
  rw [← Bool.not_eq_false]
  intro hp
  rw [State.leaf, hp] at h
  simp at h

/-! ## Edits -/

/-- An entry is lost only where pages are edited. -/
theorem Edits.leaf_kept (h : Edits s t R flags) (hs : s.Ready) (hq : q < 1024 * 1024)
    (hout : q ∉ R) (hl : s.leaf q = some l) : t.leaf q = some l := by
  have hp := present_of_leaf hl
  have hdir := h.dirs (q / 1024) (by omega) hp
  have hpage : q / 1024 * 1024 + q % 1024 = q := by omega
  by_cases hwin : q / 1024 < 1023
  · have hkept := h.kept (q / 1024) (q % 1024) hwin (Nat.mod_lt q (by decide))
      (by rwa [Nat.mul_comm, hpage]) hp
    rw [State.leaf, hdir, hkept]
    exact hl
  · -- a page of the window shows an entry of the directory
    have hlast : q / 1024 = 1023 := by omega
    have hs1 : s.pte 1023 (q % 1024) = s.pde (q % 1024) := hs.recursive.pte_eq _
    have ht1 : t.pte 1023 (q % 1024) = t.pde (q % 1024) := h.ready.recursive.pte_eq _
    rw [State.leaf, hdir, hlast, ht1]
    rw [State.leaf, hlast, hs1] at hl
    cases hpj : present (s.pde (q % 1024)) with
    | true =>
      rw [h.dirs (q % 1024) (Nat.mod_lt q (by decide)) hpj]
      exact hl
    | false =>
      have hsmall : large (s.pde 1023) = false := hs.recursive.small
      rw [hpj, hsmall] at hl
      have hnone := hl
      rw [show present (s.pde 1023) = true from hs.recursive.present] at hnone
      simp at hnone

/-- Below the window an entry appears only where pages are edited. -/
theorem Edits.leaf_outside (h : Edits s t R flags) (hplain : Plain s R flags)
    (hq : q < 1023 * 1024) (hout : q ∉ R) : t.leaf q = s.leaf q := by
  have hi : q / 1024 < 1023 := by omega
  have hpage : 1024 * (q / 1024) + q % 1024 = q := by omega
  have hout' : 1024 * (q / 1024) + q % 1024 ∉ R := by rwa [hpage]
  rw [State.leaf, State.leaf]
  cases hp : present (s.pde (q / 1024)) with
  | true =>
    rw [h.dirs _ (by omega) hp, hp, h.kept _ _ hi (Nat.mod_lt q (by decide)) hout' hp]
  | false =>
    cases hpt : present (t.pde (q / 1024)) with
    | false => rfl
    | true =>
      rw [h.created_small hplain (by omega) hp hpt,
        h.blank _ _ hi (Nat.mod_lt q (by decide)) hout' hp hpt]
      rfl

/-! ## Allocating a page -/

/-- The entry `paging_alloc_pages` writes. -/
def allocEntry (page : Nat) : Nat := page ||| 1 ||| pageRw ||| pageUser

theorem allocEntry_spec {page : Nat} (hmod : page % 4096 = 0) (hlt : page < 2 ^ 32) :
    allocEntry page < 2 ^ 32 ∧ frame (allocEntry page) = page ∧
      present (allocEntry page) = true := by
  have hbits : allocEntry page = page ||| (1 ||| pageRw ||| pageUser) := by
    rw [allocEntry, Nat.or_assoc, Nat.or_assoc, Nat.or_assoc]
  obtain ⟨he, hframe, -⟩ := frame_or (x := 1 ||| pageRw ||| pageUser) hmod hlt (by decide)
  rw [hbits]
  refine ⟨he, hframe, ?_⟩
  rw [present_or hmod hlt (by decide)]
  decide

/-- What a round of `paging_alloc_pages` that got a page has done. -/
structure AllocRound (s t : State) (virt page : Nat) : Prop where
  aligned : virt % 0x1000 = 0
  took : ∃ p, pmmAllocPage s.pmm = .ok (page, p) ∧ Marks p t.pmm
  pos : page ≠ 0
  edits : Edits s t {virt / 4096} (pageRw ||| pageUser)
  table : present (t.pde (directoryIndex virt)) = true
  entry : t.pte (directoryIndex virt) (tableIndex virt) = allocEntry page

theorem allocPage_round (h : s.Ready) (hlt : virt < 0xFFC00000) (hsup : AllocSupplied s virt)
    {page : Nat} (hrun : pagingAllocPage s virt = .ok (some page, t)) :
    AllocRound s t virt page := by
  obtain ⟨⟨page', p⟩, halloc, hrun⟩ := bind_eq_ok hrun
  by_cases hpage : page' = 0
  · simp only [if_pos hpage] at hrun
    exact nomatch (Prod.mk.inj (Except.ok.inj hrun)).1
  · simp only [if_neg hpage] at hrun
    obtain ⟨⟨entry, u⟩, hget, hrun⟩ := bind_eq_ok hrun
    obtain ⟨u', hstore, hrun⟩ := bind_eq_ok hrun
    obtain ⟨hsame, rfl⟩ := Prod.mk.inj (Except.ok.inj hrun)
    obtain rfl := Option.some.inj hsame
    have hmarks := getPage_marks hget
    by_cases hv : virt % 0x1000 = 0
    · have hi := directoryIndex_lt hlt
      have hj := tableIndex_lt virt
      obtain ⟨w, hget', hedits, hpw, -⟩ := getPage_edits (s := { s with pmm := p })
        h hv hlt (hsup page' p halloc hpage) (pageRw ||| pageUser)
      have hready := hedits.ready
      obtain ⟨rfl, rfl⟩ := Prod.mk.inj (Except.ok.inj (hget.symm.trans hget'))
      rw [store_entry hready.recursive (by omega) hpw hj] at hstore
      obtain rfl := Except.ok.inj hstore
      have hwrite := edits_store (p := u.pmm) hready hi hpw hj (allocEntry page')
        (pageRw ||| pageUser)
      rw [index_page] at hwrite
      obtain ⟨hmod, hsmall⟩ := pmmAllocPage_aligned halloc
      refine ⟨hv, ⟨p, halloc, hmarks⟩, hpage, ?_, ?_, ?_⟩
      · have hall : Edits { s with pmm := p } _ {virt / 4096} (pageRw ||| pageUser) :=
          (hedits.trans hwrite).mono (by simp)
        exact ⟨hall.cr3, hall.ready, hall.dirs, hall.created, hall.kept, hall.blank⟩
      · exact (congrArg present (hwrite.dirs _ (by omega) hpw)).trans hpw
      · have hpte := hready.write_pte hi hpw hj (allocEntry page')
        rw [Nat.mod_eq_of_lt (allocEntry_spec hmod hsmall).1] at hpte
        exact hpte
    · rw [getPage_unaligned hv true] at hget
      simp at hget

/-- A round without a page has only called the allocator. -/
theorem allocPage_none (hrun : pagingAllocPage s virt = .ok (none, t)) :
    ∃ p, t = { s with pmm := p } ∧ Marks s.pmm p := by
  obtain ⟨⟨page, p⟩, halloc, hrun⟩ := bind_eq_ok hrun
  by_cases hpage : page = 0
  · simp only [if_pos hpage] at hrun
    exact ⟨p, (Prod.mk.inj (Except.ok.inj hrun)).2.symm, .pmmAllocPage halloc⟩
  · simp only [if_neg hpage] at hrun
    obtain ⟨_, -, hrun⟩ := bind_eq_ok hrun
    obtain ⟨_, -, hrun⟩ := bind_eq_ok hrun
    exact nomatch (Prod.mk.inj (Except.ok.inj hrun)).1

/-- A round of `paging_alloc_pages` where the table is there. -/
theorem allocPage_present (h : s.Ready) (hv : virt % 0x1000 = 0) (hlt : virt < 0xFFC00000)
    (hp : present (s.pde (directoryIndex virt)) = true) {page : Nat} {p : Pmm.State}
    (halloc : pmmAllocPage s.pmm = .ok (page, p)) (hpage : page ≠ 0) :
    pagingAllocPage s virt = .ok (some page,
      { s with
        pmm := p
        mem := write32 s.mem (frame (s.pde (directoryIndex virt)) + 4 * tableIndex virt)
          (allocEntry page) }) := by
  have hi := directoryIndex_lt hlt
  have hget : pagingGetPage { s with pmm := p } virt true (pageRw ||| pageUser) = _ :=
    getPage_present (s := { s with pmm := p }) h.recursive hv (by omega) hp true
  rw [pagingAllocPage, halloc, ok_bind]
  simp only [if_neg hpage]
  rw [hget, ok_bind]
  have hstore : store { s with pmm := p } _ (allocEntry page) = _ :=
    store_entry (s := { s with pmm := p }) h.recursive (by omega) hp (tableIndex_lt virt) _
  simp only [allocEntry] at hstore
  simp only [hstore, ok_bind]
  rfl

/-! ## Unmapping a page -/

/-- What `paging_unmap_page` has done to a page that has a table. -/
structure UnmapRound (s t : State) (virt : Nat) : Prop where
  edits : Edits s t {virt / 4096} (pageRw ||| pageUser)
  freed : t.pmm = pmmFreePage s.pmm (frame (s.pte (directoryIndex virt) (tableIndex virt)))
  entry : t.pte (directoryIndex virt) (tableIndex virt) = 0

theorem unmapPage_round (h : s.Ready) (hlt : virt < 0xFFC00000)
    (hp : present (s.pde (directoryIndex virt)) = true) (hrun : pagingUnmapPage s virt = .ok t) :
    UnmapRound s t virt := by
  have hafter := unmapPage_of_ok h.recursive hlt hrun
  rw [hp, if_pos rfl] at hafter
  refine ⟨unmapPage_ok h hlt hrun _, ?_, ?_⟩
  · rw [hafter]
  · rw [hafter]
    exact h.write_pte (directoryIndex_lt hlt) hp (tableIndex_lt virt) 0

/-- Without a table there is nothing to do. -/
theorem unmapPage_absent (h : s.Ready) (hlt : virt < 0xFFC00000)
    (hp : present (s.pde (directoryIndex virt)) = false) (hrun : pagingUnmapPage s virt = .ok t) :
    t = s := by
  rw [unmapPage_of_ok h.recursive hlt hrun, hp, if_neg Bool.false_ne_true]

/-- The page has no entry any more, unless it lies in a 4 MiB page. -/
theorem UnmapRound.leaf (h : UnmapRound s t virt) (hlt : virt < 0xFFC00000)
    (hp : present (s.pde (directoryIndex virt)) = true)
    (hsmall : large (s.pde (directoryIndex virt)) = false) : t.leaf (virt / 4096) = none := by
  have hi := directoryIndex_lt hlt
  rw [State.leaf, page_directoryIndex, page_tableIndex, h.edits.dirs _ (by omega) hp, hp, hsmall,
    h.entry]
  rfl

/-! ## After start-up -/

/-- Start-up has mapped these pages to themselves. -/
def Identity (t : State) : Prop :=
  ∀ k, k < 513 → present (t.pde (directoryIndex (4096 * k))) = true ∧
    t.pte (directoryIndex (4096 * k)) (tableIndex (4096 * k)) = rangeEntry 0 pageRw k

theorem AfterInit.first_small (h : AfterInit t) (hp : present (t.pde 0) = true) :
    large (t.pde 0) = false := by
  have hb := (withoutBoot_cleared bootState_boot).blank 0 (by decide) (by decide)
  obtain ⟨hlarge, -⟩ := h.created 0 (by decide) (by rw [hb]; rfl) hp
  rw [hlarge]
  decide

/-- After start-up the entries of tables are those of the identity mapping. -/
theorem AfterInit.leaf_page {entry : Nat} (h : AfterInit t) (hid : Identity t)
    (hq : q < 1023 * 1024) (hl : t.leaf q = some (.page entry)) :
    q < 513 ∧ frame entry = 4096 * q := by
  obtain ⟨hp, hsmall, hpresent, hentry⟩ := leaf_eq_page_iff.mp hl
  rcases h.pde_cases (by omega) hp with hzero | ⟨-, hkernel⟩ | ⟨hlast, -⟩
  · rw [hzero] at hp hentry
    by_cases hlt : q < 513
    · have hdir : directoryIndex (4096 * q) = 0 := by
        rw [directoryIndex_eq]
        omega
      have htab : tableIndex (4096 * q) = q % 1024 := by
        rw [tableIndex_eq]
        omega
      have hk := (hid q hlt).2
      rw [hdir, htab, hentry] at hk
      rw [hk, (rangeEntry_spec rfl pageRw q).2.1, Nat.zero_add, wrap_of_lt (by omega)]
      exact ⟨hlt, rfl⟩
    · -- the rest of the first table is blank
      have hb := (withoutBoot_cleared bootState_boot).blank 0 (by decide) (by decide)
      have hblank := h.blank 0 (q % 1024) (by decide) (Nat.mod_lt q (by decide))
        (by rw [Set.mem_Ico]; omega) (by rw [hb]; rfl) hp
      rw [hblank] at hentry
      rw [← hentry] at hpresent
      cases hpresent
  · rw [hkernel] at hsmall
    cases hsmall
  · omega

/-- Blocks 2048 to 2079 are free. -/
def freeRow : Pmm.State where
  bitmap := fun i => if i = 64 then 0#32 else 0xFFFFFFFF#32
  memSize := 0x1000000
  usedBlocks := 4064
  maxBlocks := 4096
  kernelEnd := 0x200000
  strayed := false

theorem freeRow_alloc : pmmAllocPage freeRow = .ok (0x800000, mmapSet freeRow 2048) := by
  have hfind : mmapFindFree freeRow = 2048 := by decide +kernel
  have hroom : ¬ wsub freeRow.maxBlocks freeRow.usedBlocks ≤ 0 :=
    show ¬ wsub 4096 4064 ≤ 0 by decide
  rw [pmmAllocPage, if_neg hroom, hfind]
  rfl

theorem freeRow_alloc_next :
    pmmAllocPage (mmapSet freeRow 2048) =
      .ok (0x801000, mmapSet (mmapSet freeRow 2048) 2049) := by
  have hfind : mmapFindFree (mmapSet freeRow 2048) = 2049 := by decide +kernel
  have hroom : ¬ wsub (mmapSet freeRow 2048).maxBlocks (mmapSet freeRow 2048).usedBlocks ≤ 0 :=
    show ¬ wsub 4096 (wrap (4064 + 1)) ≤ 0 by decide
  rw [pmmAllocPage, if_neg hroom, hfind]
  rfl

/-- `t` with 32 free blocks. -/
def stocked (t : State) : State := { t with pmm := freeRow }

theorem stocked_reachable (h : Reachable t) : Reachable (stocked t) :=
  .step h (.other freeRow (Agree.refl _ _ _))

end Paging
end Medusa
