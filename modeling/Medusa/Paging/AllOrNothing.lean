import Medusa.Paging.Rounds

/-!
# All or nothing

Whether a call of `paging_alloc_pages` that returns null has left its mark, in the
states where the allocator knows about the tables: no block of the directory or of
a table has been handed back.
-/

namespace Medusa
namespace Paging

open Machine Kernel Pmm

variable {s t : State} {i virt phys num n flags : Nat}

/-! ## All or nothing -/

/-- Block `k` holds the directory or a table. -/
def ServesTable (t : State) (k : Nat) : Prop :=
  ∃ i, i < 1024 ∧ present (t.pde i) = true ∧ large (t.pde i) = false ∧
    frame (t.pde i) = 4096 * k

/-- Nothing is to be seen of the call, but for blocks that serve as tables now. -/
structure Untouched (s t : State) : Prop where
  translate : ∀ v, v < 2 ^ 32 → t.translate v = s.translate v
  blocks : ∀ k, ¬ ServesTable t k → taken t.pmm k = taken s.pmm k

/-- A call that returns null has changed nothing. -/
def AllOrNothing (s : State) (virt n : Nat) : Prop :=
  ∀ t, pagingAllocPages s virt n = .ok (0, t) → Untouched s t

/-- Pages in the window are translated by the directory. -/
theorem translate_window (h : s.Recursive) (hv : virt % 0x1000 = 0)
    (hlast : directoryIndex virt = 1023) :
    s.translate virt = if present (s.pde (tableIndex virt)) then
      some (frame (s.pde (tableIndex virt))) else none := by
  have hpte : s.pte 1023 (tableIndex virt) = s.pde (tableIndex virt) := h.pte_eq _
  have hp : present (s.pde 1023) = true := h.present
  have hl : large (s.pde 1023) = false := h.small
  rw [State.translate_eq, hlast, hp, hl, hpte, show virt % 2 ^ 12 = 0 from hv]
  rfl

/-- A page left behind can be told. -/
theorem Rounds.touched {n : Nat} (h : Rounds s virt n t) (hs : Sane s) (hheld : Held s)
    (hv : virt % 0x1000 = 0) (hlt : virt < 2 ^ 32) (hn : 0 < n) : ¬ Untouched s t := by
  intro hsame
  obtain ⟨f, hne, hal, hsmall, hclear, hleft⟩ := h.left hn
  rcases hleft.seen with ⟨-, hnot⟩ | ⟨hlast, hentry⟩
  · have hblock := hsame.blocks (f / 4096) (by
      rintro ⟨i, hi, hp, -, hframe⟩
      exact hnot i hi hp (by omega))
    rw [hleft.taken, hclear] at hblock
    simp at hblock
  · -- the page shows its entry, so it showed a block that was taken before
    obtain ⟨-, hframe, hp⟩ := allocEntry_spec hal hsmall
    have hshown := hsame.translate virt hlt
    rw [translate_window h.sane.recursive hv hlast, hentry, hp, if_pos rfl, hframe,
      translate_window hs.recursive hv hlast] at hshown
    cases hps : present (s.pde (tableIndex virt)) with
    | false =>
      rw [hps] at hshown
      simp at hshown
    | true =>
      rw [hps, if_pos rfl] at hshown
      have hf := Option.some.inj hshown
      have htaken := hheld _ (tableIndex_lt virt) hps (by rw [← hf]; exact hne)
      rw [← hf, hclear] at htaken
      simp at htaken

/-! ## The states -/

/-- What the allocator knows about the directory and the tables. -/
structure Kept (s : State) : Prop where
  ready : s.Ready
  pos : s.cr3 ≠ 0
  held : Held s
  maxBlocks : s.pmm.maxBlocks ≤ 2 ^ 20

theorem Kept.sane (h : Kept s) : Sane s where
  recursive := h.ready.recursive
  apart := fun _ hi hp => h.ready.table_ne hi hp
  pos := h.pos
  held := by
    have hself : frame (s.pde 1023) = s.cr3 := h.ready.self
    have hheld := h.held 1023 (by decide) h.ready.present (hself ▸ h.pos)
    rwa [hself] at hheld
  maxBlocks := h.maxBlocks

/-- The step hands no block of the directory or of a table back. -/
structure KeepsTables (s t : State) : Prop where
  taken : ∀ i, i < 1024 → present (s.pde i) = true → frame (s.pde i) ≠ 0 →
    Pmm.taken s.pmm (frame (s.pde i) / 4096) = true →
    Pmm.taken t.pmm (frame (s.pde i) / 4096) = true
  maxBlocks : t.pmm.maxBlocks = s.pmm.maxBlocks

/-- The states that start-up and then steps lead to that keep the tables; the block of
the directory is taken from the start. -/
inductive Joint : State → Prop
  | init {s t : State} {addr : Nat} (hb : Boot s) (hmax : s.pmm.maxBlocks ≤ 2 ^ 20)
      (hdir : taken s.pmm (s.cr3 / 4096) = true) (hsup : InitSupplied s addr)
      (hrun : initPaging s addr = .ok t) : Joint t
  | step {s t : State} (hs : Joint s) (hstep : Step s t) (hkeep : KeepsTables s t) : Joint t

/-! ## Mapping -/

/-- A new table is of frame 0, or of a block that was taken for it. -/
theorem withTable_held (hs : Sane s) (hheld : Held s) (hi : i < 1023) {f : Nat} {p : Pmm.State}
    (halloc : pmmAllocPage s.pmm = .ok (f, p)) (hf : f = 0 ∨ Served s.pmm p f) :
    Sane (withTable s i f flags p) ∧ Held (withTable s i f flags p) := by
  have hmarks : Marks s.pmm p := .pmmAllocPage halloc
  obtain ⟨hal, hsmall⟩ := pmmAllocPage_aligned halloc
  have hne := hs.frame_ne (hf.imp_right Served.clear)
  refine ⟨withTable_sane hs hi hal hsmall hne hmarks, fun k hk hp hpos => ?_⟩
  rw [withTable_pde hal hsmall hs.recursive hne hk] at hp hpos ⊢
  by_cases hki : k = i
  · rw [if_pos hki, (tableEntry_spec hal hsmall flags).2.1] at hpos ⊢
    exact (hf.resolve_left hpos).taken
  · rw [if_neg hki] at hp hpos ⊢
    exact hmarks.taken _ (hheld k hk hp hpos)

/-- All that `paging_get_page` can do when it returns: nothing, or make a table. -/
theorem getPage_cases (hs : Sane s) (hlt : virt < 0xFFC00000) {a : Nat}
    (hget : pagingGetPage s virt true flags = .ok (a, t)) :
    a = tableAddr (directoryIndex virt) + 4 * tableIndex virt ∧
      ((present (s.pde (directoryIndex virt)) = true ∧ t = s) ∨
        ∃ f p, pmmAllocPage s.pmm = .ok (f, p) ∧ (f = 0 ∨ Served s.pmm p f) ∧
          t = withTable s (directoryIndex virt) f flags p) := by
  by_cases hv : virt % 0x1000 = 0
  · cases hp : present (s.pde (directoryIndex virt)) with
    | true =>
      rw [getPage_present hs.recursive hv (directoryIndex_lt' (by omega)) hp] at hget
      obtain ⟨ha, ht⟩ := Prod.mk.inj (Except.ok.inj hget)
      exact ⟨ha.symm, .inl ⟨rfl, ht.symm⟩⟩
    | false =>
      have hmade : ∀ f p, pmmAllocPage s.pmm = .ok (f, p) → (f = 0 ∨ Served s.pmm p f) →
          a = tableAddr (directoryIndex virt) + 4 * tableIndex virt ∧
            t = withTable s (directoryIndex virt) f flags p := by
        intro f p halloc hf
        rw [getPage_withTable hs hv (by omega) hp halloc (hf.imp_right Served.clear)] at hget
        obtain ⟨ha, ht⟩ := Prod.mk.inj (Except.ok.inj hget)
        exact ⟨ha.symm, ht.symm⟩
      rcases pmmAllocPage_cases hs.maxBlocks with ⟨-, habort⟩ | ⟨-, -, halloc⟩ |
        ⟨f, p, halloc, hserved⟩
      · rw [getPage_error hs.recursive hv (by omega) hp habort] at hget
        simp at hget
      · obtain ⟨ha, ht⟩ := hmade 0 s.pmm halloc (.inl rfl)
        exact ⟨ha, .inr ⟨0, s.pmm, halloc, .inl rfl, ht⟩⟩
      · obtain ⟨ha, ht⟩ := hmade f p halloc (.inr hserved)
        exact ⟨ha, .inr ⟨f, p, halloc, .inr hserved, ht⟩⟩
  · rw [getPage_unaligned hv] at hget
    simp at hget

theorem getPage_held (hs : Sane s) (hheld : Held s) (hlt : virt < 0xFFC00000) {a : Nat}
    (hget : pagingGetPage s virt true flags = .ok (a, t)) :
    Sane t ∧ Held t ∧ present (t.pde (directoryIndex virt)) = true ∧
      a = tableAddr (directoryIndex virt) + 4 * tableIndex virt := by
  have hi := directoryIndex_lt hlt
  rcases getPage_cases hs hlt hget with ⟨ha, ⟨hp, rfl⟩ | ⟨f, p, halloc, hf, rfl⟩⟩
  · exact ⟨hs, hheld, hp, ha⟩
  · obtain ⟨hal, hsmall⟩ := pmmAllocPage_aligned halloc
    obtain ⟨hsane, hheld'⟩ := withTable_held hs hheld hi halloc hf
    refine ⟨hsane, hheld', ?_, ha⟩
    rw [withTable_pde hal hsmall hs.recursive (hs.frame_ne (hf.imp_right Served.clear)) (by omega),
      if_pos rfl]
    exact (tableEntry_spec hal hsmall flags).2.2

/-- Both speak of the directory and of the allocator only. -/
theorem held_congr (hs : Sane s) (hheld : Held s) (hcr3 : t.cr3 = s.cr3)
    (hpde : ∀ k, k < 1024 → t.pde k = s.pde k) (hmarks : Marks s.pmm t.pmm) :
    Sane t ∧ Held t := by
  refine ⟨hs.transfer hcr3 (hpde 1023 (by decide)) (fun k hk hp => ?_) hmarks,
    fun k hk hp hne => ?_⟩
  · rw [hpde k (by omega)] at hp ⊢
    exact hs.apart k hk hp
  · rw [hpde k hk] at hp hne ⊢
    exact hmarks.taken _ (hheld k hk hp hne)

theorem store_held (hs : Sane s) (hheld : Held s) (hlt : virt < 0xFFC00000)
    (hp : present (s.pde (directoryIndex virt)) = true) {v : Nat}
    (hstore : store s (tableAddr (directoryIndex virt) + 4 * tableIndex virt) v = .ok t) :
    Sane t ∧ Held t := by
  have hi := directoryIndex_lt hlt
  rw [store_entry hs.recursive (by omega) hp (tableIndex_lt virt)] at hstore
  rw [← Except.ok.inj hstore]
  exact held_congr hs hheld rfl (fun k hk => hs.write_pde hi hp (tableIndex_lt virt) v hk) (.refl _)

theorem mapPage_held (hs : Sane s) (hheld : Held s) (hlt : virt < 0xFFC00000)
    (hrun : pagingMapPage s virt phys flags = .ok t) : Sane t ∧ Held t := by
  obtain ⟨⟨a, u⟩, hget, hrun⟩ := bind_eq_ok hrun
  obtain ⟨entry, -, hrun⟩ := bind_eq_ok hrun
  by_cases hpresent : present entry = true
  · simp only [hpresent, if_true] at hrun
    cases hrun
  · simp only [hpresent] at hrun
    obtain ⟨hsane, hheld', hp, rfl⟩ := getPage_held hs hheld hlt hget
    exact store_held hsane hheld' hlt hp hrun

theorem mapPages_held (hs : Sane s) (hheld : Held s) (hlt : virt + num * 0x1000 ≤ 0xFFC00000)
    (hrun : pagingMapPages s virt phys num flags = .ok t) : Sane t ∧ Held t := by
  induction num generalizing s virt phys with
  | zero =>
    rw [← Except.ok.inj hrun]
    exact ⟨hs, hheld⟩
  | succ num ih =>
    obtain ⟨u, hpage, hrun⟩ := bind_eq_ok hrun
    obtain ⟨hsane, hheld'⟩ := mapPage_held hs hheld (by omega) hpage
    rw [wrap_of_lt (show virt + 0x1000 < 2 ^ 32 by omega)] at hrun
    exact ih hsane hheld' (by omega) hrun

theorem allocPage_held (hs : Sane s) (hheld : Held s) (hlt : virt < 0xFFC00000) {r : Option Nat}
    (hrun : pagingAllocPage s virt = .ok (r, t)) : Sane t ∧ Held t := by
  obtain ⟨⟨page, p⟩, halloc, hrun⟩ := bind_eq_ok hrun
  have hmarks : Marks s.pmm p := .pmmAllocPage halloc
  obtain ⟨hsane, hheld'⟩ := held_congr (t := { s with pmm := p }) hs hheld rfl (fun _ _ => rfl)
    hmarks
  by_cases hpage : page = 0
  · simp only [if_pos hpage] at hrun
    rw [← (Prod.mk.inj (Except.ok.inj hrun)).2]
    exact ⟨hsane, hheld'⟩
  · simp only [if_neg hpage] at hrun
    obtain ⟨⟨a, u⟩, hget, hrun⟩ := bind_eq_ok hrun
    obtain ⟨u', hstore, hrun⟩ := bind_eq_ok hrun
    obtain ⟨hu, hheldu, hp, ha⟩ := getPage_held hsane hheld' hlt hget
    rw [← (Prod.mk.inj (Except.ok.inj hrun)).2]
    simp only [ha] at hstore
    exact store_held hu hheldu hlt hp hstore

theorem allocLoop_held {rounds r : Nat} (hs : Sane s) (hheld : Held s)
    (hlt : virt + (i + rounds) * 0x1000 ≤ 0xFFC00000)
    (hrun : allocLoop s virt i rounds = .ok (r, t)) : Sane t ∧ Held t := by
  induction rounds generalizing s i with
  | zero =>
    rw [← (Prod.mk.inj (Except.ok.inj hrun)).2]
    exact ⟨hs, hheld⟩
  | succ rounds ih =>
    obtain ⟨⟨page, u⟩, hpage, hrun⟩ := bind_eq_ok hrun
    obtain ⟨haddr, hlt'⟩ := round_below hlt
    obtain ⟨hsane, hheld'⟩ := allocPage_held hs hheld haddr hpage
    cases page with
    | none =>
      rw [← (Prod.mk.inj (Except.ok.inj hrun)).2]
      exact ⟨hsane, hheld'⟩
    | some page => exact ih hsane hheld' hlt' hrun

/-! ## Unmapping -/

theorem unmapPage_dirs (h : s.Ready) (hlt : virt < 0xFFC00000)
    (hrun : pagingUnmapPage s virt = .ok t) :
    t.cr3 = s.cr3 ∧ ∀ k, k < 1024 → t.pde k = s.pde k := by
  rw [unmapPage_of_ok h.recursive hlt hrun]
  cases hp : present (s.pde (directoryIndex virt)) with
  | true =>
    rw [if_pos rfl]
    have hdir := h.agree_outside (directoryIndex_lt hlt) hp
      (fun x hx => table_write_outside (tableIndex_lt virt) 0 hx)
    exact ⟨rfl, fun k hk => pde_congr hdir hk⟩
  | false =>
    rw [if_neg Bool.false_ne_true]
    exact ⟨rfl, fun _ _ => rfl⟩

theorem unmapPages_dirs (h : s.Ready) (hlt : virt + num * 0x1000 ≤ 0xFFC00000)
    (hrun : pagingUnmapPages s virt num = .ok t) :
    t.cr3 = s.cr3 ∧ ∀ k, k < 1024 → t.pde k = s.pde k := by
  induction num generalizing s virt with
  | zero =>
    rw [← Except.ok.inj hrun]
    exact ⟨rfl, fun _ _ => rfl⟩
  | succ num ih =>
    obtain ⟨u, hpage, hrun⟩ := bind_eq_ok hrun
    have hready := (unmapPage_ok h (by omega) hpage 0).ready
    obtain ⟨hcr3, hpde⟩ := unmapPage_dirs h (by omega) hpage
    rw [wrap_of_lt (show virt + 0x1000 < 2 ^ 32 by omega)] at hrun
    obtain ⟨hcr3', hpde'⟩ := ih hready (by omega) hrun
    exact ⟨hcr3'.trans hcr3, fun k hk => (hpde' k hk).trans (hpde k hk)⟩

/-! ## Every run -/

theorem Kept.of_sane (h : s.Ready) (hs : Sane s) (hheld : Held s) : Kept s :=
  ⟨h, hs.pos, hheld, hs.maxBlocks⟩

/-- A step that leaves the directory alone. -/
theorem Kept.of_dirs (h : Kept s) (ht : t.Ready) (hcr3 : t.cr3 = s.cr3)
    (hpde : ∀ k, k < 1024 → t.pde k = s.pde k) (hkeep : KeepsTables s t) : Kept t := by
  refine ⟨ht, hcr3 ▸ h.pos, fun k hk hp hne => ?_, hkeep.maxBlocks.trans_le h.maxBlocks⟩
  rw [hpde k hk] at hp hne ⊢
  exact hkeep.taken k hk hp hne (h.held k hk hp hne)

theorem Kept.step (h : Kept s) (hstep : Step s t) (hkeep : KeepsTables s t) : Kept t := by
  have ht := step_ready h.ready hstep
  cases hstep with
  | mapPages hrange hsup hrun =>
    obtain ⟨hsane, hheld⟩ := mapPages_held h.sane h.held hrange hrun
    exact .of_sane ht hsane hheld
  | unmapPages hrange hrun =>
    obtain ⟨hcr3, hpde⟩ := unmapPages_dirs h.ready hrange hrun
    exact h.of_dirs ht hcr3 hpde hkeep
  | allocPages hrange hsup hrun =>
    obtain ⟨hsane, hheld⟩ := allocLoop_held h.sane h.held (by rwa [Nat.zero_add]) hrun
    exact .of_sane ht hsane hheld
  | other p hdir => exact h.of_dirs ht rfl (fun k hk => pde_congr hdir hk) hkeep

/-- At start-up only the block of the directory is known. -/
theorem withoutBoot_kept (hb : Boot s) (hmax : s.pmm.maxBlocks ≤ 2 ^ 20)
    (hdir : taken s.pmm (s.cr3 / 4096) = true) : Kept (withoutBoot s) := by
  have hc := withoutBoot_cleared hb
  have hready := withoutBoot_ready hb
  refine ⟨hready, Nat.ne_of_gt hb.pos, fun k hk hp hne => ?_, hmax⟩
  rcases hc.present_cases hk hp with rfl | rfl
  · exact absurd hc.kernel_frame hne
  · rw [show frame ((withoutBoot s).pde 1023) = s.cr3 from hready.self]
    exact hdir

theorem joint_kept (hs : Joint s) : Kept s := by
  induction hs with
  | init hb hmax hdir hsup hrun =>
    have ht := initPaging_ready hb hsup hrun
    obtain ⟨⟨toMap, u⟩, hprep, hrun⟩ := bind_eq_ok hrun
    have hsup' := hsup toMap u hprep
    have hkept := withoutBoot_kept hb hmax hdir
    rw [← preparePaging_state hb hprep] at hkept
    by_cases hmap : toMap * 0x1000 ≤ 0xFFC00000
    · obtain ⟨hsane, hheld⟩ := mapPages_held hkept.sane hkept.held (by omega) hrun
      exact .of_sane ht hsane hheld
    · exact absurd hrun (mapPages_window hkept.ready rfl (by decide) (Or.inl rfl) (by omega) hsup')
  | step _ hstep hkeep ih => exact ih.step hstep hkeep

/-! ## When a call is all or nothing -/

/-- The pages from `virt` to the end of the address space. -/
def pagesLeft (virt : Nat) : Nat := (2 ^ 32 - virt) / 0x1000

/-- Null is an answer of success, too, when it is the address asked for. -/
def NullRange (s : State) (virt n : Nat) : Prop := virt = 0 ∧ 0 < n ∧ Suffices s virt n

theorem Suffices.le_available (h : Suffices s virt n) : n ≤ available s.pmm := by
  have hle : n - 1 ≤ demand s virt (n - 1) := Nat.le_add_right _ _
  have hle' : n ≤ demand s virt n := Nat.le_add_right _ _
  rcases h with ⟨-, hmore⟩ | ⟨hcap, hmore⟩ <;> omega

/-- What suffices for all pages suffices for the first ones. -/
theorem Suffices.mono (h : Suffices s virt n) {m : Nat} (hmn : m ≤ n) : Suffices s virt m := by
  have hlast := demand_mono s virt (show m - 1 ≤ n - 1 by omega)
  have hend := demand_mono s virt hmn
  exact h.imp (fun ⟨hfree, hmore⟩ => ⟨hfree, by omega⟩) fun ⟨hcap, hmore⟩ => ⟨hcap, by omega⟩

/-- With no frame at all the first round ends the call. -/
theorem allOrNothing_of_none (hs : Sane s) (hnone : available s.pmm = 0) :
    AllOrNothing s virt n := by
  intro t hrun
  have hsame : Untouched s s := ⟨fun _ _ => rfl, fun _ _ => rfl⟩
  cases n with
  | zero =>
    rw [← (Prod.mk.inj (Except.ok.inj hrun)).2]
    exact hsame
  | succ n =>
    rw [pagingAllocPages, allocLoop] at hrun
    by_cases hfree : pmmGetFreeBlocks s.pmm = 0
    · rw [allocPage_error (pmmAllocPage_abort hfree)] at hrun
      cases hrun
    · rw [allocPage_zero (pmmAllocPage_zero hs.maxBlocks hfree hnone)] at hrun
      rw [← (Prod.mk.inj (Except.ok.inj hrun)).2]
      exact hsame

section

variable (hs : Sane s) (hheld : Held s) (hv : virt % 0x1000 = 0) (hlt : virt < 2 ^ 32)
include hs hheld hv hlt

omit hs hheld in
theorem range_fits {m : Nat} (hm : m ≤ pagesLeft virt) : virt + m * 0x1000 ≤ 2 ^ 32 := by
  rw [pagesLeft] at hm
  omega

/-- A call with enough of both does not return null, unless it was asked for null. -/
theorem allOrNothing_of_suffices (hn : n ≤ pagesLeft virt) (hall : Suffices s virt n)
    (hnull : ¬ NullRange s virt n) : AllOrNothing s virt n := by
  have hfit := range_fits hv hlt hn
  intro t hrun
  rcases Nat.eq_zero_or_pos n with rfl | hpos
  · rw [← (Prod.mk.inj (Except.ok.inj hrun)).2]
    exact ⟨fun _ _ => rfl, fun _ _ => rfl⟩
  · have hret : ∃ u, pagingAllocPages s virt n = .ok (virt, u) := by
      by_cases hend : virt + n * 0x1000 = 2 ^ 32
      · exact allocPages_last hs hheld hv hend hpos hall
      · obtain ⟨u, -, hrun'⟩ := allocPages_suffices hs hheld hv (n := n) (by omega) hall
        exact ⟨u, hrun'⟩
    obtain ⟨u, hrun'⟩ := hret
    rw [hrun'] at hrun
    exact absurd ⟨(Prod.mk.inj (Except.ok.inj hrun)).1, hpos, hall⟩ hnull

/-- Pages are left behind where the frames run out, and where null is a success. -/
theorem not_allOrNothing_of_runsOut {m : Nat} (hm : m ≤ pagesLeft virt) (hmn : m ≤ n)
    (hout : RunsOut s virt m) : ¬ AllOrNothing s virt n := by
  intro hall
  obtain ⟨l, u, hpos, hu, hrun⟩ := allocPages_runsOut hs hheld hv (range_fits hv hlt hm) hout hmn
  exact hu.touched hs hheld hv hlt hpos (hall u hrun)

omit hv hlt in
theorem not_allOrNothing_of_null (hnull : NullRange s virt n) : ¬ AllOrNothing s virt n := by
  obtain ⟨rfl, hpos, hall⟩ := hnull
  have hle := hall.le_available
  have hmax := available_le s.pmm
  have hw := window_le s.pmm
  have hblocks := hs.maxBlocks
  intro hnothing
  obtain ⟨u, hu, hrun⟩ := allocPages_suffices hs hheld rfl (by omega) hall
  exact hu.touched hs hheld rfl (by decide) hpos (hnothing u hrun)

end

/-- **All or nothing.**  A call that does not get past the end of the address space
leaves nothing behind when it returns null, exactly if the frames do not run out on
the way, nor null is the range that was asked for. -/
theorem allocPages_allOrNothing_iff (hs : Joint s) (hv : virt % 0x1000 = 0)
    (hlt : virt < 2 ^ 32)
    (hfit : n ≤ pagesLeft virt ∨ ¬ Suffices s virt (pagesLeft virt)) :
    AllOrNothing s virt n ↔ ¬ RunsOut s virt n ∧ ¬ NullRange s virt n := by
  have hkept := joint_kept hs
  have hsane := hkept.sane
  constructor
  · intro hall
    refine ⟨fun hout => ?_, fun hnull => not_allOrNothing_of_null hsane hkept.held hnull hall⟩
    by_cases hn : n ≤ pagesLeft virt
    · exact not_allOrNothing_of_runsOut hsane hkept.held hv hlt hn (Nat.le_refl n) hout hall
    · -- the frames run out before the end
      obtain ⟨hpos, hfree, -⟩ := hout
      have hfew : available s.pmm ≤ demand s virt (pagesLeft virt - 1) :=
        Nat.le_of_not_lt fun hmore => hfit.resolve_left hn (Or.inl ⟨hfree, hmore⟩)
      exact not_allOrNothing_of_runsOut hsane hkept.held hv hlt (Nat.le_refl _) (by omega)
        ⟨hpos, hfree, hfew⟩ hall
  · intro hnot
    obtain ⟨hout, hnull⟩ := hnot
    by_cases hsome : available s.pmm = 0
    · exact allOrNothing_of_none hsane hsome
    · by_cases hall : Suffices s virt n
      · refine allOrNothing_of_suffices hsane hkept.held hv hlt ?_ hall hnull
        by_contra hn
        exact hfit.resolve_left hn (hall.mono (by omega))
      · -- the counter is what fails, and it stops the machine
        have hcap : pmmGetFreeBlocks s.pmm ≤ available s.pmm := by
          by_contra hfree
          refine hout ⟨by omega, by omega, Nat.le_of_not_lt fun hmore => hall ?_⟩
          exact Or.inl ⟨by omega, hmore⟩
        have hcount : ∃ m, m ≤ pagesLeft virt ∧ m ≤ n ∧
            pmmGetFreeBlocks s.pmm < demand s virt m := by
          by_cases hn : n ≤ pagesLeft virt
          · exact ⟨n, hn, Nat.le_refl n, Nat.lt_of_not_le fun hle => hall (Or.inr ⟨hcap, hle⟩)⟩
          · exact ⟨pagesLeft virt, Nat.le_refl _, by omega,
              Nat.lt_of_not_le fun hle => hfit.resolve_left hn (Or.inr ⟨hcap, hle⟩)⟩
        obtain ⟨m, hm, hmn, hmore⟩ := hcount
        intro t hrun
        rw [allocPages_aborts hsane hkept.held hv (range_fits hv hlt hm) hcap hmore hmn] at hrun
        cases hrun

/-! ## After start-up -/

/-- `t` with one free block, and a counter that says two. -/
def lastBlock (t : State) : State :=
  { t with pmm := { freeBlock (spareBlock t) with usedBlocks := 4094 } }

theorem lastBlock_available (t : State) :
    available (lastBlock t).pmm = 1 ∧ pmmGetFreeBlocks (lastBlock t).pmm = 2 := by
  have hone : ∀ b, b = 2048 ∨ b = 3072 →
      available { freeBlock b with usedBlocks := 4094 } = 1 := by
    intro b hb
    rcases hb with rfl | rfl <;> decide +kernel
  exact ⟨hone _ (spareBlock_cases t), show wsub 4096 4094 = 2 by decide⟩

theorem taken_freeBlock {b k : Nat} (h : k ≠ b) : taken (freeBlock b) k = true := by
  have hbit : k % 32 < 32 := Nat.mod_lt k (by decide)
  show (if k / 32 = b / 32 then ~~~nthBit (b % 32) else 0xFFFFFFFF#32).getLsbD (k % 32) = true
  by_cases hword : k / 32 = b / 32
  · rw [if_pos hword, BitVec.getLsbD_not, nthBit, BitVec.getLsbD_shiftLeft, BitVec.getLsbD_one]
    simp only [hbit, decide_true, Bool.true_and, Bool.not_and, Bool.not_not, Bool.or_eq_true,
      decide_eq_true_iff, Bool.not_eq_true', decide_eq_false_iff_not]
    omega
  · rw [if_neg hword, show (0xFFFFFFFF#32) = BitVec.allOnes 32 from rfl, BitVec.getLsbD_allOnes]
    exact decide_eq_true hbit

theorem started_joint : Joint started := by
  have hdir : taken (freeBlock 1024) (0x108000 / 4096) = true := taken_freeBlock (by decide)
  exact .init bootState_boot (show 4096 ≤ 2 ^ 20 by decide) hdir started_init.2.1 started_init.1

theorem block_ne {f b : Nat} (hf : f % 4096 = 0) (hne : f ≠ 4096 * b) : f / 4096 ≠ b := by
  omega

theorem AfterInit.keepsTables (h : AfterInit t) (hblocks : t.pmm.maxBlocks = 4096) :
    KeepsTables t (lastBlock t) := by
  refine ⟨fun i hi hp _ _ => ?_, hblocks.symm⟩
  have hunused : frame (t.pde i) ≠ 4096 * spareBlock t := h.unused i hi hp
  exact taken_freeBlock (block_ne (frame_spec (t.pde_lt i)).1 hunused)

theorem lastBlock_joint : Joint (lastBlock started) := by
  obtain ⟨hinit, -, hafter, -⟩ := started_init
  have hblocks : started.pmm.maxBlocks = 4096 := (initPaging_marks bootState_boot hinit).maxBlocks
  exact .step started_joint (.other _ (Agree.refl _ _ _)) (AfterInit.keepsTables hafter hblocks)

/-- One page is there to be had, and it is given. -/
theorem allocPages_allOrNothing_one : AllOrNothing (lastBlock started) 0x258000 1 := by
  obtain ⟨hone, htwo⟩ := lastBlock_available started
  refine (allocPages_allOrNothing_iff lastBlock_joint (by decide) (by decide)
    (Or.inl (by decide))).mpr ⟨fun hout => ?_, fun hnull => ?_⟩
  · have hfew := hout.2.2
    rw [Nat.sub_self, demand_zero] at hfew
    omega
  · exact absurd hnull.1 (by decide)

/-- Two pages are asked for: the first is mapped, and null is returned. -/
theorem allocPages_two : Joint (lastBlock started) ∧
    ∃ t, pagingAllocPages (lastBlock started) 0x258000 2 = .ok (0, t) ∧
      ¬ Untouched (lastBlock started) t := by
  have hkept := joint_kept lastBlock_joint
  obtain ⟨hone, htwo⟩ := lastBlock_available started
  have hout : RunsOut (lastBlock started) 0x258000 2 := by
    refine ⟨by omega, by omega, ?_⟩
    have hgrow := demand_lt_succ (lastBlock started) 0x258000 0
    rw [hone]
    exact Nat.lt_of_le_of_lt (Nat.zero_le _) hgrow
  obtain ⟨l, t, hpos, hrounds, hrun⟩ := allocPages_runsOut hkept.sane hkept.held
    (show 0x258000 % 0x1000 = 0 by decide) (by decide) hout (Nat.le_refl 2)
  exact ⟨lastBlock_joint, t, hrun,
    hrounds.touched hkept.sane hkept.held (by decide) (by decide) hpos⟩

end Paging
end Medusa
