import Mathlib.Data.Nat.Count
import Medusa.Paging.Leaf
import Medusa.Paging.Lookup
import Medusa.Pmm.Supply

/-!
# Running out of frames

`paging_alloc_pages` returns null as soon as `pmm_alloc_page` has nothing left, and
leaves the pages before as they are: there is no undo.  When that happens is a matter
of two numbers of the allocator and of how many tables are missing in the range.

A table for which no frame is left is made of frame 0, so the tables of such a run
may share frames.  What is followed here is the directory alone, and the blocks.
-/

namespace Medusa
namespace Paging

open Machine Kernel Pmm

variable {s t : State} {i j virt flags : Nat}

/-! ## The directory -/

/-- What the calls need of the directory: the window shows it, it is not one of the
tables, and its block is taken. -/
structure Sane (s : State) : Prop where
  recursive : s.Recursive
  apart : ∀ i, i < 1023 → present (s.pde i) = true → frame (s.pde i) ≠ s.cr3
  pos : s.cr3 ≠ 0
  held : taken s.pmm (s.cr3 / 4096) = true
  maxBlocks : s.pmm.maxBlocks ≤ 2 ^ 20

theorem State.pde_lt (s : State) (i : Nat) : s.pde i < 2 ^ 32 := Machine.pde_lt _ _ _

/-- A frame whose block is not taken, or frame 0, is not the directory. -/
theorem Sane.frame_ne (h : Sane s) {f : Nat} (hf : f = 0 ∨ taken s.pmm (f / 4096) = false) :
    f ≠ s.cr3 := by
  intro heq
  cases hf with
  | inl hzero => exact h.pos (heq ▸ hzero)
  | inr hclear =>
    rw [heq, h.held] at hclear
    simp at hclear

/-- The window's entry stays, no table gets the directory's frame, and blocks are only
taken. -/
theorem Sane.transfer (h : Sane s) (hcr3 : t.cr3 = s.cr3) (hslot : t.pde 1023 = s.pde 1023)
    (hapart : ∀ i, i < 1023 → present (t.pde i) = true → frame (t.pde i) ≠ s.cr3)
    (hmarks : Marks s.pmm t.pmm) : Sane t := by
  have hslot' : Machine.pde t.mem t.cr3 1023 = Machine.pde s.mem s.cr3 1023 := hslot
  have hself : frame (Machine.pde t.mem t.cr3 1023) = t.cr3 := by
    rw [hslot', h.recursive.self, hcr3]
  have hheld : taken t.pmm (t.cr3 / 4096) = true := by
    rw [hcr3]
    exact hmarks.taken _ h.held
  refine ⟨⟨hcr3 ▸ h.recursive.aligned, hcr3 ▸ h.recursive.bound, hslot' ▸ h.recursive.present,
    hslot' ▸ h.recursive.small, hself⟩, fun k hk hp => ?_, hcr3 ▸ h.pos, hheld,
    hmarks.maxBlocks.trans_le h.maxBlocks⟩
  rw [hcr3]
  exact hapart k hk hp

/-- The directory entry for a table in frame `f`. -/
def tableEntry (f flags : Nat) : Nat := f ||| 1 ||| pageRw ||| pageFlags flags

theorem tableEntry_spec {f : Nat} (hf : f % 4096 = 0) (hlt : f < 2 ^ 32) (flags : Nat) :
    tableEntry f flags < 2 ^ 32 ∧ frame (tableEntry f flags) = f ∧
      present (tableEntry f flags) = true := by
  obtain ⟨hbits, hpbits, -⟩ := tableBits flags
  obtain ⟨he, hframe, -⟩ := frame_or hf hlt hbits
  have hassoc : tableEntry f flags = f ||| (1 ||| pageRw ||| pageFlags flags) := by
    rw [tableEntry, Nat.or_assoc, Nat.or_assoc, Nat.or_assoc]
  rw [hassoc]
  exact ⟨he, hframe, (present_or hf hlt hbits).trans hpbits⟩

/-- `s` after a table was made in frame `f`. -/
def withTable (s : State) (i f flags : Nat) (p : Pmm.State) : State :=
  { s with
    pmm := p
    mem := Libc.memset (write32 s.mem (s.cr3 + 4 * i) (tableEntry f flags)) f 0#8 4096 }

section

variable {f : Nat} {p : Pmm.State} (hal : f % 4096 = 0) (hlt : f < 2 ^ 32)
include hal hlt

/-- The new table is not the directory, so clearing it leaves the directory alone. -/
theorem withTable_pde (h : s.Recursive) (hne : f ≠ s.cr3) {k : Nat}
    (hk : k < 1024) :
    (withTable s i f flags p).pde k = if k = i then tableEntry f flags else s.pde k := by
  have hapart := pages_apart hal h.aligned hne
  have hdir : Agree (write32 s.mem (s.cr3 + 4 * i) (tableEntry f flags))
      (withTable s i f flags p).mem s.cr3 (s.cr3 + 4096) :=
    fun x hlo hhi => Libc.memset_outside (by omega)
  show Machine.pde (withTable s i f flags p).mem s.cr3 k = _
  rw [pde_congr hdir hk]
  by_cases hki : k = i
  · rw [if_pos hki, hki]
    exact pde_write_self (tableEntry_spec hal hlt flags).1
  · rw [if_neg hki]
    exact pde_write_ne _ hki

/-- Making a table: one store into the directory, then the new table is cleared. -/
theorem createTable_withTable (h : s.Recursive) (hi : i < 1023) (hne : f ≠ s.cr3)
    (halloc : pmmAllocPage s.pmm = .ok (f, p)) :
    createTable s i flags 0xFFFFF000 = .ok (withTable s i f flags p) := by
  obtain ⟨he, hframe, hpe⟩ := tableEntry_spec hal hlt flags
  have hself : Machine.pde (write32 s.mem (s.cr3 + 4 * i) (tableEntry f flags)) s.cr3 i =
      tableEntry f flags := pde_write_self he
  have hslot : Machine.pde (write32 s.mem (s.cr3 + 4 * i) (tableEntry f flags)) s.cr3 1023 =
      Machine.pde s.mem s.cr3 1023 := pde_write_ne _ (by omega)
  have hrec : (State.mk p (write32 s.mem (s.cr3 + 4 * i) (tableEntry f flags)) s.cr3).Recursive :=
    ⟨h.aligned, h.bound, hslot ▸ h.present, hslot ▸ h.small, hslot ▸ h.self⟩
  have hclear := memset_table hrec (i := i) (by omega) (by rw [State.pde, hself]; exact hpe)
    (by rw [State.pde, hself, hframe]; exact hne)
  rw [State.pde, hself, hframe] at hclear
  have hstore := store_directory (s := { s with pmm := p }) (i := i) h (by omega)
    (tableEntry f flags)
  rw [createTable, halloc, ok_bind]
  simp only [tableEntry] at hstore
  simp only [hstore, ok_bind]
  exact hclear

end

/-- A store into a table leaves the directory alone. -/
theorem Sane.write_pde (h : Sane s) (hi : i < 1023) (hp : present (s.pde i) = true)
    (hj : j < 1024) (v : Nat) {k : Nat} (hk : k < 1024) :
    Machine.pde (write32 s.mem (frame (s.pde i) + 4 * j) v) s.cr3 k = s.pde k := by
  have hapart := pages_apart (frame_spec (s.pde_lt i)).1 h.recursive.aligned (h.apart i hi hp)
  exact pde_congr (fun x hlo hhi => table_write_outside hj v (by omega)) hk

/-- Storing an entry of a table leaves the directory alone; an entry of the last
table is one of the directory. -/
theorem store_pde (h : Sane s) (hi : i < 1024) (hp : present (s.pde i) = true) (hj : j < 1024)
    {v : Nat} (hv : v < 2 ^ 32) :
    ∃ t, store s (tableAddr i + 4 * j) v = .ok t ∧ t.pmm = s.pmm ∧ t.cr3 = s.cr3 ∧
      ∀ k, k < 1024 → t.pde k = if i = 1023 ∧ k = j then v else s.pde k := by
  refine ⟨_, store_entry h.recursive hi hp hj v, rfl, rfl, fun k hk => ?_⟩
  show Machine.pde (write32 s.mem (frame (s.pde i) + 4 * j) v) s.cr3 k = _
  by_cases hlast : i = 1023
  · subst hlast
    rw [show frame (s.pde 1023) = s.cr3 from h.recursive.self]
    by_cases hkj : k = j
    · rw [if_pos ⟨rfl, hkj⟩, hkj]
      exact pde_write_self hv
    · rw [if_neg (fun hand => hkj hand.2)]
      exact pde_write_ne v hkj
  · rw [if_neg (fun hand => hlast hand.1)]
    exact h.write_pde (by omega) hp hj v hk

/-! ## Looking up with `create` -/

section

variable {f : Nat} {p : Pmm.State}

theorem withTable_sane (h : Sane s) (hi : i < 1023) (hal : f % 4096 = 0) (hlt : f < 2 ^ 32)
    (hne : f ≠ s.cr3) (hmarks : Marks s.pmm p) : Sane (withTable s i f flags p) := by
  have hpde : ∀ {k : Nat}, k < 1024 → (withTable s i f flags p).pde k =
      if k = i then tableEntry f flags else s.pde k :=
    fun hk => withTable_pde hal hlt h.recursive hne hk
  have hslot : (withTable s i f flags p).pde 1023 = s.pde 1023 :=
    (hpde (by decide)).trans (if_neg (by omega))
  refine h.transfer rfl hslot (fun k hk hp => ?_) hmarks
  rw [hpde (by omega)] at hp ⊢
  by_cases hki : k = i
  · rw [if_pos hki, (tableEntry_spec hal hlt flags).2.1]
    exact hne
  · rw [if_neg hki] at hp ⊢
    exact h.apart k hk hp

theorem directoryIndex_ne_last (h : s.Recursive) (hlt : virt < 2 ^ 32)
    (hp : present (s.pde (directoryIndex virt)) = false) : directoryIndex virt < 1023 := by
  have hi := directoryIndex_lt' hlt
  have hne : directoryIndex virt ≠ 1023 := by
    intro heq
    rw [heq] at hp
    exact absurd (hp.symm.trans h.present) Bool.noConfusion
  omega

/-- A missing table is made in the frame that the allocator answers. -/
theorem getPage_withTable (h : Sane s) (hv : virt % 0x1000 = 0) (hlt : virt < 2 ^ 32)
    (hp : present (s.pde (directoryIndex virt)) = false)
    (halloc : pmmAllocPage s.pmm = .ok (f, p)) (hf : f = 0 ∨ taken s.pmm (f / 4096) = false) :
    pagingGetPage s virt true flags =
      .ok (tableAddr (directoryIndex virt) + 4 * tableIndex virt,
        withTable s (directoryIndex virt) f flags p) := by
  have hi := directoryIndex_ne_last h.recursive hlt hp
  have hne := h.frame_ne hf
  obtain ⟨hal, hsmall⟩ := pmmAllocPage_aligned halloc
  have hnew : createTable s (directoryIndex virt) flags 0xFFFFF000 =
      .ok (withTable s (directoryIndex virt) f flags p) :=
    createTable_withTable hal hsmall h.recursive hi hne halloc
  have hsane : Sane (withTable s (directoryIndex virt) f flags p) :=
    withTable_sane h hi hal hsmall hne (.pmmAllocPage halloc)
  refine getPage_create h.recursive hv (by omega) hp hnew hsane.recursive ?_
  rw [withTable_pde hal hsmall h.recursive hne (by omega), if_pos rfl]
  exact (tableEntry_spec hal hsmall flags).2.2

theorem getPage_error {e : Stop} (h : s.Recursive) (hv : virt % 0x1000 = 0) (hlt : virt < 2 ^ 32)
    (hp : present (s.pde (directoryIndex virt)) = false)
    (halloc : pmmAllocPage s.pmm = .error e) : pagingGetPage s virt true flags = .error e := by
  rw [pagingGetPage, pagingGetPageSelectDir, if_neg (not_not_intro hv)]
  simp only [bind, Except.bind, load_directory h (directoryIndex_lt' hlt), hp, Bool.not_false,
    Bool.and_self, if_true, createTable, halloc]

end

/-! ## One round -/

/-- A round of `paging_alloc_pages` that got frame `f`, as seen in the directory. -/
structure Entered (s t : State) (virt f : Nat) : Prop where
  cr3 : t.cr3 = s.cr3
  marks : Marks s.pmm t.pmm
  data : taken t.pmm (f / 4096) = true
  table : present (t.pde (directoryIndex virt)) = true
  same : ∀ k, k < 1024 → (k = directoryIndex virt → present (s.pde k) = true) →
    (directoryIndex virt = 1023 → k ≠ tableIndex virt) → t.pde k = s.pde k
  made : present (s.pde (directoryIndex virt)) = false →
    frame (t.pde (directoryIndex virt)) = 0 ∨
      (taken s.pmm (frame (t.pde (directoryIndex virt)) / 4096) = false ∧
        frame (t.pde (directoryIndex virt)) ≠ f ∧
        taken t.pmm (frame (t.pde (directoryIndex virt)) / 4096) = true)
  window : directoryIndex virt = 1023 → t.pde (tableIndex virt) = allocEntry f

section

variable {f g : Nat} {p q : Pmm.State}

theorem Marks.served {p q : Pmm.State} (h : Served p q f) : Marks p q :=
  ⟨fun _ hk => h.keeps hk, h.maxBlocks⟩

theorem allocPage_error {e : Stop} (halloc : pmmAllocPage s.pmm = .error e) :
    pagingAllocPage s virt = .error e := by
  rw [pagingAllocPage, halloc]
  rfl

theorem allocPage_zero (halloc : pmmAllocPage s.pmm = .ok (0, s.pmm)) :
    pagingAllocPage s virt = .ok (none, s) := by
  rw [pagingAllocPage, halloc]
  rfl

/-- Once the entry has an address, the round stores it. -/
theorem allocPage_store (hne : f ≠ 0) (halloc : pmmAllocPage s.pmm = .ok (f, p)) {a : Nat}
    {u : State} (hget : pagingGetPage { s with pmm := p } virt true (pageRw ||| pageUser) =
      .ok (a, u)) (hstore : store u a (allocEntry f) = .ok t) :
    pagingAllocPage s virt = .ok (some f, t) := by
  rw [pagingAllocPage, halloc, ok_bind]
  simp only [if_neg hne]
  rw [hget, ok_bind]
  simp only [allocEntry] at hstore
  simp only [hstore, ok_bind]
  rfl

theorem allocPage_getError {e : Stop} (hne : f ≠ 0) (halloc : pmmAllocPage s.pmm = .ok (f, p))
    (hget : pagingGetPage { s with pmm := p } virt true (pageRw ||| pageUser) = .error e) :
    pagingAllocPage s virt = .error e := by
  rw [pagingAllocPage, halloc, ok_bind]
  simp only [if_neg hne]
  rw [hget]
  rfl

theorem Sane.withPmm (h : Sane s) (hmarks : Marks s.pmm p) : Sane { s with pmm := p } :=
  h.transfer rfl rfl h.apart hmarks

/-- The round where the table is there. -/
theorem allocPage_hit (h : Sane s) (hv : virt % 0x1000 = 0) (hlt : virt < 2 ^ 32)
    (hp : present (s.pde (directoryIndex virt)) = true)
    (halloc : pmmAllocPage s.pmm = .ok (f, p)) (hserved : Served s.pmm p f) :
    ∃ t, pagingAllocPage s virt = .ok (some f, t) ∧ t.pmm = p ∧ Entered s t virt f := by
  have hi := directoryIndex_lt' hlt
  have hj := tableIndex_lt virt
  have hsane := h.withPmm (.served hserved)
  obtain ⟨he, -, hpe⟩ := allocEntry_spec hserved.aligned hserved.lt
  obtain ⟨t, hstore, hpmm, hcr3, hpde⟩ := store_pde hsane hi hp hj he
  refine ⟨t, allocPage_store hserved.pos halloc
    (getPage_present (s := { s with pmm := p }) h.recursive hv hi hp true) hstore, hpmm, hcr3,
    ?_, ?_, ?_, fun k hk _ hlast => ?_, fun habsent => ?_, fun hlast => ?_⟩
  · rw [hpmm]
    exact (.served hserved)
  · rw [hpmm]
    exact hserved.taken
  · rw [hpde _ hi]
    split
    · exact hpe
    · exact hp
  · rw [hpde k hk, if_neg (fun hand => hlast hand.1 hand.2)]
    rfl
  · rw [hp] at habsent
    simp at habsent
  · rw [hpde _ hj, if_pos ⟨hlast, rfl⟩]

/-- The round where the table is made. -/
theorem allocPage_miss (h : Sane s) (hv : virt % 0x1000 = 0) (hlt : virt < 2 ^ 32)
    (hp : present (s.pde (directoryIndex virt)) = false)
    (halloc : pmmAllocPage s.pmm = .ok (f, p)) (hserved : Served s.pmm p f)
    (htable : pmmAllocPage p = .ok (g, q)) (hg : (g = 0 ∧ q = p) ∨ Served p q g) :
    ∃ t, pagingAllocPage s virt = .ok (some f, t) ∧ t.pmm = q ∧ Entered s t virt f := by
  have hi := directoryIndex_ne_last h.recursive hlt hp
  have hj := tableIndex_lt virt
  have hsane := h.withPmm (.served hserved)
  have hclear : g = 0 ∨ taken p (g / 4096) = false := hg.imp (fun hz => hz.1) Served.clear
  have hmarks : Marks p q := .pmmAllocPage htable
  obtain ⟨hal, hsmall⟩ := pmmAllocPage_aligned htable
  obtain ⟨-, hframe, hpe⟩ := tableEntry_spec hal hsmall (pageRw ||| pageUser)
  have hne : g ≠ s.cr3 := hsane.frame_ne hclear
  have hget : pagingGetPage { s with pmm := p } virt true (pageRw ||| pageUser) = _ :=
    getPage_withTable hsane hv hlt hp htable hclear
  have hsane' : Sane (withTable { s with pmm := p } (directoryIndex virt) g
      (pageRw ||| pageUser) q) :=
    withTable_sane hsane hi hal hsmall hne hmarks
  have hpde' : ∀ {k : Nat}, k < 1024 →
      (withTable { s with pmm := p } (directoryIndex virt) g (pageRw ||| pageUser) q).pde k =
        if k = directoryIndex virt then tableEntry g (pageRw ||| pageUser) else s.pde k :=
    fun hk => withTable_pde hal hsmall hsane.recursive hne hk
  have hpmm' : (withTable { s with pmm := p } (directoryIndex virt) g (pageRw ||| pageUser) q).pmm =
      q := rfl
  have hcr3' : (withTable { s with pmm := p } (directoryIndex virt) g (pageRw ||| pageUser) q).cr3 =
      s.cr3 := rfl
  generalize withTable { s with pmm := p } (directoryIndex virt) g (pageRw ||| pageUser) q = u at *
  have hp' : present (u.pde (directoryIndex virt)) = true := by
    rw [hpde' (by omega), if_pos rfl]
    exact hpe
  obtain ⟨he, -, -⟩ := allocEntry_spec hserved.aligned hserved.lt
  obtain ⟨t, hstore, hpmm, hcr3, hpde⟩ := store_pde hsane' (by omega) hp' hj he
  have hdir : ∀ k, k < 1024 → t.pde k = u.pde k := fun k hk => by
    rw [hpde k hk, if_neg (fun hand => by omega)]
  have hnew : frame (t.pde (directoryIndex virt)) = g := by
    rw [hdir _ (by omega), hpde' (by omega), if_pos rfl, hframe]
  have hmarks' : Marks s.pmm t.pmm := by
    rw [hpmm, hpmm']
    exact (Marks.served hserved).trans hmarks
  refine ⟨t, allocPage_store hserved.pos halloc hget hstore, hpmm.trans hpmm', hcr3.trans hcr3',
    hmarks', ?_, ?_, fun k hk hsame _ => ?_, fun _ => ?_, fun hlast => by omega⟩
  · rw [hpmm, hpmm']
    exact hmarks.taken _ hserved.taken
  · rw [hdir _ (by omega)]
    exact hp'
  · have hki : k ≠ directoryIndex virt := by
      intro heq
      have hpk := hsame heq
      rw [heq, hp] at hpk
      simp at hpk
    rw [hdir k hk, hpde' hk, if_neg hki]
  · rw [hnew, hpmm, hpmm']
    cases hg with
    | inl hzero => exact Or.inl hzero.1
    | inr hg =>
      refine Or.inr ⟨?_, ?_, hg.taken⟩
      · -- a block that was clear after the first answer was clear before
        rw [← Bool.not_eq_true]
        intro htaken
        exact absurd ((hserved.keeps htaken).symm.trans hg.clear) Bool.noConfusion
      · intro heq
        have htaken := hserved.taken
        rw [← heq, hg.clear] at htaken
        simp at htaken

/-! ## What a round keeps -/

/-- The entries of the directory after a round: as before, or of frame 0, or of a
block that the round took. -/
theorem Entered.pde_cases (h : Entered s t virt f) (hserved : Served s.pmm p f) {k : Nat}
    (hk : k < 1024) :
    t.pde k = s.pde k ∨ frame (t.pde k) = 0 ∨
      (taken s.pmm (frame (t.pde k) / 4096) = false ∧
        taken t.pmm (frame (t.pde k) / 4096) = true ∧
        (directoryIndex virt ≠ 1023 → frame (t.pde k) ≠ f)) := by
  by_cases hlast : directoryIndex virt = 1023 ∧ k = tableIndex virt
  · right
    right
    obtain ⟨-, hframe, -⟩ := allocEntry_spec hserved.aligned hserved.lt
    rw [hlast.2, h.window hlast.1, hframe]
    exact ⟨hserved.clear, h.data, fun hne => absurd hlast.1 hne⟩
  · by_cases hmade : k = directoryIndex virt ∧ present (s.pde k) = false
    · obtain ⟨rfl, hp⟩ := hmade
      right
      exact (h.made hp).imp_right fun ⟨hclear, hne, htaken⟩ => ⟨hclear, htaken, fun _ => hne⟩
    · left
      refine h.same k hk (fun heq => ?_) fun hdir heq => hlast ⟨hdir, heq⟩
      rw [← Bool.not_eq_false]
      exact fun hp => hmade ⟨heq, hp⟩

/-- Below the page of the recursive entry itself a round keeps the directory sane. -/
theorem Entered.sane (h : Entered s t virt f) (hs : Sane s) (hserved : Served s.pmm p f)
    (hlt : virt < 0xFFFFF000) : Sane t := by
  have hnot : directoryIndex virt = 1023 → 1023 ≠ tableIndex virt := by
    rw [directoryIndex_eq, tableIndex_eq]
    omega
  have hslot : t.pde 1023 = s.pde 1023 :=
    h.same 1023 (by decide) (fun _ => hs.recursive.present) hnot
  refine hs.transfer h.cr3 hslot (fun k hk hp => ?_) h.marks
  rcases h.pde_cases hserved (show k < 1024 by omega) with hsame | hzero | ⟨hclear, -⟩
  · rw [hsame] at hp ⊢
    exact hs.apart k hk hp
  · exact hs.frame_ne (Or.inl hzero)
  · exact hs.frame_ne (Or.inr hclear)

/-- The blocks of the directory and of the tables are taken. -/
def Held (s : State) : Prop :=
  ∀ i, i < 1024 → present (s.pde i) = true → frame (s.pde i) ≠ 0 →
    taken s.pmm (frame (s.pde i) / 4096) = true

theorem Entered.held (h : Entered s t virt f) (hserved : Served s.pmm p f) (hheld : Held s) :
    Held t := by
  intro k hk hp hne
  rcases h.pde_cases hserved hk with hsame | hzero | ⟨-, htaken, -⟩
  · rw [hsame] at hp hne ⊢
    exact h.marks.taken _ (hheld k hk hp hne)
  · exact absurd hzero hne
  · exact htaken

/-- Frame `f` was taken for the page at `virt` and the change can be told: either no
entry of the directory names `f`, or `virt` lies in the window and reads as `f`. -/
structure Left (t : State) (virt f : Nat) : Prop where
  taken : Pmm.taken t.pmm (f / 4096) = true
  seen : (directoryIndex virt ≠ 1023 ∧ ∀ k, k < 1024 → present (t.pde k) = true →
      frame (t.pde k) ≠ f) ∨
    (directoryIndex virt = 1023 ∧ t.pde (tableIndex virt) = allocEntry f)

/-- The first round leaves its page behind. -/
theorem Entered.left (h : Entered s t virt f) (hserved : Served s.pmm p f) (hheld : Held s) :
    Left t virt f := by
  refine ⟨h.data, ?_⟩
  by_cases hlast : directoryIndex virt = 1023
  · exact Or.inr ⟨hlast, h.window hlast⟩
  · refine Or.inl ⟨hlast, fun k hk hp heq => ?_⟩
    rcases h.pde_cases hserved hk with hsame | hzero | ⟨-, -, hne⟩
    · rw [hsame] at hp heq
      have htaken := hheld k hk hp (by rw [heq]; exact hserved.pos)
      rw [heq, hserved.clear] at htaken
      simp at htaken
    · exact hserved.pos (heq.symm.trans hzero)
    · exact hne hlast heq

/-- And the rounds after it do not take it away. -/
theorem Entered.keep_left (h : Entered s t virt f) (hserved : Served s.pmm p f) {v e : Nat}
    (hleft : Left s v e) (he : e ≠ 0) (hlt : v < virt) (hvirt : virt < 0xFFFFF000)
    (hsep : v % 0x1000 = 0 ∧ virt % 0x1000 = 0) (hs : Sane s) : Left t v e := by
  refine ⟨h.marks.taken _ hleft.taken, ?_⟩
  cases hleft.seen with
  | inl hseen =>
    refine Or.inl ⟨hseen.1, fun k hk hp heq => ?_⟩
    rcases h.pde_cases hserved hk with hsame | hzero | ⟨hclear, -⟩
    · rw [hsame] at hp heq
      exact hseen.2 k hk hp heq
    · exact he (heq.symm.trans hzero)
    · rw [heq, hleft.taken] at hclear
      simp at hclear
  | inr hseen =>
    obtain ⟨hlast, hentry⟩ := hseen
    refine Or.inr ⟨hlast, ?_⟩
    have hdir : directoryIndex virt = 1023 := by
      rw [directoryIndex_eq] at hlast ⊢
      omega
    have hne : tableIndex v ≠ tableIndex virt := by
      rw [directoryIndex_eq] at hlast hdir
      rw [tableIndex_eq, tableIndex_eq]
      omega
    rw [h.same _ (tableIndex_lt v) (fun heq => ?_) (fun _ => hne)]
    · exact hentry
    · rw [heq, hdir]
      exact hs.recursive.present

end

/-! ## How many frames a range takes -/

/-- Page `l` of the range from `virt` on is the first one in a table that is missing. -/
def NeedsTable (s : State) (virt l : Nat) : Prop :=
  present (s.pde (directoryIndex (virt + 4096 * l))) = false ∧
    (l = 0 ∨ directoryIndex (virt + 4096 * (l - 1)) ≠ directoryIndex (virt + 4096 * l))

instance (s : State) (virt : Nat) : DecidablePred (NeedsTable s virt) :=
  fun _ => inferInstanceAs (Decidable (_ ∧ _))

/-- The frames that the first `n` pages take, their tables included. -/
def demand (s : State) (virt n : Nat) : Nat := n + Nat.count (NeedsTable s virt) n

theorem demand_zero (s : State) (virt : Nat) : demand s virt 0 = 0 := by
  rw [demand, Nat.count_zero]

theorem demand_hit {n : Nat} (h : ¬ NeedsTable s virt n) :
    demand s virt (n + 1) = demand s virt n + 1 := by
  rw [demand, demand, Nat.count_succ, if_neg h]
  omega

theorem demand_miss {n : Nat} (h : NeedsTable s virt n) :
    demand s virt (n + 1) = demand s virt n + 2 := by
  rw [demand, demand, Nat.count_succ, if_pos h]
  omega

/-- A page, and a table at most. -/
theorem demand_succ_le (s : State) (virt n : Nat) :
    demand s virt (n + 1) ≤ demand s virt n + 2 := by
  by_cases h : NeedsTable s virt n
  · rw [demand_miss h]
  · rw [demand_hit h]
    omega

theorem demand_lt_succ (s : State) (virt n : Nat) : demand s virt n < demand s virt (n + 1) := by
  by_cases h : NeedsTable s virt n
  · rw [demand_miss h]
    omega
  · rw [demand_hit h]
    omega

theorem demand_mono (s : State) (virt : Nat) {m n : Nat} (h : m ≤ n) :
    demand s virt m ≤ demand s virt n := by
  rw [demand, demand]
  exact Nat.add_le_add h (Nat.count_monotone _ h)

/-! ## The rounds -/

/-- After the first `i` rounds of a call in `s`.  The supply is what the rounds left of
it, and the counter of the allocator went down by the frames it really handed out. -/
structure Rounds (s : State) (virt i : Nat) (t : State) : Prop where
  sane : Sane t
  held : Held t
  marks : Marks s.pmm t.pmm
  tables : ∀ m, i ≤ m → directoryIndex (virt + 4096 * m) < 1023 →
    present (t.pde (directoryIndex (virt + 4096 * m))) =
      (present (s.pde (directoryIndex (virt + 4096 * m))) ||
        decide (0 < i ∧
          directoryIndex (virt + 4096 * (i - 1)) = directoryIndex (virt + 4096 * m)))
  supply : available t.pmm = available s.pmm - demand s virt i
  counter : pmmGetFreeBlocks t.pmm =
    pmmGetFreeBlocks s.pmm - min (demand s virt i) (available s.pmm)
  left : 0 < i → ∃ f, f ≠ 0 ∧ f % 4096 = 0 ∧ f < 2 ^ 32 ∧ taken s.pmm (f / 4096) = false ∧
    Left t virt f

theorem Rounds.zero (h : Sane s) (hheld : Held s) (virt : Nat) : Rounds s virt 0 s where
  sane := h
  held := hheld
  marks := .refl _
  tables := fun m _ _ => by simp
  supply := by rw [demand_zero, Nat.sub_zero]
  counter := by rw [demand_zero, Nat.zero_min, Nat.sub_zero]
  left := fun h => absurd h (Nat.lt_irrefl 0)

section

theorem round_address {virt i : Nat} (hfit : virt + 4096 * i ≤ 0xFFFFF000) :
    wrap (virt + i * 0x1000) = virt + 4096 * i := by
  rw [Nat.mul_comm, wrap_of_lt (by omega)]

variable (hs : Sane s) (hv : virt % 0x1000 = 0)
  (h : Rounds s virt i t) (hfit : virt + 4096 * i ≤ 0xFFFFF000)
include hs h hfit

/-- The table is missing in round `i` if it is missing at first and the page before is
not in it. -/
theorem Rounds.absent_iff :
    present (t.pde (directoryIndex (virt + 4096 * i))) = false ↔ NeedsTable s virt i := by
  by_cases hlast : directoryIndex (virt + 4096 * i) = 1023
  · rw [NeedsTable, hlast]
    have ht : present (t.pde 1023) = true := h.sane.recursive.present
    have hs' : present (s.pde 1023) = true := hs.recursive.present
    rw [ht, hs']
    simp
  · have hi := directoryIndex_lt' (show virt + 4096 * i < 2 ^ 32 by omega)
    rw [h.tables i (Nat.le_refl i) (by omega), NeedsTable, Bool.or_eq_false_iff,
      decide_eq_false_iff_not]
    refine and_congr_right fun _ => ?_
    constructor
    · intro hnot
      rcases Nat.eq_zero_or_pos i with hzero | hpos
      · exact Or.inl hzero
      · exact Or.inr fun heq => hnot ⟨hpos, heq⟩
    · rintro hor ⟨hpos, heq⟩
      cases hor with
      | inl hzero => omega
      | inr hne => exact hne heq

omit hs hfit in
/-- With the supply used up and the counter not at zero, the round gets no page. -/
theorem Rounds.round_none (hfew : available s.pmm ≤ demand s virt i)
    (hfree : available s.pmm < pmmGetFreeBlocks s.pmm) :
    pagingAllocPage t (wrap (virt + i * 0x1000)) = .ok (none, t) := by
  have hcount := h.counter
  have hsupply := h.supply
  exact allocPage_zero (pmmAllocPage_zero h.sane.maxBlocks (by omega) (by omega))

include hv

/-- The counter reaches zero in the round. -/
theorem Rounds.round_abort (hcap : pmmGetFreeBlocks s.pmm ≤ available s.pmm)
    (hi : demand s virt i ≤ pmmGetFreeBlocks s.pmm)
    (hnext : pmmGetFreeBlocks s.pmm < demand s virt (i + 1)) :
    pagingAllocPage t (wrap (virt + i * 0x1000)) = .error .abort := by
  have hcount := h.counter
  have hsupply := h.supply
  rw [round_address hfit]
  rcases pmmAllocPage_cases h.sane.maxBlocks with ⟨-, habort⟩ | ⟨hne, hzero, -⟩ |
    ⟨f, p, halloc, hserved⟩
  · exact allocPage_error habort
  · omega
  · have hone := hserved.free
    have hneeds : NeedsTable s virt i := by
      by_contra hno
      rw [demand_hit hno] at hnext
      omega
    have hp := (h.absent_iff hs hfit).mpr hneeds
    have hsane := h.sane.withPmm (.served hserved)
    refine allocPage_getError hserved.pos halloc ?_
    refine getPage_error hsane.recursive (by omega) (by omega) hp (pmmAllocPage_abort ?_)
    rw [demand_miss hneeds] at hnext
    show pmmGetFreeBlocks p = 0
    omega

omit hs hfit in
/-- A page entered in round `i` takes the run one round further. -/
theorem Rounds.next (hbelow : virt + 4096 * i < 0xFFFFF000) {f : Nat} {p : Pmm.State} {u : State}
    (hround : Entered t u (virt + 4096 * i) f) (hserved : Served t.pmm p f)
    (hsupply : available u.pmm = available s.pmm - demand s virt (i + 1))
    (hcounter : pmmGetFreeBlocks u.pmm =
      pmmGetFreeBlocks s.pmm - min (demand s virt (i + 1)) (available s.pmm)) :
    Rounds s virt (i + 1) u := by
  refine ⟨hround.sane h.sane hserved hbelow, hround.held hserved h.held,
    h.marks.trans hround.marks, fun m hm hdir => ?_, hsupply, hcounter, fun _ => ?_⟩
  · have hle : directoryIndex (virt + 4096 * i) ≤ directoryIndex (virt + 4096 * m) := by
      rw [directoryIndex_eq, directoryIndex_eq]
      omega
    rw [Nat.add_sub_cancel]
    by_cases hsame : directoryIndex (virt + 4096 * i) = directoryIndex (virt + 4096 * m)
    · rw [← hsame, hround.table]
      simp
    · -- the page before is in an earlier table still
      have hbefore : ¬ (0 < i ∧ directoryIndex (virt + 4096 * (i - 1)) =
          directoryIndex (virt + 4096 * m)) := by
        rw [directoryIndex_eq, directoryIndex_eq] at hsame hle ⊢
        omega
      rw [hround.same _ (by omega) (fun heq => absurd heq.symm hsame) (fun hlast => by omega),
        h.tables m (by omega) hdir]
      simp [hbefore, hsame]
  · rcases Nat.eq_zero_or_pos i with hzero | hpos
    · subst hzero
      have hleft := hround.left hserved h.held
      rw [Nat.mul_zero, Nat.add_zero] at hleft
      refine ⟨f, hserved.pos, hserved.aligned, hserved.lt, ?_, hleft⟩
      rw [← Bool.not_eq_true]
      exact fun htaken => absurd ((h.marks.taken _ htaken).symm.trans hserved.clear)
        Bool.noConfusion
    · obtain ⟨e, hne, hal, hsmall, hclear, hleft⟩ := h.left hpos
      exact ⟨e, hne, hal, hsmall, hclear, hround.keep_left hserved hleft hne (by omega) hbelow
        ⟨hv, by omega⟩ h.sane⟩

omit hfit in
/-- With supply and counter left, the round enters a page. -/
theorem Rounds.round_some (hbelow : virt + 4096 * i < 0xFFFFF000)
    (hsome : demand s virt i < available s.pmm)
    (hfree : available s.pmm < pmmGetFreeBlocks s.pmm ∨
      demand s virt (i + 1) ≤ pmmGetFreeBlocks s.pmm) :
    ∃ f u, pagingAllocPage t (wrap (virt + i * 0x1000)) = .ok (some f, u) ∧
      Rounds s virt (i + 1) u := by
  have hcount := h.counter
  have hsupply := h.supply
  have hgrow := demand_lt_succ s virt i
  rw [round_address (by omega)]
  obtain ⟨f, p, halloc, hserved⟩ := pmmAllocPage_served h.sane.maxBlocks
    (show pmmGetFreeBlocks t.pmm ≠ 0 by omega) (show available t.pmm ≠ 0 by omega)
  have hone := hserved.free
  have hone' := hserved.available
  by_cases hneeds : NeedsTable s virt i
  · have hp := (h.absent_iff hs (by omega)).mpr hneeds
    have hdemand := demand_miss hneeds
    have hmax : p.maxBlocks ≤ 2 ^ 20 := hserved.maxBlocks.trans_le h.sane.maxBlocks
    rcases pmmAllocPage_cases hmax with ⟨hzero, -⟩ | ⟨-, hzero, htable⟩ | ⟨g, q, htable, hserved'⟩
    · omega
    · -- no frame is left for the table, so it is made of frame 0
      obtain ⟨u, hrun, hpmm, hround⟩ := allocPage_miss h.sane (by omega) (by omega) hp halloc
        hserved htable (Or.inl ⟨rfl, rfl⟩)
      refine ⟨f, u, hrun, h.next hv hbelow hround hserved ?_ ?_⟩
      · rw [hpmm]
        omega
      · rw [hpmm]
        omega
    · have htwo := hserved'.free
      have htwo' := hserved'.available
      obtain ⟨u, hrun, hpmm, hround⟩ := allocPage_miss h.sane (by omega) (by omega) hp halloc
        hserved htable (Or.inr hserved')
      refine ⟨f, u, hrun, h.next hv hbelow hround hserved ?_ ?_⟩
      · rw [hpmm]
        omega
      · rw [hpmm]
        omega
  · have hp : present (t.pde (directoryIndex (virt + 4096 * i))) = true := by
      rw [← Bool.not_eq_false]
      exact fun hp => hneeds ((h.absent_iff hs (by omega)).mp hp)
    have hdemand := demand_hit hneeds
    obtain ⟨u, hrun, hpmm, hround⟩ := allocPage_hit h.sane (by omega) (by omega) hp halloc hserved
    refine ⟨f, u, hrun, h.next hv hbelow hround hserved ?_ ?_⟩
    · rw [hpmm]
      omega
    · rw [hpmm]
      omega

end

/-! ## The loop -/

section

variable (hs : Sane s) (hv : virt % 0x1000 = 0)
include hs hv

/-- The first `k` rounds, when supply and counter last so long. -/
theorem allocLoop_rounds {k : Nat} (h : Rounds s virt i t)
    (hfit : virt + 4096 * (i + k) ≤ 0xFFFFF000)
    (hlast : ∀ l, i ≤ l → l < i + k → demand s virt l < available s.pmm ∧
      (available s.pmm < pmmGetFreeBlocks s.pmm ∨
        demand s virt (l + 1) ≤ pmmGetFreeBlocks s.pmm)) :
    ∃ u, Rounds s virt (i + k) u ∧
      ∀ rest, allocLoop t virt i (k + rest) = allocLoop u virt (i + k) rest := by
  induction k generalizing i t with
  | zero => exact ⟨t, h, fun rest => by rw [Nat.zero_add, Nat.add_zero]⟩
  | succ k ih =>
    obtain ⟨hsome, hfree⟩ := hlast i (Nat.le_refl i) (by omega)
    obtain ⟨f, u, hrun, hnext⟩ := h.round_some hs hv (by omega) hsome hfree
    obtain ⟨w, hw, hrest⟩ := ih hnext (by omega) fun l hl hl' => hlast l (by omega) (by omega)
    refine ⟨w, by rwa [Nat.add_right_comm] at hw, fun rest => ?_⟩
    rw [Nat.add_right_comm k 1 rest, allocLoop, hrun, ok_bind]
    dsimp only
    rw [hrest, Nat.add_right_comm i 1 k, Nat.add_assoc]

end

/-- The frames run out after the first page and before the last. -/
def RunsOut (s : State) (virt n : Nat) : Prop :=
  0 < available s.pmm ∧ available s.pmm < pmmGetFreeBlocks s.pmm ∧
    available s.pmm ≤ demand s virt (n - 1)

/-- The frames and the counter are enough for all pages. -/
def Suffices (s : State) (virt n : Nat) : Prop :=
  (available s.pmm < pmmGetFreeBlocks s.pmm ∧ demand s virt (n - 1) < available s.pmm) ∨
    (pmmGetFreeBlocks s.pmm ≤ available s.pmm ∧ demand s virt n ≤ pmmGetFreeBlocks s.pmm)

section

variable {n : Nat} (hs : Sane s) (hheld : Held s) (hv : virt % 0x1000 = 0)
include hs hheld hv

/-- A call whose frames run out on the way returns null, with pages entered. -/
theorem allocPages_runsOut {m : Nat} (hfit : virt + m * 0x1000 ≤ 2 ^ 32)
    (hout : RunsOut s virt m) (hmn : m ≤ n) :
    ∃ l u, 0 < l ∧ Rounds s virt l u ∧ pagingAllocPages s virt n = .ok (0, u) := by
  classical
  obtain ⟨hpos, hfree, hfew⟩ := hout
  have hex : ∃ l, available s.pmm ≤ demand s virt l := ⟨m - 1, hfew⟩
  have hfirst := Nat.find_spec hex
  have hmin := fun {l : Nat} (hl : l < Nat.find hex) => Nat.lt_of_not_le (Nat.find_min hex hl)
  have hle : Nat.find hex ≤ m - 1 := Nat.find_min' hex hfew
  have hzero : 0 < Nat.find hex := by
    rw [Nat.pos_iff_ne_zero]
    intro hzero
    rw [hzero, demand_zero] at hfirst
    omega
  have hm : 0 < m := by omega
  generalize Nat.find hex = l at *
  obtain ⟨u, hu, hrest⟩ := allocLoop_rounds (k := l) hs hv (.zero hs hheld virt) (by omega)
    fun l' _ hl' => ⟨hmin (by omega), Or.inl hfree⟩
  rw [Nat.zero_add] at hu hrest
  refine ⟨l, u, hzero, hu, ?_⟩
  have hrun := hrest (n - l - 1 + 1)
  rw [show l + (n - l - 1 + 1) = n by omega] at hrun
  rw [pagingAllocPages, hrun, allocLoop, hu.round_none hfirst hfree, ok_bind]
  rfl

omit hs hheld hv in
/-- What is enough for all pages is enough in every round. -/
theorem Suffices.round (hall : Suffices s virt n) {l : Nat} (hl : l < n) :
    demand s virt l < available s.pmm ∧
      (available s.pmm < pmmGetFreeBlocks s.pmm ∨
        demand s virt (l + 1) ≤ pmmGetFreeBlocks s.pmm) := by
  have hgrow := demand_lt_succ s virt l
  have hlast := demand_mono s virt (show l ≤ n - 1 by omega)
  have hend := demand_mono s virt (show l + 1 ≤ n by omega)
  rcases hall with ⟨hfree, hmore⟩ | ⟨hcap, hmore⟩
  · exact ⟨by omega, Or.inl hfree⟩
  · exact ⟨by omega, Or.inr (by omega)⟩

/-- A call with enough of both returns its argument, with all pages entered. -/
theorem allocPages_suffices (hfit : virt + n * 0x1000 ≤ 0xFFFFF000) (hall : Suffices s virt n) :
    ∃ u, Rounds s virt n u ∧ pagingAllocPages s virt n = .ok (virt, u) := by
  obtain ⟨u, hu, hrest⟩ := allocLoop_rounds (k := n) hs hv (.zero hs hheld virt) (by omega)
    fun l _ hl => hall.round (by omega)
  rw [Nat.zero_add] at hu hrest
  exact ⟨u, hu, hrest 0⟩

/-- The last page of the address space is the entry that shows the directory; it is
replaced like any other. -/
theorem allocPages_last (hfit : virt + n * 0x1000 = 2 ^ 32) (hn : 0 < n)
    (hall : Suffices s virt n) : ∃ u, pagingAllocPages s virt n = .ok (virt, u) := by
  obtain ⟨m, rfl⟩ := Nat.exists_eq_succ_of_ne_zero (Nat.ne_of_gt hn)
  obtain ⟨u, hu, hrest⟩ := allocLoop_rounds (k := m) hs hv (.zero hs hheld virt) (by omega)
    fun l _ hl => hall.round (by omega)
  rw [Nat.zero_add] at hu hrest
  obtain ⟨hsome, hfree⟩ := hall.round (Nat.lt_succ_self m)
  have hcount := hu.counter
  have hsupply := hu.supply
  have hgrow := demand_lt_succ s virt m
  have hlast : directoryIndex (virt + 4096 * m) = 1023 := by
    rw [directoryIndex_eq]
    omega
  obtain ⟨f, p, halloc, hserved⟩ := pmmAllocPage_served hu.sane.maxBlocks
    (show pmmGetFreeBlocks u.pmm ≠ 0 by omega) (show available u.pmm ≠ 0 by omega)
  have hpresent : present (u.pde (directoryIndex (virt + 4096 * m))) = true := by
    rw [hlast]
    exact hu.sane.recursive.present
  obtain ⟨w, hrun, -⟩ := allocPage_hit hu.sane (by omega) (by omega) hpresent halloc hserved
  refine ⟨w, (hrest 1).trans ?_⟩
  rw [allocLoop, round_address (by omega), hrun]
  rfl

/-- A call that the counter cannot serve aborts. -/
theorem allocPages_aborts {m : Nat} (hfit : virt + m * 0x1000 ≤ 2 ^ 32)
    (hcap : pmmGetFreeBlocks s.pmm ≤ available s.pmm)
    (hmore : pmmGetFreeBlocks s.pmm < demand s virt m) (hmn : m ≤ n) :
    pagingAllocPages s virt n = .error .abort := by
  classical
  have hm : 0 < m := by
    rw [Nat.pos_iff_ne_zero]
    intro hzero
    rw [hzero, demand_zero] at hmore
    omega
  have hex : ∃ l, pmmGetFreeBlocks s.pmm < demand s virt (l + 1) :=
    ⟨m - 1, by rwa [Nat.sub_add_cancel hm]⟩
  have hfirst := Nat.find_spec hex
  have hmin := fun {l : Nat} (hl : l < Nat.find hex) => Nat.le_of_not_lt (Nat.find_min hex hl)
  have hle : Nat.find hex ≤ m - 1 := Nat.find_min' hex (by rwa [Nat.sub_add_cancel hm])
  generalize Nat.find hex = l at *
  have hlast : demand s virt l ≤ pmmGetFreeBlocks s.pmm := by
    cases l with
    | zero =>
      rw [demand_zero]
      exact Nat.zero_le _
    | succ l => exact hmin (Nat.lt_succ_self l)
  obtain ⟨u, hu, hrest⟩ := allocLoop_rounds (k := l) hs hv (.zero hs hheld virt) (by omega)
    (by
      intro l' _ hl'
      have hgrow := demand_lt_succ s virt l'
      have hle' := hmin (show l' < l by omega)
      exact ⟨by omega, Or.inr hle'⟩)
  rw [Nat.zero_add] at hu hrest
  have hrun := hrest (n - l - 1 + 1)
  rw [show l + (n - l - 1 + 1) = n by omega] at hrun
  rw [pagingAllocPages, hrun, allocLoop, hu.round_abort hs hv (by omega) hcap hlast hfirst]
  rfl

end

end Paging
end Medusa
