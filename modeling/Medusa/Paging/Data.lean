import Medusa.Paging.AllOrNothing

/-!
# Data behind the page tables

A byte of physical memory is data if its block is taken and holds neither the
directory nor a table.  Stores into data leave translation alone, and a page that is
allocated leaves data alone: its entry lies in a table, and the frames that are given
out were free.

Addresses that are mapped to data, each to a byte of its own, are flat memory for the
code that uses them.  `view` is that memory.
-/

namespace Medusa
namespace Paging

open Machine Kernel Pmm

structure IsData (s : State) (x : Nat) : Prop where
  pos : x / 4096 ≠ 0
  taken : Pmm.taken s.pmm (x / 4096) = true
  unused : s.Unused (x / 4096 * 4096)

/-- The allocator and all that translation reads are the same in both states. -/
structure SameTables (s t : State) : Prop where
  cr3 : t.cr3 = s.cr3
  pmm : t.pmm = s.pmm
  pde : ∀ i, i < 1024 → t.pde i = s.pde i
  pte : ∀ i j, i < 1024 → j < 1024 → present (s.pde i) = true → t.pte i j = s.pte i j

variable {s t u : State} {i x v p virt flags : Nat}

theorem IsData.apart (h : IsData s x) (hi : i < 1024) (hp : present (s.pde i) = true) :
    x < frame (s.pde i) ∨ frame (s.pde i) + 4096 ≤ x := by
  have hmod := (frame_spec (s.pde_lt i)).1
  have hne := h.unused i hi hp
  change frame (s.pde i) ≠ _ at hne
  omega

/-! ## States with the same tables -/

namespace SameTables

theorem refl (s : State) : SameTables s s := ⟨rfl, rfl, fun _ _ => rfl, fun _ _ _ _ _ => rfl⟩

theorem trans (h : SameTables s t) (h' : SameTables t u) : SameTables s u where
  cr3 := h'.cr3.trans h.cr3
  pmm := h'.pmm.trans h.pmm
  pde := fun i hi => (h'.pde i hi).trans (h.pde i hi)
  pte := by
    intro i j hi hj hp
    have hp' : present (t.pde i) = true := by
      rw [h.pde i hi]
      exact hp
    exact (h'.pte i j hi hj hp').trans (h.pte i j hi hj hp)

theorem translate (h : SameTables s t) (hlt : v < 2 ^ 32) : t.translate v = s.translate v := by
  have hi := directoryIndex_lt' hlt
  rw [State.translate_eq, State.translate_eq, h.pde _ hi]
  cases hp : present (s.pde (directoryIndex v)) with
  | false => rfl
  | true => rw [h.pte _ _ hi (tableIndex_lt v) hp]

theorem isData_iff (h : SameTables s t) : IsData t x ↔ IsData s x := by
  have hunused : t.Unused (x / 4096 * 4096) ↔ s.Unused (x / 4096 * 4096) := by
    refine forall_congr' fun i => forall_congr' fun hi => ?_
    rw [show Machine.pde t.mem t.cr3 i = Machine.pde s.mem s.cr3 i from h.pde i hi]
  constructor
  · intro hd
    exact ⟨hd.pos, h.pmm ▸ hd.taken, hunused.mp hd.unused⟩
  · intro hd
    exact ⟨hd.pos, h.pmm ▸ hd.taken, hunused.mpr hd.unused⟩

theorem ready (h : SameTables s t) (hs : s.Ready) : t.Ready := by
  have hslot : Machine.pde t.mem t.cr3 1023 = Machine.pde s.mem s.cr3 1023 := h.pde 1023 (by decide)
  refine ⟨⟨h.cr3 ▸ hs.aligned, h.cr3 ▸ hs.bound, hslot ▸ hs.present, hslot ▸ hs.small, ?_⟩, ?_⟩
  · rw [hslot, h.cr3]
    exact hs.self
  · intro i j hi hj hne hpi hpj
    have hpde : ∀ {k : Nat}, k < 1024 → Machine.pde t.mem t.cr3 k = Machine.pde s.mem s.cr3 k :=
      fun hk => h.pde _ hk
    rw [hpde hi] at hpi ⊢
    rw [hpde hj] at hpj ⊢
    exact hs.distinct i j hi hj hne hpi hpj

end SameTables

/-- Memory that differs in data only has the same tables. -/
theorem sameTables_of_data (hs : s.Recursive) {m : Mem}
    (hm : ∀ x, m x = s.mem x ∨ IsData s x) : SameTables s { s with mem := m } := by
  have htable : ∀ i, i < 1024 → present (s.pde i) = true →
      Agree s.mem m (frame (s.pde i)) (frame (s.pde i) + 4096) := by
    intro i hi hp x hlo hhi
    refine (hm x).resolve_right fun hd => ?_
    have hapart := hd.apart hi hp
    omega
  have hdir : Agree s.mem m s.cr3 (s.cr3 + 4096) := by
    have hself : frame (s.pde 1023) = s.cr3 := hs.self
    have hlast := htable 1023 (by decide) hs.present
    rwa [hself] at hlast
  have hpde : ∀ i, i < 1024 → Machine.pde m s.cr3 i = s.pde i := fun i hi => pde_congr hdir hi
  refine ⟨rfl, rfl, hpde, fun i j hi hj hp => ?_⟩
  show Machine.pte m s.cr3 i j = _
  rw [Machine.pte, hpde i hi]
  exact read32_congr ((htable i hi hp).mono (by omega) (by omega))

theorem storeByte_data (hs : s.Recursive) (hv : s.translate v = some p) (hp : IsData s p)
    (b : BitVec 8) :
    storeByte s v b = .ok { s with mem := Function.update s.mem p b } ∧
      SameTables s { s with mem := Function.update s.mem p b } := by
  change Machine.translate s.mem s.cr3 v = some p at hv
  refine ⟨by rw [storeByte, hv], sameTables_of_data hs fun x => ?_⟩
  by_cases hx : x = p
  · exact Or.inr (hx ▸ hp)
  · exact Or.inl (Function.update_of_ne hx _ _)

/-! ## Allocating a page -/

/-- A new table does not touch data: its frame was free, or is frame 0. -/
theorem withTable_data (hs : Sane s) (hi : i < 1023) {f : Nat} {q : Pmm.State}
    (hal : f % 4096 = 0) (hf : f = 0 ∨ taken s.pmm (f / 4096) = false) (hx : IsData s x) :
    (withTable s i f flags q).mem x = s.mem x ∧ (x < f ∨ f + 4096 ≤ x) := by
  have hself : frame (s.pde 1023) = s.cr3 := hs.recursive.self
  have hdir := hx.apart (by decide) hs.recursive.present
  have hpos := hx.pos
  rw [hself] at hdir
  have hfar : x < f ∨ f + 4096 ≤ x := by
    by_cases hblock : f / 4096 = x / 4096
    · rcases hf with rfl | hclear
      · omega
      · rw [hblock, hx.taken] at hclear
        simp at hclear
    · omega
  refine ⟨?_, hfar⟩
  rw [withTable]
  exact (Libc.memset_outside hfar).trans (write32_outside (by omega))

theorem getPage_data (hs : Sane s) (hlt : virt < 0xFFC00000) {a : Nat}
    (hget : pagingGetPage s virt true flags = .ok (a, t)) (hx : IsData s x) :
    t.mem x = s.mem x ∧ (x < frame (t.pde (directoryIndex virt)) ∨
      frame (t.pde (directoryIndex virt)) + 4096 ≤ x) := by
  have hi := directoryIndex_lt hlt
  obtain ⟨-, ⟨hp, rfl⟩ | ⟨f, q, halloc, hserved, rfl⟩⟩ := getPage_cases hs hlt hget
  · exact ⟨rfl, hx.apart (by omega) hp⟩
  · have hf := hserved.imp_right Served.clear
    obtain ⟨hal, hsmall⟩ := pmmAllocPage_aligned halloc
    rw [withTable_pde hal hsmall hs.recursive (hs.frame_ne hf) (by omega), if_pos rfl,
      (tableEntry_spec hal hsmall flags).2.1]
    exact withTable_data hs hi hal hf hx

/-- A round of `paging_alloc_pages` leaves data as it is. -/
theorem allocPage_data (hs : Sane s) (hheld : Held s) (hlt : virt < 0xFFC00000) {r : Option Nat}
    (hrun : pagingAllocPage s virt = .ok (r, t)) (hx : IsData s x) : t.mem x = s.mem x := by
  obtain ⟨⟨page, q⟩, halloc, hrun⟩ := bind_eq_ok hrun
  have hmarks : Marks s.pmm q := .pmmAllocPage halloc
  by_cases hpage : page = 0
  · simp only [if_pos hpage] at hrun
    rw [← (Prod.mk.inj (Except.ok.inj hrun)).2]
  · simp only [if_neg hpage] at hrun
    obtain ⟨⟨a, u⟩, hget, hrun⟩ := bind_eq_ok hrun
    obtain ⟨u', hstore, hrun⟩ := bind_eq_ok hrun
    obtain ⟨hsane, hheld'⟩ := held_congr (t := { s with pmm := q }) hs hheld rfl (fun _ _ => rfl)
      hmarks
    obtain ⟨hu, -, hp, ha⟩ := getPage_held hsane hheld' hlt hget
    have hx' : IsData { s with pmm := q } x := ⟨hx.pos, hmarks.taken _ hx.taken, hx.unused⟩
    obtain ⟨hmem, hfar⟩ := getPage_data hsane hlt hget hx'
    have hi := directoryIndex_lt hlt
    simp only [ha] at hstore
    rw [store_entry hu.recursive (by omega) hp (tableIndex_lt virt)] at hstore
    rw [← (Prod.mk.inj (Except.ok.inj hrun)).2, ← Except.ok.inj hstore]
    exact (table_write_outside (tableIndex_lt virt) _ hfar).trans hmem

/-! ## Flat memory -/

/-- Memory as the code sees it; an address that is not mapped reads as 0 here. -/
def view (s : State) : Mem := fun v =>
  match s.translate v with
  | some p => s.mem p
  | none => 0#8

/-- The addresses of `R` are mapped to data, each to a byte of its own. -/
structure OwnData (s : State) (R : Set Nat) : Prop where
  mapped : ∀ v ∈ R, v < 2 ^ 32 ∧ ∃ p, s.translate v = some p ∧ IsData s p
  apart : ∀ v ∈ R, ∀ w ∈ R, v ≠ w → s.translate v ≠ s.translate w

theorem view_eq (hv : s.translate v = some p) : view s v = s.mem p := by
  rw [view, hv]

/-- The bytes of an aligned word lie together. -/
theorem translate_word (hal : v % 4 = 0) {o : Nat} (ho : o < 4) (hv : s.translate v = some p) :
    s.translate (v + o) = some (p + o) := by
  have hpage : (v + o) / 4096 = v / 4096 := by omega
  have hlow : (v + o) % 2 ^ 12 = v % 2 ^ 12 + o := by omega
  have hlarge : (v + o) % 2 ^ 22 = v % 2 ^ 22 + o := by omega
  rw [State.translate_leaf] at hv
  rw [State.translate_leaf, hpage]
  obtain ⟨l, hl, rfl⟩ := Option.map_eq_some_iff.mp hv
  rw [hl, Option.map_some]
  cases l with
  | page entry => rw [Leaf.address, Leaf.address, hlow, Nat.add_assoc]
  | largePage entry => rw [Leaf.address, Leaf.address, hlarge, Nat.add_assoc]

theorem load_view (hal : v % 4 = 0) (hv : s.translate v = some p) :
    load s v = .ok (read32 (view s) v) := by
  have hbyte : ∀ o, o < 4 → view s (v + o) = s.mem (p + o) :=
    fun o ho => view_eq (translate_word hal ho hv)
  have hword : read32 (view s) v = read32 s.mem p := by
    have h0 := hbyte 0 (by decide)
    rw [Nat.add_zero, Nat.add_zero] at h0
    rw [read32, read32, h0, hbyte 1 (by decide), hbyte 2 (by decide), hbyte 3 (by decide)]
  change Machine.translate s.mem s.cr3 v = some p at hv
  rw [load, hv, hword]

namespace OwnData

variable {R R' : Set Nat}

theorem union (h : OwnData s R) (h' : OwnData s R')
    (hcross : ∀ v ∈ R, ∀ w ∈ R', s.translate v ≠ s.translate w) : OwnData s (R ∪ R') where
  mapped := by
    rintro v (hv | hv)
    · exact h.mapped v hv
    · exact h'.mapped v hv
  apart := by
    rintro v (hv | hv) w (hw | hw) hne
    · exact h.apart v hv w hw hne
    · exact hcross v hv w hw
    · exact (hcross w hw v hv).symm
    · exact h'.apart v hv w hw hne

theorem congr (h : OwnData s R) (ht : SameTables s t) : OwnData t R where
  mapped := by
    intro v hv
    obtain ⟨hlt, p, htrans, hp⟩ := h.mapped v hv
    exact ⟨hlt, p, (ht.translate hlt).trans htrans, ht.isData_iff.mpr hp⟩
  apart := by
    intro v hv w hw hne
    rw [ht.translate (h.mapped v hv).1, ht.translate (h.mapped w hw).1]
    exact h.apart v hv w hw hne

/-- Storing bytes at the addresses of `R` is storing them in flat memory. -/
theorem view_update (h : OwnData s R) {m : Mem}
    (ht : SameTables s { s with mem := m }) {f : Mem}
    (hin : ∀ v ∈ R, ∀ p, s.translate v = some p → m p = f v) :
    ∀ v ∈ R, view { s with mem := m } v = f v := by
  intro v hv
  obtain ⟨hlt, p, htrans, -⟩ := h.mapped v hv
  rw [view_eq ((ht.translate hlt).trans htrans)]
  exact hin v hv p htrans

theorem storeByte (h : OwnData s R) (hs : s.Recursive) (hv : v ∈ R) (b : BitVec 8) :
    ∃ t, Paging.storeByte s v b = .ok t ∧ SameTables s t ∧
      ∀ w ∈ R, view t w = Function.update (view s) v b w := by
  obtain ⟨-, p, htrans, hp⟩ := h.mapped v hv
  obtain ⟨hrun, hsame⟩ := storeByte_data hs htrans hp b
  refine ⟨_, hrun, hsame, h.view_update hsame fun w hw q hq => ?_⟩
  by_cases hwv : w = v
  · rw [hwv, htrans] at hq
    rw [hwv, Function.update_self, ← Option.some.inj hq, Function.update_self]
  · have hne : q ≠ p := by
      rintro rfl
      exact h.apart w hw v hv hwv (hq.trans htrans.symm)
    rw [Function.update_of_ne hwv, Function.update_of_ne hne, view_eq hq]

theorem store (h : OwnData s R) (hs : s.Recursive) (hal : v % 4 = 0)
    (hv : ∀ o, o < 4 → v + o ∈ R) (n : Nat) :
    ∃ t, Paging.store s v n = .ok t ∧ SameTables s t ∧
      ∀ w ∈ R, view t w = write32 (view s) v n w := by
  obtain ⟨-, p, htrans, hp⟩ := h.mapped v (hv 0 (by decide))
  have hbyte : ∀ o, o < 4 → s.translate (v + o) = some (p + o) ∧ IsData s (p + o) := by
    intro o ho
    obtain ⟨-, q, hq, hdata⟩ := h.mapped (v + o) (hv o ho)
    have htrans' := translate_word hal ho htrans
    obtain rfl := Option.some.inj (hq.symm.trans htrans')
    exact ⟨htrans', hdata⟩
  have hrun : Paging.store s v n = .ok { s with mem := write32 s.mem p n } := by
    change Machine.translate s.mem s.cr3 v = some p at htrans
    rw [Paging.store, htrans]
  have hsame : SameTables s { s with mem := write32 s.mem p n } := by
    refine sameTables_of_data hs fun x => ?_
    by_cases hx : x < p ∨ p + 4 ≤ x
    · exact Or.inl (write32_outside hx)
    · obtain ⟨o, rfl⟩ := Nat.exists_eq_add_of_le (show p ≤ x by omega)
      exact Or.inr (hbyte o (by omega)).2
  refine ⟨_, hrun, hsame, h.view_update hsame fun w hw q hq => ?_⟩
  by_cases hw' : w < v ∨ v + 4 ≤ w
  · have hq' : q < p ∨ p + 4 ≤ q := by
      by_contra hin
      obtain ⟨o, rfl⟩ := Nat.exists_eq_add_of_le (show p ≤ q by omega)
      refine h.apart w hw (v + o) (hv o (by omega)) (by omega) ?_
      rw [hq, (hbyte o (by omega)).1]
    rw [write32_outside hw', write32_outside hq', view_eq hq]
  · obtain ⟨o, rfl⟩ := Nat.exists_eq_add_of_le (show v ≤ w by omega)
    rw [(hbyte o (by omega)).1] at hq
    rw [← Option.some.inj hq]
    exact write32_offset s.mem (view s) p v n (by omega)

end OwnData

end Paging
end Medusa
