import Mathlib.Order.Interval.Set.Basic
import Medusa.Paging.Tables

/-!
# Mapping a range

`paging_map_pages` edits exactly the entries of its range.  Tables are made on
the way; `SuppliedRange` says that each comes from a frame that holds neither the
directory nor a table when it is taken.
-/

namespace Medusa
namespace Paging

open Machine Kernel Pmm

/-- The page of `virt` has an entry marked present. -/
def Mapped (s : State) (virt : Nat) : Prop :=
  present (s.pde (directoryIndex virt)) = true ∧
    present (s.pte (directoryIndex virt) (tableIndex virt)) = true

/-- If the table for `virt` is missing, the allocator has an unused frame for it. -/
def Supplied (s : State) (virt : Nat) : Prop :=
  present (s.pde (directoryIndex virt)) = false →
    ∃ f p, pmmAllocPage s.pmm = .ok (f, p) ∧ s.Unused f

/-- `Supplied` at every page of a call of `paging_map_pages`, when its turn comes. -/
def SuppliedRange (s : State) (virt phys : Nat) : Nat → Nat → Prop
  | 0, _ => True
  | num + 1, flags =>
    Supplied s virt ∧ ∀ t, pagingMapPage s virt phys flags = .ok t →
      SuppliedRange t (wrap (virt + 0x1000)) (wrap (phys + 0x1000)) num flags

variable {s t : State} {virt phys num flags : Nat}

/-- The number of the page an entry is for. -/
theorem index_page (v : Nat) : 1024 * directoryIndex v + tableIndex v = v / 4096 := by
  rw [directoryIndex_eq, tableIndex_eq]
  omega

/-! ## One page -/

/-- Looking a page up with `create` finds its entry, in a new blank table if need
be. -/
theorem getPage_edits (h : s.Ready) (hv : virt % 0x1000 = 0) (hlt : virt < 0xFFC00000)
    (hsup : Supplied s virt) (flags : Nat) :
    ∃ t, pagingGetPage s virt true flags =
        .ok (tableAddr (directoryIndex virt) + 4 * tableIndex virt, t) ∧
      Edits s t {virt / 4096} flags ∧ present (t.pde (directoryIndex virt)) = true ∧
      (¬ Mapped s virt →
        present (t.pte (directoryIndex virt) (tableIndex virt)) = false) := by
  have hi := directoryIndex_lt hlt
  cases hp : present (s.pde (directoryIndex virt)) with
  | true =>
    refine ⟨s, getPage_present h.recursive hv (by omega) hp true, (Edits.refl h).mono (by simp), hp,
      fun hnot => ?_⟩
    rw [← Bool.not_eq_true]
    exact fun hpte => hnot ⟨hp, hpte⟩
  | false =>
    obtain ⟨f, p, halloc, hfree⟩ := hsup hp
    obtain ⟨t, hnew, -, hedits, hpt, hblank⟩ := createTable_edits h hi hp halloc
      hfree (show virt / 4096 / 1024 = _ by rw [directoryIndex_eq]; omega) flags
    refine ⟨t, getPage_create h.recursive hv (by omega) hp hnew hedits.ready.recursive hpt, hedits,
      hpt, fun _ => ?_⟩
    rw [hblank _ (tableIndex_lt virt)]
    rfl

theorem mapPage_aborts (h : s.Ready) (hv : virt % 0x1000 = 0) (hi : directoryIndex virt < 1024)
    (hmap : Mapped s virt) : pagingMapPage s virt phys flags = .error .abort := by
  rw [pagingMapPage, getPage_present h.recursive hv hi hmap.1 true]
  simp only [bind, Except.bind, load_entry h.recursive hi hmap.1 (tableIndex_lt virt), hmap.2,
    if_true]
  rfl

theorem mapPage_edits (h : s.Ready) (hv : virt % 0x1000 = 0) (hlt : virt < 0xFFC00000)
    (hsup : Supplied s virt) (hnot : ¬ Mapped s virt) (phys flags : Nat) :
    ∃ t, pagingMapPage s virt phys flags = .ok t ∧ Edits s t {virt / 4096} flags ∧
      present (t.pde (directoryIndex virt)) = true ∧
      t.pte (directoryIndex virt) (tableIndex virt) =
        (phys ||| 1 ||| pageFlags flags) % 2 ^ 32 := by
  have hi := directoryIndex_lt hlt
  have hj := tableIndex_lt virt
  obtain ⟨t, hget, hedits, hpt, hclear⟩ := getPage_edits h hv hlt hsup flags
  have hready := hedits.ready
  have hstore := edits_store (p := t.pmm) hready hi hpt hj (phys ||| 1 ||| pageFlags flags) flags
  rw [index_page] at hstore
  refine ⟨_, ?_, (hedits.trans hstore).mono (by simp), ?_, ?_⟩
  · rw [pagingMapPage, hget]
    simp only [bind, Except.bind,
      load_entry hready.recursive (show directoryIndex virt < 1024 by omega) hpt hj, hclear hnot,
      Bool.false_eq_true, if_false]
    exact store_entry hready.recursive (by omega) hpt hj _
  · rw [hstore.dirs _ (by omega) hpt]
    exact hpt
  · exact hready.write_pte hi hpt hj _

/-! ## A range of pages -/

/-- A page that is not edited is not mapped by the edits. -/
theorem Edits.not_mapped {R : Set Nat} (h : Edits s t R flags) (hlt : virt < 0xFFC00000)
    (hout : virt / 4096 ∉ R) (hnot : ¬ Mapped s virt) : ¬ Mapped t virt := by
  have hi := directoryIndex_lt hlt
  have hj := tableIndex_lt virt
  rw [← index_page] at hout
  rintro ⟨hpt, hpte⟩
  cases hp : present (s.pde (directoryIndex virt)) with
  | true =>
    rw [h.kept _ _ hi hj hout hp] at hpte
    exact hnot ⟨hp, hpte⟩
  | false =>
    rw [h.blank _ _ hi hj hout hp hpt] at hpte
    cases hpte

/-- The entry that `paging_map_pages` writes for the page `k` of its range. -/
def rangeEntry (phys flags k : Nat) : Nat := wrap (phys + 4096 * k) ||| 1 ||| pageFlags flags

theorem rangeEntry_spec (hphys : phys % 4096 = 0) (flags k : Nat) :
    rangeEntry phys flags k < 2 ^ 32 ∧ frame (rangeEntry phys flags k) = wrap (phys + 4096 * k) ∧
      rangeEntry phys flags k % 4096 = 1 ||| pageFlags flags ∧
      present (rangeEntry phys flags k) = true := by
  obtain ⟨hbits, hpbits⟩ := pageBits flags
  have hmod : wrap (phys + 4096 * k) % 4096 = 0 := by
    rw [wrap]
    omega
  have hlt := wrap_lt (phys + 4096 * k)
  obtain ⟨he, hframe, hlow⟩ := frame_or hmod hlt hbits
  rw [rangeEntry, Nat.or_assoc]
  exact ⟨he, hframe, hlow, (present_or hmod hlt hbits).trans hpbits⟩

theorem mapPages_edits (h : s.Ready) (hv : virt % 0x1000 = 0)
    (hlt : virt + num * 0x1000 ≤ 0xFFC00000) (hphys : phys % 4096 = 0) (hphys' : phys < 2 ^ 32)
    (hsup : SuppliedRange s virt phys num flags)
    (hfree : ∀ k, k < num → ¬ Mapped s (virt + 4096 * k)) :
    ∃ t, pagingMapPages s virt phys num flags = .ok t ∧
      Edits s t (Set.Ico (virt / 4096) (virt / 4096 + num)) flags ∧
      ∀ k, k < num → present (t.pde (directoryIndex (virt + 4096 * k))) = true ∧
        t.pte (directoryIndex (virt + 4096 * k)) (tableIndex (virt + 4096 * k)) =
          rangeEntry phys flags k := by
  induction num generalizing s virt phys with
  | zero => exact ⟨s, rfl, (Edits.refl h).mono (by simp), fun k hk => absurd hk (Nat.not_lt_zero k)⟩
  | succ num ih =>
    obtain ⟨hfirst, hrest⟩ := hsup
    have hlt' : virt < 0xFFC00000 := by omega
    have hnext : (virt + 0x1000) / 4096 = virt / 4096 + 1 := by omega
    have hstep : ∀ k, virt + 0x1000 + 4096 * k = virt + 4096 * (k + 1) := fun k => by omega
    obtain ⟨s₁, hrun, hedits, hpde, hpte⟩ :=
      mapPage_edits h hv hlt' hfirst (hfree 0 (by omega)) phys flags
    have hsup' := hrest s₁ hrun
    rw [wrap_of_lt (show virt + 0x1000 < 2 ^ 32 by omega)] at hsup'
    -- the pages still to come are not the one just mapped
    have hfree' : ∀ k, k < num → ¬ Mapped s₁ (virt + 0x1000 + 4096 * k) := by
      intro k hk
      rw [hstep]
      refine hedits.not_mapped (by omega) ?_ (hfree (k + 1) (by omega))
      rw [Set.mem_singleton_iff]
      omega
    obtain ⟨t, hrun', hedits', hpages⟩ := ih hedits.ready (by omega) (by omega)
      (by rw [wrap]; omega) (wrap_lt _) hsup' hfree'
    refine ⟨t, ?_, (hedits.trans hedits').mono ?_, ?_⟩
    · rw [pagingMapPages, hrun]
      simp only [bind, Except.bind]
      rw [wrap_of_lt (show virt + 0x1000 < 2 ^ 32 by omega)]
      exact hrun'
    · intro p hp
      rw [Set.mem_union, Set.mem_singleton_iff, Set.mem_Ico] at hp
      rw [Set.mem_Ico]
      omega
    · intro k hk
      cases k with
      | zero =>
        have hkeep := hedits'.kept _ _ (directoryIndex_lt hlt') (tableIndex_lt virt)
          (by rw [index_page, Set.mem_Ico]; omega) hpde
        have hdir := hedits'.dirs _ (by have := directoryIndex_lt hlt'; omega) hpde
        rw [Nat.mul_zero, Nat.add_zero, hkeep, hpte, hdir, rangeEntry, Nat.mul_zero, Nat.add_zero,
          wrap_of_lt hphys']
        refine ⟨hpde, Nat.mod_eq_of_lt ?_⟩
        have hspec := (rangeEntry_spec hphys flags 0).1
        rwa [rangeEntry, Nat.mul_zero, Nat.add_zero, wrap_of_lt hphys'] at hspec
      | succ k =>
        have hk' := hpages k (by omega)
        rw [hstep, rangeEntry, wrap_add_wrap] at hk'
        rw [rangeEntry, show phys + 4096 * (k + 1) = phys + 0x1000 + 4096 * k by omega]
        exact hk'

end Paging
end Medusa
