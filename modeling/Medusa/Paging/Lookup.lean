import Medusa.Paging.Unmap

/-!
# Looking an address up

`paging_virt_to_phys` against the translation of the processor.  The code tests
whether there is a table and no more, so it gives the frame in an entry that is
not present too, and adds the offset to it.
-/

namespace Medusa
namespace Paging

open Machine Kernel Pmm

variable {s t : State} {v : Nat}

theorem virtToPhys_absent (h : s.Recursive) (hlt : v < 2 ^ 32)
    (hp : present (s.pde (directoryIndex v)) = false) : pagingVirtToPhys s v = .ok 0 := by
  have hframe : frame v = v / 2 ^ 12 * 2 ^ 12 := frame_eq hlt
  have hdir : directoryIndex (frame v) = directoryIndex v := by
    rw [directoryIndex_eq, directoryIndex_eq, hframe]
    omega
  have hget : pagingGetPage s (frame v) false 0 = _ := getPage_absent h (by rw [hframe]; omega)
    (by rw [hdir]; exact directoryIndex_lt' hlt) (by rw [hdir]; exact hp)
  rw [pagingVirtToPhys, hget]
  rfl

/-- A frame and an offset never run past the end of memory. -/
theorem wrap_frame {e : Nat} (he : e < 2 ^ 32) (v : Nat) :
    wrap (frame e + v % 4096) = frame e + v % 4096 := by
  have hspec := frame_spec he
  exact wrap_of_lt (by omega)

theorem State.pte_lt (s : State) (i j : Nat) : s.pte i j < 2 ^ 32 := read32_lt _ _

/-- What `paging_virt_to_phys` says it returns: the address the page is mapped to,
zero without a mapping. -/
def physOrZero (s : State) (v : Nat) : Nat := (s.translate v).getD 0

/-- Without a large page, `physOrZero` in terms of the tables. -/
theorem physOrZero_eq (hsmall : present (s.pde (directoryIndex v)) = true →
      large (s.pde (directoryIndex v)) = false) :
    physOrZero s v =
      if present (s.pde (directoryIndex v)) = true ∧
          present (s.pte (directoryIndex v) (tableIndex v)) = true then
        frame (s.pte (directoryIndex v) (tableIndex v)) + v % 4096
      else 0 := by
  rw [physOrZero, State.translate_eq]
  cases hp : present (s.pde (directoryIndex v)) with
  | false => simp
  | true =>
    rw [hsmall hp]
    cases hpte : present (s.pte (directoryIndex v) (tableIndex v)) <;> simp

/-- **When a lookup is right.**  In every reachable state `paging_virt_to_phys`
returns the address of a page outside large pages, or zero if it has none, exactly
if no entry is in its way: there is no table, or the entry is present, or it names
frame 0 and the address is the first of the page. -/
theorem virtToPhys_right_iff (hs : Reachable s) (hlt : v < 2 ^ 32)
    (hsmall : present (s.pde (directoryIndex v)) = true →
      large (s.pde (directoryIndex v)) = false) :
    pagingVirtToPhys s v = .ok (physOrZero s v) ↔
      (present (s.pde (directoryIndex v)) = true →
        present (s.pte (directoryIndex v) (tableIndex v)) = true ∨
          (frame (s.pte (directoryIndex v) (tableIndex v)) = 0 ∧ v % 4096 = 0)) := by
  have hrec := (reachable_ready hs).recursive
  rw [physOrZero_eq hsmall]
  cases hp : present (s.pde (directoryIndex v)) with
  | false =>
    rw [virtToPhys_absent hrec hlt hp]
    simp
  | true =>
    rw [virtToPhys_eq hrec hlt hp, wrap_frame (s.pte_lt _ _)]
    cases hpte : present (s.pte (directoryIndex v) (tableIndex v)) with
    | true => simp
    | false =>
      simp only [Bool.false_eq_true, and_false, if_false, false_or, true_implies]
      constructor
      · intro h
        have hsum := Except.ok.inj h
        omega
      · rintro ⟨hframe, hoff⟩
        rw [hframe, hoff]

/-! ## After start-up -/

/-- The first table was made as a table. -/
theorem started_small : large (started.pde 0) = false := by
  obtain ⟨-, -, hedits, hp⟩ := started_init
  obtain ⟨hlarge, -⟩ := hedits.created 0 (by decide)
    (by rw [(withoutBoot_cleared bootState_boot).blank 0 (by decide) (by decide)]; rfl) hp
  rw [hlarge]
  rfl

/-- Page 1 is mapped to itself, and its addresses are found. -/
theorem virtToPhys_right_started : pagingVirtToPhys started 0x1234 = .ok (physOrZero started 0x1234) := by
  have hpage := (started_pages.2.2.2 1 (by decide)).2
  refine (virtToPhys_right_iff started_reachable (v := 0x1234) (by decide)
    fun _ => started_small).mpr fun _ => Or.inl ?_
  rw [show directoryIndex 0x1234 = directoryIndex (4096 * 1) by decide,
    show tableIndex 0x1234 = tableIndex (4096 * 1) by decide, hpage]
  decide

/-- Page 600 was never mapped, but it has a table: its second address is said to be
mapped to address 1. -/
theorem virtToPhys_started :
    Reachable started ∧ present (started.pde (directoryIndex 0x258001)) = true ∧
      large (started.pde (directoryIndex 0x258001)) = false ∧
      started.translate 0x258001 = none ∧ pagingVirtToPhys started 0x258001 = .ok 1 := by
  obtain ⟨-, -, hedits, hp⟩ := started_init
  have hdir : directoryIndex 0x258001 = 0 := by decide
  have htab : tableIndex 0x258001 = 600 := by decide
  have hblank : started.pte 0 600 = 0 := AfterInit.blank_page hedits hp
  refine ⟨started_reachable, hp, started_small, ?_, ?_⟩
  · rw [State.translate_eq, hdir, htab, hp, started_small, hblank]
    rfl
  · have hlookup := virtToPhys_eq hedits.ready.recursive (v := 0x258001) (by decide) hp
    rw [hdir, htab, hblank] at hlookup
    exact hlookup

end Paging
end Medusa
