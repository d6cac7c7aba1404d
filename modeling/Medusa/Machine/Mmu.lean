import Medusa.Machine.Memory
import Medusa.Machine.Word

/-!
# Two-level address translation

The i386 translation with 4 KiB pages and 4 MiB large pages, on physical byte
memory; `cr3` is the address of the directory.  Access rights and the TLB are
left out.

A directory whose last entry names the directory itself is visible through the
last 4 MiB of the address space: table `i` at `0xFFC00000 + 4096 * i`, the
directory at `0xFFFFF000`.  When no two present entries share a frame, a store
into one table changes one entry and nothing else that translation looks at.
-/

namespace Medusa
namespace Machine

/-- `PAGE_PRESENT`. -/
def present (e : Nat) : Bool := e &&& 1 != 0

/-- `PAGE_LARGE`. -/
def large (e : Nat) : Bool := e &&& 128 != 0

/-- `PAGE_FRAME`. -/
def frame (e : Nat) : Nat := e &&& 0xFFFFF000

/-- Entry `i` of the directory. -/
def pde (m : Mem) (cr3 i : Nat) : Nat := read32 m (cr3 + 4 * i)

/-- Entry `j` of the table that directory entry `i` names. -/
def pte (m : Mem) (cr3 i j : Nat) : Nat := read32 m (frame (pde m cr3 i) + 4 * j)

def translate (m : Mem) (cr3 v : Nat) : Option Nat :=
  if present (pde m cr3 (v / 2 ^ 22)) then
    if large (pde m cr3 (v / 2 ^ 22)) then
      some ((pde m cr3 (v / 2 ^ 22) &&& 0xFFC00000) + v % 2 ^ 22)
    else if present (pte m cr3 (v / 2 ^ 22) (v / 2 ^ 12 % 2 ^ 10)) then
      some (frame (pte m cr3 (v / 2 ^ 22) (v / 2 ^ 12 % 2 ^ 10)) + v % 2 ^ 12)
    else none
  else none

/-! ## Entries -/

theorem frame_eq {e : Nat} (h : e < 2 ^ 32) : frame e = e / 2 ^ 12 * 2 ^ 12 :=
  and_high_eq (k := 12) h (by decide)

theorem frame_spec {e : Nat} (h : e < 2 ^ 32) : frame e % 4096 = 0 ∧ frame e < 2 ^ 32 := by
  rw [frame_eq h]
  omega

theorem pde_lt (m : Mem) (cr3 i : Nat) : pde m cr3 i < 2 ^ 32 := read32_lt _ _

/-- An entry made of a frame and low bits. -/
theorem frame_or {p x : Nat} (hp : p % 4096 = 0) (hlt : p < 2 ^ 32) (hx : x < 4096) :
    p ||| x < 2 ^ 32 ∧ frame (p ||| x) = p ∧ (p ||| x) % 4096 = x := by
  rw [or_low_eq (k := 12) hp hx]
  refine ⟨by omega, ?_, by omega⟩
  rw [frame_eq (by omega)]
  omega

theorem present_eq (e : Nat) : present e = e.testBit 0 := by
  rw [present, show (1 : Nat) = 2 ^ 0 from rfl, Nat.and_two_pow]
  cases e.testBit 0 <;> rfl

theorem large_eq (e : Nat) : large e = e.testBit 7 := by
  rw [large, show (128 : Nat) = 2 ^ 7 from rfl, Nat.and_two_pow]
  cases e.testBit 7 <;> rfl

theorem present_mod (e : Nat) : present (e % 4096) = present e := by
  rw [present_eq, present_eq, show (4096 : Nat) = 2 ^ 12 from rfl, Nat.testBit_mod_two_pow]
  rfl

theorem large_mod (e : Nat) : large (e % 4096) = large e := by
  rw [large_eq, large_eq, show (4096 : Nat) = 2 ^ 12 from rfl, Nat.testBit_mod_two_pow]
  rfl

theorem present_or {p x : Nat} (hp : p % 4096 = 0) (hlt : p < 2 ^ 32) (hx : x < 4096) :
    present (p ||| x) = present x := by
  rw [← present_mod, (frame_or hp hlt hx).2.2]

theorem large_or {p x : Nat} (hp : p % 4096 = 0) (hlt : p < 2 ^ 32) (hx : x < 4096) :
    large (p ||| x) = large x := by
  rw [← large_mod, (frame_or hp hlt hx).2.2]

/-! ## The recursive entry -/

/-- The last entry of the directory at `cr3` names the directory itself. -/
structure Recursive (m : Mem) (cr3 : Nat) : Prop where
  aligned : cr3 % 4096 = 0
  bound : cr3 + 4096 ≤ 2 ^ 32
  present : present (pde m cr3 1023) = true
  small : large (pde m cr3 1023) = false
  self : frame (pde m cr3 1023) = cr3

variable {m m' : Mem} {cr3 i j : Nat}

/-- Seen through the last entry, the directory is a table. -/
theorem Recursive.pte_eq (h : Recursive m cr3) (i : Nat) : pte m cr3 1023 i = pde m cr3 i := by
  rw [pte, h.self, pde]

/-- The window shows the table of every present entry. -/
theorem Recursive.translate_table (h : Recursive m cr3) (hi : i < 1024)
    (hp : Machine.present (pde m cr3 i) = true) {o : Nat} (ho : o < 4096) :
    translate m cr3 (0xFFC00000 + 4096 * i + o) = some (frame (pde m cr3 i) + o) := by
  have hdir : (0xFFC00000 + 4096 * i + o) / 2 ^ 22 = 1023 := by omega
  have htab : (0xFFC00000 + 4096 * i + o) / 2 ^ 12 % 2 ^ 10 = i := by omega
  have hoff : (0xFFC00000 + 4096 * i + o) % 2 ^ 12 = o := by omega
  rw [translate, hdir, htab, hoff, h.present, h.small, h.pte_eq, hp]
  rfl

theorem Recursive.translate_directory (h : Recursive m cr3) (hi : i < 1024) :
    translate m cr3 (0xFFFFF000 + 4 * i) = some (cr3 + 4 * i) := by
  have hwin := h.translate_table (i := 1023) (by decide) h.present (o := 4 * i) (by omega)
  rw [h.self] at hwin
  exact hwin

theorem pde_congr (hm : Agree m m' cr3 (cr3 + 4096)) (hi : i < 1024) :
    pde m' cr3 i = pde m cr3 i :=
  read32_congr (hm.mono (by omega) (by omega))

theorem Recursive.congr (h : Recursive m cr3) (hm : Agree m m' cr3 (cr3 + 4096)) :
    Recursive m' cr3 := by
  have hslot := pde_congr (i := 1023) hm (by decide)
  exact ⟨h.aligned, h.bound, hslot ▸ h.present, hslot ▸ h.small, hslot ▸ h.self⟩

/-! ## Frames in use -/

/-- No two present entries share a frame. -/
def Distinct (m : Mem) (cr3 : Nat) : Prop :=
  ∀ i j, i < 1024 → j < 1024 → i ≠ j → present (pde m cr3 i) = true →
    present (pde m cr3 j) = true → frame (pde m cr3 i) ≠ frame (pde m cr3 j)

/-- Frame `f` holds neither the directory nor a table. -/
def Unused (m : Mem) (cr3 f : Nat) : Prop :=
  ∀ i, i < 1024 → present (pde m cr3 i) = true → frame (pde m cr3 i) ≠ f

/-- A directory whose translation the window can edit. -/
structure Ready (m : Mem) (cr3 : Nat) : Prop extends Recursive m cr3 where
  distinct : Distinct m cr3

/-- A table lies apart from the directory. -/
theorem Ready.table_ne (h : Ready m cr3) (hi : i < 1023)
    (hp : Machine.present (pde m cr3 i) = true) : frame (pde m cr3 i) ≠ cr3 := by
  have hne := h.distinct i 1023 (by omega) (by decide) (by omega) hp h.present
  rwa [h.self] at hne

theorem pages_apart {f g : Nat} (hf : f % 4096 = 0) (hg : g % 4096 = 0) (hne : f ≠ g) :
    f + 4096 ≤ g ∨ g + 4096 ≤ f := by
  omega

theorem Ready.congr (h : Ready m cr3) (hm : Agree m m' cr3 (cr3 + 4096)) : Ready m' cr3 where
  toRecursive := h.toRecursive.congr hm
  distinct := by
    intro i j hi hj hne hpi hpj
    rw [pde_congr hm hi] at hpi ⊢
    rw [pde_congr hm hj] at hpj ⊢
    exact h.distinct i j hi hj hne hpi hpj

/-! ## Editing a table -/

theorem table_write_outside (hj : j < 1024) (v : Nat) {f x : Nat} (hx : x < f ∨ f + 4096 ≤ x) :
    write32 m (f + 4 * j) v x = m x :=
  write32_outside (by omega)

theorem pde_write_self {v : Nat} (hv : v < 2 ^ 32) :
    pde (write32 m (cr3 + 4 * i) v) cr3 i = v :=
  (read32_write32_self _ _ _).trans (Nat.mod_eq_of_lt hv)

/-- A new entry in the directory leaves the other entries alone. -/
theorem pde_write_ne (v : Nat) {k : Nat} (hne : k ≠ i) :
    pde (write32 m (cr3 + 4 * i) v) cr3 k = pde m cr3 k :=
  read32_write32_of_disjoint (by omega)

section Edit

variable (h : Ready m cr3)
include h

theorem Ready.agree_outside (hi : i < 1023) (hp : Machine.present (pde m cr3 i) = true)
    (hout : ∀ x, x < frame (pde m cr3 i) ∨ frame (pde m cr3 i) + 4096 ≤ x → m' x = m x) :
    Agree m m' cr3 (cr3 + 4096) := by
  intro x hlo hhi
  have hmod := (frame_spec (pde_lt m cr3 i)).1
  have hapart := pages_apart hmod h.aligned (h.table_ne hi hp)
  exact hout x (by omega)

/-- Other tables do not see what happens to table `i`. -/
theorem Ready.pte_other (hi : i < 1023) (hp : Machine.present (pde m cr3 i) = true)
    (hout : ∀ x, x < frame (pde m cr3 i) ∨ frame (pde m cr3 i) + 4096 ≤ x → m' x = m x)
    {k l : Nat} (hk : k < 1023) (hl : l < 1024) (hne : k ≠ i)
    (hpk : Machine.present (pde m cr3 k) = true) : pte m' cr3 k l = pte m cr3 k l := by
  rw [pte, pte, pde_congr (h.agree_outside hi hp hout) (by omega)]
  refine read32_congr fun x hlo hhi => hout x ?_
  have hmod := (frame_spec (pde_lt m cr3 i)).1
  have hmod' := (frame_spec (pde_lt m cr3 k)).1
  have hapart := pages_apart hmod' hmod
    (h.distinct k i (by omega) (by omega) hne hpk hp)
  omega

theorem Ready.write_pte (hi : i < 1023) (hp : Machine.present (pde m cr3 i) = true)
    (hj : j < 1024) (v : Nat) :
    pte (write32 m (frame (pde m cr3 i) + 4 * j) v) cr3 i j = v % 2 ^ 32 := by
  have hdir := h.agree_outside hi hp (fun x hx => table_write_outside hj v hx)
  rw [pte, pde_congr hdir (by omega)]
  exact read32_write32_self _ _ _

theorem Ready.write_pte_same (hi : i < 1023) (hp : Machine.present (pde m cr3 i) = true)
    (hj : j < 1024) (v : Nat) {l : Nat} (hne : l ≠ j) :
    pte (write32 m (frame (pde m cr3 i) + 4 * j) v) cr3 i l = pte m cr3 i l := by
  have hdir := h.agree_outside hi hp (fun x hx => table_write_outside hj v hx)
  rw [pte, pte, pde_congr hdir (by omega)]
  exact read32_write32_of_disjoint (by omega)

/-- Entering an unused frame keeps the directory editable. -/
theorem Ready.enter (hi : i < 1023) {e : Nat} (he : e < 2 ^ 32)
    (hfree : Unused m cr3 (frame e)) :
    Ready (write32 m (cr3 + 4 * i) e) cr3 := by
  have hself : pde (write32 m (cr3 + 4 * i) e) cr3 i = e := pde_write_self he
  have hslot : pde (write32 m (cr3 + 4 * i) e) cr3 1023 = pde m cr3 1023 :=
    pde_write_ne e (by omega)
  refine ⟨⟨h.aligned, h.bound, hslot ▸ h.present, hslot ▸ h.small, hslot ▸ h.self⟩, ?_⟩
  intro k l hk hl hne hpk hpl
  by_cases hki : k = i
  · have hli : l ≠ i := by omega
    rw [pde_write_ne e hli] at hpl ⊢
    rw [hki, hself]
    exact (hfree l hl hpl).symm
  · rw [pde_write_ne e hki] at hpk ⊢
    by_cases hli : l = i
    · rw [hli, hself]
      exact hfree k hk hpk
    · rw [pde_write_ne e hli] at hpl ⊢
      exact h.distinct k l hk hl hne hpk hpl

/-- The tables that were there are not moved by a new directory entry. -/
theorem Ready.enter_pte (hi : i < 1023) (e : Nat) {k l : Nat} (hk : k < 1023) (hl : l < 1024)
    (hne : k ≠ i) (hpk : Machine.present (pde m cr3 k) = true) :
    pte (write32 m (cr3 + 4 * i) e) cr3 k l = pte m cr3 k l := by
  rw [pte, pte, pde_write_ne e hne]
  have hmod := (frame_spec (pde_lt m cr3 k)).1
  have hapart := pages_apart hmod h.aligned (h.table_ne hk hpk)
  exact read32_write32_of_disjoint (by omega)

/-! ## Adding a table

The new entry `e` is stored and the frame it names is filled in some way. -/

variable {e : Nat} (hi : i < 1023) (he : e < 2 ^ 32) (hpe : Machine.present e = true)
  (hfree : Unused m cr3 (frame e))
  (hout : ∀ x, x < frame e ∨ frame e + 4096 ≤ x → m' x = write32 m (cr3 + 4 * i) e x)
include hi he hpe hfree hout

theorem Ready.create_agree : Agree (write32 m (cr3 + 4 * i) e) m' cr3 (cr3 + 4096) := by
  have hself : pde (write32 m (cr3 + 4 * i) e) cr3 i = e := pde_write_self he
  refine (h.enter hi he hfree).agree_outside hi ?_ fun x hx => hout x ?_
  · rw [hself]
    exact hpe
  · rwa [hself] at hx

theorem Ready.create_ready : Ready m' cr3 :=
  (h.enter hi he hfree).congr (h.create_agree hi he hpe hfree hout)

theorem Ready.create_pde : pde m' cr3 i = e := by
  rw [pde_congr (h.create_agree hi he hpe hfree hout) (by omega)]
  exact pde_write_self he

theorem Ready.create_pde_ne {k : Nat} (hk : k < 1024) (hne : k ≠ i) :
    pde m' cr3 k = pde m cr3 k := by
  rw [pde_congr (h.create_agree hi he hpe hfree hout) hk, pde_write_ne e hne]

theorem Ready.create_pte {k l : Nat} (hk : k < 1023) (hl : l < 1024) (hne : k ≠ i)
    (hpk : Machine.present (pde m cr3 k) = true) : pte m' cr3 k l = pte m cr3 k l := by
  rw [← h.enter_pte hi e hk hl hne hpk, pte, pte,
    pde_congr (h.create_agree hi he hpe hfree hout) (by omega), pde_write_ne e hne]
  refine read32_congr fun x hlo hhi => hout x ?_
  have hapart := pages_apart (frame_spec (pde_lt m cr3 k)).1 (frame_spec he).1
    (hfree k (by omega) hpk)
  omega

end Edit

end Machine
end Medusa
