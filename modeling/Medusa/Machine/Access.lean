import Mathlib.Order.Interval.Set.Basic
import Medusa.Machine.Memory

/-!
# What a run touches

A run leaves a trace of the bytes that it reads and writes, of the numbers that it
divides by and of the memory that it is given.  It is `Confined` to a set of bytes
when it touches only these and what it has been given before, and never divides by
zero.  A trace is checked from the front, so the check of two runs in a row is the
check of each, the second with what the first was given.
-/

namespace Medusa
namespace Machine

inductive Access
  | read (addr len : Nat)
  | write (addr len : Nat)
  | divide (d : Nat)
  | grant (addr len : Nat)
deriving DecidableEq, Repr

/-- All of `[addr, addr + len)` is owned. -/
def Covers (own : Set Nat) (addr len : Nat) : Prop :=
  ∀ x, addr ≤ x → x < addr + len → x ∈ own

/-- What is owned after an access. -/
def Access.grow (own : Set Nat) : Access → Set Nat
  | .grant addr len => own ∪ Set.Ico addr (addr + len)
  | _ => own

/-- The access is allowed. -/
def Access.Within (own : Set Nat) : Access → Prop
  | .read addr len => Covers own addr len
  | .write addr len => Covers own addr len
  | .divide d => d ≠ 0
  | .grant _ _ => True

def Owned (own : Set Nat) (trace : List Access) : Set Nat := trace.foldl Access.grow own

def Confined : Set Nat → List Access → Prop
  | _, [] => True
  | own, a :: trace => a.Within own ∧ Confined (a.grow own) trace

/-- The two memories hold the same owned bytes. -/
def SameOn (own : Set Nat) (m m' : Mem) : Prop := ∀ x ∈ own, m' x = m x

variable {own own' : Set Nat} {addr addr' len len' d : Nat} {trace trace' : List Access}
  {m m' : Mem}

/-! ## Owned bytes -/

theorem Covers.mono (h : Covers own addr len) (hlo : addr ≤ addr')
    (hhi : addr' + len' ≤ addr + len) : Covers own addr' len' :=
  fun x hx hx' => h x (hlo.trans hx) (lt_of_lt_of_le hx' hhi)

theorem Covers.grow (h : Covers own addr len) (hsub : own ⊆ own') : Covers own' addr len :=
  fun x hx hx' => hsub (h x hx hx')

theorem covers_Ico {lo hi : Nat} (hlo : lo ≤ addr) (hhi : addr + len ≤ hi) :
    Covers (Set.Ico lo hi) addr len :=
  fun _ hx hx' => ⟨hlo.trans hx, lt_of_lt_of_le hx' hhi⟩

theorem covers_add {n : Nat} : Covers own addr (len + n) ↔
    Covers own addr len ∧ Covers own (addr + len) n := by
  constructor
  · intro h
    exact ⟨h.mono (Nat.le_refl _) (by omega), h.mono (by omega) (by omega)⟩
  · intro h x hx hx'
    by_cases hlt : x < addr + len
    · exact h.1 x hx hlt
    · exact h.2 x (by omega) (by omega)

theorem Covers.agree (h : Covers own addr len) (hsame : SameOn own m m') :
    Agree m m' addr (addr + len) :=
  fun x hlo hhi => hsame x (h x hlo hhi)

theorem Covers.read32_eq (h : Covers own addr 4) (hsame : SameOn own m m') :
    read32 m' addr = read32 m addr :=
  read32_congr (h.agree hsame)

theorem SameOn.write32 (h : SameOn own m m') (a v : Nat) :
    SameOn own (write32 m a v) (write32 m' a v) :=
  fun x hx => write32_apply_congr (h x hx) a v

theorem Access.subset_grow (own : Set Nat) (a : Access) : own ⊆ a.grow own := by
  cases a with
  | grant addr len => exact Set.subset_union_left
  | read | write | divide => exact subset_rfl

theorem subset_owned (own : Set Nat) (trace : List Access) : own ⊆ Owned own trace := by
  induction trace generalizing own with
  | nil => exact subset_rfl
  | cons a trace ih => exact (a.subset_grow own).trans (ih _)

/-! ## Traces -/

@[simp] theorem owned_nil : Owned own [] = own := rfl

@[simp] theorem owned_read : Owned own (.read addr len :: trace) = Owned own trace := rfl

@[simp] theorem owned_write : Owned own (.write addr len :: trace) = Owned own trace := rfl

@[simp] theorem owned_divide : Owned own (.divide d :: trace) = Owned own trace := rfl

@[simp] theorem owned_append :
    Owned own (trace ++ trace') = Owned (Owned own trace) trace' :=
  List.foldl_append

@[simp] theorem confined_nil : Confined own [] := trivial

@[simp] theorem confined_read : Confined own (.read addr len :: trace) ↔
    Covers own addr len ∧ Confined own trace := Iff.rfl

@[simp] theorem confined_write : Confined own (.write addr len :: trace) ↔
    Covers own addr len ∧ Confined own trace := Iff.rfl

@[simp] theorem confined_divide : Confined own (.divide d :: trace) ↔
    d ≠ 0 ∧ Confined own trace := Iff.rfl

@[simp] theorem confined_grant : Confined own (.grant addr len :: trace) ↔
    Confined (own ∪ Set.Ico addr (addr + len)) trace := and_iff_right trivial

/-- **Two runs in a row.** -/
@[simp] theorem confined_append : Confined own (trace ++ trace') ↔
    Confined own trace ∧ Confined (Owned own trace) trace' := by
  induction trace generalizing own with
  | nil => exact (and_iff_right trivial).symm
  | cons a trace ih =>
    rw [List.cons_append, Confined, Confined, ih, and_assoc]
    rfl

theorem confined_when {p : Prop} [Decidable p] :
    Confined own (if p then trace else []) ↔ (p → Confined own trace) := by
  by_cases hp : p
  · rw [if_pos hp]
    exact ⟨fun h _ => h, fun h => h hp⟩
  · rw [if_neg hp]
    exact iff_of_true trivial fun h => absurd h hp

theorem confined_unless {p : Prop} [Decidable p] :
    Confined own (if p then [] else trace) ↔ (¬ p → Confined own trace) := by
  rw [← confined_when, ite_not]

end Machine
end Medusa
