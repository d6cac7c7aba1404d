import Medusa.Kernel.Misc
import Medusa.Machine.Division
import Medusa.Machine.Loop

/-!
# `div` and `ldiv`

Both divide and then repair a remainder of the wrong sign.  The repair is meant for a
division that rounds down; C rounds towards zero and leaves nothing to repair, so where the
test of the repair succeeds it spoils a right result.  On the kernel's target `int` and
`long` are words of 32 bits.
-/

namespace Medusa
namespace Libc
namespace Div

open Machine Kernel

/-- `div_t`. -/
structure DivT where
  quot : Int
  rem : Int
deriving DecidableEq, Repr

/-- `ldiv_t`. -/
structure LdivT where
  quot : Int
  rem : Int
deriving DecidableEq, Repr

/-- The value of a signed expression of `w` bits.  An overflow has no meaning in C and
stops the model. -/
def signedValue (w : Nat) (n : Int) : Except Stop Int :=
  if Signed w n then .ok n else .error .fault

/-- `num / denom`. -/
def quotient (w : Nat) (num denom : Int) : Except Stop Int :=
  if denom = 0 then .error .fault else signedValue w (num.tdiv denom)

/-- The body of both functions. -/
def divide (w : Nat) (num denom : Int) : Except Stop (Int × Int) := do
  let quot ← quotient w num denom
  let rem ← signedValue w (num - (← signedValue w (denom * quot)))
  if quot < 0 ∧ 0 < rem then
    let quot ← signedValue w (quot + 1)
    let rem ← signedValue w (rem - denom)
    return (quot, rem)
  else return (quot, rem)

def div (num denom : Int) : Except Stop DivT := do
  let (quot, rem) ← divide 32 num denom
  return { quot := quot, rem := rem }

def ldiv (num denom : Int) : Except Stop LdivT := do
  let (quot, rem) ← divide 32 num denom
  return { quot := quot, rem := rem }

/-- The operands on which the repair is made. -/
def Repaired (num denom : Int) : Prop :=
  0 < num ∧ denom < 0 ∧ -denom < num ∧ ¬ denom ∣ num

instance (num denom : Int) : Decidable (Repaired num denom) :=
  inferInstanceAs (Decidable (_ ∧ _ ∧ _ ∧ _))

/-- What both functions return, in exact arithmetic. -/
def results (num denom : Int) : Int × Int :=
  if Repaired num denom then (num.tdiv denom + 1, num.tmod denom - denom)
  else (num.tdiv denom, num.tmod denom)

variable {w : Nat} {num denom n : Int}

theorem signedValue_eq (h : Signed w n) : signedValue w n = .ok n := if_pos h

/-- What is left after the repair is no larger than the numerator. -/
theorem repaired_between (h : Repaired num denom) :
    0 ≤ num.tmod denom - denom ∧ num.tmod denom - denom ≤ num := by
  have hdenom := h.2.1
  obtain ⟨hquot, hrem⟩ := tdiv_neg_tmod_pos_iff.mpr h
  have htotal := Int.mul_tdiv_add_tmod num denom
  have hmul : 0 ≤ denom * (num.tdiv denom + 1) :=
    Int.mul_nonneg_of_nonpos_of_nonpos hdenom.le (by omega)
  rw [Int.mul_add, Int.mul_one] at hmul
  exact ⟨by omega, by omega⟩

/-- No intermediate result overflows, with or without the repair. -/
theorem divide_eq (hnum : Signed w num) (hdenom : denom ≠ 0)
    (hover : ¬ (num = -2 ^ (w - 1) ∧ denom = -1)) :
    divide w num denom = .ok (results num denom) := by
  have hquot := hnum.tdiv hover
  have hprod := hnum.of_between (mul_tdiv_between num denom)
  have hrem := hnum.of_between (tmod_between num denom)
  have hsub : num - denom * num.tdiv denom = num.tmod denom := (Int.tmod_def num denom).symm
  rw [divide, quotient, if_neg hdenom, signedValue_eq hquot, ok_bind, signedValue_eq hprod,
    ok_bind, hsub, signedValue_eq hrem, ok_bind, results]
  by_cases hrepair : Repaired num denom
  · have hsigns := tdiv_neg_tmod_pos_iff.mpr hrepair
    have hnext : Signed w (num.tdiv denom + 1) := hquot.of_between (.inr (by omega))
    have hleft := hnum.of_between (.inl (repaired_between hrepair))
    rw [if_pos hsigns, if_pos hrepair, signedValue_eq hnext, ok_bind, signedValue_eq hleft]
    rfl
  · rw [if_neg fun hsigns => hrepair (tdiv_neg_tmod_pos_iff.mp hsigns), if_neg hrepair]
    rfl

/-- The law has one solution, and the repair leaves it. -/
theorem results_divides_iff (hdenom : denom ≠ 0) :
    Divides num denom (results num denom).1 (results num denom).2 ↔ ¬ Repaired num denom := by
  by_cases hrepair : Repaired num denom
  · rw [results, if_pos hrepair]
    refine iff_of_false (fun hlaw => ?_) (not_not.mpr hrepair)
    have hquot : num.tdiv denom = num.tdiv denom + 1 := hlaw.unique.1
    omega
  · rw [results, if_neg hrepair]
    exact iff_of_true (divides_tdiv hdenom) hrepair

/-- **`div` and `ldiv` obey the law of division exactly where they repair nothing.**  On
all operands whose quotient is a word they return without an overflow; the results are
wrong for a positive numerator and a negative denominator of smaller magnitude that does
not divide it. -/
theorem div_ldiv_law_iff (hnum : Signed 32 num) (hdenom : denom ≠ 0)
    (hover : ¬ (num = -2 ^ 31 ∧ denom = -1)) :
    (Exits (fun val => Divides num denom val.quot val.rem) (fun _ => False) (div num denom) ↔
      ¬ Repaired num denom) ∧
    (Exits (fun val => Divides num denom val.quot val.rem) (fun _ => False) (ldiv num denom) ↔
      ¬ Repaired num denom) := by
  have hdivide : divide 32 num denom = .ok (results num denom) := divide_eq hnum hdenom hover
  rw [div, ldiv, hdivide]
  exact ⟨results_divides_iff hdenom, results_divides_iff hdenom⟩

/-- Seven by two, with both signs that leave a remainder of the numerator's. -/
theorem div_ldiv_law_iff_seven :
    (Exits (fun val => Divides (-7) 2 val.quot val.rem) (fun _ => False) (div (-7) 2) ↔
      ¬ Repaired (-7) 2) ∧
    (Exits (fun val => Divides (-7) 2 val.quot val.rem) (fun _ => False) (ldiv (-7) 2) ↔
      ¬ Repaired (-7) 2) :=
  div_ldiv_law_iff (by decide) (by decide) (by decide)

/-- Seven by minus two is two and a remainder of three. -/
theorem div_spoilt : ¬ ∀ num denom : Int, Signed 32 num → Signed 32 denom → denom ≠ 0 →
    ¬ (num = -2 ^ 31 ∧ denom = -1) →
    Exits (fun val => Divides num denom val.quot val.rem) (fun _ => False) (div num denom) ∧
    Exits (fun val => Divides num denom val.quot val.rem) (fun _ => False)
      (ldiv num denom) := by
  intro hall
  obtain ⟨hlaw, -⟩ := hall 7 (-2) (by decide) (by decide) (by decide) (by decide)
  have hreturned : div 7 (-2) = .ok { quot := -2, rem := 3 } := by decide
  rw [hreturned] at hlaw
  exact absurd hlaw.small (by decide)

end Div
end Libc
end Medusa
