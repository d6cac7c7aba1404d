import Mathlib.Data.Nat.Bitwise

/-!
# Thirty-two bit words

Machine words are natural numbers and every sum that the hardware would cut is
cut explicitly by `wrap`.  Addresses, sizes and counters all live here, so the
lemmas say when a cut does nothing.
-/

namespace Medusa
namespace Machine

/-- The value a 32-bit register keeps of `n`. -/
def wrap (n : Nat) : Nat := n % 2 ^ 32

/-- Subtraction of unsigned words. -/
def wsub (a b : Nat) : Nat := wrap (a + (2 ^ 32 - wrap b))

theorem wrap_lt (n : Nat) : wrap n < 2 ^ 32 := Nat.mod_lt _ (by decide)

theorem wrap_of_lt {n : Nat} (h : n < 2 ^ 32) : wrap n = n := Nat.mod_eq_of_lt h

@[simp] theorem wrap_wrap (n : Nat) : wrap (wrap n) = wrap n := Nat.mod_mod _ _

theorem wrap_add_wrap (a b : Nat) : wrap (wrap a + b) = wrap (a + b) := by
  unfold wrap
  omega

theorem wsub_of_le {a b : Nat} (hb : b ≤ a) (ha : a < 2 ^ 32) : wsub a b = a - b := by
  unfold wsub wrap
  omega

/-! ## Masks -/

/-- Clearing the low `k` bits of a word rounds it down. -/
theorem and_high_eq {n k : Nat} (hn : n < 2 ^ 32) (hk : k ≤ 32) :
    n &&& (2 ^ 32 - 2 ^ k) = n / 2 ^ k * 2 ^ k := by
  have hmask : 2 ^ 32 - 2 ^ k = (2 ^ (32 - k) - 1) <<< k := by
    rw [Nat.shiftLeft_eq, Nat.sub_mul, ← Nat.pow_add, Nat.sub_add_cancel hk, Nat.one_mul]
  have hround : n / 2 ^ k * 2 ^ k = (n >>> k) <<< k := by
    rw [Nat.shiftLeft_eq, Nat.shiftRight_eq_div_pow]
  rw [hmask, hround]
  apply Nat.eq_of_testBit_eq
  intro i
  simp only [Nat.testBit_and, Nat.testBit_shiftLeft, Nat.testBit_shiftRight,
    Nat.testBit_two_pow_sub_one]
  by_cases hi : k ≤ i
  · rw [show k + (i - k) = i by omega]
    by_cases hlt : i < 32
    · simp [hi, show i - k < 32 - k by omega]
    · have hzero : n.testBit i = false := Nat.testBit_lt_two_pow
        (Nat.lt_of_lt_of_le hn (Nat.pow_le_pow_right (by decide) (by omega)))
      simp [hzero]
  · simp [hi]

/-- Or-ing low bits into a rounded word adds them. -/
theorem or_low_eq {n k x : Nat} (hn : n % 2 ^ k = 0) (hx : x < 2 ^ k) : n ||| x = n + x := by
  have hsplit : 2 ^ k * (n / 2 ^ k) = n := Nat.mul_div_cancel' (Nat.dvd_of_mod_eq_zero hn)
  have hor := Nat.two_pow_add_eq_or_of_lt hx (n / 2 ^ k)
  rw [hsplit] at hor
  exact hor.symm

/-- The sign a word has when C reads it as a 32-bit `int`. -/
def toInt (n : Nat) : Int := if n < 2 ^ 31 then (n : Int) else (n : Int) - 2 ^ 32

theorem toInt_of_lt {n : Nat} (h : n < 2 ^ 31) : toInt n = n := if_pos h

theorem toInt_neg {n : Nat} (h : 2 ^ 31 ≤ n) (hn : n < 2 ^ 32) : toInt n < 0 := by
  unfold toInt
  rw [if_neg (by omega)]
  omega

end Machine
end Medusa
