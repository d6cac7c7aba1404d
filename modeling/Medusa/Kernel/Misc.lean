import Medusa.Machine.Word

/-!
# Rounding helpers and abnormal ends

`align_to` and `divide_up` are the inline functions of `misc.h`, and `max` is the
one of `math.c`, whose parameters are `int` although every caller passes
addresses.  `Stop` says why a kernel function did not return.
-/

namespace Medusa
namespace Kernel

open Machine

/-- Why a call does not return: `abort()` was reached, an access was made
through an address with no mapping, or the model ran out of loop rounds. -/
inductive Stop where
  | abort
  | fault
  | fuel
deriving DecidableEq, Repr

def alignTo (n align : Nat) : Nat :=
  if n % align = 0 then n else wrap (n + (align - n % align))

def divideUp (n d : Nat) : Nat :=
  if n % d = 0 then n / d else wrap (1 + n / d)

/-- `max`: the comparison is made on signed 32-bit integers. -/
def maxInt (a b : Nat) : Nat := if toInt b < toInt a then a else b

/-- The least multiple of `align` that is at least `n`, in exact arithmetic. -/
def roundUp (n align : Nat) : Nat := (n + (align - 1)) / align * align

theorem le_roundUp {n align : Nat} (ha : 0 < align) : n ≤ roundUp n align := by
  have h := Nat.lt_div_mul_add (a := n + (align - 1)) ha
  unfold roundUp
  omega

theorem roundUp_lt (n : Nat) {align : Nat} (ha : 0 < align) : roundUp n align < n + align := by
  have h := Nat.div_mul_le_self (n + (align - 1)) align
  unfold roundUp
  omega

theorem roundUp_mod (n align : Nat) : roundUp n align % align = 0 := Nat.mul_mod_left _ _

theorem roundUp_of_mod {n align : Nat} (ha : 0 < align) (h : n % align = 0) :
    roundUp n align = n := by
  obtain ⟨k, rfl⟩ := Nat.dvd_of_mod_eq_zero h
  unfold roundUp
  rw [Nat.mul_add_div ha, Nat.div_eq_of_lt (by omega), Nat.add_zero, Nat.mul_comm]

/-- Rounding a number that is not a multiple completes it to the next one. -/
theorem roundUp_of_mod_ne {n align : Nat} (ha : 0 < align) (h : n % align ≠ 0) :
    roundUp n align = n + (align - n % align) := by
  have hlt := Nat.mod_lt n ha
  have hsplit := Nat.div_add_mod n align
  unfold roundUp
  rw [show n + (align - 1) = align * (n / align + 1) + (n % align - 1) by
    rw [Nat.mul_add]; omega]
  have hrest : (n % align - 1) / align = 0 := Nat.div_eq_of_lt (by omega)
  rw [Nat.mul_add_div ha, hrest, Nat.add_zero, Nat.add_mul, Nat.mul_comm (n / align),
    Nat.one_mul]
  omega

theorem alignTo_of_mod {n align : Nat} (h : n % align = 0) : alignTo n align = n := if_pos h

/-- `align_to` is exact rounding as long as the rounded value fits a word. -/
theorem alignTo_eq {n align : Nat} (ha : 0 < align) (h : roundUp n align < 2 ^ 32) :
    alignTo n align = roundUp n align := by
  unfold alignTo
  by_cases hz : n % align = 0
  · rw [if_pos hz, roundUp_of_mod ha hz]
  · rw [roundUp_of_mod_ne ha hz] at h
    rw [if_neg hz, roundUp_of_mod_ne ha hz, wrap_of_lt h]

/-- `divide_up` is exact for every divisor above one: the quotient leaves room
for the extra unit. -/
theorem divideUp_eq {n d : Nat} (hd : 1 < d) (hn : n < 2 ^ 32) :
    divideUp n d = (n + (d - 1)) / d := by
  have hr : (n + (d - 1)) / d * d = roundUp n d := rfl
  unfold divideUp
  by_cases hz : n % d = 0
  · rw [if_pos hz]
    rw [roundUp_of_mod (by omega) hz] at hr
    exact (Nat.eq_div_of_mul_eq_left (by omega) hr).symm
  · rw [if_neg hz]
    have hdiv : n / d ≤ n / 2 := Nat.div_le_div_left (by omega) (by decide)
    rw [wrap_of_lt (by omega)]
    rw [roundUp_of_mod_ne (by omega) hz] at hr
    have hsplit := Nat.div_add_mod n d
    have hlt := Nat.mod_lt n (show 0 < d by omega)
    have hmul : (1 + n / d) * d = n + (d - n % d) := by
      rw [Nat.add_mul, Nat.one_mul, Nat.mul_comm (n / d)]
      omega
    rw [← hr] at hmul
    exact Nat.eq_of_mul_eq_mul_right (by omega) hmul

theorem maxInt_of_lt {a b : Nat} (ha : a < 2 ^ 31) (hb : b < 2 ^ 31) :
    maxInt a b = max a b := by
  unfold maxInt
  rw [toInt_of_lt ha, toInt_of_lt hb]
  by_cases h : b < a
  · rw [if_pos (by omega), Nat.max_eq_left (by omega)]
  · rw [if_neg (by omega), Nat.max_eq_right (by omega)]

/-- A word with its top bit set is negative, so it never wins against a small
one. -/
theorem maxInt_of_ge {a b : Nat} (ha : 2 ^ 31 ≤ a) (ha' : a < 2 ^ 32) (hb : b < 2 ^ 31) :
    maxInt a b = b := by
  have hneg := toInt_neg ha ha'
  unfold maxInt
  rw [toInt_of_lt hb, if_neg (by omega)]

end Kernel
end Medusa
