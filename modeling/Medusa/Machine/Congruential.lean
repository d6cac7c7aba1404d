import Mathlib.Algebra.Order.Ring.GeomSum
import Mathlib.Data.Nat.GCD.Basic
import Mathlib.Data.Nat.Prime.Basic
import Mathlib.Dynamics.PeriodicPts.Defs
import Mathlib.Tactic.Ring

/-!
# Linear congruential generators

`lcg a c m` takes a seed `x` to `a * x + c` modulo `m`.  If `m` is a power of two, `a` is
1 modulo 4 and `c` is odd, the seeds below `m` lie on one cycle: `n` steps return to a
seed exactly if `m` divides `n`.  So in `m` steps each property of seeds is met as often
as there are seeds that have it.

The reason is that `n` steps change a seed `x` by the product of the odd number
`(a - 1) * x + c` and the sum of the powers of `a` below `n`, and a power of two divides
this sum exactly if it divides `n`.
-/

namespace Medusa
namespace Machine

open Finset

def lcg (a c m x : Nat) : Nat := (a * x + c) % m

/-- The sum of the powers of `a` below `n`. -/
def powers (a n : Nat) : Nat := ∑ i ∈ range n, a ^ i

theorem powers_succ (a n : Nat) : powers a (n + 1) = a * powers a n + 1 := by
  unfold powers
  rw [sum_range_succ', mul_sum, pow_zero]
  congr 1
  apply sum_congr rfl
  intro i _
  rw [pow_succ, Nat.mul_comm]

theorem powers_add (a m n : Nat) : powers a (m + n) = powers a m + a ^ m * powers a n := by
  unfold powers
  rw [sum_range_add, mul_sum]
  congr 1
  apply sum_congr rfl
  intro i _
  rw [pow_add]

/-- The seed after `n` steps. -/
theorem iterate_lcg_mod (a c m x n : Nat) :
    (lcg a c m)^[n] x % m = (a ^ n * x + c * powers a n) % m := by
  induction n with
  | zero => simp [powers]
  | succ n ih =>
    rw [Function.iterate_succ_apply', lcg, Nat.mod_mod, Nat.add_mod, Nat.mul_mod, ih, powers_succ,
      ← Nat.mul_mod, ← Nat.add_mod]
    congr 1
    ring

theorem iterate_lcg_lt {a c m x : Nat} (hx : x < m) (n : Nat) : (lcg a c m)^[n] x < m := by
  cases n with
  | zero => exact hx
  | succ n =>
    rw [Function.iterate_succ_apply']
    exact Nat.mod_lt _ (Nat.lt_of_le_of_lt (Nat.zero_le x) hx)

/-! ## The sum of the powers -/

section Powers

variable {a : Nat}

theorem powers_mod_two (ha : a % 2 = 1) (n : Nat) : powers a n % 2 = n % 2 := by
  induction n with
  | zero => rfl
  | succ n ih =>
    rw [powers_succ, Nat.add_mod, Nat.mul_mod, ha, ih]
    omega

theorem pow_mod_four (ha : a % 4 = 1) (n : Nat) : a ^ n % 4 = 1 := by
  rw [Nat.pow_mod, ha, one_pow, Nat.one_mod]

/-- Twice as many powers have twice the sum, up to an odd factor. -/
theorem exists_powers_double (ha : a % 4 = 1) (n : Nat) :
    ∃ o, o % 2 = 1 ∧ powers a (2 * n) = 2 * (o * powers a n) := by
  have hmod := pow_mod_four ha n
  refine ⟨(1 + a ^ n) / 2, by omega, ?_⟩
  have hhalf : 1 + a ^ n = 2 * ((1 + a ^ n) / 2) := by omega
  calc powers a (2 * n) = (1 + a ^ n) * powers a n := by
        rw [Nat.two_mul, powers_add]
        ring
    _ = 2 * ((1 + a ^ n) / 2 * powers a n) := by
        rw [← Nat.mul_assoc, ← hhalf]

theorem two_pow_dvd_odd_mul {k o n : Nat} (ho : o % 2 = 1) : 2 ^ k ∣ o * n ↔ 2 ^ k ∣ n := by
  have hcoprime : Nat.Coprime (2 ^ k) o :=
    Nat.Coprime.pow_left k (Nat.coprime_two_left.mpr (Nat.odd_iff.mpr ho))
  exact hcoprime.dvd_mul_left

theorem two_pow_dvd_powers (ha : a % 4 = 1) (k n : Nat) : 2 ^ k ∣ powers a n ↔ 2 ^ k ∣ n := by
  induction k generalizing n with
  | zero => simp
  | succ k ih =>
    rcases Nat.mod_two_eq_zero_or_one n with heven | hodd
    · obtain ⟨m, rfl⟩ : ∃ m, n = 2 * m := ⟨n / 2, by omega⟩
      obtain ⟨o, ho, hdouble⟩ := exists_powers_double ha m
      rw [hdouble, pow_succ', Nat.mul_dvd_mul_iff_left Nat.two_pos,
        Nat.mul_dvd_mul_iff_left Nat.two_pos, two_pow_dvd_odd_mul ho, ih]
    · have hsum := powers_mod_two (a := a) (by omega) n
      have hodds : ∀ x, x % 2 = 1 → ¬ 2 ^ (k + 1) ∣ x := by
        intro x hx hdvd
        have htwo : 2 ∣ x := (Dvd.intro_left _ rfl : 2 ∣ 2 ^ k * 2).trans hdvd
        omega
      exact iff_of_false (hodds _ (hsum.trans hodd)) (hodds _ hodd)

end Powers

/-! ## The cycle -/

section Cycle

variable {a c k x : Nat}

/-- **The period.**  A seed comes back exactly after the multiples of the modulus. -/
theorem iterate_lcg_eq_iff (ha : a % 4 = 1) (hc : c % 2 = 1) (hx : x < 2 ^ k) (n : Nat) :
    (lcg a c (2 ^ k))^[n] x = x ↔ 2 ^ k ∣ n := by
  obtain ⟨d, rfl⟩ : ∃ d, a = d + 1 := ⟨a - 1, by omega⟩
  have hlt := iterate_lcg_lt (a := d + 1) (c := c) hx n
  have hsum : (d + 1) ^ n = powers (d + 1) n * d + 1 := (geom_sum_mul_add d n).symm
  have hchange : (d + 1) ^ n * x + c * powers (d + 1) n =
      x + (d * x + c) * powers (d + 1) n := by
    rw [hsum]
    ring
  have hodd : (d * x + c) % 2 = 1 := by
    rw [Nat.add_mod, Nat.mul_mod, show d % 2 = 0 by omega, hc]
    omega
  rw [← two_pow_dvd_powers ha k n, ← two_pow_dvd_odd_mul hodd]
  constructor
  · intro hback
    have hmod := iterate_lcg_mod (d + 1) c (2 ^ k) x n
    rw [hback, hchange] at hmod
    have hzero := Nat.sub_mod_eq_zero_of_mod_eq hmod.symm
    rw [Nat.add_sub_cancel_left] at hzero
    exact Nat.dvd_of_mod_eq_zero hzero
  · intro hdvd
    have hmod := iterate_lcg_mod (d + 1) c (2 ^ k) x n
    obtain ⟨q, hq⟩ := hdvd
    rw [hchange, hq, Nat.add_mul_mod_self_left, Nat.mod_eq_of_lt hlt, Nat.mod_eq_of_lt hx] at hmod
    exact hmod

theorem minimalPeriod_lcg (ha : a % 4 = 1) (hc : c % 2 = 1) (hx : x < 2 ^ k) :
    Function.minimalPeriod (lcg a c (2 ^ k)) x = 2 ^ k := by
  apply Nat.dvd_antisymm
  · apply Function.IsPeriodicPt.minimalPeriod_dvd
    exact (iterate_lcg_eq_iff ha hc hx _).mpr dvd_rfl
  · exact (iterate_lcg_eq_iff ha hc hx _).mp (Function.isPeriodicPt_minimalPeriod _ x)

/-- **One cycle.**  The first `2 ^ k` seeds are all the seeds. -/
theorem image_iterate_lcg (ha : a % 4 = 1) (hc : c % 2 = 1) (hx : x < 2 ^ k) :
    (range (2 ^ k)).image (fun n => (lcg a c (2 ^ k))^[n] x) = range (2 ^ k) := by
  have hinj : Set.InjOn (fun n => (lcg a c (2 ^ k))^[n] x) (range (2 ^ k)) := by
    have h := Function.iterate_injOn_Iio_minimalPeriod (f := lcg a c (2 ^ k)) (x := x)
    rw [minimalPeriod_lcg ha hc hx] at h
    rw [coe_range]
    exact h
  apply eq_of_subset_of_card_le
  · intro y hy
    obtain ⟨n, -, rfl⟩ := mem_image.mp hy
    exact mem_range.mpr (iterate_lcg_lt hx n)
  · rw [card_image_of_injOn hinj]

/-- **Counting.**  Whatever is asked of the seeds, in `2 ^ k` steps it is met once for every
seed that has it. -/
theorem card_iterate_lcg (ha : a % 4 = 1) (hc : c % 2 = 1) (hx : x < 2 ^ k) (p : Nat → Prop)
    [DecidablePred p] :
    ((range (2 ^ k)).filter fun n => p ((lcg a c (2 ^ k))^[n] x)).card =
      ((range (2 ^ k)).filter p).card := by
  have hinj : Set.InjOn (fun n => (lcg a c (2 ^ k))^[n] x)
      ((range (2 ^ k)).filter fun n => p ((lcg a c (2 ^ k))^[n] x)) := by
    have h := Function.iterate_injOn_Iio_minimalPeriod (f := lcg a c (2 ^ k)) (x := x)
    rw [minimalPeriod_lcg ha hc hx] at h
    apply h.mono
    intro n hn
    exact mem_range.mp (mem_filter.mp (mem_coe.mp hn)).1
  rw [← card_image_of_injOn hinj]
  congr 1
  conv_rhs => rw [← image_iterate_lcg ha hc hx]
  rw [filter_image]

/-- The low bits of the seeds are the seeds of a smaller generator. -/
theorem iterate_lcg_mod_two_pow {j : Nat} (hj : j ≤ k) (n : Nat) :
    (lcg a c (2 ^ k))^[n] x % 2 ^ j = (lcg a c (2 ^ j))^[n] (x % 2 ^ j) := by
  induction n with
  | zero => rfl
  | succ n ih =>
    rw [Function.iterate_succ_apply', Function.iterate_succ_apply', ← ih, lcg, lcg,
      Nat.mod_mod_of_dvd _ (Nat.pow_dvd_pow 2 hj)]
    rw [Nat.add_mod, Nat.mul_mod, Nat.add_mod (a * _), Nat.mul_mod a (_ % _), Nat.mod_mod]

end Cycle

end Machine
end Medusa
