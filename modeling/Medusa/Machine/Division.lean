import Mathlib.Algebra.Order.Group.Unbundled.Abs
import Mathlib.Algebra.Order.Ring.Int

/-!
# Division of signed words

C rounds a quotient towards zero, so a remainder has the sign of the numerator.  That law
has one solution, and on words of `w` bits there is one quotient that does not fit: that of
the least number by minus one.
-/

namespace Medusa
namespace Machine

/-- The values of a signed word of `w` bits. -/
def Signed (w : Nat) (n : Int) : Prop := -2 ^ (w - 1) ≤ n ∧ n < 2 ^ (w - 1)

instance (w : Nat) (n : Int) : Decidable (Signed w n) := inferInstanceAs (Decidable (_ ∧ _))

/-- What a division promises of its two results. -/
structure Divides (num denom quot rem : Int) : Prop where
  total : num = quot * denom + rem
  small : |rem| < |denom|
  sign : rem = 0 ∨ rem.sign = num.sign

variable {w : Nat} {num denom quot rem : Int}

theorem divides_tdiv (hdenom : denom ≠ 0) :
    Divides num denom (num.tdiv denom) (num.tmod denom) where
  total := by
    rw [Int.mul_comm]
    exact (Int.mul_tdiv_add_tmod num denom).symm
  small := by
    rw [Int.abs_eq_natAbs, Int.abs_eq_natAbs, Int.natAbs_tmod]
    exact Int.ofNat_lt.mpr (Nat.mod_lt _ (Int.natAbs_pos.mpr hdenom))
  sign := by
    rw [← Int.sign_eq_zero_iff_zero, Int.sign_tmod]
    by_cases hdvd : denom ∣ num
    · exact .inl (if_pos hdvd)
    · exact .inr (if_neg hdvd)

/-- The law has one solution. -/
theorem Divides.unique (h : Divides num denom quot rem) :
    num.tdiv denom = quot ∧ num.tmod denom = rem := by
  have htotal : rem + denom * quot = num := by
    rw [h.total, Int.mul_comm, Int.add_comm]
  have hsmall := h.small
  rw [Int.abs_eq_natAbs, Int.abs_eq_natAbs, Int.ofNat_lt] at hsmall
  have hdenom : denom ≠ 0 := by
    rintro rfl
    exact Nat.not_lt_zero _ hsmall
  rcases Int.le_total 0 num with hnum | hnum
  · have hrem : 0 ≤ rem := by
      rcases h.sign with hzero | hsign
      · exact hzero.ge
      · rwa [← Int.sign_nonneg_iff, hsign, Int.sign_nonneg_iff]
    exact (Int.tdiv_tmod_unique hnum hdenom).mpr ⟨htotal, hrem, by omega⟩
  · have hrem : rem ≤ 0 := by
      rcases h.sign with hzero | hsign
      · exact hzero.le
      · rwa [← Int.sign_nonpos_iff, hsign, Int.sign_nonpos_iff]
    exact (Int.tdiv_tmod_unique' hnum hdenom).mpr ⟨htotal, by omega, hrem⟩

theorem tdiv_neg_iff (hnum : 0 < num) : num.tdiv denom < 0 ↔ denom < 0 ∧ -denom ≤ num := by
  rw [← Int.sign_eq_neg_one_iff_neg, Int.sign_tdiv, Int.sign_eq_one_of_pos hnum, Int.one_mul]
  by_cases hsmall : num.natAbs < denom.natAbs
  · rw [if_pos hsmall]
    omega
  · rw [if_neg hsmall, Int.sign_eq_neg_one_iff_neg]
    omega

theorem tmod_pos_iff : 0 < num.tmod denom ↔ 0 < num ∧ ¬ denom ∣ num := by
  rw [← Int.sign_eq_one_iff_pos, Int.sign_tmod]
  by_cases hdvd : denom ∣ num
  · simp [hdvd]
  · simp [hdvd]

/-- When a quotient is negative and its remainder positive: never for a negative numerator. -/
theorem tdiv_neg_tmod_pos_iff : num.tdiv denom < 0 ∧ 0 < num.tmod denom ↔
    0 < num ∧ denom < 0 ∧ -denom < num ∧ ¬ denom ∣ num := by
  rw [tmod_pos_iff]
  constructor
  · rintro ⟨hquot, hnum, hdvd⟩
    obtain ⟨hdenom, hle⟩ := (tdiv_neg_iff hnum).mp hquot
    refine ⟨hnum, hdenom, hle.lt_of_ne fun heq => hdvd ?_, hdvd⟩
    exact heq ▸ Int.dvd_neg.mpr (Int.dvd_refl denom)
  · rintro ⟨hnum, hdenom, hlt, hdvd⟩
    exact ⟨(tdiv_neg_iff hnum).mpr ⟨hdenom, hlt.le⟩, hnum, hdvd⟩

/-! ## What fits -/

theorem Signed.of_between {n : Int} (h : Signed w num)
    (hn : 0 ≤ n ∧ n ≤ num ∨ num ≤ n ∧ n ≤ 0) : Signed w n := by
  have hlo := h.1
  have hhi := h.2
  have hpos : (0 : Int) < 2 ^ (w - 1) := Int.pow_pos (by decide)
  exact ⟨by omega, by omega⟩

theorem tmod_between (num denom : Int) :
    0 ≤ num.tmod denom ∧ num.tmod denom ≤ num ∨ num ≤ num.tmod denom ∧ num.tmod denom ≤ 0 := by
  have hle : (num.tmod denom).natAbs ≤ num.natAbs := by
    rw [Int.natAbs_tmod]
    exact Nat.mod_le _ _
  rcases Int.le_total 0 num with hnum | hnum
  · have hrem := Int.tmod_nonneg denom hnum
    omega
  · have hrem := Int.tmod_nonneg denom (Int.neg_nonneg_of_nonpos hnum)
    rw [Int.neg_tmod] at hrem
    omega

/-- The product of the denominator and the quotient is the numerator without the remainder. -/
theorem mul_tdiv_between (num denom : Int) :
    0 ≤ denom * num.tdiv denom ∧ denom * num.tdiv denom ≤ num ∨
      num ≤ denom * num.tdiv denom ∧ denom * num.tdiv denom ≤ 0 := by
  have htotal := Int.mul_tdiv_add_tmod num denom
  have hrem := tmod_between num denom
  omega

theorem Signed.tdiv (h : Signed w num) (hover : ¬ (num = -2 ^ (w - 1) ∧ denom = -1)) :
    Signed w (num.tdiv denom) := by
  have hlo := h.1
  have hhi := h.2
  have hle := Int.natAbs_tdiv_le_natAbs num denom
  have hpos : (0 : Int) < 2 ^ (w - 1) := Int.pow_pos (by decide)
  refine ⟨by omega, ?_⟩
  by_contra hge
  -- only the least number has a quotient as large as this
  have hnum : num = -2 ^ (w - 1) := by omega
  have hquot : num.natAbs / denom.natAbs = num.natAbs := by
    have habs : (num.tdiv denom).natAbs = num.natAbs / denom.natAbs := Int.natAbs_tdiv num denom
    omega
  have hunit : denom.natAbs = 1 := by
    rcases Nat.div_eq_self.mp hquot with hzero | hone
    · omega
    · exact hone
  rcases Int.natAbs_eq_iff.mp hunit with hone | hminus
  · rw [hone, Nat.cast_one, Int.tdiv_one] at hge
    omega
  · exact hover ⟨hnum, hminus⟩

end Machine
end Medusa
