import Mathlib.Algebra.Order.Ring.Abs
import Mathlib.Data.List.Range
import Mathlib.Tactic.LinearCombination
import Mathlib.Tactic.Ring
import Mathlib.Tactic.Linarith

/-!
# Digital lines

Points of the integer plane next to a line that climbs at most one unit a column.  A walk
along the columns keeps twice the signed distance from the line, scaled by the width, and
goes up or down when the next point would otherwise be too far off.  What the walk decides
on is that number, so everything about it follows from one invariant.
-/

namespace Medusa
namespace Machine

/-- How far a point is from the line through the origin, in units of half a column: the
line goes `b` up over `a` columns in the direction `s`. -/
def deviation (a b s u v : Int) : Int := 2 * a * (s * v) - 2 * b * u

/-- The points of `n` columns from `(u, v)` on. -/
def lineWalk (a b s : Int) : Nat → Int → Int → Int → List (Int × Int)
  | 0, _, _, _ => []
  | n + 1, u, v, d =>
    (u, v) ::
      if 0 < d then lineWalk a b s n (u + 1) (v + s) (d + 2 * (b - a))
      else lineWalk a b s n (u + 1) v (d + 2 * b)

/-- What a walk from `(u₀, v₀)` knows at a point. -/
structure OnCourse (a b s u₀ v₀ u v d : Int) : Prop where
  decision : d = 2 * b - a - deviation a b s (u - u₀) (v - v₀)
  near : |deviation a b s (u - u₀) (v - v₀)| ≤ a

/-- `points` has one point in each column of `[u₀, u₁)`, next to the line from `(u₀, v₀)` to
`(u₁, v₁)`. -/
structure Follows (u₀ v₀ u₁ v₁ : Int) (points : List (Int × Int)) : Prop where
  columns : points.map Prod.fst = (List.range (u₁ - u₀).toNat).map fun k : Nat => u₀ + k
  near : ∀ p ∈ points,
    |2 * (u₁ - u₀) * (p.2 - v₀) - 2 * (v₁ - v₀) * (p.1 - u₀)| ≤ |u₁ - u₀|
  steps : points.IsChain fun p q => |q.1 - p.1| ≤ 1 ∧ |q.2 - p.2| ≤ 1
  box : ∀ p ∈ points, min u₀ u₁ ≤ p.1 ∧ p.1 ≤ max u₀ u₁ ∧ min v₀ v₁ ≤ p.2 ∧ p.2 ≤ max v₀ v₁

variable {a b s u₀ v₀ u v d : Int} {n : Nat}

/-! ## One column -/

theorem onCourse_start (ha : 0 ≤ a) : OnCourse a b s u₀ v₀ u₀ v₀ (2 * b - a) := by
  have hzero : deviation a b s (u₀ - u₀) (v₀ - v₀) = 0 := by
    rw [deviation]
    ring
  constructor
  · rw [hzero, sub_zero]
  · rw [hzero, abs_zero]
    exact ha

/-- Up: the point would have come too low. -/
theorem OnCourse.climb (h : OnCourse a b s u₀ v₀ u v d) (hs : s * s = 1) (hab : b ≤ a)
    (hd : 0 < d) : OnCourse a b s u₀ v₀ (u + 1) (v + s) (d + 2 * (b - a)) := by
  have hnext : deviation a b s (u + 1 - u₀) (v + s - v₀) =
      deviation a b s (u - u₀) (v - v₀) + 2 * a - 2 * b := by
    rw [deviation, deviation]
    linear_combination 2 * a * hs
  have hdecision := h.decision
  have hnear := abs_le.mp h.near
  constructor
  · rw [hnext]
    omega
  · rw [hnext, abs_le]
    omega

/-- Level: the point is near enough as it is. -/
theorem OnCourse.stay (h : OnCourse a b s u₀ v₀ u v d) (hb : 0 ≤ b) (hd : ¬ 0 < d) :
    OnCourse a b s u₀ v₀ (u + 1) v (d + 2 * b) := by
  have hnext : deviation a b s (u + 1 - u₀) (v - v₀) =
      deviation a b s (u - u₀) (v - v₀) - 2 * b := by
    rw [deviation, deviation]
    ring
  have hdecision := h.decision
  have hnear := abs_le.mp h.near
  constructor
  · rw [hnext]
    omega
  · rw [hnext, abs_le]
    omega

/-- The number that is decided on stays between these. -/
theorem OnCourse.bounds (h : OnCourse a b s u₀ v₀ u v d) : 2 * b - 2 * a ≤ d ∧ d ≤ 2 * b := by
  have hdecision := h.decision
  have hnear := abs_le.mp h.near
  omega

/-- The walk does not leave the height of the line. -/
theorem OnCourse.height (h : OnCourse a b s u₀ v₀ u v d) (ha : 0 < a) (hb : 0 ≤ b)
    (hlo : u₀ ≤ u) (hhi : u ≤ u₀ + a) : 0 ≤ s * (v - v₀) ∧ s * (v - v₀) ≤ b := by
  obtain ⟨hlow, hhigh⟩ := abs_le.mp h.near
  rw [deviation] at hlow hhigh
  have hleft : 0 ≤ b * (u - u₀) := mul_nonneg hb (by omega)
  have hright : b * (u - u₀) ≤ b * a := mul_le_mul_of_nonneg_left (by omega) hb
  constructor
  · -- one unit below the origin would be two widths off
    by_contra hneg
    have hmul : a * (s * (v - v₀)) ≤ a * (-1) := mul_le_mul_of_nonneg_left (by omega) ha.le
    linarith
  · by_contra hover
    have hmul : a * (b + 1) ≤ a * (s * (v - v₀)) := mul_le_mul_of_nonneg_left (by omega) ha.le
    linarith

/-! ## The walk -/

theorem lineWalk_columns (a b s : Int) (n : Nat) (u v d : Int) :
    (lineWalk a b s n u v d).map Prod.fst = (List.range n).map fun k : Nat => u + k := by
  induction n generalizing u v d with
  | zero => rfl
  | succ n ih =>
    have hrest : (List.range n).map (fun k : Nat => u + 1 + (k : Int)) =
        (List.range n).map (fun k : Nat => u + ((k + 1 : Nat) : Int)) := by
      refine List.map_congr_left fun k _ => ?_
      omega
    rw [List.range_succ_eq_map, List.map_cons, List.map_map, lineWalk, List.map_cons]
    congr 1
    · exact (add_zero u).symm
    · refine Eq.trans ?_ hrest
      split
      · exact ih _ _ _
      · exact ih _ _ _

theorem lineWalk_head {p : Int × Int} (hp : p ∈ (lineWalk a b s n u v d).head?) : p = (u, v) := by
  cases n with
  | zero => exact absurd hp (Option.not_mem_none p)
  | succ n =>
    rw [lineWalk, List.head?_cons, Option.mem_some_iff] at hp
    exact hp.symm

theorem lineWalk_steps (hs : |s| ≤ 1) (n : Nat) (u v d : Int) :
    (lineWalk a b s n u v d).IsChain fun p q => |q.1 - p.1| ≤ 1 ∧ |q.2 - p.2| ≤ 1 := by
  induction n generalizing u v d with
  | zero => exact List.isChain_nil
  | succ n ih =>
    rw [lineWalk, List.isChain_cons]
    split
    · refine ⟨fun p hp => ?_, ih _ _ _⟩
      obtain rfl := lineWalk_head hp
      simp [hs]
    · refine ⟨fun p hp => ?_, ih _ _ _⟩
      obtain rfl := lineWalk_head hp
      simp

/-- Every point of the walk was on course. -/
theorem lineWalk_onCourse (h : OnCourse a b s u₀ v₀ u v d) (hs : s * s = 1) (hb : 0 ≤ b)
    (hab : b ≤ a) (n : Nat) :
    ∀ p ∈ lineWalk a b s n u v d,
      u ≤ p.1 ∧ p.1 < u + n ∧ ∃ d', OnCourse a b s u₀ v₀ p.1 p.2 d' := by
  induction n generalizing u v d with
  | zero => exact fun p hp => absurd hp List.not_mem_nil
  | succ n ih =>
    intro p hp
    rw [lineWalk, List.mem_cons] at hp
    rcases hp with rfl | hp
    · exact ⟨le_refl u, by dsimp only; omega, d, h⟩
    · split at hp
      · next hd =>
        obtain ⟨hlo, hhi, hcourse⟩ := ih (h.climb hs hab hd) p hp
        exact ⟨by omega, by omega, hcourse⟩
      · next hd =>
        obtain ⟨hlo, hhi, hcourse⟩ := ih (h.stay hb hd) p hp
        exact ⟨by omega, by omega, hcourse⟩

/-! ## Lines between two points -/

/-- Which way the line goes. -/
def heading (v₀ v₁ : Int) : Int := if v₁ - v₀ < 0 then -1 else 1

theorem heading_mul_self (v₀ v₁ : Int) : heading v₀ v₁ * heading v₀ v₁ = 1 := by
  unfold heading
  split <;> rfl

theorem heading_mul_abs (v₀ v₁ : Int) : heading v₀ v₁ * |v₁ - v₀| = v₁ - v₀ := by
  unfold heading
  split
  · next hneg => rw [abs_of_neg hneg, neg_one_mul, neg_neg]
  · next hpos => rw [abs_of_nonneg (not_lt.mp hpos), one_mul]

theorem abs_heading (v₀ v₁ : Int) : |heading v₀ v₁| = 1 := by
  unfold heading
  split <;> rfl

/-- A height along the line's direction is a height between its ends. -/
theorem between_of_heading {v₀ v₁ v : Int} (hlo : 0 ≤ heading v₀ v₁ * (v - v₀))
    (hhi : heading v₀ v₁ * (v - v₀) ≤ |v₁ - v₀|) : min v₀ v₁ ≤ v ∧ v ≤ max v₀ v₁ := by
  unfold heading at hlo hhi
  split at hlo
  · next hneg =>
    rw [if_pos hneg, abs_of_neg hneg] at hhi
    omega
  · next hpos =>
    rw [if_neg hpos, abs_of_nonneg (not_lt.mp hpos)] at hhi
    omega

/-- **The walk follows the line.** -/
theorem lineWalk_follows {u₀ v₀ u₁ v₁ : Int} (hu : u₀ < u₁) (hslope : |v₁ - v₀| ≤ u₁ - u₀) :
    Follows u₀ v₀ u₁ v₁ (lineWalk (u₁ - u₀) |v₁ - v₀| (heading v₀ v₁) (u₁ - u₀).toNat u₀ v₀
      (2 * |v₁ - v₀| - (u₁ - u₀))) := by
  have hb := abs_nonneg (v₁ - v₀)
  have hs := heading_mul_self v₀ v₁
  have hstart : OnCourse (u₁ - u₀) |v₁ - v₀| (heading v₀ v₁) u₀ v₀ u₀ v₀
      (2 * |v₁ - v₀| - (u₁ - u₀)) := onCourse_start (by omega)
  have hcourse := lineWalk_onCourse hstart hs hb hslope (u₁ - u₀).toNat
  refine ⟨lineWalk_columns _ _ _ _ _ _ _, fun p hp => ?_,
    lineWalk_steps (abs_heading v₀ v₁).le _ _ _ _, fun p hp => ?_⟩
  · obtain ⟨-, -, d, hon⟩ := hcourse p hp
    have hturn : 2 * (u₁ - u₀) * (p.2 - v₀) - 2 * (v₁ - v₀) * (p.1 - u₀) =
        heading v₀ v₁ * deviation (u₁ - u₀) |v₁ - v₀| (heading v₀ v₁) (p.1 - u₀) (p.2 - v₀) := by
      rw [deviation]
      linear_combination (-2 * (u₁ - u₀) * (p.2 - v₀)) * hs +
        2 * (p.1 - u₀) * heading_mul_abs v₀ v₁
    rw [hturn, abs_mul, abs_heading, one_mul]
    exact hon.near.trans (le_abs_self _)
  · obtain ⟨hlo, hhi, d, hon⟩ := hcourse p hp
    obtain ⟨hlow, hhigh⟩ := hon.height (by omega) hb hlo (by omega)
    have hheight := between_of_heading hlow hhigh
    omega

end Machine
end Medusa
