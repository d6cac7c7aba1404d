import Mathlib.Init

/-!
# Bounding boxes

The smallest rectangle around finitely many points of the integer plane.  A figure
that is moved over a screen stays on it exactly when its bounding box does, so what
depends on a figure point by point depends on four numbers.
-/

namespace Medusa
namespace Machine

/-- A rectangle of points, its borders included. -/
structure Box where
  left : Int
  right : Int
  top : Int
  bottom : Int
deriving DecidableEq, Repr

/-- The box of one more point. -/
def Box.extend (b : Box) (x y : Int) : Box where
  left := min x b.left
  right := max x b.right
  top := min y b.top
  bottom := max y b.bottom

/-- The smallest box around some points; there is none around no points. -/
def boundingBox : List (Int × Int) → Option Box
  | [] => none
  | (x, y) :: points =>
    match boundingBox points with
    | none => some ⟨x, x, y, y⟩
    | some b => some (b.extend x y)

/-- The point `(x, y)` lies on a screen of the given size. -/
def Within (width height x y : Int) : Prop :=
  0 ≤ x ∧ x < width ∧ 0 ≤ y ∧ y < height

/-- The box, moved by `(dx, dy)`, lies on a screen of the given size. -/
def Box.FitsAt (b : Box) (width height dx dy : Int) : Prop :=
  0 ≤ dx + b.left ∧ dx + b.right < width ∧ 0 ≤ dy + b.top ∧ dy + b.bottom < height

variable {width height dx dy : Int}

theorem Box.fitsAt_point (x y : Int) :
    (Box.mk x x y y).FitsAt width height dx dy ↔ Within width height (dx + x) (dy + y) :=
  Iff.rfl

theorem Box.fitsAt_extend (b : Box) (x y : Int) :
    (b.extend x y).FitsAt width height dx dy ↔
      Within width height (dx + x) (dy + y) ∧ b.FitsAt width height dx dy := by
  simp only [Box.FitsAt, Box.extend, Within]
  omega

/-- A moved figure lies on the screen exactly when its bounding box does. -/
theorem boundingBox_fitsAt_iff (points : List (Int × Int)) :
    (∀ b ∈ boundingBox points, b.FitsAt width height dx dy) ↔
      ∀ p ∈ points, Within width height (dx + p.1) (dy + p.2) := by
  induction points with
  | nil => simp [boundingBox]
  | cons p points ih =>
    obtain ⟨x, y⟩ := p
    rw [List.forall_mem_cons, ← ih, boundingBox]
    cases boundingBox points with
    | none => simp [Box.fitsAt_point]
    | some b => simp [Box.fitsAt_extend]

end Machine
end Medusa
