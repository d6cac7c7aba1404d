import Medusa.Chip8.Emulator
import Medusa.Machine.Word

/-!
# The screen on the framebuffer

Each of the 64 × 32 pixels of the emulator is a rectangle of pixels of the framebuffer.  The
corner is a quotient of a scaled coordinate and the sides are quotients of their own, so the
rectangles may leave gaps, and whether they overlap is a question about rounding.
-/

namespace Medusa
namespace Chip8
namespace Scaling

open Machine

def colorRed : Nat := 0xFF0000
def colorBlack : Nat := 0x000000

/-- `draw_pixel(fb, x, y, col)`. -/
structure Drawn where
  x : Nat
  y : Nat
  col : Nat
deriving DecidableEq, Repr

/-- One coordinate of a pixel: `x * fb.width / CHIP8_SCREEN_WIDTH + xtemp`, in unsigned
words. -/
def scaled (side cells x xtemp : Nat) : Nat := wrap (wrap (x * side) / cells + xtemp)

/-- `write_chip8_pixel` on a framebuffer of these sides. -/
def writeChip8Pixel (width height x y : Nat) (state : Bool) : List Drawn :=
  (List.range (width / screenWidth)).flatMap fun xtemp =>
    (List.range (height / screenHeight)).map fun ytemp =>
      { x := scaled width screenWidth x xtemp
        y := scaled height screenHeight y ytemp
        col := if state then colorRed else colorBlack }

/-! ## One axis -/

/-- `cells` tiles share a side of the framebuffer. -/
structure Axis (side cells : Nat) : Prop where
  pos : 0 < cells
  fits : cells * side < 2 ^ 32

variable {side cells x x' i j : Nat}

/-- A tile ends where the next one starts, or before. -/
theorem tile_le (side cells x : Nat) :
    x * side / cells + side / cells ≤ (x + 1) * side / cells := by
  rw [Nat.add_mul, Nat.one_mul]
  exact Nat.div_add_div_le_add_div

/-- The last tile ends on the framebuffer. -/
theorem end_le (hx : x < cells) : (x + 1) * side / cells ≤ side :=
  Nat.div_le_of_le_mul (Nat.mul_le_mul_right side hx)

/-- No product is cut, so a coordinate lies between the corners of two tiles. -/
theorem Axis.scaled_mem (h : Axis side cells) (hx : x < cells) (hi : i < side / cells) :
    x * side / cells ≤ scaled side cells x i ∧ scaled side cells x i < (x + 1) * side / cells := by
  have hfits := h.fits
  have hmul : x * side ≤ cells * side := Nat.mul_le_mul_right side (Nat.le_of_lt hx)
  have hside : side ≤ cells * side := Nat.le_mul_of_pos_left side h.pos
  have htile := tile_le side cells x
  have hend := @end_le side cells x hx
  rw [scaled, wrap_of_lt (hmul.trans_lt hfits), wrap_of_lt (by omega)]
  omega

theorem Axis.scaled_lt (h : Axis side cells) (hx : x < cells) (hi : i < side / cells) :
    scaled side cells x i < side :=
  (h.scaled_mem hx hi).2.trans_le (end_le hx)

/-- Tiles of different pixels lie apart. -/
theorem Axis.scaled_ne (h : Axis side cells) (hx : x < cells) (hx' : x' < cells)
    (hi : i < side / cells) (hj : j < side / cells) (hne : x ≠ x') :
    scaled side cells x i ≠ scaled side cells x' j := by
  have hmem := h.scaled_mem hx hi
  have hmem' := h.scaled_mem hx' hj
  rcases Nat.lt_or_gt_of_ne hne with hlt | hlt
  · have hle : (x + 1) * side / cells ≤ x' * side / cells :=
      Nat.div_le_div_right (Nat.mul_le_mul_right side hlt)
    omega
  · have hle : (x' + 1) * side / cells ≤ x * side / cells :=
      Nat.div_le_div_right (Nat.mul_le_mul_right side hlt)
    omega

/-! ## The plane -/

theorem mem_writeChip8Pixel {width height x y : Nat} {state : Bool} {p : Drawn} :
    p ∈ writeChip8Pixel width height x y state ↔
      ∃ i < width / screenWidth, ∃ j < height / screenHeight,
        p = { x := scaled width screenWidth x i, y := scaled height screenHeight y j,
              col := if state then colorRed else colorBlack } := by
  simp only [writeChip8Pixel, List.mem_flatMap, List.mem_map, List.mem_range, eq_comm]

/-- **The pixels of the emulator are tiles of the framebuffer.**  They lie inside and apart,
also when the sides of the framebuffer are no multiples of those of the screen. -/
theorem tiles_inside_apart {width height : Nat} (hwidth : 64 * width < 2 ^ 32)
    (hheight : 64 * height < 2 ^ 32) {x y : Nat} (hx : x < 64) (hy : y < 32) (state : Bool) :
    (∀ p ∈ writeChip8Pixel width height x y state, p.x < width ∧ p.y < height) ∧
      ∀ x' < 64, ∀ y' < 32, (x, y) ≠ (x', y') → ∀ state',
        ∀ p ∈ writeChip8Pixel width height x y state,
          ∀ q ∈ writeChip8Pixel width height x' y' state', (p.x, p.y) ≠ (q.x, q.y) := by
  have hcolumns : Axis width screenWidth := ⟨by decide, hwidth⟩
  have hrows : Axis height screenHeight := ⟨by decide, by
    show 32 * height < 2 ^ 32
    omega⟩
  constructor
  · intro p hp
    obtain ⟨i, hi, j, hj, rfl⟩ := mem_writeChip8Pixel.mp hp
    exact ⟨hcolumns.scaled_lt hx hi, hrows.scaled_lt hy hj⟩
  · intro x' hx' y' hy' hne state' p hp q hq heq
    obtain ⟨i, hi, j, hj, rfl⟩ := mem_writeChip8Pixel.mp hp
    obtain ⟨i', hi', j', hj', rfl⟩ := mem_writeChip8Pixel.mp hq
    obtain ⟨hcol, hrow⟩ := Prod.mk.inj heq
    by_cases hsame : x = x'
    · have hy'' : y ≠ y' := fun he => hne (by rw [hsame, he])
      exact hrows.scaled_ne hy hy' hj hj' hy'' hrow
    · exact hcolumns.scaled_ne hx hx' hi hi' hsame hcol

/-- On 100 × 50 pixels, where neither side is a multiple. -/
theorem tiles_inside_apart_uneven :
    (∀ p ∈ writeChip8Pixel 100 50 63 31 true, p.x < 100 ∧ p.y < 50) ∧
      ∀ x' < 64, ∀ y' < 32, (63, 31) ≠ (x', y') → ∀ state',
        ∀ p ∈ writeChip8Pixel 100 50 63 31 true,
          ∀ q ∈ writeChip8Pixel 100 50 x' y' state', (p.x, p.y) ≠ (q.x, q.y) :=
  tiles_inside_apart (by decide) (by decide) (by decide) (by decide) true

end Scaling
end Chip8
end Medusa
