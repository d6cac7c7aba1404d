import Medusa.Kernel.Misc
import Medusa.Machine.DigitalLine
import Medusa.Machine.Loop

/-!
# Lines

`draw_line` and what it calls, as the pixels that are painted, in order; they all get the
colour of the call.  Rows and columns are painted from end to end by loops of their own.
The other lines are walks that stop one pixel short of their second end.

An `int` that overflows has no meaning in C and stops the model.
-/

namespace Medusa
namespace Graphics

open Machine Kernel

/-! ## The code -/

/-- The value of an `int` expression. -/
def cInt (n : Int) : Except Stop Int := if -2 ^ 31 ≤ n ∧ n < 2 ^ 31 then .ok n else .error .fault

/-- `pixel_offset`, from the fields of `fb_t` that it reads. -/
def pixelOffset (address pitch bpp x y : Nat) : Nat :=
  wrap (wrap (address + wrap (y * pitch)) + wrap (x * bpp) / 8)

/-- The pixels `(x, y)`, …, `(x + last, y)`: the words from that of the first one on. -/
def row (x y last : Int) : List (Int × Int) :=
  (List.range (last + 1).toNat).map fun i : Nat => (x + i, y)

/-- The pixels `(x, y)`, …, `(x, y + last)`, a pitch apart. -/
def column (x y last : Int) : List (Int × Int) :=
  (List.range (last + 1).toNat).map fun i : Nat => (x, y + i)

def drawLineHorizontal (x0 x1 y : Int) : Except Stop (List (Int × Int)) := do
  let (x0, x1) := if x1 < x0 then (x1, x0) else (x0, x1)
  let last ← cInt (x1 - x0)
  return row x0 y last

def drawLineVertical (x y0 y1 : Int) : Except Stop (List (Int × Int)) := do
  let (y0, y1) := if y1 < y0 then (y1, y0) else (y0, y1)
  let last ← cInt (y1 - y0)
  return column x y0 last

/-- `int yi = 1; if (dy < 0) { yi = -1; dy = -dy; }` -/
def orient (dy : Int) : Except Stop (Int × Int) :=
  if dy < 0 then do return (-1, ← cInt (-dy)) else .ok (1, dy)

/-- `n` rounds of `for (x = x0; x < x1; x++)`. -/
def lowLoop (dx dy yi : Int) : Nat → Int → Int → Int → Except Stop (List (Int × Int))
  | 0, _, _, _ => .ok []
  | n + 1, x, y, d => do
    let (y', d) ←
      if 0 < d then do
        let y' ← cInt (y + yi)
        let d ← cInt (d - (← cInt (2 * dx)))
        pure (y', d)
      else pure (y, d)
    let d ← cInt (d + (← cInt (2 * dy)))
    let rest ← lowLoop dx dy yi n (← cInt (x + 1)) y' d
    return (x, y) :: rest

def drawLineLow (x0 y0 x1 y1 : Int) : Except Stop (List (Int × Int)) := do
  let dx ← cInt (x1 - x0)
  let dy ← cInt (y1 - y0)
  let (yi, dy) ← orient dy
  let d ← cInt ((← cInt (2 * dy)) - dx)
  lowLoop dx dy yi (x1 - x0).toNat x0 y0 d

/-- `n` rounds of `for (y = y0; y < y1; y++)`. -/
def highLoop (dx dy xi : Int) : Nat → Int → Int → Int → Except Stop (List (Int × Int))
  | 0, _, _, _ => .ok []
  | n + 1, x, y, d => do
    let (x', d) ←
      if 0 < d then do
        let x' ← cInt (x + xi)
        let d ← cInt (d + (← cInt (2 * (← cInt (dx - dy)))))
        pure (x', d)
      else do
        let d ← cInt (d + (← cInt (2 * dx)))
        pure (x, d)
    let rest ← highLoop dx dy xi n x' (← cInt (y + 1)) d
    return (x, y) :: rest

def drawLineHigh (x0 y0 x1 y1 : Int) : Except Stop (List (Int × Int)) := do
  let dx ← cInt (x1 - x0)
  let dy ← cInt (y1 - y0)
  let (xi, dx) ← orient dx
  let d ← cInt ((← cInt (2 * dx)) - dy)
  highLoop dx dy xi (y1 - y0).toNat x0 y0 d

/-- The last part of `draw_line`. -/
def drawLineOblique (x0 y0 x1 y1 : Int) : Except Stop (List (Int × Int)) := do
  let height ← cInt |← cInt (y1 - y0)|
  let width ← cInt |← cInt (x1 - x0)|
  if height < width then
    if x1 < x0 then drawLineLow x1 y1 x0 y0 else drawLineLow x0 y0 x1 y1
  else if y1 < y0 then drawLineHigh x1 y1 x0 y0
  else drawLineHigh x0 y0 x1 y1

/-- `draw_line`.  It goes on when it has drawn a column. -/
def drawLine (x0 y0 x1 y1 : Int) : Except Stop (List (Int × Int)) :=
  if y0 = y1 then drawLineHorizontal x0 x1 y0
  else if x0 = x1 then do
    let first ← drawLineVertical x0 y0 y1
    let rest ← drawLineOblique x0 y0 x1 y1
    return first ++ rest
  else drawLineOblique x0 y0 x1 y1

/-! ## Where rows and columns go -/

/-- On 32 bits a pixel, the words of a row are those of its pixels. -/
theorem pixelOffset_right {address pitch x y i : Nat} (h : (x + i) * 32 < 2 ^ 32) :
    pixelOffset address pitch 32 (x + i) y = wrap (pixelOffset address pitch 32 x y + 4 * i) := by
  unfold pixelOffset
  rw [wrap_of_lt h, wrap_of_lt (show x * 32 < 2 ^ 32 by omega)]
  unfold wrap
  omega

theorem pixelOffset_down (address pitch bpp x y : Nat) :
    pixelOffset address pitch bpp x (y + 1) = wrap (pixelOffset address pitch bpp x y + pitch) := by
  unfold pixelOffset wrap
  rw [Nat.succ_mul]
  omega

/-! ## The loops are walks -/

theorem cInt_eq {n : Int} (hlo : -2 ^ 31 ≤ n) (hhi : n < 2 ^ 31) : cInt n = .ok n :=
  if_pos ⟨hlo, hhi⟩

theorem cInt_eq_ok {n m : Int} (h : cInt n = .ok m) : m = n ∧ -2 ^ 31 ≤ n ∧ n < 2 ^ 31 := by
  unfold cInt at h
  split at h
  · exact ⟨(Except.ok.inj h).symm, ‹_›⟩
  · cases h

/-- A line from `(u₀, v₀)` over `a` columns, with coordinates below `2 ^ 28`. -/
structure Short (a b s u₀ v₀ : Int) : Prop where
  sign : s = 1 ∨ s = -1
  pos : 0 < a
  flat : 0 ≤ b
  slope : b ≤ a
  start : |u₀| < 2 ^ 28
  stop : |u₀ + a| < 2 ^ 28
  height : |v₀| < 2 ^ 28

section Walk

variable {a b s u₀ v₀ u v d : Int} {n : Nat}

theorem Short.sign_mul_self (h : Short a b s u₀ v₀) : s * s = 1 := by
  rcases h.sign with rfl | rfl
  · rfl
  · rfl

/-- The numbers of a round fit. -/
theorem Short.fits (h : Short a b s u₀ v₀) (hon : OnCourse a b s u₀ v₀ u v d) (hlo : u₀ ≤ u)
    (hhi : u ≤ u₀ + a) : a < 2 ^ 29 ∧ |v| < 2 ^ 30 ∧ -2 ^ 30 < d ∧ d < 2 ^ 30 := by
  have hstart := abs_lt.mp h.start
  have hstop := abs_lt.mp h.stop
  have hheight := abs_lt.mp h.height
  have hflat := h.flat
  have hslope := h.slope
  have hbounds := hon.bounds
  have hside := hon.height h.pos h.flat hlo hhi
  rw [abs_lt]
  rcases h.sign with rfl | rfl
  · omega
  · omega

theorem lowLoop_eq (h : Short a b s u₀ v₀) (hon : OnCourse a b s u₀ v₀ u v d) (hlo : u₀ ≤ u)
    (hn : u + n = u₀ + a) : lowLoop a b s n u v d = .ok (lineWalk a b s n u v d) := by
  induction n generalizing u v d with
  | zero => rfl
  | succ n ih =>
    obtain ⟨hwide, hv, hd, hd'⟩ := h.fits hon hlo (by omega)
    have hv' := abs_lt.mp hv
    have hstop := abs_lt.mp h.stop
    have hflat := h.flat
    have hslope := h.slope
    have hpos := h.pos
    have hs : -1 ≤ s ∧ s ≤ 1 := by
      rcases h.sign with rfl | rfl
      · decide
      · decide
    rw [lowLoop, lineWalk]
    by_cases hup : 0 < d
    · have hnext := ih (hon.climb h.sign_mul_self h.slope hup) (by omega) (by omega)
      rw [show d + 2 * (b - a) = d - 2 * a + 2 * b by omega] at hnext ⊢
      simp only [if_pos hup, cInt_eq (show -2 ^ 31 ≤ v + s by omega) (by omega),
        cInt_eq (show -2 ^ 31 ≤ 2 * a by omega) (by omega),
        cInt_eq (show -2 ^ 31 ≤ d - 2 * a by omega) (by omega),
        cInt_eq (show -2 ^ 31 ≤ 2 * b by omega) (by omega),
        cInt_eq (show -2 ^ 31 ≤ d - 2 * a + 2 * b by omega) (by omega),
        cInt_eq (show -2 ^ 31 ≤ u + 1 by omega) (by omega), ok_bind, pure_bind, hnext]
      rfl
    · have hnext := ih (hon.stay h.flat hup) (by omega) (by omega)
      simp only [if_neg hup, cInt_eq (show -2 ^ 31 ≤ 2 * b by omega) (by omega),
        cInt_eq (show -2 ^ 31 ≤ d + 2 * b by omega) (by omega),
        cInt_eq (show -2 ^ 31 ≤ u + 1 by omega) (by omega), ok_bind, pure_bind, hnext]
      rfl

/-- The other loop is the same walk with its coordinates exchanged. -/
theorem highLoop_eq (h : Short a b s u₀ v₀) (hon : OnCourse a b s u₀ v₀ u v d) (hlo : u₀ ≤ u)
    (hn : u + n = u₀ + a) :
    highLoop b a s n v u d = .ok ((lineWalk a b s n u v d).map Prod.swap) := by
  induction n generalizing u v d with
  | zero => rfl
  | succ n ih =>
    obtain ⟨hwide, hv, hd, hd'⟩ := h.fits hon hlo (by omega)
    have hv' := abs_lt.mp hv
    have hstop := abs_lt.mp h.stop
    have hflat := h.flat
    have hslope := h.slope
    have hpos := h.pos
    have hs : -1 ≤ s ∧ s ≤ 1 := by
      rcases h.sign with rfl | rfl
      · decide
      · decide
    rw [highLoop, lineWalk]
    by_cases hup : 0 < d
    · have hnext := ih (hon.climb h.sign_mul_self h.slope hup) (by omega) (by omega)
      simp only [if_pos hup, cInt_eq (show -2 ^ 31 ≤ v + s by omega) (by omega),
        cInt_eq (show -2 ^ 31 ≤ b - a by omega) (by omega),
        cInt_eq (show -2 ^ 31 ≤ 2 * (b - a) by omega) (by omega),
        cInt_eq (show -2 ^ 31 ≤ d + 2 * (b - a) by omega) (by omega),
        cInt_eq (show -2 ^ 31 ≤ u + 1 by omega) (by omega), ok_bind, pure_bind, hnext]
      rfl
    · have hnext := ih (hon.stay h.flat hup) (by omega) (by omega)
      simp only [if_neg hup, cInt_eq (show -2 ^ 31 ≤ 2 * b by omega) (by omega),
        cInt_eq (show -2 ^ 31 ≤ d + 2 * b by omega) (by omega),
        cInt_eq (show -2 ^ 31 ≤ u + 1 by omega) (by omega), ok_bind, pure_bind, hnext]
      rfl

end Walk

/-! ## Lines that are no rows or columns -/

section Lines

variable {x0 y0 x1 y1 : Int}

/-- The ends have coordinates of magnitude below `2 ^ 28`. -/
structure Ends (x0 y0 x1 y1 : Int) : Prop where
  x0 : |x0| < 2 ^ 28
  y0 : |y0| < 2 ^ 28
  x1 : |x1| < 2 ^ 28
  y1 : |y1| < 2 ^ 28

theorem Ends.swap (h : Ends x0 y0 x1 y1) : Ends x1 y1 x0 y0 := ⟨h.x1, h.y1, h.x0, h.y0⟩

theorem abs_sub_lt {m n : Int} (hm : |m| < 2 ^ 28) (hn : |n| < 2 ^ 28) : |m - n| < 2 ^ 29 := by
  rw [abs_lt] at hm hn ⊢
  omega

theorem cInt_of_abs {n : Int} (h : |n| < 2 ^ 30) : cInt n = .ok n := by
  have hn := abs_lt.mp h
  exact cInt_eq (by omega) (by omega)

theorem orient_eq {v₀ v₁ : Int} (h : |v₁ - v₀| < 2 ^ 29) :
    orient (v₁ - v₀) = .ok (heading v₀ v₁, |v₁ - v₀|) := by
  unfold orient heading
  by_cases hn : v₁ - v₀ < 0
  · rw [if_pos hn, if_pos hn, cInt_of_abs (by
      rw [abs_neg]
      exact h.trans (by decide)), abs_of_neg hn]
    rfl
  · rw [if_neg hn, if_neg hn, abs_of_nonneg (not_lt.mp hn)]

theorem short_of_ends {u₀ v₀ u₁ v₁ : Int} (h : Ends u₀ v₀ u₁ v₁) (hu : u₀ < u₁)
    (hslope : |v₁ - v₀| ≤ u₁ - u₀) : Short (u₁ - u₀) |v₁ - v₀| (heading v₀ v₁) u₀ v₀ where
  sign := by
    unfold heading
    split
    · exact .inr rfl
    · exact .inl rfl
  pos := by omega
  flat := abs_nonneg _
  slope := hslope
  start := h.x0
  stop := by
    rw [show u₀ + (u₁ - u₀) = u₁ by omega]
    exact h.x1
  height := h.y0

theorem drawLineLow_follows (h : Ends x0 y0 x1 y1) (hx : x0 < x1) (hslope : |y1 - y0| ≤ x1 - x0) :
    ∃ pixels, drawLineLow x0 y0 x1 y1 = .ok pixels ∧ Follows x0 y0 x1 y1 pixels := by
  refine ⟨_, ?_, lineWalk_follows hx hslope⟩
  have hwidth := abs_sub_lt h.x1 h.x0
  have hheight := abs_sub_lt h.y1 h.y0
  have hnonneg := abs_nonneg (y1 - y0)
  have hwide := abs_lt.mp hwidth
  rw [drawLineLow, cInt_of_abs (hwidth.trans (by decide)), ok_bind,
    cInt_of_abs (hheight.trans (by decide)), ok_bind, orient_eq hheight, ok_bind]
  simp only [ok_bind,
    cInt_eq (show -2 ^ 31 ≤ 2 * |y1 - y0| by omega) (by omega),
    cInt_eq (show -2 ^ 31 ≤ 2 * |y1 - y0| - (x1 - x0) by omega) (by omega)]
  exact lowLoop_eq (short_of_ends h hx hslope) (onCourse_start (by omega)) (le_refl x0) (by omega)

theorem drawLineHigh_follows (h : Ends x0 y0 x1 y1) (hy : y0 < y1) (hslope : |x1 - x0| ≤ y1 - y0) :
    ∃ pixels, drawLineHigh x0 y0 x1 y1 = .ok (pixels.map Prod.swap) ∧
      Follows y0 x0 y1 x1 pixels := by
  refine ⟨_, ?_, lineWalk_follows hy hslope⟩
  have hwidth := abs_sub_lt h.x1 h.x0
  have hheight := abs_sub_lt h.y1 h.y0
  have hnonneg := abs_nonneg (x1 - x0)
  have hhigh := abs_lt.mp hheight
  have hends : Ends y0 x0 y1 x1 := ⟨h.y0, h.x0, h.y1, h.x1⟩
  rw [drawLineHigh, cInt_of_abs (hwidth.trans (by decide)), ok_bind,
    cInt_of_abs (hheight.trans (by decide)), ok_bind, orient_eq hwidth, ok_bind]
  simp only [ok_bind,
    cInt_eq (show -2 ^ 31 ≤ 2 * |x1 - x0| by omega) (by omega),
    cInt_eq (show -2 ^ 31 ≤ 2 * |x1 - x0| - (y1 - y0) by omega) (by omega)]
  exact highLoop_eq (short_of_ends hends hy hslope) (onCourse_start (by omega)) (le_refl y0)
    (by omega)

/-- The line from its first end on, with the ends in the order in which they are drawn. -/
def FollowsLow (x0 y0 x1 y1 : Int) (pixels : List (Int × Int)) : Prop :=
  if x1 < x0 then Follows x1 y1 x0 y0 pixels else Follows x0 y0 x1 y1 pixels

/-- The same with rows for columns. -/
def FollowsHigh (x0 y0 x1 y1 : Int) (pixels : List (Int × Int)) : Prop :=
  if y1 < y0 then Follows y1 x1 y0 x0 (pixels.map Prod.swap)
  else Follows y0 x0 y1 x1 (pixels.map Prod.swap)

theorem map_swap_swap (pixels : List (Int × Int)) :
    (pixels.map Prod.swap).map Prod.swap = pixels := by
  rw [List.map_map, Prod.swap_swap_eq, List.map_id]

/-- What the last part of `draw_line` paints. -/
def FollowsOblique (x0 y0 x1 y1 : Int) (pixels : List (Int × Int)) : Prop :=
  if |y1 - y0| < |x1 - x0| then FollowsLow x0 y0 x1 y1 pixels else FollowsHigh x0 y0 x1 y1 pixels

theorem drawLineOblique_follows (h : Ends x0 y0 x1 y1) (hy : y0 ≠ y1) :
    ∃ pixels, drawLineOblique x0 y0 x1 y1 = .ok pixels ∧ FollowsOblique x0 y0 x1 y1 pixels := by
  have hwidth := abs_sub_lt h.x1 h.x0
  have hheight := abs_sub_lt h.y1 h.y0
  have habs : ∀ n : Int, |n| < 2 ^ 29 → cInt n = .ok n ∧ cInt |n| = .ok |n| := fun n hn =>
    ⟨cInt_of_abs (hn.trans (by decide)), cInt_of_abs (by
      rw [abs_abs]
      exact hn.trans (by decide))⟩
  unfold FollowsOblique FollowsLow FollowsHigh
  rw [drawLineOblique, (habs _ hheight).1, ok_bind, (habs _ hheight).2, ok_bind, (habs _ hwidth).1,
    ok_bind, (habs _ hwidth).2, ok_bind]
  by_cases hflat : |y1 - y0| < |x1 - x0|
  · simp only [if_pos hflat]
    by_cases hswap : x1 < x0
    · simp only [if_pos hswap]
      refine drawLineLow_follows h.swap hswap ?_
      rw [abs_sub_comm]
      exact hflat.le.trans (by rw [abs_sub_comm, abs_of_pos (by omega)])
    · simp only [if_neg hswap]
      refine drawLineLow_follows h ?_ ?_
      · by_contra hle
        rw [show x1 = x0 by omega, sub_self, abs_zero] at hflat
        exact absurd hflat (not_lt.mpr (abs_nonneg _))
      · exact hflat.le.trans (by rw [abs_of_nonneg (by omega)])
  · simp only [if_neg hflat]
    have hsteep := not_lt.mp hflat
    by_cases hswap : y1 < y0
    · simp only [if_pos hswap]
      obtain ⟨pixels, hrun, hfollows⟩ := drawLineHigh_follows h.swap hswap (by
        rw [abs_sub_comm]
        exact hsteep.trans (by rw [abs_sub_comm, abs_of_pos (by omega)]))
      exact ⟨_, hrun, by rwa [map_swap_swap]⟩
    · simp only [if_neg hswap]
      obtain ⟨pixels, hrun, hfollows⟩ := drawLineHigh_follows h (by omega)
        (hsteep.trans (by rw [abs_of_nonneg (by omega)]))
      exact ⟨_, hrun, by rwa [map_swap_swap]⟩

/-- **`draw_line` follows the line.**  Between ends in different rows and columns it paints
one pixel a column, or one a row, at most half a pixel from the line, and no `int`
overflows on the way. -/
theorem drawLine_follows (h : Ends x0 y0 x1 y1) (hx : x0 ≠ x1) (hy : y0 ≠ y1) :
    ∃ pixels, drawLine x0 y0 x1 y1 = .ok pixels ∧ FollowsOblique x0 y0 x1 y1 pixels := by
  obtain ⟨pixels, hrun, hfollows⟩ := drawLineOblique_follows h hy
  refine ⟨pixels, ?_, hfollows⟩
  rw [drawLine, if_neg hy, if_neg hx, hrun]

theorem drawLine_follows_shallow : ∃ pixels, drawLine 5 1 0 3 = .ok pixels ∧
    FollowsOblique 5 1 0 3 pixels :=
  drawLine_follows ⟨by decide, by decide, by decide, by decide⟩ (by decide) (by decide)

end Lines

end Graphics
end Medusa
