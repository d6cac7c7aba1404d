import Medusa.Fb.Remap
import Medusa.Graphics.Lines
import Medusa.Machine.Raster

/-!
# What drawings do to memory

The functions of `graphics.c` as writes to a framebuffer, which may be the screen or the
buffer of a window.  Nothing is clipped: a drawing that lies inside paints the pixels of
its shape, and one that does not writes wherever the arithmetic leads.
-/

namespace Medusa
namespace Graphics

open Machine Kernel
open Fb (FbInfo)

/-- `offset[i]` for a character: a row of its glyph in `font_psf`. -/
abbrev Glyphs := BitVec 8 → Nat → BitVec 8

namespace Pixels

/-! ## The code -/

def offset (fb : FbInfo) (x y : BitVec 32) : Nat :=
  pixelOffset fb.address fb.pitch fb.bpp x.toNat y.toNat

def drawPixel (fb : FbInfo) (m : Mem) (x y : BitVec 32) (col : Nat) : Mem :=
  write32 m (offset fb x y) col

/-- `offset[j] = col` for `j` below `n`. -/
def fillRow (m : Mem) (offset n col : Nat) : Mem :=
  (List.range n).foldl (fun m j => write32 m (wrap (offset + 4 * j)) col) m

/-- `n` rounds of a loop that paints `w` words and goes down a row. -/
def rowsLoop (pitch w col : Nat) : Nat → Nat → Mem → Mem
  | 0, _, m => m
  | n + 1, offset, m => rowsLoop pitch w col n (wrap (offset + pitch)) (fillRow m offset w col)

def drawRectangle (fb : FbInfo) (m : Mem) (x y w h : BitVec 32) (col : Nat) : Mem :=
  rowsLoop fb.pitch w.toInt.toNat col h.toInt.toNat (offset fb x y) m

def drawLineHorizontal (fb : FbInfo) (m : Mem) (x0 x1 y : Int) (col : Nat) : Except Stop Mem := do
  let (x0, x1) := if x1 < x0 then (x1, x0) else (x0, x1)
  let last ← cInt (x1 - x0)
  return fillRow m (offset fb (BitVec.ofInt 32 x0) (BitVec.ofInt 32 y)) (last + 1).toNat col

def drawLineVertical (fb : FbInfo) (m : Mem) (x y0 y1 : Int) (col : Nat) : Except Stop Mem := do
  let (y0, y1) := if y1 < y0 then (y1, y0) else (y0, y1)
  let last ← cInt (y1 - y0)
  return rowsLoop fb.pitch 1 col (last + 1).toNat
    (offset fb (BitVec.ofInt 32 x) (BitVec.ofInt 32 y0)) m

/-- `x + w - 1`. -/
def lastOf (x w : Int) : Except Stop Int := do
  let stop ← cInt (x + w)
  cInt (stop - 1)

def drawBorder (fb : FbInfo) (m : Mem) (x y w h : Int) (col : Nat) : Except Stop Mem := do
  let m ← drawLineHorizontal fb m x (← lastOf x w) y col
  let m ← drawLineHorizontal fb m x (← lastOf x w) (← lastOf y h) col
  let m ← drawLineVertical fb m x y (← lastOf y h) col
  drawLineVertical fb m (← lastOf x w) y (← lastOf y h) col

/-- A round of the loops of `draw_char`. -/
def drawDot (font : Glyphs) (fb : FbInfo) (c : BitVec 8) (x y : BitVec 32) (col i : Nat)
    (m : Mem) (j : Nat) : Mem :=
  if font c i &&& 1#8 <<< j ≠ 0#8 then
    drawPixel fb m (x + 8#32 - BitVec.ofNat 32 j) (y + BitVec.ofNat 32 i) col
  else m

def drawChar (font : Glyphs) (fb : FbInfo) (m : Mem) (c : BitVec 8) (x y : BitVec 32) (col : Nat) :
    Mem :=
  (List.range 16).foldl (fun m i =>
    (List.range 8).foldl (drawDot font fb c x y col i) m) m

/-- `draw_string` from its character `i` on. -/
def stringLoop (font : Glyphs) (fb : FbInfo) (x y : BitVec 32) (col : Nat) :
    Nat → List (BitVec 8) → Mem → Mem
  | _, [], m => m
  | i, c :: rest, m => stringLoop font fb x y col (i + 1) rest
      (drawChar font fb m c (x + BitVec.ofNat 32 (8 * i)) y col)

def drawString (font : Glyphs) (fb : FbInfo) (m : Mem) (str : List (BitVec 8)) (x y : BitVec 32)
    (col : Nat) : Mem :=
  stringLoop font fb x y col 0 str m

/-! ## Framebuffers that fit in memory -/

/-- Four bytes a pixel, and no sum of `pixel_offset` is cut. -/
structure Linear (fb : FbInfo) : Prop where
  bpp : fb.bpp = 32
  width_lt : fb.width < 2 ^ 27
  row_le : 4 * fb.width ≤ fb.pitch
  bound : fb.address + fb.height * fb.pitch ≤ 2 ^ 32

def Linear.raster {fb : FbInfo} (h : Linear fb) : Raster where
  address := fb.address
  pitch := fb.pitch
  width := fb.width
  height := fb.height
  row_le := h.row_le

variable {fb : FbInfo} {m m' : Mem} {pic : Nat × Nat → Nat} {x y w n col : Nat}

theorem Linear.place_lt (h : Linear fb) {q : Nat × Nat} (hq : q ∈ h.raster.area) :
    h.raster.place q + 4 ≤ 2 ^ 32 :=
  (Raster.place_add_le hq).trans h.bound

theorem Linear.pixelOffset_eq (h : Linear fb) {q : Nat × Nat} (hq : q ∈ h.raster.area) :
    pixelOffset fb.address fb.pitch fb.bpp q.1 q.2 = h.raster.place q := by
  have hend := h.place_lt hq
  have hwidth := h.width_lt
  have hx : q.1 < fb.width := hq.1
  unfold pixelOffset
  change fb.address + q.2 * fb.pitch + 4 * q.1 + 4 ≤ 2 ^ 32 at hend
  rw [h.bpp, wrap_of_lt (show q.1 * 32 < 2 ^ 32 by omega),
    wrap_of_lt (show q.2 * fb.pitch < 2 ^ 32 by omega),
    wrap_of_lt (show fb.address + q.2 * fb.pitch < 2 ^ 32 by omega),
    wrap_of_lt (show fb.address + q.2 * fb.pitch + q.1 * 32 / 8 < 2 ^ 32 by omega)]
  change _ = fb.address + q.2 * fb.pitch + 4 * q.1
  omega

/-- A row of words from the pixel `(x, y)` on. -/
theorem fillRow_paints (pic : Nat × Nat → Nat) (col : Nat) (h : Linear fb)
    (hx : x + n ≤ fb.width) (hy : y < fb.height)
    (hcol : ∀ k, k < n → col % 2 ^ 32 = pic (x + k, y)) :
    Paints h.raster {q | q.2 = y ∧ x ≤ q.1 ∧ q.1 < x + n} pic m
      (fillRow m (h.raster.place (x, y)) n col) := by
  refine (paints_foldl (S := fun j => {(x + j, y)}) (OnlyIn.refl _ m) fun j hj m' _ => ?_).congr
    (fun q => ?_) fun _ _ => rfl
  · have hjn := List.mem_range.mp hj
    have hin : (x + j, y) ∈ h.raster.area := ⟨show x + j < fb.width by omega, hy⟩
    have hend := h.place_lt hin
    rw [← Raster.place_right, wrap_of_lt (by omega)]
    exact paints_write hin (hcol j hjn)
  · simp only [List.mem_range, Set.mem_singleton_iff, Set.mem_ofPred_eq, Prod.ext_iff]
    constructor
    · rintro ⟨j, hj, hx, hy⟩
      omega
    · rintro ⟨hy, hlo, hhi⟩
      exact ⟨q.1 - x, by omega, by omega, hy⟩

theorem rowsLoop_paints (pic : Nat × Nat → Nat) (col : Nat) (h : Linear fb) (hw : 0 < w)
    (hx : x + w ≤ fb.width) (hy : y + n ≤ fb.height)
    (hcol : ∀ i k, i < w → k < n → col % 2 ^ 32 = pic (x + i, y + k)) {p : Nat}
    (hp : 0 < n → p = h.raster.place (x, y)) :
    Paints h.raster {q | x ≤ q.1 ∧ q.1 < x + w ∧ y ≤ q.2 ∧ q.2 < y + n} pic m
      (rowsLoop fb.pitch w col n p m) := by
  induction n generalizing y p m with
  | zero =>
    refine (paints_empty _ pic m).congr (fun q => ?_) fun _ _ => rfl
    simp only [Set.mem_empty_iff_false, Set.mem_ofPred_eq, false_iff]
    omega
  | succ n ih =>
    obtain rfl := hp (Nat.succ_pos n)
    have hrow := fillRow_paints (m := m) pic col h hx (show y < fb.height by omega)
      fun i hi => hcol i 0 hi (Nat.succ_pos n)
    have hnext : 0 < n → wrap (h.raster.place (x, y) + fb.pitch) = h.raster.place (x, y + 1) := by
      intro hn
      have hin : (x, y + 1) ∈ h.raster.area :=
        ⟨show x < fb.width by omega, show y + 1 < fb.height by omega⟩
      have hend := h.place_lt hin
      have hsum := h.raster.place_down x y
      change _ = h.raster.place (x, y) + fb.pitch at hsum
      rw [← hsum, wrap_of_lt (by omega)]
    have hrest := ih (m := fillRow m (h.raster.place (x, y)) w col) (by omega)
      (fun i k hi hk => by rw [hcol i (k + 1) hi (by omega), show y + (k + 1) = y + 1 + k by omega])
      hnext
    refine (hrow.trans hrest (fun _ _ _ => rfl) fun _ _ => rfl).congr (fun q => ?_) fun _ _ => rfl
    simp only [Set.mem_union, Set.mem_ofPred_eq]
    omega

/-! ## Borders -/

theorem Linear.height_le (h : Linear fb) (hpos : 0 < fb.width) : fb.height ≤ 2 ^ 30 := by
  have hpitch : 4 ≤ fb.pitch := by
    have hrow := h.row_le
    omega
  have hsize := Nat.mul_le_mul_left fb.height hpitch
  have hbound := h.bound
  omega

theorem toNat_ofInt_cast {k : Nat} (hk : k < 2 ^ 32) : (BitVec.ofInt 32 (k : Int)).toNat = k := by
  rw [BitVec.toNat_ofInt]
  omega

theorem Linear.offset_ofInt (h : Linear fb) {q : Nat × Nat} (hq : q ∈ h.raster.area) :
    offset fb (BitVec.ofInt 32 (q.1 : Int)) (BitVec.ofInt 32 (q.2 : Int)) = h.raster.place q := by
  have hx : q.1 < fb.width := hq.1
  have hy : q.2 < fb.height := hq.2
  have hwidth := h.width_lt
  have hheight := h.height_le (by omega)
  rw [offset, toNat_ofInt_cast (by omega), toNat_ofInt_cast (by omega), h.pixelOffset_eq hq]

section Border

variable {x0 x1 y0 y1 h₀ : Nat}

theorem drawLineHorizontal_paints (h : Linear fb) (hx : x0 ≤ x1) (hx1 : x1 < fb.width)
    (hy : y < fb.height) (hcol : col < 2 ^ 32) :
    ∃ m', drawLineHorizontal fb m x0 x1 y col = .ok m' ∧
      Paints h.raster {q | q.2 = y ∧ x0 ≤ q.1 ∧ q.1 ≤ x1} (fun _ => col) m m' := by
  have hwidth := h.width_lt
  have hin : (x0, y) ∈ h.raster.area := ⟨show x0 < fb.width by omega, hy⟩
  have hrow := fillRow_paints (m := m) (fun _ => col) col h (show x0 + (x1 - x0 + 1) ≤ fb.width
    by omega) hy fun _ _ => Nat.mod_eq_of_lt hcol
  refine ⟨_, ?_, hrow.congr (fun q => ?_) fun _ _ => rfl⟩
  · rw [drawLineHorizontal, if_neg (by omega)]
    simp only [cInt_eq (show -2 ^ 31 ≤ (x1 : Int) - x0 by omega) (by omega), ok_bind,
      h.offset_ofInt hin, show ((x1 : Int) - x0 + 1).toNat = x1 - x0 + 1 by omega]
    rfl
  · simp only [Set.mem_ofPred_eq]
    omega

theorem drawLineVertical_paints (h : Linear fb) (hy : y0 ≤ y1) (hx : x < fb.width)
    (hy1 : y1 < fb.height) (hcol : col < 2 ^ 32) :
    ∃ m', drawLineVertical fb m x y0 y1 col = .ok m' ∧
      Paints h.raster {q | q.1 = x ∧ y0 ≤ q.2 ∧ q.2 ≤ y1} (fun _ => col) m m' := by
  have hheight := h.height_le (by omega)
  have hin : (x, y0) ∈ h.raster.area := ⟨hx, show y0 < fb.height by omega⟩
  have hrows := rowsLoop_paints (m := m) (n := y1 - y0 + 1) (fun _ => col) col h Nat.one_pos
    (show x + 1 ≤ fb.width by omega) (show y0 + (y1 - y0 + 1) ≤ fb.height by omega)
    (fun _ _ _ _ => Nat.mod_eq_of_lt hcol) fun _ => rfl
  refine ⟨_, ?_, hrows.congr (fun q => ?_) fun _ _ => rfl⟩
  · rw [drawLineVertical, if_neg (by omega)]
    simp only [cInt_eq (show -2 ^ 31 ≤ (y1 : Int) - y0 by omega) (by omega), ok_bind,
      h.offset_ofInt hin, show ((y1 : Int) - y0 + 1).toNat = y1 - y0 + 1 by omega]
    rfl
  · simp only [Set.mem_ofPred_eq]
    omega

theorem lastOf_eq (hn : x + w < 2 ^ 31) (hw : 0 < w) :
    lastOf x w = .ok ((x + w - 1 : Nat) : Int) := by
  rw [lastOf, cInt_eq (by omega) (by omega), ok_bind, cInt_eq (by omega) (by omega)]
  congr 1
  omega

def rect (x y w h : Nat) : Set (Nat × Nat) :=
  {q | x ≤ q.1 ∧ q.1 < x + w ∧ y ≤ q.2 ∧ q.2 < y + h}

/-- A pixel in the first or last row or column. -/
def onEdge (x y w h : Nat) (q : Nat × Nat) : Prop :=
  q.1 = x ∨ q.1 = x + w - 1 ∨ q.2 = y ∨ q.2 = y + h - 1

theorem drawBorder_paints (h : Linear fb) (hw : 0 < w) (hh : 0 < h₀) (hx : x + w ≤ fb.width)
    (hy : y + h₀ ≤ fb.height) (hcol : col < 2 ^ 32) :
    ∃ m', drawBorder fb m x y w h₀ col = .ok m' ∧
      Paints h.raster {q | q ∈ rect x y w h₀ ∧ onEdge x y w h₀ q} (fun _ => col) m m' := by
  have hwidth := h.width_lt
  have hheight := h.height_le (by omega)
  obtain ⟨m₁, hrun₁, hp₁⟩ := drawLineHorizontal_paints (m := m) h
    (show x ≤ x + w - 1 by omega) (by omega) (show y < fb.height by omega) hcol
  obtain ⟨m₂, hrun₂, hp₂⟩ := drawLineHorizontal_paints (m := m₁) h
    (show x ≤ x + w - 1 by omega) (by omega) (show y + h₀ - 1 < fb.height by omega) hcol
  obtain ⟨m₃, hrun₃, hp₃⟩ := drawLineVertical_paints (m := m₂) h
    (show y ≤ y + h₀ - 1 by omega) (show x < fb.width by omega) (by omega) hcol
  obtain ⟨m₄, hrun₄, hp₄⟩ := drawLineVertical_paints (m := m₃) h
    (show y ≤ y + h₀ - 1 by omega) (show x + w - 1 < fb.width by omega) (by omega) hcol
  refine ⟨m₄, ?_, ?_⟩
  · simp only [drawBorder, lastOf_eq (show x + w < 2 ^ 31 by omega) hw,
      lastOf_eq (show y + h₀ < 2 ^ 31 by omega) hh, ok_bind, hrun₁, hrun₂, hrun₃, hrun₄]
  · have hall : Paints h.raster _ (fun _ => col) m m₄ :=
      ((hp₁.trans hp₂ (fun _ _ _ => rfl) fun _ _ => rfl).trans hp₃ (fun _ _ _ => rfl)
        fun _ _ => rfl).trans hp₄ (fun _ _ _ => rfl) fun _ _ => rfl
    refine hall.congr (fun q => ?_) fun _ _ => rfl
    simp only [rect, onEdge, Set.mem_union, Set.mem_ofPred_eq]
    omega

end Border

/-! ## Text -/

section Text

variable {font : Glyphs} {c : BitVec 8} {str : List (BitVec 8)} {u v : BitVec 32} {k : Nat}

/-- The bytes of the rows of a framebuffer. -/
def block (fb : FbInfo) : Set Nat := Set.Ico fb.address (fb.address + fb.height * fb.pitch)

theorem block_apart {fb fb' : FbInfo} (h : fb.address + fb.height * fb.pitch ≤ fb'.address ∨
    fb'.address + fb'.height * fb'.pitch ≤ fb.address) : ∀ a ∈ block fb, a ∉ block fb' := by
  intro a ha hin
  have hat := Set.mem_Ico.mp ha
  have hother := Set.mem_Ico.mp hin
  omega

/-- A framebuffer without space between its rows, where what runs over the end of a row
goes on in the next one. -/
structure Tight (fb : FbInfo) : Prop extends Linear fb where
  row_eq : fb.pitch = 4 * fb.width

/-- Sixteen rows of text from the row `y` on that end before the column `e` end in the
framebuffer. -/
structure Room (fb : FbInfo) (e y : Nat) : Prop where
  short : e < 2 ^ 27
  fits : (y + 15) * fb.width + e < fb.height * fb.width

theorem Tight.offset_mem (h : Tight fb) (hx : u.toNat < 2 ^ 27)
    (hin : v.toNat * fb.width + u.toNat < fb.height * fb.width) :
    fb.address ≤ offset fb u v ∧ offset fb u v + 4 ≤ fb.address + fb.height * fb.pitch := by
  have hbound := h.bound
  have hsize : fb.height * fb.pitch = 4 * (fb.height * fb.width) := by
    rw [h.row_eq, Nat.mul_left_comm]
  have hrow : v.toNat * fb.pitch = 4 * (v.toNat * fb.width) := by
    rw [h.row_eq, Nat.mul_left_comm]
  unfold offset pixelOffset
  rw [h.bpp, wrap_of_lt (show u.toNat * 32 < 2 ^ 32 by omega),
    wrap_of_lt (show v.toNat * fb.pitch < 2 ^ 32 by omega),
    wrap_of_lt (show fb.address + v.toNat * fb.pitch < 2 ^ 32 by omega),
    wrap_of_lt (show fb.address + v.toNat * fb.pitch + u.toNat * 32 / 8 < 2 ^ 32 by omega)]
  omega

theorem drawChar_onlyIn (font : Glyphs) (c : BitVec 8) (col : Nat) (h : Tight fb)
    (hroom : Room fb (u.toNat + 8) v.toNat) (m : Mem) :
    OnlyIn (block fb) m (drawChar font fb m c u v col) := by
  have hshort := hroom.short
  have hfits := hroom.fits
  refine onlyIn_foldl (fun i hi m => onlyIn_foldl (fun j hj m => ?_) m) m
  have hi := List.mem_range.mp hi
  have hj := List.mem_range.mp hj
  unfold drawDot
  split
  · have hcolumn : (u + 8#32 - BitVec.ofNat 32 j).toNat = u.toNat + 8 - j := by
      simp only [BitVec.toNat_sub, BitVec.toNat_add, BitVec.toNat_ofNat]
      omega
    have hwidth := h.width_lt
    have hlow : (v.toNat + i) * fb.width ≤ (v.toNat + 15) * fb.width :=
      Nat.mul_le_mul_right _ (by omega)
    have hrow : (v + BitVec.ofNat 32 i).toNat = v.toNat + i := by
      have hpos : 0 < fb.width := by
        rcases Nat.eq_zero_or_pos fb.width with hzero | hpos
        · rw [hzero] at hfits
          omega
        · exact hpos
      have hheight := h.height_le hpos
      have hlt : v.toNat + 15 < fb.height := by
        by_contra hge
        have hover := Nat.mul_le_mul_right fb.width (Nat.le_of_not_lt hge)
        omega
      simp only [BitVec.toNat_add, BitVec.toNat_ofNat]
      omega
    have hmem := h.offset_mem (u := u + 8#32 - BitVec.ofNat 32 j) (v := v + BitVec.ofNat 32 i)
      (by omega) (by rw [hrow, hcolumn]; omega)
    refine fun a ha => write32_outside ?_
    by_contra hin
    exact ha ⟨by omega, by omega⟩
  · exact OnlyIn.refl _ m

theorem stringLoop_onlyIn (h : Tight fb)
    (hroom : Room fb (u.toNat + 8 * (k + str.length)) v.toNat) (m : Mem) :
    OnlyIn (block fb) m (stringLoop font fb u v col k str m) := by
  induction str generalizing k m with
  | nil => exact OnlyIn.refl _ m
  | cons c str ih =>
    have hshort := hroom.short
    have hfits := hroom.fits
    simp only [List.length_cons] at hshort hfits
    have hplace : (u + BitVec.ofNat 32 (8 * k)).toNat = u.toNat + 8 * k := by
      simp only [BitVec.toNat_add, BitVec.toNat_ofNat]
      omega
    refine OnlyIn.trans (drawChar_onlyIn font c col h ⟨?_, ?_⟩ m) (ih ⟨?_, ?_⟩ _)
    · omega
    · omega
    · omega
    · omega

/-- Text for which there is room changes the framebuffer only, wherever its rows end. -/
theorem drawString_onlyIn (h : Tight fb) (hroom : Room fb (u.toNat + 8 * str.length) v.toNat)
    (m : Mem) : OnlyIn (block fb) m (drawString font fb m str u v col) :=
  stringLoop_onlyIn h (by rwa [Nat.zero_add]) m

end Text

end Pixels
end Graphics
end Medusa
