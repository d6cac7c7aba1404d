import Medusa.Libc.CString
import Medusa.Machine.Box
import Medusa.Machine.Run

/-!
# The framebuffer terminal

`terminal_framebuffer_putc` draws a glyph at the cursor and moves the cursor on, or
collects a byte of an escape sequence; `terminal_framebuffer_delete_character` moves
back and paints a whole cell black.  Neither compares a pixel with the screen.  The
cursor wraps when its column reaches the width, but its row only when it is equal to
the height, and a line feed never wraps.

The model keeps the order of all accesses to the screen, the font and the two
buffers.  The results hold for every font.
-/

namespace Medusa
namespace Terminal

open Machine Kernel Libc

/-- `fb_t`, as far as its sides. -/
structure Framebuffer where
  width : BitVec 32
  height : BitVec 32
  width_ge : 16 ≤ width.toNat
  height_ge : 16 ≤ height.toNat

/-- `font_psf` behind its header: sixteen rows for each of 256 glyphs. -/
abbrev Font := Fin 4096 → BitVec 8

structure State where
  row : BitVec 32
  column : BitVec 32
  isInAnsiEscapeChar : Bool
  escapeCharBuf : List (BitVec 8)
  lineCli : List (BitVec 8)

def escapeCharBufSize : Nat := 30

/-- What a call does outside the cursor: `draw_pixel(fb, x, y, _)`, a read at an
offset from the end of the font header, and writes of the two buffers. -/
inductive Access where
  | drawPixel (x y : BitVec 32)
  | readFont (offset : Int)
  | writeEscape (i : Nat)
  | writeLine (i : Int)
deriving DecidableEq, Repr

/-! ## The code -/

/-- `draw_pixel(fb, column + 8 - j, row + i, color)`. -/
def drawCell (s : State) (i j : Nat) : Access :=
  .drawPixel (s.column + 8#32 - BitVec.ofNat 32 j) (s.row + BitVec.ofNat 32 i)

/-- `offset[i]`, for a character whose glyph is in the table. -/
def glyphRow (font : Font) (c : BitVec 8) (i : Nat) : BitVec 8 :=
  if h : c.toNat * 16 + i < 4096 then font ⟨c.toNat * 16 + i, h⟩ else 0#8

def hasInk (font : Font) (c : BitVec 8) (i j : Nat) : Bool :=
  glyphRow font c i &&& 1#8 <<< j ≠ 0#8

def drawGlyph (font : Font) (s : State) (c : BitVec 8) : List Access :=
  (List.range 16).flatMap fun i => (List.range 8).flatMap fun j =>
    .readFont (c.toInt * 16 + (i : Nat)) :: if hasInk font c i j then [drawCell s i j] else []

/-- The end of `terminal_framebuffer_putc`.  `column >= fb.width` compares unsigned
words. -/
def advance (fb : Framebuffer) (s : State) : State :=
  let s := { s with column := s.column + 8#32 }
  if fb.width ≤ s.column then
    let s := { s with column := 0#32, row := s.row + 12#32 }
    if s.row = fb.height then { s with row := 0#32 } else s
  else s

def appendEscape (s : State) (c : BitVec 8) : List Access × Option State :=
  match strlen s.escapeCharBuf with
  | .error _ => ([], none)
  | .ok len => ([.writeEscape len, .writeEscape (len + 1)],
      (append s.escapeCharBuf c).toOption.map fun buf => { s with escapeCharBuf := buf })

/-- `terminal_framebuffer_putc`.  A `char` is signed, so the glyph of a byte from 128
on is read in front of the table; what is there is not known. -/
def putc (fb : Framebuffer) (font : Font) (s : State) (c : BitVec 8) :
    List Access × Option State :=
  if c = 0x1B#8 then
    ((List.range escapeCharBufSize).map .writeEscape,
      some { s with isInAnsiEscapeChar := true,
                    escapeCharBuf := List.replicate escapeCharBufSize 0#8 })
  else if s.isInAnsiEscapeChar = true ∧ (c = 0x20#8 ∨ c = 0x0A#8) then
    ([], some { s with isInAnsiEscapeChar := false })
  else if s.isInAnsiEscapeChar = true then appendEscape s c
  else if c = 0x0A#8 then ([], some { s with row := s.row + 12#32, column := 0#32 })
  else if c.toInt < 0 then ([.readFont (c.toInt * 16)], none)
  else (drawGlyph font s c, some (advance fb s))

/-- `terminal_framebuffer_delete_character`.  The last assignment writes in front of
an empty line. -/
def deleteCharacter (s : State) : List Access × Option State :=
  let s := { s with column := s.column - 8#32 }
  let painted := (List.range 16).flatMap fun i => (List.range 8).map fun j => drawCell s i j
  match strlen s.lineCli with
  | .error _ => (painted, none)
  | .ok len => (painted ++ [.writeLine ((len : Int) - 1)],
      some { s with lineCli := if len = 0 then s.lineCli else s.lineCli.set (len - 1) 0#8 })

inductive Event where
  | putc (c : BitVec 8)
  | deleteCharacter

def run (fb : Framebuffer) (font : Font) (s : State) : Event → List Access × Option State
  | .putc c => putc fb font s c
  | .deleteCharacter => deleteCharacter s

def step (fb : Framebuffer) (font : Font) (s : State) (e : Event) : Option State :=
  (run fb font s e).2

/-- The terminal at the top left, with whatever `kmalloc` left in the buffer. -/
def start (junk : Fin escapeCharBufSize → BitVec 8) (lineCli : List (BitVec 8)) : State where
  row := 0#32
  column := 0#32
  isInAnsiEscapeChar := false
  escapeCharBuf := List.ofFn junk
  lineCli := lineCli

/-! ## The law and its condition -/

/-- The pixel is on the screen, the row in the table, the byte in its buffer. -/
def Access.InBounds (fb : Framebuffer) : Access → Prop
  | .drawPixel x y => Within fb.width.toNat fb.height.toNat x.toInt y.toInt
  | .readFont offset => 0 ≤ offset ∧ offset < 4096
  | .writeEscape i => i < escapeCharBufSize
  | .writeLine _ => True

def StaysOnScreen (fb : Framebuffer) (font : Font) (s : State) (e : Event) : Prop :=
  ∀ a ∈ (run fb font s e).1, a.InBounds fb

/-- The points of a glyph that are drawn, seen from the cursor. -/
def ink (font : Font) (c : BitVec 8) : List (Int × Int) :=
  (List.range 16).flatMap fun i => (List.range 8).flatMap fun j =>
    if hasInk font c i j then [(8 - (j : Int), (i : Int))] else []

/-- The sides of a screen as far as an `int` reaches. -/
def side (n : BitVec 32) : Int := min n.toNat (2 ^ 31)

/-- What the code needs.  A printed byte is ASCII, and the bounding box of its ink
fits at the cursor; an escape sequence has room for the byte and a terminator; a
character is deleted right of the first column and on a line that is whole. -/
def Fits (fb : Framebuffer) (font : Font) (s : State) : Event → Prop
  | .putc c =>
    if c = 0x1B#8 then True
    else if s.isInAnsiEscapeChar = true then
      c = 0x20#8 ∨ c = 0x0A#8 ∨ ∃ len, strlen s.escapeCharBuf = .ok len ∧ len + 1 < escapeCharBufSize
    else c = 0x0A#8 ∨ c.toNat < 128 ∧ ∀ b ∈ boundingBox (ink font c),
      b.FitsAt (side fb.width) (side fb.height) s.column.toInt s.row.toInt
  | .deleteCharacter =>
    0 < s.column.toInt ∧ 0 ≤ s.row.toInt ∧ s.row.toInt + 15 < side fb.height

/-! ## Pixels -/

variable {fb : Framebuffer} {font : Font} {s : State}

/-- A word moved by a small amount is a coordinate of the screen exactly when the
number is. -/
theorem coordinate_iff (v n : BitVec 32) {d : Int} (hd : 0 ≤ d) (hd' : d ≤ 15) {w : BitVec 32}
    (hw : w.toInt = (v.toInt + d).bmod (2 ^ 32)) :
    (0 ≤ w.toInt ∧ w.toInt < n.toNat) ↔ 0 ≤ v.toInt + d ∧ v.toInt + d < side n := by
  have hlow := BitVec.le_toInt v
  have hhigh := BitVec.toInt_lt (x := v)
  rw [hw, Int.bmod]
  simp only [side]
  split
  · omega
  · omega

theorem toInt_ofNat_small {n : Nat} (h : n < 16) : (BitVec.ofNat 32 n).toInt = n := by
  rw [BitVec.toInt_eq_toNat_of_lt] <;> rw [BitVec.toNat_ofNat] <;> omega

theorem drawCell_inBounds_iff {i j : Nat} (hi : i < 16) (hj : j < 8) :
    (drawCell s i j).InBounds fb ↔
      Within (side fb.width) (side fb.height)
        (s.column.toInt + (8 - (j : Int))) (s.row.toInt + (i : Int)) := by
  have hx : (s.column + 8#32 - BitVec.ofNat 32 j).toInt =
      (s.column.toInt + (8 - (j : Int))).bmod (2 ^ 32) := by
    have hstride : (8#32).toInt = 8 := rfl
    rw [BitVec.toInt_sub, BitVec.toInt_add, toInt_ofNat_small (n := j) (by omega), hstride,
      Int.bmod_sub_bmod, Int.add_sub_assoc]
  have hy : (s.row + BitVec.ofNat 32 i).toInt = (s.row.toInt + (i : Int)).bmod (2 ^ 32) := by
    rw [BitVec.toInt_add, toInt_ofNat_small hi]
  have hcolumn := coordinate_iff s.column fb.width (by omega) (by omega) hx
  have hrow := coordinate_iff s.row fb.height (by omega) (by omega) hy
  simp only [drawCell, Access.InBounds, Within]
  rw [← and_assoc, hcolumn, hrow, and_assoc]

/-- Drawing a glyph stays on the screen exactly when the box of its ink does. -/
theorem drawGlyph_inBounds_iff {c : BitVec 8} (hc : 0 ≤ c.toInt) :
    (∀ a ∈ drawGlyph font s c, a.InBounds fb) ↔ ∀ b ∈ boundingBox (ink font c),
      b.FitsAt (side fb.width) (side fb.height) s.column.toInt s.row.toInt := by
  have htable : ∀ i : Nat, i < 16 →
      0 ≤ c.toInt * 16 + (i : Int) ∧ c.toInt * 16 + (i : Int) < 4096 := by
    have hlt := BitVec.toInt_lt (x := c)
    omega
  rw [boundingBox_fitsAt_iff]
  simp only [drawGlyph, ink, List.forall_mem_flatMap, List.mem_range]
  refine forall_congr' fun i => forall_congr' fun hi =>
    forall_congr' fun j => forall_congr' fun hj => ?_
  rw [List.forall_mem_cons]
  have hread : (Access.readFont (c.toInt * 16 + (i : Nat))).InBounds fb := htable i hi
  by_cases hink : hasInk font c i j = true
  · simp [hink, hread, drawCell_inBounds_iff hi hj]
  · simp [hink, hread]

/-- Painting a cell stays on the screen exactly when the whole cell does. -/
theorem paintCell_inBounds_iff (fb : Framebuffer) (s : State) :
    (∀ a ∈ (List.range 16).flatMap fun i => (List.range 8).map fun j => drawCell s i j,
      a.InBounds fb) ↔
      0 ≤ s.column.toInt + 1 ∧ s.column.toInt + 8 < side fb.width ∧
        0 ≤ s.row.toInt ∧ s.row.toInt + 15 < side fb.height := by
  simp only [List.forall_mem_flatMap, List.forall_mem_map, List.mem_range]
  constructor
  · intro h
    have hfirst := (drawCell_inBounds_iff (by decide) (by decide)).mp (h 0 (by decide) 7 (by decide))
    have hlast := (drawCell_inBounds_iff (by decide) (by decide)).mp (h 15 (by decide) 0 (by decide))
    simp only [Within] at hfirst hlast
    omega
  · intro h i hi j hj
    rw [drawCell_inBounds_iff hi hj, Within]
    omega

/-! ## The invariant -/

/-- The state between two calls: the cursor is on the grid of cells, the buffer has
all its bytes, and a terminator while a sequence is collected. -/
structure Good (fb : Framebuffer) (s : State) : Prop where
  onGrid : s.column.toNat % 8 = 0
  column_lt : s.column.toNat < fb.width.toNat
  bufSize : s.escapeCharBuf.length = escapeCharBufSize
  terminated : s.isInAnsiEscapeChar = true → 0#8 ∈ s.escapeCharBuf

theorem good_start (fb : Framebuffer) (junk : Fin escapeCharBufSize → BitVec 8)
    (lineCli : List (BitVec 8)) : Good fb (start junk lineCli) where
  onGrid := rfl
  column_lt := Nat.lt_of_lt_of_le (show 0 < 16 by decide) fb.width_ge
  bufSize := List.length_ofFn
  terminated := by simp [start]

theorem append_terminated {buf buf' : List (BitVec 8)} {c : BitVec 8}
    (h : append buf c = .ok buf') : buf'.length = buf.length ∧ 0#8 ∈ buf' := by
  obtain ⟨len, -, h⟩ := bind_eq_ok h
  obtain ⟨buf₁, hfirst, hsecond⟩ := bind_eq_ok h
  obtain ⟨-, rfl⟩ := store_inside hfirst
  obtain ⟨hin, rfl⟩ := store_inside hsecond
  refine ⟨by simp, List.mem_of_getElem? (i := len + 1) ?_⟩
  rw [List.getElem?_set_self hin]

theorem advance_onGrid (h : Good fb s) :
    (advance fb s).column.toNat % 8 = 0 ∧ (advance fb s).column.toNat < fb.width.toNat := by
  have hwidth := fb.width_ge
  have hgrid := h.onGrid
  have hstride : (s.column + 8#32).toNat % 8 = 0 := by
    have hcell : (8#32).toNat = 8 := rfl
    rw [BitVec.toNat_add, hcell]
    omega
  unfold advance
  by_cases hwrap : fb.width ≤ s.column + 8#32
  · simp only [hwrap, if_true]
    split <;> simp <;> omega
  · simp only [hwrap, if_false]
    exact ⟨hstride, by simpa [BitVec.le_def] using hwrap⟩

theorem advance_rest (fb : Framebuffer) (s : State) :
    (advance fb s).escapeCharBuf = s.escapeCharBuf ∧
      (advance fb s).isInAnsiEscapeChar = s.isInAnsiEscapeChar := by
  unfold advance
  simp only
  split
  · split <;> exact ⟨rfl, rfl⟩
  · exact ⟨rfl, rfl⟩

/-! ## One call -/

theorem appendEscape_inBounds_iff (h : Good fb s) (hin : s.isInAnsiEscapeChar = true)
    (c : BitVec 8) :
    (∀ a ∈ (appendEscape s c).1, a.InBounds fb) ↔
      ∃ len, strlen s.escapeCharBuf = .ok len ∧ len + 1 < escapeCharBufSize := by
  obtain ⟨text, htext⟩ := holds_of_mem (h.terminated hin)
  rw [appendEscape, htext.strlen]
  simp only [List.forall_mem_cons, Access.InBounds, escapeCharBufSize, Except.ok.injEq,
    exists_eq_left']
  simp
  omega

theorem putc_staysOnScreen_iff (h : Good fb s) (c : BitVec 8) :
    StaysOnScreen fb font s (.putc c) ↔ Fits fb font s (.putc c) := by
  simp only [StaysOnScreen, run, putc, Fits]
  by_cases hesc : c = 0x1B#8
  · simp [hesc, Access.InBounds]
  · rw [if_neg hesc, if_neg hesc]
    by_cases hin : s.isInAnsiEscapeChar = true
    · simp only [hin, true_and, if_true]
      by_cases hend : c = 0x20#8 ∨ c = 0x0A#8
      · rw [if_pos hend]
        exact iff_of_true (by simp) (hend.imp_right Or.inl)
      · rw [if_neg hend, appendEscape_inBounds_iff h hin, ← or_assoc]
        exact (or_iff_right hend).symm
    · simp only [hin, Bool.false_eq_true, false_and, if_false]
      by_cases hfeed : c = 0x0A#8
      · simp [hfeed]
      · rw [if_neg hfeed]
        have hsign : c.toNat < 128 ↔ 0 ≤ c.toInt := by
          rw [BitVec.toInt_eq_toNat_cond]
          split <;> omega
        by_cases hneg : c.toInt < 0
        · rw [if_pos hneg]
          refine iff_of_false ?_ ?_
          · intro hall
            have hread := hall _ (List.mem_singleton_self _)
            simp only [Access.InBounds] at hread
            omega
          · rintro (heq | hfits)
            · exact hfeed heq
            · exact absurd (hsign.mp hfits.1) (by omega)
        · rw [if_neg hneg, drawGlyph_inBounds_iff (by omega)]
          exact ⟨fun hfits => Or.inr ⟨hsign.mpr (by omega), hfits⟩,
            fun hfits => (hfits.resolve_left hfeed).2⟩

theorem deleteCharacter_staysOnScreen_iff (h : Good fb s) :
    StaysOnScreen fb font s .deleteCharacter ↔ Fits fb font s .deleteCharacter := by
  have hgrid := h.onGrid
  have hlt := h.column_lt
  have hback : (s.column - 8#32).toInt = (s.column.toInt - 8).bmod (2 ^ 32) := by
    have hstride : (8#32).toInt = 8 := rfl
    rw [BitVec.toInt_sub, hstride]
  have hpainted : StaysOnScreen fb font s .deleteCharacter ↔
      0 ≤ (s.column - 8#32).toInt + 1 ∧ (s.column - 8#32).toInt + 8 < side fb.width ∧
        0 ≤ s.row.toInt ∧ s.row.toInt + 15 < side fb.height := by
    rw [StaysOnScreen, run, deleteCharacter,
      ← paintCell_inBounds_iff fb { s with column := s.column - 8#32 }]
    cases strlen s.lineCli with
    | error e => exact Iff.rfl
    | ok len =>
      simp only
      rw [List.forall_mem_append]
      exact and_iff_left (by simp [Access.InBounds])
  rw [hpainted, hback, Fits]
  have hsign := BitVec.toInt_eq_toNat_cond s.column
  simp only [side, Int.bmod]
  split at hsign <;> split <;> omega

theorem good_appendEscape {c : BitVec 8} {s' : State} (h : Good fb s)
    (hstep : (appendEscape s c).2 = some s') : Good fb s' := by
  rw [appendEscape] at hstep
  cases hlen : strlen s.escapeCharBuf with
  | error e => simp [hlen] at hstep
  | ok len =>
    rw [hlen] at hstep
    obtain ⟨buf, happend, rfl⟩ := of_toOption_map hstep
    have hbuf := append_terminated happend
    exact ⟨h.onGrid, h.column_lt, hbuf.1.trans h.bufSize, fun _ => hbuf.2⟩

theorem good_advance (h : Good fb s) : Good fb (advance fb s) := by
  have hrest := advance_rest fb s
  have hgrid := advance_onGrid h
  refine ⟨hgrid.1, hgrid.2, ?_, ?_⟩
  · rw [hrest.1, h.bufSize]
  · rw [hrest.1, hrest.2]
    exact h.terminated

theorem good_putc {c : BitVec 8} {s' : State} (h : Good fb s)
    (hstep : (putc fb font s c).2 = some s') : Good fb s' := by
  rw [putc] at hstep
  by_cases hesc : c = 0x1B#8
  · rw [if_pos hesc] at hstep
    obtain rfl := Option.some.inj hstep
    exact ⟨h.onGrid, h.column_lt, by simp, by simp [escapeCharBufSize]⟩
  · rw [if_neg hesc] at hstep
    by_cases hend : s.isInAnsiEscapeChar = true ∧ (c = 0x20#8 ∨ c = 0x0A#8)
    · rw [if_pos hend] at hstep
      obtain rfl := Option.some.inj hstep
      exact ⟨h.onGrid, h.column_lt, h.bufSize, by simp⟩
    · rw [if_neg hend] at hstep
      by_cases hin : s.isInAnsiEscapeChar = true
      · rw [if_pos hin] at hstep
        exact good_appendEscape h hstep
      · rw [if_neg hin] at hstep
        by_cases hfeed : c = 0x0A#8
        · rw [if_pos hfeed] at hstep
          obtain rfl := Option.some.inj hstep
          exact ⟨rfl, Nat.lt_of_lt_of_le (show 0 < 16 by decide) fb.width_ge, h.bufSize,
            h.terminated⟩
        · rw [if_neg hfeed] at hstep
          by_cases hneg : c.toInt < 0
          · rw [if_pos hneg] at hstep
            cases hstep
          · rw [if_neg hneg] at hstep
            obtain rfl := Option.some.inj hstep
            exact good_advance h

/-- Right of the first column the cursor moves back by one cell. -/
theorem good_deleteCharacter {s' : State} (h : Good fb s) (hpos : 0 < s.column.toInt)
    (hstep : (deleteCharacter s).2 = some s') : Good fb s' := by
  have hgrid := h.onGrid
  have hlt := h.column_lt
  have hback : (s.column - 8#32).toNat = s.column.toNat - 8 := by
    have hsign := BitVec.toInt_eq_toNat_cond s.column
    have hstride : (8#32).toNat = 8 := rfl
    rw [BitVec.toNat_sub, hstride]
    split at hsign <;> omega
  rw [deleteCharacter] at hstep
  cases hlen : strlen s.lineCli with
  | error e => simp [hlen] at hstep
  | ok len =>
    simp only [hlen, Option.some.injEq] at hstep
    obtain rfl := hstep
    refine ⟨?_, ?_, h.bufSize, h.terminated⟩
    · show (s.column - 8#32).toNat % 8 = 0
      omega
    · show (s.column - 8#32).toNat < fb.width.toNat
      omega

theorem good_step {e : Event} {s' : State} (h : Good fb s) (hfits : Fits fb font s e)
    (hstep : step fb font s e = some s') : Good fb s' := by
  cases e with
  | putc c => exact good_putc h hstep
  | deleteCharacter => exact good_deleteCharacter h hfits.1 hstep

/-! ## Whole runs -/

/-- **The terminal stays on screen exactly when what it is given fits.**  From the
top left of any screen, with any font, every access of a run is in bounds if and only
if each printed byte is ASCII and the box of its ink fits at the cursor, no escape
sequence outgrows its buffer, and no character is deleted at the first column or on a
line that is not whole. -/
theorem terminal_onScreen_iff (fb : Framebuffer) (font : Font)
    (junk : Fin escapeCharBufSize → BitVec 8) (lineCli : List (BitVec 8)) (events : List Event) :
    Throughout (step fb font) (StaysOnScreen fb font) (start junk lineCli) events ↔
      Throughout (step fb font) (Fits fb font) (start junk lineCli) events := by
  apply throughout_iff (Good fb)
  · intro s e h
    cases e with
    | putc c => exact putc_staysOnScreen_iff h c
    | deleteCharacter => exact deleteCharacter_staysOnScreen_iff h
  · intro s e s' h hfits hstep
    exact good_step h hfits hstep
  · exact good_start fb junk lineCli

def vga : Framebuffer := ⟨640#32, 480#32, by decide, by decide⟩

/-- Backspace before anything is printed paints left of the screen. -/
theorem deleteCharacter_offScreen :
    ¬ Throughout (step vga fun _ => 0xFF#8) (StaysOnScreen vga fun _ => 0xFF#8)
      (start (fun _ => 0#8) (List.replicate 300 0#8)) [.deleteCharacter] := by
  intro h
  have hpixel := h.1 (.drawPixel (BitVec.ofInt 32 (-1)) 0#32) (by decide)
  have hleft : 0 ≤ (BitVec.ofInt 32 (-1)).toInt := hpixel.1
  revert hleft
  decide

end Terminal
end Medusa
