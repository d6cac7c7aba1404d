import Medusa.Chip8.Calls

/-!
# The display array and the screen

A sprite is drawn straight onto the screen and never enters `display`, and every
cycle ends by painting the screen from `display` again.  Cell numbers are computed
in a byte, so only the first 256 cells are ever written or shown.
-/

namespace Medusa
namespace Chip8

open Machine

variable {e t : Emulator} {x y : Int} {state : Bool}

/-! ## Cells -/

/-- The cell of a position, both coordinates taken around the edges. -/
def cell (x y : Int) : Nat := (x % screenWidth + screenWidth * (y % screenHeight)).toNat

/-- The cell `write_chip8_screen` reaches for: column 64 is not taken around, and
the number is cut to a byte. -/
def writtenCell (x y : Int) : Nat :=
  (((if x = screenWidth then (screenWidth : Int) else x % screenWidth) +
    screenWidth * (y % screenHeight)) % 256).toNat

/-- The range of coordinates within a screen of the screen. -/
def Near (x y : Int) : Prop := -64 ≤ x ∧ x < 128 ∧ -32 ≤ y ∧ y < 64

theorem writeChip8Screen_eq (hnear : Near x y) :
    writeChip8Screen e x y state =
      { e with display := Function.update e.display (writtenCell x y) state } := by
  obtain ⟨hx, hx', hy, hy'⟩ := hnear
  have hcolumn : (if (64 : Int) < x then x - 64 else if x < 0 then x + 64 else x) =
      if x = 64 then 64 else x % 64 := by
    split
    · rw [if_neg (by omega)]
      omega
    · split
      · rw [if_neg (by omega)]
        omega
      · split
        · omega
        · omega
  -- row 32 is not taken around either, which the byte makes good
  have hrow : ∀ c : Int, (c + (if (32 : Int) < y then y - 32 else if y < 0 then y + 32 else y) *
      64) % 256 = (c + 64 * (y % 32)) % 256 := by
    intro c
    split
    · omega
    · split
      · omega
      · omega
  rw [writeChip8Screen, writtenCell]
  simp only [show (screenWidth : Int) = 64 from rfl, show (screenHeight : Int) = 32 from rfl,
    hcolumn, hrow]

theorem writtenCell_lt (x y : Int) : writtenCell x y < 256 := by
  rw [writtenCell]
  omega

theorem cell_lt (x y : Int) : cell x y < 2048 := by
  rw [cell, show (screenWidth : Int) = 64 from rfl, show (screenHeight : Int) = 32 from rfl]
  omega

/-- The two cells are one only in the first four rows, and never in column 64. -/
theorem writtenCell_eq_cell_iff (hnear : Near x y) :
    writtenCell x y = cell x y ↔ x ≠ 64 ∧ y % 32 < 4 := by
  obtain ⟨hx, hx', hy, hy'⟩ := hnear
  rw [writtenCell, cell, show (screenWidth : Int) = 64 from rfl,
    show (screenHeight : Int) = 32 from rfl]
  split
  · omega
  · omega

/-- One cell of `display` was set, and no other. -/
def SetsCell (e : Emulator) (k : Nat) (state : Bool) (t : Emulator) : Prop :=
  ∀ j, j < screenWidth * screenHeight → t.display j = if j = k then state else e.display j

/-- Writing another cell goes unnoticed only where both held the state already. -/
theorem sets_other_iff {i k : Nat} (hi : i < 2048) (hk : k < 2048) :
    SetsCell e k state { e with display := Function.update e.display i state } ↔
      i = k ∨ (e.display i = state ∧ e.display k = state) := by
  constructor
  · intro h
    by_cases hik : i = k
    · exact .inl hik
    · have hwritten := h i hi
      have hmissed := h k hk
      rw [if_neg hik] at hwritten
      rw [if_pos rfl] at hmissed
      refine .inr ⟨?_, ?_⟩
      · rw [← hwritten]
        exact Function.update_self _ _ _
      · rw [← hmissed]
        exact (Function.update_of_ne (Ne.symm hik) _ _).symm
  · rintro (rfl | ⟨hi, hk⟩) j -
    · exact Function.update_apply _ _ _ _
    · show Function.update e.display i state j = _
      by_cases hji : j = i
      · rw [hji, Function.update_self]
        split
        · rfl
        · exact hi.symm
      · rw [Function.update_of_ne hji]
        split
        · next hjk => rw [hjk, hk]
        · rfl

/-! ## The refresh -/

/-- The screen shows the display. -/
def ShowsDisplay (e t : Emulator) : Prop :=
  ∀ px py, OnScreen px py → t.screen px py = e.display (px + py * screenWidth)

/-- Every four rows of the display are the same. -/
def Repeats (e : Emulator) : Prop :=
  ∀ px py, OnScreen px py →
    e.display (px + py * screenWidth) = e.display ((px + py * screenWidth) % 256)

theorem showsDisplay_iff (hshown : ∀ px py, OnScreen px py →
      t.screen px py = e.display ((px + py * screenWidth) % 256)) :
    ShowsDisplay e t ↔ Repeats e := by
  constructor
  · intro h px py hon
    rw [← h px py hon, hshown px py hon]
  · intro h px py hon
    rw [hshown px py hon, h px py hon]

theorem refresh_shows_iff (e : Emulator) :
    (∃ t, chip8UpdateFramebuffer e = .ok t ∧ ShowsDisplay e t) ↔ Repeats e := by
  obtain ⟨screen, hrun, hshown⟩ := updateFramebuffer_ok e
  rw [hrun, exists_ok_iff]
  exact showsDisplay_iff (t := { e with screen := screen }) hshown

/-- The pixel shown at a position is the one written there, except in column 64. -/
theorem refresh_shows_written (hnear : Near x y) (e : Emulator) :
    (∃ t, chip8UpdateFramebuffer (writeChip8Screen e x y state) = .ok t ∧
        t.screen (x % screenWidth).toNat (y % screenHeight).toNat = state) ↔
      x ≠ 64 ∨ e.display (cell x y % 256) = state := by
  obtain ⟨screen, hrun, hshown⟩ := updateFramebuffer_ok (writeChip8Screen e x y state)
  have hsize : (screenWidth : Int) = 64 ∧ (screenHeight : Int) = 32 := ⟨rfl, rfl⟩
  have hon : OnScreen (x % screenWidth).toNat (y % screenHeight).toNat := by
    rw [OnScreen, hsize.1, hsize.2, show screenWidth = 64 from rfl,
      show screenHeight = 32 from rfl]
    omega
  have hcell : ((x % screenWidth).toNat + (y % screenHeight).toNat * screenWidth) % 256 =
      cell x y % 256 := by
    rw [cell, hsize.1, hsize.2, show screenWidth = 64 from rfl]
    omega
  have hwritten : cell x y % 256 = writtenCell x y ↔ x ≠ 64 := by
    obtain ⟨hx, hx', hy, hy'⟩ := hnear
    rw [writtenCell, cell, hsize.1, hsize.2]
    split
    · omega
    · omega
  have hpixel := hshown _ _ hon
  rw [hcell, writeChip8Screen_eq hnear] at hpixel
  rw [hrun, exists_ok_iff]
  show screen (x % screenWidth).toNat (y % screenHeight).toNat = state ↔ _
  rw [hpixel]
  show Function.update e.display (writtenCell x y) state (cell x y % 256) = state ↔ _
  by_cases hedge : x = 64
  · rw [Function.update_of_ne fun h => hwritten.mp h hedge]
    exact ⟨.inr, fun h => h.resolve_left (not_not.mpr hedge)⟩
  · rw [hwritten.mpr hedge, Function.update_self]
    exact ⟨fun _ => .inl hedge, fun _ => rfl⟩

/-- **The display array and its cell numbers.**  A write sets the cell of its position
in the first four rows, column 64 apart, and elsewhere only if both the cell it sets
and the one it misses hold the state already.  The refresh shows the display exactly
when its rows repeat.  What is written is shown where it was meant. -/
theorem display_cells_iff (e : Emulator) :
    (∀ (x y : Int) (state : Bool), Near x y →
      (SetsCell e (cell x y) state (writeChip8Screen e x y state) ↔
        (x ≠ 64 ∧ y % 32 < 4) ∨
          (e.display (writtenCell x y) = state ∧ e.display (cell x y) = state))) ∧
    ((∃ t, chip8UpdateFramebuffer e = .ok t ∧ ShowsDisplay e t) ↔ Repeats e) ∧
    ∀ (x y : Int) (state : Bool), Near x y →
      ((∃ t, chip8UpdateFramebuffer (writeChip8Screen e x y state) = .ok t ∧
          t.screen (x % screenWidth).toNat (y % screenHeight).toNat = state) ↔
        x ≠ 64 ∨ e.display (cell x y % 256) = state) := by
  refine ⟨fun x y state hnear => ?_, refresh_shows_iff e, fun x y state hnear => ?_⟩
  · rw [writeChip8Screen_eq hnear, ← writtenCell_eq_cell_iff hnear]
    apply sets_other_iff
    · exact lt_trans (writtenCell_lt x y) (by omega)
    · exact cell_lt x y
  · exact refresh_shows_written hnear e

theorem display_cells_topRows :
    SetsCell (Emulator.zero 1) (cell 3 2) true (writeChip8Screen (Emulator.zero 1) 3 2 true) := by
  obtain ⟨hsets, -, -⟩ := display_cells_iff (Emulator.zero 1)
  apply (hsets 3 2 true (by rw [Near]; omega)).mpr
  exact .inl ⟨by omega, by omega⟩

/-- A pixel set at (0, 4) goes to cell 0. -/
theorem display_cell_missed :
    ¬ SetsCell (Emulator.zero 1) (cell 0 4) true (writeChip8Screen (Emulator.zero 1) 0 4 true) ∧
      (writeChip8Screen (Emulator.zero 1) 0 4 true).display 0 = true ∧
      ¬ ∃ t, chip8UpdateFramebuffer { Emulator.zero 1 with display := fun k => k = 256 } = .ok t ∧
        ShowsDisplay { Emulator.zero 1 with display := fun k => k = 256 } t := by
  refine ⟨fun h => ?_, rfl, ?_⟩
  · have hmissed := h 256 (by decide)
    exact absurd hmissed (by decide)
  · intro h
    have hcorner := (refresh_shows_iff _).mp h 0 4 ⟨by decide, by decide⟩
    exact absurd hcorner (by decide)

/-! ## Sprites -/

section Sprites

variable (opcode1 opcode2 : BitVec 8)

/-- `N` of `DXYN`. -/
def spriteHeight : Nat := (opcode2 &&& 0x0F).toNat

/-- Bit `c`, from the left, of row `r`. -/
def spriteBit (e : Emulator) (r c : Nat) : Bool := (e.ram (e.i.toNat + r)).getLsbD (7 - c)

/-- Where that bit belongs. -/
def spriteCell (e : Emulator) (r c : Nat) : Nat :=
  cell (((e.vregisters (regX opcode1)).toNat : Int) + c)
    (((e.vregisters (regY opcode2)).toNat : Int) + r)

/-- What `DXYN` is for. -/
structure Draws (e t : Emulator) : Prop where
  cells : ∀ r c, r < spriteHeight opcode2 → c < 8 →
    t.display (spriteCell opcode1 opcode2 e r c) =
      (e.display (spriteCell opcode1 opcode2 e r c) ^^ spriteBit e r c)
  others : ∀ k, k < screenWidth * screenHeight →
    (∀ r c, r < spriteHeight opcode2 → c < 8 → k ≠ spriteCell opcode1 opcode2 e r c) →
    t.display k = e.display k
  flag : t.vregisters 0xF = 1 ↔ ∃ r c, r < spriteHeight opcode2 ∧ c < 8 ∧
    spriteBit e r c = true ∧ e.display (spriteCell opcode1 opcode2 e r c) = true

/-- The sprite has no set bit. -/
def Blank (e : Emulator) : Prop := ∀ r, r < spriteHeight opcode2 → e.ram (e.i.toNat + r) = 0

theorem eq_zero_of_bits {b : BitVec 8} (h : ∀ c, c < 8 → b.getLsbD (7 - c) = false) : b = 0 := by
  revert b
  decide

theorem drawRow_blank {x y : Nat} (row cols col : Nat) :
    drawRow e x y row 0 cols col = .ok e := by
  induction cols generalizing col with
  | zero => rfl
  | succ cols ih => exact ih (col + 1)

theorem drawSprite_blank {x y rows row : Nat} (hram : e.i.toNat + (row + rows) ≤ 4096)
    (hblank : ∀ r, r < rows → e.ram (e.i.toNat + (row + r)) = 0) :
    drawSprite e x y rows row = .ok e := by
  induction rows generalizing row with
  | zero => rfl
  | succ rows ih =>
    have hfirst : e.ram (e.i.toNat + row) = 0 := hblank 0 (by omega)
    rw [drawSprite, readRam_ok (by omega), ok_bind, hfirst, drawRow_blank, ok_bind]
    apply ih
    · omega
    · intro r hr
      have hrow := hblank (r + 1) (by omega)
      rwa [show row + (r + 1) = row + 1 + r by omega] at hrow

variable {opcode1 opcode2}

/-- A blank sprite clears register 15. -/
theorem draw_blank (hD : (opcode1 >>> 4).toNat = 0xD)
    (hram : e.i.toNat + spriteHeight opcode2 ≤ 4096) (hblank : Blank opcode2 e) :
    chip8ExecuteInstruction e opcode1 opcode2 =
      .ok { e with pc := e.pc + 2, vregisters := Function.update e.vregisters 0xF 0 } := by
  unfold chip8ExecuteInstruction
  rw [hD]
  show (writeV { e with pc := e.pc + 2 } 0xF 0 >>= fun e =>
    drawSprite e (regX opcode1) (regY opcode2) (opcode2 &&& 0x0F).toNat 0) = _
  rw [writeV_ok (by omega), ok_bind]
  apply drawSprite_blank
  · rw [Nat.zero_add]
    exact hram
  · intro r hr
    rw [Nat.zero_add]
    exact hblank r hr

/-- The display does not change, so every exclusive or has to be with a clear bit. -/
theorem draws_iff (hD : (opcode1 >>> 4).toNat = 0xD)
    (hram : e.i.toNat + spriteHeight opcode2 ≤ 4096) :
    (∃ t, chip8ExecuteInstruction e opcode1 opcode2 = .ok t ∧ Draws opcode1 opcode2 e t) ↔
      Blank opcode2 e := by
  constructor
  · rintro ⟨t, hrun, hdraws⟩ r hr
    apply eq_zero_of_bits
    intro c hc
    have hcell := hdraws.cells r c hr hc
    rw [execute_display (opcode1, opcode2) hrun] at hcell
    have hclear : spriteBit e r c = false := by
      cases hbit : spriteBit e r c with
      | false => rfl
      | true =>
        rw [hbit, Bool.xor_true] at hcell
        simp at hcell
    exact hclear
  · intro hblank
    have hclear : ∀ r c, r < spriteHeight opcode2 → spriteBit e r c = false := by
      intro r c hr
      rw [spriteBit, hblank r hr]
      exact BitVec.getLsbD_zero
    refine ⟨_, draw_blank hD hram hblank, fun r c hr _ => ?_, fun _ _ _ => rfl, ?_⟩
    · rw [hclear r c hr, Bool.xor_false]
    · show Function.update e.vregisters 0xF 0 0xF = 1 ↔ _
      rw [Function.update_self]
      constructor
      · intro h
        exact absurd h (by decide)
      · rintro ⟨r, c, hr, -, hset, -⟩
        rw [hclear r c hr] at hset
        exact absurd hset (by decide)

end Sprites

/-! ## Cycles and runs -/

theorem instruction_display (h : chip8Instruction e = .ok t) : t.display = e.display := by
  rw [chip8Instruction] at h
  split at h
  · rw [Except.ok.inj h]
  · obtain ⟨op, -, hexec⟩ := bind_eq_ok h
    exact execute_display op hexec

theorem instructions_display {n : Nat} (h : chip8Instructions n e = .ok t) :
    t.display = e.display := by
  induction n generalizing e with
  | zero => rw [← Except.ok.inj h]
  | succ n ih =>
    obtain ⟨u, hfirst, hrest⟩ := bind_eq_ok h
    rw [ih hrest, instruction_display hfirst]

/-- A cycle leaves the display as it was and paints it, as far as its cells are read. -/
theorem cycle_shows (h : chip8Cycle e = .ok t) :
    t.display = e.display ∧ ∀ px py, OnScreen px py →
      t.screen px py = e.display ((px + py * screenWidth) % 256) := by
  rw [chip8Cycle] at h
  obtain ⟨u, hinstr, hend⟩ := bind_eq_ok h
  have hdisplay : (if u.paused then u else chip8UpdateTimers u).display = e.display := by
    rw [← instructions_display hinstr, chip8UpdateTimers]
    split
    · rfl
    · split
      · rfl
      · rfl
  obtain ⟨screen, hrun, hshown⟩ := updateFramebuffer_ok (if u.paused then u else chip8UpdateTimers u)
  rw [endCycle, hrun] at hend
  rw [hdisplay] at hshown
  rw [← Except.ok.inj hend]
  exact ⟨hdisplay, hshown⟩

/-- From one refresh on the screen stays the same, whatever is drawn. -/
theorem play_screen {moves : List Move} (h : play e moves = .ok t)
    (hshown : ∀ px py, OnScreen px py →
      e.screen px py = e.display ((px + py * screenWidth) % 256)) :
    ∀ px py, OnScreen px py → t.screen px py = e.screen px py := by
  induction moves generalizing e with
  | nil =>
    rw [← Except.ok.inj h]
    exact fun _ _ _ => rfl
  | cons move moves ih =>
    cases move with
    | restart => exact ih (e := restart e) h hshown
    | cycle =>
      obtain ⟨u, hfirst, hrest⟩ := bind_eq_ok h
      obtain ⟨hdisplay, hfresh⟩ := cycle_shows hfirst
      intro px py hon
      rw [ih hrest (by rw [hdisplay]; exact hfresh) px py hon, hfresh px py hon,
        hshown px py hon]

/-- **Drawing.**  `DXYN` is right exactly for a blank sprite.  After the cycle the
screen shows the display exactly when the rows of the display repeat.  Once the screen
was refreshed no drawing changes it for longer than the cycle, so a sprite drawn twice
leaves it as it was. -/
theorem draw_iff (opcode1 opcode2 : BitVec 8) (hD : (opcode1 >>> 4).toNat = 0xD) :
    (∀ e : Emulator, e.i.toNat + spriteHeight opcode2 ≤ 4096 →
      ((∃ t, chip8ExecuteInstruction e opcode1 opcode2 = .ok t ∧ Draws opcode1 opcode2 e t) ↔
        Blank opcode2 e)) ∧
    (∀ (s e u t : Emulator) (n : Nat), n < s.speed → chip8Instructions n s = .ok e →
      e.paused = false → fetch e = .ok (opcode1, opcode2) →
      chip8ExecuteInstruction e opcode1 opcode2 = .ok u → chip8Cycle s = .ok t →
      (ShowsDisplay u t ↔ Repeats e)) ∧
    ∀ (s e t : Emulator) (moves : List Move), chip8Cycle s = .ok e → play e moves = .ok t →
      ∀ px py, OnScreen px py → t.screen px py = e.screen px py := by
  refine ⟨fun e hram => draws_iff hD hram, ?_, ?_⟩
  · intro s e u t n _ hbefore _ _ hexec hcycle
    obtain ⟨-, hshown⟩ := cycle_shows hcycle
    have hdisplay := instructions_display hbefore
    have hafter := execute_display (opcode1, opcode2) hexec
    rw [← hdisplay] at hshown
    rw [ShowsDisplay, hafter]
    exact showsDisplay_iff hshown
  · intro s e t moves hcycle hplay
    obtain ⟨hdisplay, hshown⟩ := cycle_shows hcycle
    rw [← hdisplay] at hshown
    exact play_screen hplay hshown

theorem draw_clearMemory :
    ∃ t, chip8ExecuteInstruction (Emulator.zero 1) 0xD0 0x11 = .ok t ∧
      Draws 0xD0 0x11 (Emulator.zero 1) t := by
  obtain ⟨hdraw, -, -⟩ := draw_iff 0xD0 0x11 rfl
  apply (hdraw (Emulator.zero 1) (by decide)).mpr
  intro r _
  rfl

/-- A sprite with one set bit at the top left corner of a clear display: the corner is
painted, but stays clear in the display. -/
theorem draw_missed :
    ∃ e t : Emulator, e.i.toNat + spriteHeight 0x11 ≤ 4096 ∧ spriteBit e 0 0 = true ∧
      chip8ExecuteInstruction e 0xD0 0x11 = .ok t ∧ t.screen 0 0 = true ∧
      t.display (spriteCell 0xD0 0x11 e 0 0) = false ∧ ¬ Draws 0xD0 0x11 e t := by
  refine ⟨{ Emulator.zero 1 with ram := fun _ => 0x80 }, _, by decide, rfl, rfl, rfl, rfl, ?_⟩
  intro h
  exact absurd (h.cells 0 0 (by decide) (by decide)) (by decide)

end Chip8
end Medusa
