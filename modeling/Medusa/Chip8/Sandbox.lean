import Medusa.Chip8.Emulator
import Medusa.Machine.Loop

/-!
# Which accesses stay inside

For every instruction the exact condition, on the state before it, under which
all its accesses lie inside the arrays and on the screen.  Most instructions have
none: their register numbers are four bits wide.
-/

namespace Medusa
namespace Chip8

open Machine DataStructures

variable {e t : Emulator} {x y k n : Nat}

/-! ## Single accesses -/

theorem regX_lt (opcode1 : BitVec 8) : regX opcode1 < 16 := by
  rw [regX, BitVec.toNat_and]
  exact lt_of_le_of_lt Nat.and_le_right (by decide)

theorem regY_lt (opcode2 : BitVec 8) : regY opcode2 < 16 := by
  have hlt := opcode2.isLt
  rw [regY, BitVec.toNat_ushiftRight, Nat.shiftRight_eq_div_pow]
  omega

theorem readV_ok (hk : k < 16) : readV e k = .ok (e.vregisters k) := if_pos hk

theorem writeV_ok (hk : k < 16) (v : BitVec 8) :
    writeV e k v = .ok { e with vregisters := Function.update e.vregisters k v } := if_pos hk

theorem readRam_ok (hk : k < 4096) : readRam e k = .ok (e.ram k) := if_pos hk

theorem writeRam_ok (hk : k < 4096) (v : BitVec 8) :
    writeRam e k v = .ok { e with ram := Function.update e.ram k v } := if_pos hk

theorem readRam_error (hk : ¬ k < 4096) : readRam e k = .error (.ram k) := if_neg hk

/-- The run went on. -/
def Returns (r : Except Oob Emulator) : Prop := ∃ t, r = .ok t

theorem returns_ok (t : Emulator) : Returns (.ok t) := ⟨t, rfl⟩

theorem not_returns_error (o : Oob) : ¬ Returns (.error o) := by
  rintro ⟨t, ht⟩
  simp at ht

theorem exists_ok_iff {P : Emulator → Prop} {u : Emulator} :
    (∃ t, (.ok u : Except Oob Emulator) = .ok t ∧ P t) ↔ P u := by
  constructor
  · rintro ⟨t, ht, hP⟩
    rwa [Except.ok.inj ht]
  · intro hP
    exact ⟨u, rfl, hP⟩


/-- Two runs, one after the other. -/
theorem returns_bind_iff {x : Except Oob Emulator} {f : Emulator → Except Oob Emulator} :
    Returns (x >>= f) ↔ Returns x ∧ ∀ u, x = .ok u → Returns (f u) := by
  constructor
  · rintro ⟨t, hrun⟩
    obtain ⟨u, hfirst, hrest⟩ := bind_eq_ok hrun
    refine ⟨⟨u, hfirst⟩, fun u' hu' => ?_⟩
    rw [hfirst] at hu'
    rw [← Except.ok.inj hu']
    exact ⟨t, hrest⟩
  · rintro ⟨⟨u, hfirst⟩, hrest⟩
    rw [hfirst, ok_bind]
    exact hrest u hfirst

/-- A run that returns under `P`, and nothing but `v`. -/
theorem ok_iff_of_returns {r : Except Oob Emulator} {t v : Emulator} {P : Prop}
    (hreturns : Returns r ↔ P) (hexact : ∀ u, r = .ok u → u = v) : r = .ok t ↔ P ∧ t = v := by
  constructor
  · intro h
    exact ⟨hreturns.mp ⟨t, h⟩, hexact t h⟩
  · rintro ⟨hP, ht⟩
    obtain ⟨u, hu⟩ := hreturns.mpr hP
    rw [hu, ht, hexact u hu]

/-- A run that a condition decides returns exactly when it holds. -/
theorem returns_iff_of_spec {r : Except Oob Emulator} {P : Prop} {β : Type} {f : β → Emulator}
    (h : (P → ∃ b, r = .ok (f b)) ∧ (¬ P → ¬ Returns r)) : Returns r ↔ P := by
  obtain ⟨hin, hout⟩ := h
  refine ⟨fun hr => by_contra fun hno => hout hno hr, fun hP => ?_⟩
  obtain ⟨b, hb⟩ := hin hP
  exact ⟨f b, hb⟩

/-! ## Sprites -/

/-- The pixel lies on the screen. -/
def OnScreen (x y : Nat) : Prop := x < screenWidth ∧ y < screenHeight

theorem writeChip8Pixel_ok {px py : Nat} (h : OnScreen px py) (state : Bool) :
    ∃ screen, writeChip8Pixel e px py state = .ok { e with screen := screen } :=
  ⟨_, if_pos h⟩

theorem writeChip8Pixel_error {px py : Nat} (h : ¬ OnScreen px py) (state : Bool) :
    writeChip8Pixel e px py state = .error (.pixel px py) := if_neg h

/-- The bit the code tests is the top one. -/
theorem top_bit (sprite : BitVec 8) : 0 < (sprite &&& 0x80).toNat ↔ sprite.getLsbD 7 = true := by
  revert sprite
  decide

theorem shifted_bit (sprite : BitVec 8) {c : Nat} (hc : c < 7) :
    (sprite <<< 1).getLsbD (7 - c) = sprite.getLsbD (7 - (c + 1)) := by
  rw [BitVec.getLsbD_shiftLeft]
  simp only [show 7 - c < 8 by omega, show ¬ 7 - c < 1 by omega, decide_true, decide_false,
    Bool.not_false, Bool.true_and]
  congr 1

/-- The set bits of a row fall on the screen. -/
def RowOnScreen (vx vy : BitVec 8) (row : Nat) (sprite : BitVec 8) (cols col : Nat) : Prop :=
  ∀ c, c < cols → sprite.getLsbD (7 - c) = true →
    OnScreen ((vx.toNat + (col + c)) % 256) ((vy.toNat + row) % 256)

/-- A row is its first column and the rest, with the bits moved up. -/
theorem rowOnScreen_succ {vx vy sprite : BitVec 8} {row cols col : Nat} (hcols : cols < 8) :
    RowOnScreen vx vy row sprite (cols + 1) col ↔
      (sprite.getLsbD 7 = true → OnScreen ((vx.toNat + col) % 256) ((vy.toNat + row) % 256)) ∧
        RowOnScreen vx vy row (sprite <<< 1) cols (col + 1) := by
  constructor
  · intro h
    refine ⟨h 0 (by omega), fun c hc hbit => ?_⟩
    rw [shifted_bit sprite (by omega)] at hbit
    have hc' := h (c + 1) (by omega) hbit
    rwa [show col + (c + 1) = col + 1 + c by omega] at hc'
  · rintro ⟨hfirst, hrest⟩ c hc hbit
    cases c with
    | zero => exact hfirst hbit
    | succ c =>
      rw [← shifted_bit sprite (by omega)] at hbit
      have hc' := hrest c (by omega) hbit
      rwa [show col + 1 + c = col + (c + 1) by omega] at hc'

theorem drawRow_spec (hx : x < 16) (hy : y < 16) (row : Nat) :
    ∀ (cols col : Nat) (sprite : BitVec 8) (e : Emulator), cols ≤ 8 →
      (RowOnScreen (e.vregisters x) (e.vregisters y) row sprite cols col →
        ∃ screen, drawRow e x y row sprite cols col = .ok { e with screen := screen }) ∧
      (¬ RowOnScreen (e.vregisters x) (e.vregisters y) row sprite cols col →
        ¬ Returns (drawRow e x y row sprite cols col)) := by
  intro cols
  induction cols with
  | zero =>
    intro col sprite e _
    exact ⟨fun _ => ⟨e.screen, rfl⟩, fun h => absurd (fun c hc => absurd hc (Nat.not_lt_zero c)) h⟩
  | succ cols ih =>
    intro col sprite e hcols
    rw [rowOnScreen_succ (by omega), drawRow]
    by_cases hbit : sprite.getLsbD 7 = true
    · simp only [readV_ok hx, readV_ok hy, if_pos ((top_bit sprite).mpr hbit), bind, Except.bind]
      by_cases hon : OnScreen (((e.vregisters x).toNat + col) % 256)
          (((e.vregisters y).toNat + row) % 256)
      · obtain ⟨screen, hpixel⟩ := writeChip8Pixel_ok (e := e) hon true
        obtain ⟨hin, hout⟩ := ih (col + 1) (sprite <<< 1) { e with screen := screen } (by omega)
        rw [hpixel]
        exact ⟨fun h => hin h.2, fun h => hout fun hrest => h ⟨fun _ => hon, hrest⟩⟩
      · rw [writeChip8Pixel_error hon]
        exact ⟨fun h => absurd (h.1 hbit) hon, fun _ => not_returns_error _⟩
    · obtain ⟨hin, hout⟩ := ih (col + 1) (sprite <<< 1) e (by omega)
      simp only [if_neg fun h => hbit ((top_bit sprite).mp h), bind, Except.bind]
      exact ⟨fun h => hin h.2, fun h => hout fun hrest => h ⟨fun hb => absurd hb hbit, hrest⟩⟩

/-- Every row is read from memory and its set bits fall on the screen. -/
def SpriteInside (e : Emulator) (x y rows row : Nat) : Prop :=
  ∀ r, r < rows → e.i.toNat + (row + r) < 4096 ∧
    RowOnScreen (e.vregisters x) (e.vregisters y) (row + r) (e.ram (e.i.toNat + (row + r))) 8 0

theorem spriteInside_succ {rows row : Nat} :
    SpriteInside e x y (rows + 1) row ↔
      (e.i.toNat + row < 4096 ∧ RowOnScreen (e.vregisters x) (e.vregisters y) row
        (e.ram (e.i.toNat + row)) 8 0) ∧ SpriteInside e x y rows (row + 1) := by
  constructor
  · intro h
    refine ⟨h 0 (by omega), fun r hr => ?_⟩
    have hr' := h (r + 1) (by omega)
    rwa [show row + (r + 1) = row + 1 + r by omega] at hr'
  · rintro ⟨hfirst, hrest⟩ r hr
    cases r with
    | zero => exact hfirst
    | succ r =>
      have hr' := hrest r (by omega)
      rwa [show row + 1 + r = row + (r + 1) by omega] at hr'

theorem drawSprite_spec (hx : x < 16) (hy : y < 16) :
    ∀ (rows row : Nat) (e : Emulator),
      (SpriteInside e x y rows row →
        ∃ screen, drawSprite e x y rows row = .ok { e with screen := screen }) ∧
      (¬ SpriteInside e x y rows row → ¬ Returns (drawSprite e x y rows row)) := by
  intro rows
  induction rows with
  | zero =>
    intro row e
    exact ⟨fun _ => ⟨e.screen, rfl⟩, fun h => absurd (fun r hr => absurd hr (Nat.not_lt_zero r)) h⟩
  | succ rows ih =>
    intro row e
    rw [spriteInside_succ, drawSprite]
    by_cases hram : e.i.toNat + row < 4096
    · rw [readRam_ok hram]
      simp only [bind, Except.bind]
      obtain ⟨hrowIn, hrowOut⟩ :=
        drawRow_spec hx hy row 8 0 (e.ram (e.i.toNat + row)) e (Nat.le_refl 8)
      by_cases hrow : RowOnScreen (e.vregisters x) (e.vregisters y) row
          (e.ram (e.i.toNat + row)) 8 0
      · obtain ⟨screen, hdraw⟩ := hrowIn hrow
        obtain ⟨hin, hout⟩ := ih (row + 1) { e with screen := screen }
        rw [hdraw]
        exact ⟨fun h => hin h.2, fun h => hout fun hrest => h ⟨⟨hram, hrow⟩, hrest⟩⟩
      · refine ⟨fun h => absurd h.1.2 hrow, fun _ => ?_⟩
        cases hdraw : drawRow e x y row (e.ram (e.i.toNat + row)) 8 0 with
        | error o => exact not_returns_error o
        | ok t => exact absurd ⟨t, hdraw⟩ (hrowOut hrow)
    · rw [readRam_error hram]
      exact ⟨fun h => absurd h.1.1 hram, fun _ => not_returns_error _⟩

/-! ## Register dumps -/

theorem writeRam_error (hk : ¬ k < 4096) (v : BitVec 8) :
    writeRam e k v = .error (.ram k) := if_neg hk

theorem readV_error (hk : ¬ k < 16) : readV e k = .error (.vregister k) := if_neg hk

theorem writeV_error (hk : ¬ k < 16) (v : BitVec 8) :
    writeV e k v = .error (.vregister k) := if_neg hk

/-- The indices `k`, …, `last` are register numbers and lead to memory. -/
def DumpInside (e : Emulator) (k last : Nat) : Prop :=
  k ≤ last → last < 16 ∧ e.i.toNat + last < 4096

/-- A round whose own indices are inside leaves the rest to be checked. -/
theorem dumpInside_succ {last : Nat} (hk : k ≤ last) (hreg : k < 16)
    (hram : e.i.toNat + k < 4096) : DumpInside e k last ↔ DumpInside e (k + 1) last := by
  constructor
  · intro h _
    exact h hk
  · intro h _
    by_cases hlast : k + 1 ≤ last
    · exact h hlast
    · rw [show last = k by omega]
      exact ⟨hreg, hram⟩

theorem storeRegisters_spec (hx : x < 16) :
    ∀ (fuel k : Nat) (e : Emulator), 256 ≤ k + fuel →
      (DumpInside e k (e.vregisters x).toNat →
        ∃ ram, storeRegisters e x fuel k = .ok { e with ram := ram }) ∧
      (¬ DumpInside e k (e.vregisters x).toNat → ¬ Returns (storeRegisters e x fuel k)) := by
  intro fuel
  induction fuel with
  | zero =>
    intro k e hfuel
    have hlt := (e.vregisters x).isLt
    exact ⟨fun _ => ⟨e.ram, rfl⟩, fun h => absurd (fun hk => absurd hk (by omega)) h⟩
  | succ fuel ih =>
    intro k e hfuel
    rw [storeRegisters, readV_ok hx]
    simp only [bind, Except.bind]
    by_cases hk : k ≤ (e.vregisters x).toNat
    · rw [if_pos hk]
      by_cases hreg : k < 16
      · by_cases hram : e.i.toNat + k < 4096
        · rw [readV_ok hreg]
          simp only [writeRam_ok hram]
          rw [dumpInside_succ hk hreg hram]
          exact ih (k + 1)
            { e with ram := Function.update e.ram (e.i.toNat + k) (e.vregisters k) } (by omega)
        · rw [readV_ok hreg]
          simp only [writeRam_error hram]
          exact ⟨fun h => absurd (h hk).2 (by omega), fun _ => not_returns_error _⟩
      · simp only [readV_error hreg]
        exact ⟨fun h => absurd (h hk).1 (by omega), fun _ => not_returns_error _⟩
    · rw [if_neg hk]
      exact ⟨fun _ => ⟨e.ram, rfl⟩, fun h => absurd (fun hk' => absurd hk' hk) h⟩

/-- Past the register that holds the bound, loading registers is bounded by what
that register holds. -/
theorem loadRegisters_after (hx : x < 16) :
    ∀ (fuel k : Nat) (e : Emulator), 256 ≤ k + fuel → x < k →
      (DumpInside e k (e.vregisters x).toNat →
        ∃ v, loadRegisters e x fuel k = .ok { e with vregisters := v }) ∧
      (¬ DumpInside e k (e.vregisters x).toNat → ¬ Returns (loadRegisters e x fuel k)) := by
  intro fuel
  induction fuel with
  | zero =>
    intro k e hfuel _
    have hlt := (e.vregisters x).isLt
    exact ⟨fun _ => ⟨e.vregisters, rfl⟩, fun h => absurd (fun hk => absurd hk (by omega)) h⟩
  | succ fuel ih =>
    intro k e hfuel hxk
    rw [loadRegisters, readV_ok hx]
    simp only [bind, Except.bind]
    by_cases hk : k ≤ (e.vregisters x).toNat
    · rw [if_pos hk]
      by_cases hram : e.i.toNat + k < 4096
      · by_cases hreg : k < 16
        · rw [readRam_ok hram]
          simp only [writeV_ok hreg]
          have hkeep : Function.update e.vregisters k (e.ram (e.i.toNat + k)) x =
              e.vregisters x := Function.update_of_ne (by omega) _ _
          have hrest := ih (k + 1)
            { e with vregisters := Function.update e.vregisters k (e.ram (e.i.toNat + k)) }
            (by omega) (by omega)
          simp only [hkeep] at hrest
          rw [dumpInside_succ hk hreg hram]
          exact hrest
        · rw [readRam_ok hram]
          simp only [writeV_error hreg]
          exact ⟨fun h => absurd (h hk).1 (by omega), fun _ => not_returns_error _⟩
      · simp only [readRam_error hram]
        exact ⟨fun h => absurd (h hk).2 (by omega), fun _ => not_returns_error _⟩
    · rw [if_neg hk]
      exact ⟨fun _ => ⟨e.vregisters, rfl⟩, fun h => absurd (fun hk' => absurd hk' hk) h⟩

/-- The last register that `FX65` loads: the bound changes when register `x` itself
is loaded. -/
def lastLoaded (e : Emulator) (x : Nat) : Nat :=
  if (e.vregisters x).toNat < x then (e.vregisters x).toNat
  else max x (e.ram (e.i.toNat + x)).toNat

/-- The round that loads the bound. -/
theorem dumpInside_max {bound : Nat} (hreg : k < 16) (hram : e.i.toNat + k < 4096) :
    DumpInside e k (max k bound) ↔ DumpInside e (k + 1) bound := by
  rw [dumpInside_succ (le_max_left k bound) hreg hram]
  by_cases hmore : k + 1 ≤ bound
  · rw [max_eq_right (by omega)]
  · exact ⟨fun _ hk => absurd hk hmore, fun _ hk => absurd hk (by omega)⟩

/-- Up to register `x` the bound is the old one. -/
theorem loadRegisters_spec (hx : x < 16) :
    ∀ (fuel k : Nat) (e : Emulator), 256 ≤ k + fuel → k ≤ x →
      (DumpInside e k (lastLoaded e x) →
        ∃ v, loadRegisters e x fuel k = .ok { e with vregisters := v }) ∧
      (¬ DumpInside e k (lastLoaded e x) → ¬ Returns (loadRegisters e x fuel k)) := by
  intro fuel
  induction fuel with
  | zero =>
    intro k e hfuel hkx
    omega
  | succ fuel ih =>
    intro k e hfuel hkx
    have hbyte := (e.ram (e.i.toNat + x)).isLt
    rw [loadRegisters, readV_ok hx]
    simp only [bind, Except.bind]
    by_cases hk : k ≤ (e.vregisters x).toNat
    · rw [if_pos hk]
      have hle : k ≤ lastLoaded e x := by
        rw [lastLoaded]
        split
        · exact hk
        · omega
      by_cases hram : e.i.toNat + k < 4096
      · rw [readRam_ok hram]
        simp only [writeV_ok (show k < 16 by omega)]
        by_cases hkeq : k = x
        · -- register `x` is loaded now
          subst hkeq
          have hself : Function.update e.vregisters k (e.ram (e.i.toNat + k)) k =
              e.ram (e.i.toNat + k) := Function.update_self _ _ _
          have hlast : lastLoaded e k = max k (e.ram (e.i.toNat + k)).toNat := if_neg (by omega)
          have hrest := loadRegisters_after hx fuel (k + 1)
            { e with vregisters := Function.update e.vregisters k (e.ram (e.i.toNat + k)) }
            (by omega) (by omega)
          simp only [hself] at hrest
          rw [hlast, dumpInside_max hx hram]
          exact hrest
        · have hkeep : Function.update e.vregisters k (e.ram (e.i.toNat + k)) x =
              e.vregisters x := Function.update_of_ne (fun h => hkeq h.symm) _ _
          have hrest := ih (k + 1)
            { e with vregisters := Function.update e.vregisters k (e.ram (e.i.toNat + k)) }
            (by omega) (by omega)
          simp only [lastLoaded, hkeep] at hrest
          rw [dumpInside_succ hle (by omega) hram]
          exact hrest
      · simp only [readRam_error hram]
        exact ⟨fun h => absurd (h hle).2 (by omega), fun _ => not_returns_error _⟩
    · have hlast : lastLoaded e x = (e.vregisters x).toNat := if_pos (by omega)
      rw [if_neg hk, hlast]
      exact ⟨fun _ => ⟨e.vregisters, rfl⟩, fun h => absurd (fun hk' => absurd hk' hk) h⟩

/-! ## Instructions -/

theorem arithmetic_ok (hx : x < 16) (hy : y < 16) (n : Nat) :
    ∃ v, arithmetic e x y n = .ok { e with vregisters := v } := by
  have hf : 0xF < 16 := by omega
  unfold arithmetic
  split
  case h_6 =>
    simp only [writeV_ok hf, readV_ok hx, readV_ok hy, bind, Except.bind]
    split
    · simp only [writeV_ok hx]
      exact ⟨_, rfl⟩
    · simp only [writeV_ok hx]
      exact ⟨_, rfl⟩
  case h_8 => exact ⟨e.vregisters, rfl⟩
  all_goals
    simp only [readV_ok hx, readV_ok hy, writeV_ok hx, writeV_ok hf, bind, Except.bind]
    exact ⟨_, rfl⟩

/-- The condition of `FXNN`. -/
def MiscellaneousInside (e : Emulator) (x : Nat) : Nat → Prop
  | 0x55 => DumpInside e 0 (e.vregisters x).toNat
  | 0x65 => DumpInside e 0 (lastLoaded e x)
  | _ => True

theorem miscellaneous_returns_iff (hx : x < 16) (nn : Nat) :
    Returns (miscellaneous e x nn) ↔ MiscellaneousInside e x nn := by
  unfold miscellaneous
  split
  case h_5 =>
    exact returns_iff_of_spec (storeRegisters_spec hx 256 0 e (by omega))
  case h_6 =>
    exact returns_iff_of_spec (loadRegisters_spec hx 256 0 e (by omega) (Nat.zero_le x))
  case h_7 h55 h65 =>
    have htrue : MiscellaneousInside e x nn := by
      unfold MiscellaneousInside
      split
      · exact absurd rfl h55
      · exact absurd rfl h65
      · trivial
    exact ⟨fun _ => htrue, fun _ => returns_ok _⟩
  all_goals
    simp only [readV_ok hx, writeV_ok hx, bind, Except.bind]
    exact ⟨fun _ => trivial, fun _ => returns_ok _⟩

/-- The condition of an instruction, on the state it is fetched in.  A sprite is
drawn with register 15 cleared. -/
def Inside (e : Emulator) (opcode1 opcode2 : BitVec 8) : Prop :=
  match (opcode1 >>> 4).toNat with
  | 0xD =>
    SpriteInside { e with vregisters := Function.update e.vregisters 0xF 0 } (regX opcode1)
      (regY opcode2) (opcode2 &&& 0x0F).toNat 0
  | 0xF => MiscellaneousInside e (regX opcode1) opcode2.toNat
  | _ => True

theorem execute_returns_iff (opcode1 opcode2 : BitVec 8) :
    Returns (chip8ExecuteInstruction e opcode1 opcode2) ↔ Inside e opcode1 opcode2 := by
  have hx := regX_lt opcode1
  have hy := regY_lt opcode2
  unfold chip8ExecuteInstruction Inside
  split
  case h_1 hn =>
    rw [hn]
    refine ⟨fun _ => trivial, fun _ => ?_⟩
    split
    · exact returns_ok _
    · split
      · exact returns_ok _
      · exact returns_ok _
  case h_9 hn =>
    rw [hn]
    obtain ⟨v, hrun⟩ := arithmetic_ok (e := { e with pc := e.pc + 2 }) hx hy (opcode2 &&& 0x0F).toNat
    exact ⟨fun _ => trivial, fun _ => ⟨_, hrun⟩⟩
  case h_14 hn =>
    rw [hn]
    simp only [writeV_ok (show 0xF < 16 by omega), bind, Except.bind]
    exact returns_iff_of_spec (drawSprite_spec hx hy (opcode2 &&& 0x0F).toNat 0
      { e with pc := e.pc + 2, vregisters := Function.update e.vregisters 0xF 0 })
  case h_15 hn =>
    rw [hn]
    exact miscellaneous_returns_iff (e := { e with pc := e.pc + 2 }) hx opcode2.toNat
  case h_16 hn =>
    split
    · exact absurd ‹_› ‹_›
    · exact absurd ‹_› ‹_›
    · exact ⟨fun _ => trivial, fun _ => returns_ok _⟩
  all_goals
    rename_i hn
    rw [hn]
    simp only [readV_ok hx, readV_ok hy, readV_ok (show 0 < 16 by omega), writeV_ok hx, bind,
      Except.bind]
    exact ⟨fun _ => trivial, fun _ => returns_ok _⟩

/-- The condition of one round of `chip8_cycle`. -/
def InstructionInside (e : Emulator) : Prop :=
  e.paused = false → e.pc.toNat + 1 < 4096 ∧
    Inside e (e.ram e.pc.toNat) (e.ram (e.pc.toNat + 1))

theorem fetch_ok (h : e.pc.toNat + 1 < 4096) :
    fetch e = .ok (e.ram e.pc.toNat, e.ram (e.pc.toNat + 1)) := by
  rw [fetch, readRam_ok (by omega), readRam_ok h]
  rfl

theorem fetch_error (h : ¬ e.pc.toNat + 1 < 4096) : ∃ o, fetch e = .error o := by
  rw [fetch]
  by_cases hpc : e.pc.toNat < 4096
  · rw [readRam_ok hpc, readRam_error h]
    exact ⟨_, rfl⟩
  · rw [readRam_error hpc]
    exact ⟨_, rfl⟩

theorem instruction_returns_iff : Returns (chip8Instruction e) ↔ InstructionInside e := by
  rw [chip8Instruction, InstructionInside]
  cases e.paused with
  | true => exact ⟨fun _ h => absurd h (by simp), fun _ => returns_ok e⟩
  | false =>
    simp only [Bool.false_eq_true, if_false, true_implies]
    by_cases hpc : e.pc.toNat + 1 < 4096
    · rw [fetch_ok hpc]
      exact ⟨fun h => ⟨hpc, (execute_returns_iff _ _).mp h⟩,
        fun h => (execute_returns_iff _ _).mpr h.2⟩
    · obtain ⟨o, ho⟩ := fetch_error hpc
      rw [ho]
      exact ⟨fun h => absurd h (not_returns_error o), fun h => absurd h.1 hpc⟩

/-! ## Cycles -/

/-- `InstructionInside` before each of the next `n` instructions. -/
def InstructionsInside : Nat → Emulator → Prop
  | 0, _ => True
  | n + 1, e =>
    InstructionInside e ∧ ∀ t, chip8Instruction e = .ok t → InstructionsInside n t

theorem instructions_returns_iff (n : Nat) (e : Emulator) :
    Returns (chip8Instructions n e) ↔ InstructionsInside n e := by
  induction n generalizing e with
  | zero => exact ⟨fun _ => trivial, fun _ => returns_ok e⟩
  | succ n ih =>
    rw [chip8Instructions, InstructionsInside, ← instruction_returns_iff, returns_bind_iff]
    exact and_congr_right fun _ => forall₂_congr fun u _ => ih u

/-- The refresh has done the first `cols` columns and `rows` pixels of the next. -/
def Shows (e : Emulator) (cols rows : Nat) (t : Emulator) : Prop :=
  ∃ screen, t = { e with screen := screen } ∧
    ∀ px py, py < screenHeight → (px < cols ∨ px = cols ∧ py < rows) →
      screen px py = e.display ((px + py * screenWidth) % 256)

theorem shows_pixel {col row : Nat} (hon : OnScreen col row) (h : Shows e col row t) :
    Exits (Shows e col (row + 1)) (fun _ => False)
      (writeChip8Pixel t col row (t.display ((col + row * screenWidth) % 256))) := by
  obtain ⟨screen, rfl, hshown⟩ := h
  rw [writeChip8Pixel, if_pos (show col < screenWidth ∧ row < screenHeight from hon)]
  refine ⟨_, rfl, fun px py hpy hdone => ?_⟩
  by_cases hhere : px = col ∧ py = row
  · rw [if_pos hhere, hhere.1, hhere.2]
  · rw [if_neg hhere]
    exact hshown px py hpy (by omega)

theorem shows_column {col : Nat} (hcol : col < screenWidth) (h : Shows e col 0 t) :
    Exits (Shows e (col + 1) 0) (fun _ => False)
      ((List.range screenHeight).foldlM (fun e ytemp =>
        writeChip8Pixel e col ytemp (e.display ((col + ytemp * screenWidth) % 256))) t) := by
  have hrows := foldlM_range_induction (Shows e col) (fun _ : Oob => False) h
    fun row u hrow hu => shows_pixel ⟨hcol, hrow⟩ hu
  obtain ⟨u, hrun, screen, hu, hshown⟩ := exits_false hrows
  rw [hrun]
  exact ⟨screen, hu, fun px py hpy hdone => hshown px py hpy (by omega)⟩

/-- Redrawing the screen passes only pixels that are on it, and all of them. -/
theorem updateFramebuffer_ok (e : Emulator) :
    ∃ screen, chip8UpdateFramebuffer e = .ok { e with screen := screen } ∧
      ∀ px py, OnScreen px py →
        screen px py = e.display ((px + py * screenWidth) % 256) := by
  have hstart : Shows e 0 0 e := ⟨e.screen, rfl, fun px py _ hdone => by omega⟩
  have hcolumns := foldlM_range_induction (Shows e · 0) (fun _ : Oob => False) hstart
    fun col u hcol hu => shows_column hcol hu
  obtain ⟨u, hrun, screen, rfl, hshown⟩ := exits_false hcolumns
  exact ⟨screen, hrun, fun px py hon => hshown px py hon.2 (.inl hon.1)⟩

theorem endCycle_returns (e : Emulator) : Returns (endCycle e) := by
  obtain ⟨screen, hrun, -⟩ := updateFramebuffer_ok (if e.paused then e else chip8UpdateTimers e)
  rw [endCycle, hrun]
  exact returns_ok _

theorem cycle_returns_iff (e : Emulator) :
    Returns (chip8Cycle e) ↔ InstructionsInside e.speed e := by
  rw [← instructions_returns_iff]
  constructor
  · rintro ⟨t, hrun⟩
    rw [chip8Cycle] at hrun
    obtain ⟨u, hinstr, -⟩ := bind_eq_ok hrun
    exact ⟨u, hinstr⟩
  · rintro ⟨u, hinstr⟩
    obtain ⟨t, hend⟩ := endCycle_returns u
    rw [chip8Cycle, hinstr, ok_bind, hend]
    exact returns_ok t

/-! ## Whole runs -/

theorem loadRange_spec (e : Emulator) (buf : List (BitVec 8)) (n : Nat) :
    (n ≤ 3584 → ∃ ram, (List.range n).foldlM
        (fun e i => writeRam e (0x200 + i) (buf.getD i 0)) e = .ok { e with ram := ram }) ∧
      (¬ n ≤ 3584 → ¬ Returns ((List.range n).foldlM
        (fun e i => writeRam e (0x200 + i) (buf.getD i 0)) e)) := by
  induction n with
  | zero => exact ⟨fun _ => ⟨e.ram, rfl⟩, fun h => absurd (Nat.zero_le 3584) h⟩
  | succ n ih =>
    rw [List.range_succ, List.foldlM_append]
    by_cases hn : n ≤ 3584
    · obtain ⟨ram, hrun⟩ := ih.1 hn
      rw [hrun, ok_bind, List.foldlM_cons]
      by_cases hlt : 0x200 + n < 4096
      · rw [writeRam_ok hlt, ok_bind, List.foldlM_nil]
        exact ⟨fun _ => ⟨_, rfl⟩, fun h => absurd (by omega) h⟩
      · rw [writeRam_error hlt]
        exact ⟨fun h => absurd h (by omega), fun _ => not_returns_error _⟩
    · refine ⟨fun h => absurd h (by omega), fun _ => ?_⟩
      rintro ⟨t, hrun⟩
      obtain ⟨u, hfirst, -⟩ := bind_eq_ok hrun
      exact ih.2 hn ⟨u, hfirst⟩

theorem setup_returns_iff (e : Emulator) (rom : List (BitVec 8)) :
    Returns (setupChip8Emulator e rom) ↔ rom.length ≤ 3584 := by
  rw [setupChip8Emulator, chip8LoadProgramIntoRam]
  constructor
  · intro h
    by_contra hlen
    exact (loadRange_spec _ rom rom.length).2 hlen h
  · intro hlen
    obtain ⟨ram, hrun⟩ := (loadRange_spec _ rom rom.length).1 hlen
    exact ⟨_, hrun⟩

/-- What the loop of `setup_chip8_emulator` does again and again. -/
inductive Move where
  | restart
  | cycle
deriving DecidableEq, Repr

def play : Emulator → List Move → Except Oob Emulator
  | e, [] => .ok e
  | e, .restart :: moves => play (restart e) moves
  | e, .cycle :: moves => do
    let e ← chip8Cycle e
    play e moves

/-- `InstructionInside` before every instruction of the run. -/
def PlayInside : Emulator → List Move → Prop
  | _, [] => True
  | e, .restart :: moves => PlayInside (restart e) moves
  | e, .cycle :: moves =>
    InstructionsInside e.speed e ∧ ∀ t, chip8Cycle e = .ok t → PlayInside t moves

theorem play_returns_iff (e : Emulator) (moves : List Move) :
    Returns (play e moves) ↔ PlayInside e moves := by
  induction moves generalizing e with
  | nil => exact ⟨fun _ => trivial, fun _ => returns_ok e⟩
  | cons move moves ih =>
    cases move with
    | restart => exact ih (restart e)
    | cycle =>
      rw [play, PlayInside, ← cycle_returns_iff, returns_bind_iff]
      exact and_congr_right fun _ => forall₂_congr fun u _ => ih u

/-- A run on the bytes of a file. -/
def runRom (randseed : Nat) (rom : List (BitVec 8)) (moves : List Move) : Except Oob Emulator := do
  let e ← setupChip8Emulator (Emulator.zero randseed) rom
  play e moves

/-- **What keeps a program inside.**  Every access of a run lies inside the arrays
and on the screen exactly when the program fits into memory and each instruction,
when its turn comes, is fetched from memory and meets its own condition. -/
theorem runRom_inside_iff (randseed : Nat) (rom : List (BitVec 8)) (moves : List Move) :
    Returns (runRom randseed rom moves) ↔ rom.length ≤ 3584 ∧
      ∀ e, setupChip8Emulator (Emulator.zero randseed) rom = .ok e → PlayInside e moves := by
  rw [← setup_returns_iff (Emulator.zero randseed)]
  constructor
  · rintro ⟨t, hrun⟩
    obtain ⟨u, hsetup, hplay⟩ := bind_eq_ok hrun
    refine ⟨⟨u, hsetup⟩, fun u' hu' => ?_⟩
    rw [hsetup] at hu'
    rw [← Except.ok.inj hu']
    exact (play_returns_iff u moves).mp ⟨t, hplay⟩
  · rintro ⟨⟨u, hsetup⟩, hinside⟩
    rw [runRom, hsetup, ok_bind]
    exact (play_returns_iff u moves).mpr (hinside u hsetup)

/-- A jump to the last byte, a register dump bounded by 16 and a sprite past the
right edge. -/
theorem runRom_outside :
    runRom 1 [0x1F, 0xFF] [.cycle] = .error (.ram 4096) ∧
      runRom 1 [0x60, 0x10, 0xF0, 0x55] [.cycle] = .error (.vregister 16) ∧
      runRom 1 [0x60, 0x40, 0xA2, 0x00, 0xD0, 0x11] [.cycle] = .error (.pixel 65 0) := by
  refine ⟨?_, ?_, ?_⟩ <;> rfl

end Chip8
end Medusa
