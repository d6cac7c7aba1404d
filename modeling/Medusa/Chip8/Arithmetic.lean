import Medusa.Chip8.Sandbox

/-!
# Sums, differences and halves

`8XY4`, `8XY5` and `8XY6` put a result into register `x` and a flag into register
15.  The test for the carry is commented out in the source, and the one for the
borrow is strict.
-/

namespace Medusa
namespace Chip8

open Machine

variable {e t : Emulator} {x y : Nat} {opcode1 opcode2 : BitVec 8}

inductive ArithmeticOp where
  | add
  | sub
  | shiftRight
deriving DecidableEq, Repr

namespace ArithmeticOp

/-- The last digit of the instruction. -/
def digit : ArithmeticOp → Nat
  | add => 0x4
  | sub => 0x5
  | shiftRight => 0x6

/-- The number meant for register `x`. -/
def result (vx vy : BitVec 8) : ArithmeticOp → Nat
  | add => (vx.toNat + vy.toNat) % 256
  | sub => (vx.toNat + (256 - vy.toNat)) % 256
  | shiftRight => vx.toNat / 2

/-- When register 15 is meant to be 1. -/
def flag (vx vy : BitVec 8) : ArithmeticOp → Bool
  | add => 255 < vx.toNat + vy.toNat
  | sub => vy.toNat ≤ vx.toNat
  | shiftRight => vx.toNat % 2 = 1

end ArithmeticOp

/-- What the instruction is for: a result, a flag, and nothing else. -/
structure Computes (op : ArithmeticOp) (e : Emulator) (x y : Nat) (t : Emulator) : Prop where
  result : (t.vregisters x).toNat = op.result (e.vregisters x) (e.vregisters y)
  flag : t.vregisters 0xF = if op.flag (e.vregisters x) (e.vregisters y) then 1 else 0
  others : ∀ k, k ≠ x → k ≠ 0xF → t.vregisters k = e.vregisters k
  ram : t.ram = e.ram
  i : t.i = e.i
  stack : t.stack = e.stack
  pc : t.pc = e.pc + 2

/-! ## What the code leaves -/

/-- Register `x` set to `v` after register 15 was set to `flag`. -/
def withResult (e : Emulator) (x : Nat) (v flag : BitVec 8) : Emulator :=
  { e with
    pc := e.pc + 2
    vregisters := Function.update (Function.update e.vregisters 0xF flag) x v }

@[simp] theorem withResult_self (v flag : BitVec 8) : (withResult e x v flag).vregisters x = v :=
  Function.update_self _ _ _

theorem withResult_flag (hx : x ≠ 0xF) (v flag : BitVec 8) :
    (withResult e x v flag).vregisters 0xF = flag := by
  show Function.update (Function.update e.vregisters 0xF flag) x v 0xF = flag
  rw [Function.update_of_ne (Ne.symm hx), Function.update_self]

theorem withResult_other {k : Nat} (hkx : k ≠ x) (hkf : k ≠ 0xF) (v flag : BitVec 8) :
    (withResult e x v flag).vregisters k = e.vregisters k := by
  show Function.update (Function.update e.vregisters 0xF flag) x v k = e.vregisters k
  rw [Function.update_of_ne hkx, Function.update_of_ne hkf]

/-- A result and a flag are all that has to be compared. -/
theorem computes_withResult (hx : x ≠ 0xF) {op : ArithmeticOp} {v flag : BitVec 8} :
    Computes op e x y (withResult e x v flag) ↔
      v.toNat = op.result (e.vregisters x) (e.vregisters y) ∧
        flag = if op.flag (e.vregisters x) (e.vregisters y) then 1 else 0 := by
  constructor
  · intro h
    have hresult := h.result
    have hflag := h.flag
    rw [withResult_self] at hresult
    rw [withResult_flag hx] at hflag
    exact ⟨hresult, hflag⟩
  · rintro ⟨hresult, hflag⟩
    exact {
      result := by rw [withResult_self, hresult]
      flag := by rw [withResult_flag hx, hflag]
      others := fun k hkx hkf => withResult_other hkx hkf v flag
      ram := rfl
      i := rfl
      stack := rfl
      pc := rfl }

/-- The flag that `8XY5` sets: the second operand is read after register 15 was cleared. -/
def subFlag (vx vy : BitVec 8) (y : Nat) : BitVec 8 :=
  if (if y = 0xF then 0 else vy) < vx then 1 else 0

/-- The second operand of the subtraction is read after the flag was set. -/
def subtrahend (vx vy : BitVec 8) (y : Nat) : BitVec 8 :=
  if y = 0xF then subFlag vx vy y else vy

theorem add_eq (h8 : (opcode1 >>> 4).toNat = 0x8) (hn : (opcode2 &&& 0x0F).toNat = 0x4)
    (hx : regX opcode1 ≠ 0xF) :
    chip8ExecuteInstruction e opcode1 opcode2 =
      .ok (withResult e (regX opcode1)
        (e.vregisters (regX opcode1) + e.vregisters (regY opcode2)) 0) := by
  unfold chip8ExecuteInstruction
  simp only [h8, hn, arithmetic, readV_ok (regX_lt opcode1), readV_ok (regY_lt opcode2),
    writeV_ok (regX_lt opcode1), writeV_ok (show 0xF < 16 by omega), ok_bind, withResult]
  rw [Function.update_comm hx, Function.update_idem]

theorem shiftRight_eq (h8 : (opcode1 >>> 4).toNat = 0x8) (hn : (opcode2 &&& 0x0F).toNat = 0x6)
    (hx : regX opcode1 ≠ 0xF) :
    chip8ExecuteInstruction e opcode1 opcode2 =
      .ok (withResult e (regX opcode1) (e.vregisters (regX opcode1) >>> 1)
        (e.vregisters (regX opcode1) &&& 1)) := by
  unfold chip8ExecuteInstruction
  simp only [h8, hn, arithmetic, readV_ok (regX_lt opcode1), writeV_ok (regX_lt opcode1),
    writeV_ok (show 0xF < 16 by omega), ok_bind, withResult, Function.update_of_ne hx]

theorem sub_eq (h8 : (opcode1 >>> 4).toNat = 0x8) (hn : (opcode2 &&& 0x0F).toNat = 0x5)
    (hx : regX opcode1 ≠ 0xF) :
    chip8ExecuteInstruction e opcode1 opcode2 =
      .ok (withResult e (regX opcode1)
        (e.vregisters (regX opcode1) - subtrahend (e.vregisters (regX opcode1))
          (e.vregisters (regY opcode2)) (regY opcode2))
        (subFlag (e.vregisters (regX opcode1)) (e.vregisters (regY opcode2))
          (regY opcode2))) := by
  have hreread : ∀ flag : BitVec 8, Function.update e.vregisters 0xF flag (regY opcode2) =
      if regY opcode2 = 0xF then flag else e.vregisters (regY opcode2) := fun flag =>
    Function.update_apply _ _ _ _
  unfold chip8ExecuteInstruction
  simp only [h8, hn, arithmetic, readV_ok (regX_lt opcode1), readV_ok (regY_lt opcode2),
    writeV_ok (show 0xF < 16 by omega), ok_bind, Function.update_of_ne hx, hreread, withResult,
    subtrahend, subFlag]
  by_cases hlt : (if regY opcode2 = 0xF then 0 else e.vregisters (regY opcode2)) <
      e.vregisters (regX opcode1)
  · simp only [if_pos hlt, Function.update_idem, hreread, writeV_ok (regX_lt opcode1)]
  · simp only [if_neg hlt, writeV_ok (regX_lt opcode1)]

/-! ## When that is right -/

/-- No carry is lost.  A difference is right unless the operands are equal; where
register 15 is the second operand, what is subtracted is the new flag. -/
def ArithmeticOp.Meets (vx vy : BitVec 8) (y : Nat) : ArithmeticOp → Prop
  | add => vx.toNat + vy.toNat ≤ 255
  | sub => if y = 0xF then 0 < vx.toNat ∧ vy.toNat = 1 else vx ≠ vy
  | shiftRight => True

/-- Two flags agree when their conditions do. -/
theorem flag_eq_iff (p q : Prop) [Decidable p] [Decidable q] :
    ((if p then 1 else 0) = if q then (1 : BitVec 8) else 0) ↔ (p ↔ q) := by
  by_cases hp : p
  · by_cases hq : q
    · simp [hp, hq]
    · simp [hp, hq]
  · by_cases hq : q
    · simp [hp, hq]
    · simp [hp, hq]

theorem add_meets_iff (vx vy : BitVec 8) :
    ((vx + vy).toNat = ArithmeticOp.add.result vx vy ∧
      (0 : BitVec 8) = if ArithmeticOp.add.flag vx vy then 1 else 0) ↔
      vx.toNat + vy.toNat ≤ 255 := by
  have hsum : (vx + vy).toNat = ArithmeticOp.add.result vx vy := BitVec.toNat_add vx vy
  have hflag := flag_eq_iff False (ArithmeticOp.add.flag vx vy = true)
  rw [if_false] at hflag
  rw [hflag, ArithmeticOp.flag, decide_eq_true_eq, false_iff, Nat.not_lt]
  constructor
  · rintro ⟨-, hcarry⟩
    exact hcarry
  · intro hle
    exact ⟨hsum, hle⟩

theorem shiftRight_meets (vx : BitVec 8) :
    (vx >>> 1).toNat = vx.toNat / 2 ∧ (vx &&& 1) = if vx.toNat % 2 = 1 then 1 else 0 := by
  revert vx
  decide

/-- The difference of two registers other than 15 is right; the flag misses equality. -/
theorem sub_meets_iff (vx vy : BitVec 8) :
    ((vx - vy).toNat = ArithmeticOp.sub.result vx vy ∧
      (if vy < vx then 1 else 0) = if ArithmeticOp.sub.flag vx vy then (1 : BitVec 8) else 0) ↔
      vx ≠ vy := by
  have hdiff : (vx - vy).toNat = ArithmeticOp.sub.result vx vy := by
    rw [BitVec.toNat_sub, ArithmeticOp.result, Nat.add_comm]
  rw [flag_eq_iff, ArithmeticOp.flag, decide_eq_true_eq, BitVec.lt_def, Ne,
    ← BitVec.toNat_inj]
  constructor
  · rintro ⟨-, hflag⟩
    omega
  · intro hne
    exact ⟨hdiff, by omega⟩

/-- With register 15 as second operand the new flag is subtracted. -/
theorem sub_flag_meets_iff (vx vf : BitVec 8) :
    ((vx - if 0 < vx then 1 else 0).toNat = ArithmeticOp.sub.result vx vf ∧
      (if 0 < vx then 1 else 0) = if ArithmeticOp.sub.flag vx vf then (1 : BitVec 8) else 0) ↔
      0 < vx.toNat ∧ vf.toNat = 1 := by
  have hx := vx.isLt
  have hf := vf.isLt
  have hpos : (0 : BitVec 8) < vx ↔ 0 < vx.toNat := BitVec.lt_def
  have hdiff : (vx - if 0 < vx then 1 else 0).toNat =
      if 0 < vx.toNat then vx.toNat - 1 else 0 := by
    by_cases h : 0 < vx.toNat
    · rw [if_pos (hpos.mpr h), if_pos h, BitVec.toNat_sub,
        show BitVec.toNat (1 : BitVec 8) = 1 from rfl]
      omega
    · rw [if_neg (fun h' => h (hpos.mp h')), if_neg h, BitVec.toNat_sub,
        show BitVec.toNat (0 : BitVec 8) = 0 from rfl]
      omega
  rw [flag_eq_iff, hdiff, hpos, ArithmeticOp.flag, ArithmeticOp.result, decide_eq_true_eq]
  by_cases h : 0 < vx.toNat
  · rw [if_pos h]
    omega
  · rw [if_neg h]
    omega

/-- **What 8XY4, 8XY5 and 8XY6 compute.**  The instruction goes through in every
state, and leaves what it is for exactly when no carry is lost, no equal registers
are subtracted, and register 15 is not the second operand of a subtraction, unless
it held 1 and register `x` was not zero. -/
theorem arithmetic_computes_iff (op : ArithmeticOp) (e : Emulator) (opcode1 opcode2 : BitVec 8)
    (h8 : (opcode1 >>> 4).toNat = 0x8) (hn : (opcode2 &&& 0x0F).toNat = op.digit)
    (hx : regX opcode1 ≠ 0xF) :
    (∃ t, chip8ExecuteInstruction e opcode1 opcode2 = .ok t ∧
        Computes op e (regX opcode1) (regY opcode2) t) ↔
      op.Meets (e.vregisters (regX opcode1)) (e.vregisters (regY opcode2)) (regY opcode2) := by
  cases op with
  | add =>
    rw [add_eq h8 hn hx, exists_ok_iff, computes_withResult hx]
    exact add_meets_iff _ _
  | sub =>
    rw [sub_eq h8 hn hx, exists_ok_iff, computes_withResult hx]
    by_cases hy : regY opcode2 = 0xF
    · simp only [ArithmeticOp.Meets, subtrahend, subFlag, if_pos hy]
      exact sub_flag_meets_iff _ _
    · simp only [ArithmeticOp.Meets, subtrahend, subFlag, if_neg hy]
      exact sub_meets_iff _ _
  | shiftRight =>
    rw [shiftRight_eq h8 hn hx, exists_ok_iff, computes_withResult hx]
    have hright := shiftRight_meets (e.vregisters (regX opcode1))
    simp only [ArithmeticOp.Meets, ArithmeticOp.result, ArithmeticOp.flag, decide_eq_true_eq,
      iff_true]
    exact hright

theorem arithmetic_computes_zeros :
    (∃ t, chip8ExecuteInstruction (Emulator.zero 1) 0x81 0x24 = .ok t ∧
        Computes .add (Emulator.zero 1) 1 2 t) ↔ 0 + 0 ≤ 255 := by
  apply arithmetic_computes_iff .add (Emulator.zero 1) 0x81 0x24
  · rfl
  · rfl
  · decide

/-- 255 + 1 shows no carry and 0 - 0 a borrow. -/
theorem arithmetic_computes_wrong :
    (¬ ∃ t, chip8ExecuteInstruction
        { Emulator.zero 1 with vregisters := fun k => if k = 1 then 255 else 1 } 0x81 0x24 = .ok t ∧
        Computes .add
          { Emulator.zero 1 with vregisters := fun k => if k = 1 then 255 else 1 } 1 2 t) ∧
      ¬ ∃ t, chip8ExecuteInstruction (Emulator.zero 1) 0x81 0x25 = .ok t ∧
        Computes .sub (Emulator.zero 1) 1 2 t := by
  constructor
  · rintro ⟨t, hrun, h⟩
    have hflag := h.flag
    rw [← Except.ok.inj hrun] at hflag
    exact absurd hflag (by decide)
  · rintro ⟨t, hrun, h⟩
    have hflag := h.flag
    rw [← Except.ok.inj hrun] at hflag
    exact absurd hflag (by decide)

end Chip8
end Medusa
