import Mathlib.Data.List.Range
import Mathlib.Data.Nat.Bitwise
import Mathlib.Logic.Function.Basic

/-!
# The CHIP-8 emulator

`chip8/emulator.c` with the stack of `data_structures/stack.c`.  The code never
compares an index with the size of an array.  An access outside an array has no
meaning in C, so the run of the model ends there and says which access it was.
-/

namespace Medusa

/-! ## Stacks -/

namespace DataStructures

def stackPush {α : Type} (root : List α) (data : α) : List α := data :: root

/-- `none` is the null pointer that an empty stack yields. -/
def stackPop {α : Type} : List α → Option α × List α
  | [] => (none, [])
  | data :: next => (some data, next)

end DataStructures

namespace Chip8

open DataStructures

/-- An access outside the arrays or off the screen. -/
inductive Oob where
  | ram (index : Nat)
  | vregister (index : Nat)
  | pixel (x y : Nat)
deriving DecidableEq, Repr

def screenWidth : Nat := 64

def screenHeight : Nat := 32

structure Emulator where
  ram : Nat → BitVec 8
  vregisters : Nat → BitVec 8
  i : BitVec 16
  delayTimer : Nat
  pc : BitVec 16
  /-- What `stack_push` was given: addresses of variables. -/
  stack : List Nat
  speed : Nat
  paused : Bool
  display : Nat → Bool
  /-- What was drawn last at each position of the 64 × 32 screen. -/
  screen : Nat → Nat → Bool
  /-- `_Randseed` of `rand.c`. -/
  randseed : Nat

/-- Where `pc` lies in `chip8_emulator_t`; stands for `&emulator.pc`. -/
def pcAddress : Nat := 4120

/-! ## Accesses -/

def readRam (e : Emulator) (k : Nat) : Except Oob (BitVec 8) :=
  if k < 4096 then .ok (e.ram k) else .error (.ram k)

def writeRam (e : Emulator) (k : Nat) (v : BitVec 8) : Except Oob Emulator :=
  if k < 4096 then .ok { e with ram := Function.update e.ram k v } else .error (.ram k)

def readV (e : Emulator) (k : Nat) : Except Oob (BitVec 8) :=
  if k < 16 then .ok (e.vregisters k) else .error (.vregister k)

def writeV (e : Emulator) (k : Nat) (v : BitVec 8) : Except Oob Emulator :=
  if k < 16 then .ok { e with vregisters := Function.update e.vregisters k v }
  else .error (.vregister k)

def writeChip8Pixel (e : Emulator) (x y : Nat) (state : Bool) : Except Oob Emulator :=
  if x < screenWidth ∧ y < screenHeight then
    .ok { e with
      screen := fun x' y' => if x' = x ∧ y' = y then state else e.screen x' y' }
  else .error (.pixel x y)

/-- `fill_screen` in black. -/
def clearScreen (e : Emulator) : Emulator := { e with screen := fun _ _ => false }

/-- `rand` of `rand.c`: the number and the emulator with the seed moved on. -/
def rand (e : Emulator) : Nat × Emulator :=
  let seed := (e.randseed * 1103515245 + 12345) % 2 ^ 32
  ((seed >>> 16) &&& 32767, { e with randseed := seed })

/-! ## Instructions -/

def chip8GetCombinedOpcode (opcode1 opcode2 : BitVec 8) : BitVec 16 :=
  (opcode1.setWidth 16 <<< 8) ||| opcode2.setWidth 16

/-- The low twelve bits of an instruction. -/
def address (opcode1 opcode2 : BitVec 8) : BitVec 16 :=
  chip8GetCombinedOpcode opcode1 opcode2 &&& 0xFFF

/-- `opcode_1 & 0x0F`. -/
def regX (opcode1 : BitVec 8) : Nat := (opcode1 &&& 0x0F).toNat

/-- `opcode_2 >> 4`. -/
def regY (opcode2 : BitVec 8) : Nat := (opcode2 >>> 4).toNat

def skip (e : Emulator) : Emulator := { e with pc := e.pc + 2 }

/-- The cases of `8XYN`. -/
def arithmetic (e : Emulator) (x y : Nat) (n : Nat) : Except Oob Emulator := do
  match n with
  | 0x0 => writeV e x (← readV e y)
  | 0x1 => writeV e x ((← readV e x) ||| (← readV e y))
  | 0x2 => writeV e x ((← readV e x) &&& (← readV e y))
  | 0x3 => writeV e x ((← readV e x) ^^^ (← readV e y))
  | 0x4 =>
    let sum := (← readV e x) + (← readV e y)
    let e ← writeV e x sum
    let e ← writeV e 0xF 0
    writeV e x sum
  | 0x5 =>
    let e ← writeV e 0xF 0
    let e ← if (← readV e y) < (← readV e x) then writeV e 0xF 1 else .ok e
    writeV e x ((← readV e x) - (← readV e y))
  | 0x6 =>
    let e ← writeV e 0xF ((← readV e x) &&& 1)
    writeV e x ((← readV e x) >>> 1)
  | _ => return e

/-- One row of a sprite, drawn from column `col` on while bits are left. -/
def drawRow (e : Emulator) (x y row : Nat) (sprite : BitVec 8) : Nat → Nat → Except Oob Emulator
  | 0, _ => .ok e
  | cols + 1, col => do
    let e ←
      if 0 < (sprite &&& 0x80).toNat then
        writeChip8Pixel e (((← readV e x).toNat + col) % 256) (((← readV e y).toNat + row) % 256)
          true
      else .ok e
    drawRow e x y row (sprite <<< 1) cols (col + 1)

/-- The rows of a sprite from `row` on. -/
def drawSprite (e : Emulator) (x y : Nat) : Nat → Nat → Except Oob Emulator
  | 0, _ => .ok e
  | rows + 1, row => do
    let sprite ← readRam e (e.i.toNat + row)
    let e ← drawRow e x y row sprite 8 0
    drawSprite e x y rows (row + 1)

/-- `FX55` from index `k` on.  The bound is read again before each round; it is a
byte, so 256 rounds of fuel are never used up. -/
def storeRegisters (e : Emulator) (x : Nat) : Nat → Nat → Except Oob Emulator
  | 0, _ => .ok e
  | fuel + 1, k => do
    if k ≤ (← readV e x).toNat then
      let e ← writeRam e (e.i.toNat + k) (← readV e k)
      storeRegisters e x fuel (k + 1)
    else return e

/-- `FX65` from index `k` on.  The bound is itself one of the registers loaded. -/
def loadRegisters (e : Emulator) (x : Nat) : Nat → Nat → Except Oob Emulator
  | 0, _ => .ok e
  | fuel + 1, k => do
    if k ≤ (← readV e x).toNat then
      let e ← writeV e k (← readRam e (e.i.toNat + k))
      loadRegisters e x fuel (k + 1)
    else return e

/-- The cases of `FXNN`. -/
def miscellaneous (e : Emulator) (x : Nat) (nn : Nat) : Except Oob Emulator := do
  match nn with
  | 0x07 => writeV e x (BitVec.ofNat 8 e.delayTimer)
  | 0x15 => return { e with delayTimer := (← readV e x).toNat }
  | 0x1E => return { e with i := e.i + (← readV e x).setWidth 16 }
  | 0x29 => return { e with i := (← readV e x).setWidth 16 * 5 }
  | 0x55 => storeRegisters e x 256 0
  | 0x65 => loadRegisters e x 256 0
  | _ => return e

def chip8ExecuteInstruction (e : Emulator) (opcode1 opcode2 : BitVec 8) :
    Except Oob Emulator := do
  let e := { e with pc := e.pc + 2 }
  let x := regX opcode1
  let y := regY opcode2
  match (opcode1 >>> 4).toNat with
  | 0x0 =>
    if opcode2 = 0xE0 then return clearScreen e
    else if opcode2 = 0xEE then return { e with stack := (stackPop e.stack).2 }
    else return e
  | 0x1 => return { e with pc := address opcode1 opcode2 }
  | 0x2 =>
    return { e with
      stack := stackPush e.stack pcAddress
      pc := address opcode1 opcode2 }
  | 0x3 => return if (← readV e x) = opcode2 then skip e else e
  | 0x4 => return if (← readV e x) ≠ opcode2 then skip e else e
  | 0x5 => return if (← readV e x) = (← readV e y) then skip e else e
  | 0x6 => writeV e x opcode2
  | 0x7 => writeV e x ((← readV e x) + opcode2)
  | 0x8 => arithmetic e x y (opcode2 &&& 0x0F).toNat
  | 0x9 => return if (← readV e x) ≠ (← readV e y) then skip e else e
  | 0xA => return { e with i := address opcode1 opcode2 }
  | 0xB => return { e with pc := address opcode1 opcode2 + (← readV e 0).setWidth 16 }
  | 0xC =>
    let (randNb, e) := rand e
    writeV e x (BitVec.ofNat 8 (randNb % 256) &&& opcode2)
  | 0xD =>
    let e ← writeV e 0xF 0
    drawSprite e x y (opcode2 &&& 0x0F).toNat 0
  | 0xF => miscellaneous e x opcode2.toNat
  | _ => return e

/-! ## Cycles -/

def fetch (e : Emulator) : Except Oob (BitVec 8 × BitVec 8) := do
  return (← readRam e e.pc.toNat, ← readRam e (e.pc.toNat + 1))

/-- One round of the loop of `chip8_cycle`. -/
def chip8Instruction (e : Emulator) : Except Oob Emulator :=
  if e.paused then .ok e
  else do
    let (opcode1, opcode2) ← fetch e
    chip8ExecuteInstruction e opcode1 opcode2

def chip8Instructions : Nat → Emulator → Except Oob Emulator
  | 0, e => .ok e
  | n + 1, e => do
    let e ← chip8Instruction e
    chip8Instructions n e

def chip8UpdateTimers (e : Emulator) : Emulator :=
  if 0 < e.delayTimer then { e with delayTimer := e.delayTimer - 1 } else e

/-- The index into `display` is a `uint8_t`. -/
def chip8UpdateFramebuffer (e : Emulator) : Except Oob Emulator :=
  (List.range screenWidth).foldlM (fun e xtemp =>
    (List.range screenHeight).foldlM (fun e ytemp =>
      writeChip8Pixel e xtemp ytemp (e.display ((xtemp + ytemp * screenWidth) % 256))) e) e

/-- `x` and `y` are `int8_t`, so moving them by a screen does not overflow.  The index
is a `uint8_t`. -/
def writeChip8Screen (e : Emulator) (x y : Int) (state : Bool) : Emulator :=
  let x :=
    if (screenWidth : Int) < x then x - screenWidth
    else if x < 0 then x + screenWidth
    else x
  let y :=
    if (screenHeight : Int) < y then y - screenHeight
    else if y < 0 then y + screenHeight
    else y
  { e with display := Function.update e.display ((x + y * screenWidth) % 256).toNat state }

/-- What `chip8_cycle` does after its instructions. -/
def endCycle (e : Emulator) : Except Oob Emulator :=
  chip8UpdateFramebuffer (if e.paused then e else chip8UpdateTimers e)

def chip8Cycle (e : Emulator) : Except Oob Emulator := do
  let e ← chip8Instructions e.speed e
  endCycle e

/-! ## Start-up -/

def chip8LoadProgramIntoRam (e : Emulator) (buf : List (BitVec 8)) : Except Oob Emulator :=
  (List.range buf.length).foldlM (fun e i => writeRam e (0x200 + i) (buf.getD i 0)) e

/-- The static `emulator` before it is set up. -/
def Emulator.zero (randseed : Nat) : Emulator where
  ram := fun _ => 0
  vregisters := fun _ => 0
  i := 0
  delayTimer := 0
  pc := 0
  stack := []
  speed := 0
  paused := false
  display := fun _ => false
  screen := fun _ _ => false
  randseed := randseed

/-- `setup_chip8_emulator` on a file with the bytes `rom`, up to its loop. -/
def setupChip8Emulator (e : Emulator) (rom : List (BitVec 8)) : Except Oob Emulator :=
  chip8LoadProgramIntoRam
    { e with
      pc := 0x200
      speed := 10
      paused := false
      display := fun _ => false } rom

/-- The loop of `setup_chip8_emulator` sets `pc` back and runs one cycle. -/
def restart (e : Emulator) : Emulator := { e with pc := 0x200 }

end Chip8
end Medusa
