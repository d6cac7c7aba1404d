import Medusa.Machine.Ports

/-!
# A pair of interrupt controllers

An 8259 has a command port and a data port.  A command with bit 4 set starts its
initialisation, whatever it was doing before, and says which words follow at the data port;
when they have come, the data port is the mask.  A second chip asks through line 2 of the
first.  Priorities are never rotated.
-/

namespace Medusa
namespace Machine
namespace I8259

/-- What the next word at the data port is. -/
inductive Stage where
  | second
  | third
  | fourth
  | ready
deriving DecidableEq, Repr

structure Chip where
  stage : Stage
  icw1 : BitVec 8
  icw2 : BitVec 8
  icw3 : BitVec 8
  icw4 : BitVec 8
  mask : BitVec 8
  inService : BitVec 8
deriving DecidableEq, Repr

namespace Chip

/-- A chip without others. -/
def single (c : Chip) : Bool := c.icw1.getLsbD 1

/-- Of the commands that do not initialise the chip, only those that end an interrupt change
anything here: that of a line that they name, or of the lowest one in service. -/
def command (c : Chip) (v : BitVec 8) : Chip :=
  if v.getLsbD 4 then { c with stage := .second, icw1 := v, icw4 := 0#8, mask := 0#8 }
  else if v.getLsbD 3 || !v.getLsbD 5 then c
  else if v.getLsbD 6 then { c with inService := c.inService &&& ~~~(1#8 <<< (v &&& 7#8).toNat) }
  else { c with inService := c.inService &&& (c.inService - 1#8) }

def lastWords (c : Chip) : Stage := if c.icw1.getLsbD 0 then .fourth else .ready

def data (c : Chip) (v : BitVec 8) : Chip :=
  match c.stage with
  | .second => { c with icw2 := v, stage := if c.single then c.lastWords else .third }
  | .third => { c with icw3 := v, stage := c.lastWords }
  | .fourth => { c with icw4 := v, stage := .ready }
  | .ready => { c with mask := v }

/-- The vector that the chip gives the processor for line `k`, if it lets it through. -/
def vector (c : Chip) (k : Nat) : Option (BitVec 8) :=
  if c.stage = .ready ∧ c.icw4.getLsbD 0 = true ∧ c.mask.getLsbD k = false then
    some ((c.icw2 &&& 0xF8#8) ||| BitVec.ofNat 8 k)
  else none

/-- Line `k` goes into service, unless the chip ends interrupts by itself. -/
def enter (c : Chip) (k : Nat) : Chip :=
  if c.icw4.getLsbD 1 then c else { c with inService := c.inService ||| 1#8 <<< k }

/-- An initialisation of a chip among others, with all its words, and the mask. -/
theorem initialise (c : Chip) {v₁ : BitVec 8} (hinit : v₁.getLsbD 4 = true)
    (hothers : v₁.getLsbD 1 = false) (hfourth : v₁.getLsbD 0 = true) (v₂ v₃ v₄ mask : BitVec 8) :
    ((((c.command v₁).data v₂).data v₃).data v₄).data mask =
      ⟨.ready, v₁, v₂, v₃, v₄, mask, c.inService⟩ := by
  have hcommand : c.command v₁ =
      { c with stage := .second, icw1 := v₁, icw4 := 0#8, mask := 0#8 } := by
    rw [command, if_pos hinit]
  rw [hcommand]
  simp only [data, single, lastWords, hothers, hfourth, Bool.false_eq_true, if_true, if_false]

theorem command_end (c : Chip) :
    c.command 0x20 = { c with inService := c.inService &&& (c.inService - 1#8) } := by
  rw [command, if_neg (by decide), if_neg (by decide), if_neg (by decide)]

theorem enter_eq {c : Chip} (hends : c.icw4.getLsbD 1 = false) (k : Nat) :
    c.enter k = { c with inService := c.inService ||| 1#8 <<< k } := by
  rw [enter, if_neg (Bool.eq_false_iff.mp hends)]

end Chip

structure Pair where
  master : Chip
  slave : Chip
deriving DecidableEq, Repr

namespace Pair

def access (p : Pair) : PortAccess → Pair
  | .input _ => p
  | .output port v =>
    if port = 0x20 then { p with master := p.master.command v }
    else if port = 0x21 then { p with master := p.master.data v }
    else if port = 0xA0 then { p with slave := p.slave.command v }
    else if port = 0xA1 then { p with slave := p.slave.data v }
    else p

@[simp] theorem access_masterCommand (p : Pair) (v : BitVec 8) :
    p.access (.output 0x20 v) = { p with master := p.master.command v } := rfl

@[simp] theorem access_masterData (p : Pair) (v : BitVec 8) :
    p.access (.output 0x21 v) = { p with master := p.master.data v } := rfl

@[simp] theorem access_slaveCommand (p : Pair) (v : BitVec 8) :
    p.access (.output 0xA0 v) = { p with slave := p.slave.command v } := rfl

@[simp] theorem access_slaveData (p : Pair) (v : BitVec 8) :
    p.access (.output 0xA1 v) = { p with slave := p.slave.data v } := rfl

def after (p : Pair) (h : Trace) : Pair := h.foldl access p

theorem after_snoc (p : Pair) (h : Trace) (a : PortAccess) :
    p.after (h ++ [a]) = (p.after h).access a := by
  rw [after, List.foldl_append]
  rfl

/-- The slave is where the master expects it, and answers to its number. -/
def Joined (p : Pair) : Prop :=
  p.master.single = false ∧ p.master.icw3.getLsbD 2 = true ∧
    p.slave.single = false ∧ p.slave.icw3 &&& 7#8 = 2#8

instance (p : Pair) : Decidable p.Joined := inferInstanceAs (Decidable (_ ∧ _))

/-- The vector for a line.  A line of the master where it expects a slave has none of its
own, and a line of the slave comes through line 2 of the master. -/
def vector (p : Pair) (line : Fin 16) : Option (BitVec 8) :=
  if line.val < 8 then
    if p.master.single = false ∧ p.master.icw3.getLsbD line.val = true then none
    else p.master.vector line.val
  else if p.Joined then (p.master.vector 2).bind fun _ => p.slave.vector (line.val - 8)
  else none

def acknowledge (p : Pair) (line : Fin 16) : Pair :=
  if line.val < 8 then { p with master := p.master.enter line.val }
  else { master := p.master.enter 2, slave := p.slave.enter (line.val - 8) }

end Pair

end I8259
end Machine
end Medusa
