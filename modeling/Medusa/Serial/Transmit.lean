import Medusa.Libc.Printf
import Medusa.Machine.Polling

/-!
# The serial line

The kernel logs over a UART: `write_serial_char` waits until the holding register is empty
and puts a byte into it.  The register goes onto the line at times that only the device
knows, and a byte that is put into a full register replaces the one that was there.

What `vwrite_serialf` formats reaches the line in order and without a loss, also when the
device stops answering in the middle: then what has reached it is a first part.
-/

namespace Medusa
namespace Serial

open Machine Kernel Libc

/-! ## The code -/

/-- `PORT`. -/
def port : BitVec 16 := 0x3F8

/-- `is_transmit_empty() != 0`, from the line status. -/
def transmitEmpty (status : BitVec 8) : Bool := status &&& 0x20#8 != 0#8

def writeSerialChar (hw : Hardware) (fuel : Nat) (a : BitVec 8) : PortAction Stop Unit := do
  pollUntil hw .fuel (port + 5) transmitEmpty fuel
  outb port a

/-- One byte after another. -/
def writeEach (hw : Hardware) (fuel : Nat) : List (BitVec 8) → PortAction Stop Unit
  | [] => pure ()
  | a :: data => do
    writeSerialChar hw fuel a
    writeEach hw fuel data

def writeSerial (hw : Hardware) (fuel : Nat) (str : CString) : PortAction Stop Unit :=
  writeEach hw fuel str.bytes

/-- `vwrite_serialf`.  For `VFS_FD_SERIAL`, `vfs_write_fd` hands each byte that `fputchar` gets
to `write_serial_char`. -/
def vwriteSerialf (hw : Hardware) (fuel : Nat) (format : CString) (args : List Arg) :
    PortAction Stop Int :=
  match vfprintf format args with
  | .error stop => Action.stop stop
  | .ok (written, out) => do
    writeEach hw fuel out
    return written

/-! ## The device -/

structure Uart where
  holding : Option (BitVec 8)
  /-- What went onto the line. -/
  line : List (BitVec 8)

namespace Uart

def drain (u : Uart) : Uart where
  holding := none
  line := u.line ++ u.holding.toList

def access (u : Uart) : PortAccess → Uart
  | .output p v => if p = port then { u with holding := some v } else u
  | .input _ => u

/-- What is on the line, and what will be. -/
def accepted (u : Uart) : List (BitVec 8) := u.line ++ u.holding.toList

@[simp]
theorem drain_accepted (u : Uart) : u.drain.accepted = u.accepted := List.append_nil _

end Uart

/-- The hardware at `PORT` is a UART: its register may go onto the line before any access, and
a status that says the register is empty is true. -/
structure IsUart (hw : Hardware) (uart : Trace → Uart) : Prop where
  step : ∀ h a, uart (h ++ [a]) = (uart h).access a ∨ uart (h ++ [a]) = (uart h).drain.access a
  truthful : ∀ h, transmitEmpty (hw h (port + 5)) = true →
    (uart (h ++ [.input (port + 5)])).holding = none

/-- From any time on, the register is empty after `n` readings of the status at most. -/
def Settles (hw : Hardware) (n : Nat) : Prop :=
  ∀ h, ∃ k, k ≤ n ∧ transmitEmpty (hw (readings h (port + 5) k) (port + 5)) = true

/-! ## Sending -/

section Send

variable {hw : Hardware} {uart : Trace → Uart} {fuel n : Nat}

theorem IsUart.accepted_input (hu : IsUart hw uart) (h : Trace) (p : BitVec 16) :
    (uart (h ++ [.input p])).accepted = (uart h).accepted := by
  rcases hu.step h (.input p) with heq | heq
  · rw [heq, Uart.access]
  · rw [heq, Uart.access, Uart.drain_accepted]

theorem IsUart.accepted_readings (hu : IsUart hw uart) (h : Trace) (p : BitVec 16) (k : Nat) :
    (uart (readings h p k)).accepted = (uart h).accepted := by
  induction k generalizing h with
  | zero => rw [readings_zero]
  | succ k ih => rw [readings_succ, ih, hu.accepted_input]

/-- A byte for the empty register is accepted. -/
theorem IsUart.accepted_output (hu : IsUart hw uart) {h : Trace} (hempty : (uart h).holding = none)
    (v : BitVec 8) : (uart (h ++ [.output port v])).accepted = (uart h).accepted ++ [v] := by
  have hline : (uart h).accepted = (uart h).line := by
    rw [Uart.accepted, hempty]
    exact List.append_nil _
  rcases hu.step h (.output port v) with heq | heq
  · rw [heq, Uart.access, if_pos rfl, hline]
    rfl
  · rw [heq, Uart.access, if_pos rfl, ← Uart.drain_accepted, ← (uart h).drain_accepted]
    simp [Uart.accepted, Uart.drain]

/-- **One byte.**  It is accepted, or nothing is because the device does not get ready. -/
theorem IsUart.writeSerialChar (hu : IsUart hw uart) (fuel : Nat) (a : BitVec 8) (h : Trace) :
    (∃ h', (writeSerialChar hw fuel a).run h = (.ok (), h') ∧
      (uart h').accepted = (uart h).accepted ++ [a]) ∨
    (∃ h', (writeSerialChar hw fuel a).run h = (.error .fuel, h') ∧
      (uart h').accepted = (uart h).accepted ∧
      ∀ k, k < fuel → transmitEmpty (hw (readings h (port + 5) k) (port + 5)) = false) := by
  unfold Serial.writeSerialChar
  cases pollUntil_run hw Stop.fuel (port + 5) transmitEmpty h fuel with
  | inl hfound =>
    obtain ⟨k, -, hat, hrun⟩ := hfound
    refine Or.inl ⟨_, Action.bind_ok hrun, ?_⟩
    have hempty := hu.truthful _ hat
    have hlast : readings h (port + 5) k ++ [.input (port + 5)] =
        readings h (port + 5) (k + 1) := by
      rw [Machine.readings, Machine.readings, List.replicate_succ', List.append_assoc]
    rw [hlast] at hempty
    rw [hu.accepted_output hempty a, hu.accepted_readings]
  | inr hnone =>
    exact Or.inr ⟨_, Action.bind_error hnone.2, hu.accepted_readings h (port + 5) fuel, hnone.1⟩

/-- Whatever the device does, what is accepted is a first part of the bytes, and all of them if
the loop returns. -/
theorem IsUart.writeEach (hu : IsUart hw uart) (fuel : Nat) (data : List (BitVec 8)) (h : Trace) :
    ∃ r h' sent, (writeEach hw fuel data).run h = (r, h') ∧ sent <+: data ∧
      (uart h').accepted = (uart h).accepted ++ sent ∧
      (r = .ok () ∧ sent = data ∨ r = .error .fuel ∧ ¬ ∃ m, m < fuel ∧ Settles hw m) := by
  induction data generalizing h with
  | nil => exact ⟨.ok (), h, [], rfl, List.prefix_rfl, by simp, by simp⟩
  | cons a data ih =>
    unfold Serial.writeEach
    cases hu.writeSerialChar fuel a h with
    | inl hsent =>
      obtain ⟨h₁, hrun, haccepted⟩ := hsent
      obtain ⟨r, h', sent, hrest, hprefix, hall, hcases⟩ := ih h₁
      refine ⟨r, h', a :: sent, (Action.bind_ok hrun).trans hrest,
        List.cons_prefix_cons.mpr ⟨rfl, hprefix⟩, ?_, ?_⟩
      · rw [hall, haccepted, List.append_assoc, List.singleton_append]
      · rcases hcases with ⟨hr, hsent⟩ | hstuck
        · exact Or.inl ⟨hr, by rw [hsent]⟩
        · exact Or.inr hstuck
    | inr hstuck =>
      obtain ⟨h₁, hrun, haccepted, hnever⟩ := hstuck
      refine ⟨.error .fuel, h₁, [], Action.bind_error hrun, List.nil_prefix, ?_,
        Or.inr ⟨rfl, ?_⟩⟩
      · rw [haccepted, List.append_nil]
      · rintro ⟨m, hm, hsettles⟩
        obtain ⟨k, hk, hready⟩ := hsettles h
        rw [hnever k (by omega)] at hready
        exact Bool.false_ne_true hready

end Send

/-- **The log reaches the line.**  What the UART accepts while `vwrite_serialf` runs is a first
part of the text that `vfprintf` makes, each byte once and in order, and the whole text if the
call returns.  It returns if the device gets ready within fewer readings than there is fuel for.
-/
theorem vwriteSerialf_accepted {hw : Hardware} {uart : Trace → Uart} (hu : IsUart hw uart)
    {format : CString} {args : List Arg} {written : Int} {out : List (BitVec 8)}
    (hformat : vfprintf format args = .ok (written, out)) (fuel : Nat) (h : Trace) :
    ∃ r h' sent, (vwriteSerialf hw fuel format args).run h = (r, h') ∧ sent <+: out ∧
      (uart h').accepted = (uart h).accepted ++ sent ∧
      (r = .ok written ∧ sent = out ∨ r = .error .fuel ∧ ¬ ∃ n, n < fuel ∧ Settles hw n) := by
  obtain ⟨r, h', sent, hrun, hprefix, hall, hcases⟩ := hu.writeEach fuel out h
  unfold vwriteSerialf
  rw [hformat]
  rcases hcases with ⟨rfl, hsent⟩ | ⟨rfl, hstuck⟩
  · exact ⟨.ok written, h', sent, Action.bind_ok hrun, hprefix, hall, Or.inl ⟨rfl, hsent⟩⟩
  · exact ⟨.error .fuel, h', sent, Action.bind_error hrun, hprefix, hall, Or.inr ⟨rfl, hstuck⟩⟩

/-- A UART whose register goes onto the line at once. -/
def promptUart (h : Trace) : Uart :=
  h.foldl (fun u a => u.drain.access a) { holding := none, line := [] }

theorem promptUart_isUart : IsUart (fun _ _ => 0x20#8) promptUart where
  step h a := Or.inr (by rw [promptUart, List.foldl_append]; rfl)
  truthful h _ := by
    rw [promptUart, List.foldl_append]
    rfl

theorem vwriteSerialf_accepted_number :
    ∃ r h' sent, (vwriteSerialf (fun _ _ => 0x20#8) 1 ⟨[0x25#8, 0x64#8, 0x0A#8], by decide⟩
        [.int 42]).run [] = (r, h') ∧ sent <+: [0x34#8, 0x32#8, 0x0A#8] ∧
      (promptUart h').accepted = (promptUart []).accepted ++ sent ∧
      (r = .ok 2 ∧ sent = [0x34#8, 0x32#8, 0x0A#8] ∨
        r = .error .fuel ∧ ¬ ∃ n, n < 1 ∧ Settles (fun _ _ => 0x20#8) n) :=
  vwriteSerialf_accepted promptUart_isUart (by decide) 1 []

end Serial
end Medusa
