import Medusa.Libc.Printf

/-!
# The write system call

`syscall_write` passes a buffer and its size to `vfs_write_fd`, which looks at the
first byte only.  What it returns depends on the descriptor: `putchar` answers with
the byte itself, the other two with the size they were given.
-/

namespace Medusa
namespace Vfs
namespace Write

open Machine Libc Kernel

/-- `registers_t`, as far as a system call with three arguments uses it. -/
structure Registers where
  eax : BitVec 32
  ebx : BitVec 32
  ecx : BitVec 32
  edx : BitVec 32
deriving DecidableEq, Repr

inductive Device where
  | terminal
  | serialPort
deriving DecidableEq, Repr

/-- What the call does outside its own registers. -/
inductive Event where
  | read (address : BitVec 32)
  | send (device : Device) (byte : BitVec 8)
  | setcolor (color : BitVec 32)
  | resetColor
deriving DecidableEq, Repr

/-- `RED` of `tty_framebuffer.h`. -/
def red : BitVec 32 := 0xFF0000

/-- `putchar`.  With a graphical interface (`GUI_MODE`) it sends nothing. -/
def putchar (guiMode : Bool) (ic : BitVec 32) : BitVec 32 × List Event :=
  (ic, if guiMode then [] else [.send .terminal (ic.setWidth 8)])

/-- `vprintf`: what `vfprintf` passes to `fputchar` reaches `putchar` one by one, as
unsigned characters. -/
def vprintf (guiMode : Bool) (format : Libc.CString) (args : List Arg) :
    Except Stop (Int × List Event) := do
  let (written, out) ← vfprintf format args
  return (written, out.flatMap fun c => (putchar guiMode (c.setWidth 32)).2)

/-- `alert`. -/
def alert (guiMode : Bool) (format : Libc.CString) (args : List Arg) :
    Except Stop (List Event) := do
  let (_, events) ← vprintf guiMode format args
  return [.setcolor red] ++ events ++ [.resetColor]

/-- `write_serial_char`, once the port is ready. -/
def writeSerialChar (a : BitVec 8) : List Event := [.send .serialPort a]

/-- `"%c"`. -/
def charFormat : Libc.CString := ⟨[0x25#8, 0x63#8], by decide⟩

def stdoutFd : BitVec 32 := 1

def stderrFd : BitVec 32 := 2

def serialFd : BitVec 32 := 3

/-- `vfs_write_fd`: what it returns and what it does. -/
def vfsWriteFd (guiMode : Bool) (mem : BitVec 32 → BitVec 8) (file data size : BitVec 32) :
    Except Stop (BitVec 32 × List Event) := do
  if file = stdoutFd then
    let (result, events) := putchar guiMode ((mem data).setWidth 32)
    return (result, .read data :: events)
  else if file = serialFd then
    return (size, .read data :: writeSerialChar (mem data))
  else if file = stderrFd then
    let events ← alert guiMode charFormat [.int ((mem data).setWidth 32)]
    return (size, .read data :: events)
  else return (size, [])

/-- `syscall_write`. -/
def syscallWrite (guiMode : Bool) (mem : BitVec 32 → BitVec 8) (frame : Registers) :
    Except Stop (Registers × List Event) := do
  let (result, events) ← vfsWriteFd guiMode mem frame.ebx frame.ecx frame.edx
  return ({ frame with eax := result }, events)

/-! ## What the call is for -/

/-- The descriptors a program may write to. -/
inductive Descriptor where
  | stdout
  | stderr
  | serial
deriving DecidableEq, Repr

namespace Descriptor

def number : Descriptor → BitVec 32
  | stdout => stdoutFd
  | stderr => stderrFd
  | serial => serialFd

def device : Descriptor → Device
  | stdout => .terminal
  | stderr => .terminal
  | serial => .serialPort

end Descriptor

def Event.sent (device : Device) : Event → Option (BitVec 8)
  | .send d byte => if d = device then some byte else none
  | _ => none

/-- The bytes a device was sent. -/
def sentTo (device : Device) (events : List Event) : List (BitVec 8) :=
  events.filterMap (Event.sent device)

/-- The first `n` bytes of a buffer. -/
def firstBytes (mem : BitVec 32 → BitVec 8) (data : BitVec 32) (n : Nat) : List (BitVec 8) :=
  (List.range n).map fun k => mem (data + BitVec.ofNat 32 k)

/-- The count returned is that of the bytes sent, which are the first of the buffer. -/
structure Reports (mem : BitVec 32 → BitVec 8) (device : Device) (data size count : BitVec 32)
    (events : List Event) : Prop where
  bound : count.toNat ≤ size.toNat
  progress : 1 ≤ size.toNat → 1 ≤ count.toNat
  sent : sentTo device events = firstBytes mem data count.toNat
  others : ∀ d, d ≠ device → sentTo d events = []
  idle : size.toNat = 0 → ∀ address, Event.read address ∉ events

/-! ## One byte, whatever the size -/

section OneByte

variable {guiMode : Bool} {mem : BitVec 32 → BitVec 8} {data size count : BitVec 32}
variable {device : Device} {events : List Event}

/-- What `putchar` does with a byte. -/
def printed (guiMode : Bool) (c : BitVec 8) : List Event :=
  if guiMode then [] else [.send .terminal c]

theorem putchar_eq (guiMode : Bool) (c : BitVec 8) :
    putchar guiMode (c.setWidth 32) = (c.setWidth 32, printed guiMode c) := by
  rw [putchar, BitVec.setWidth_setWidth_of_le c (by omega), BitVec.setWidth_eq, printed]

theorem alert_char (guiMode : Bool) (c : BitVec 8) :
    alert guiMode charFormat [.int (c.setWidth 32)] =
      .ok ([.setcolor red] ++ printed guiMode c ++ [.resetColor]) := by
  have hprintf : vfprintf charFormat [.int (c.setWidth 32)] =
      .ok (1, [(c.setWidth 32).setWidth 8]) := rfl
  rw [BitVec.setWidth_setWidth_of_le c (by omega), BitVec.setWidth_eq] at hprintf
  rw [alert, vprintf, hprintf]
  simp only [ok_bind, List.flatMap_cons, List.flatMap_nil, List.append_nil, putchar_eq]
  rfl

namespace Descriptor

/-- What a descriptor does with the first byte. -/
def effects (guiMode : Bool) (c : BitVec 8) : Descriptor → List Event
  | stdout => printed guiMode c
  | stderr => [.setcolor red] ++ printed guiMode c ++ [.resetColor]
  | serial => [.send .serialPort c]

/-- What it answers. -/
def answer (c : BitVec 8) (size : BitVec 32) : Descriptor → BitVec 32
  | stdout => c.setWidth 32
  | stderr => size
  | serial => size

end Descriptor

theorem vfsWriteFd_eq (guiMode : Bool) (mem : BitVec 32 → BitVec 8) (fd : Descriptor)
    (data size : BitVec 32) :
    vfsWriteFd guiMode mem fd.number data size =
      .ok (fd.answer (mem data) size, .read data :: fd.effects guiMode (mem data)) := by
  cases fd with
  | stdout =>
    rw [vfsWriteFd, if_pos (show Descriptor.stdout.number = stdoutFd from rfl), putchar_eq]
    rfl
  | stderr =>
    rw [vfsWriteFd, if_neg (by decide), if_neg (by decide),
      if_pos (show Descriptor.stderr.number = stderrFd from rfl), alert_char]
    rfl
  | serial =>
    rw [vfsWriteFd, if_neg (by decide), if_pos (show Descriptor.serial.number = serialFd from rfl)]
    rfl

/-- The byte gets through to the serial port, and to the terminal in text mode. -/
theorem sentTo_device {fd : Descriptor} {c : BitVec 8} (h : guiMode = false ∨ fd = .serial) :
    sentTo fd.device (.read data :: fd.effects guiMode c) = [c] := by
  cases fd with
  | stdout =>
    rw [h.resolve_right (by decide)]
    rfl
  | stderr =>
    rw [h.resolve_right (by decide)]
    rfl
  | serial => rfl

theorem sentTo_device_none {fd : Descriptor} {c : BitVec 8} (h : fd ≠ .serial) :
    sentTo fd.device (.read data :: fd.effects true c) = [] := by
  cases fd with
  | stdout => rfl
  | stderr => rfl
  | serial => exact absurd rfl h

theorem sentTo_other {fd : Descriptor} {c : BitVec 8} {d : Device} (hd : d ≠ fd.device) :
    sentTo d (.read data :: fd.effects guiMode c) = [] := by
  have hprinted : sentTo .serialPort (printed guiMode c) = [] := by
    cases guiMode with
    | true => rfl
    | false => rfl
  cases d with
  | terminal =>
    cases fd with
    | stdout => exact absurd rfl hd
    | stderr => exact absurd rfl hd
    | serial => rfl
  | serialPort =>
    cases fd with
    | stdout => exact hprinted
    | stderr =>
      show (printed guiMode c ++ [Event.resetColor]).filterMap (Event.sent .serialPort) = []
      rw [List.filterMap_append, show (printed guiMode c).filterMap (Event.sent .serialPort) = []
        from hprinted]
      rfl
    | serial => exact absurd rfl hd

/-- Where the first byte got through, the count has to be one. -/
theorem reports_one_iff (hsent : sentTo device events = [mem data])
    (hothers : ∀ d, d ≠ device → sentTo d events = []) :
    Reports mem device data size count events ↔ count.toNat = 1 ∧ 1 ≤ size.toNat := by
  have hfirst : firstBytes mem data 1 = [mem data] := by
    rw [firstBytes, List.range_one, List.map_singleton, BitVec.add_zero]
  constructor
  · intro h
    have hlen := congrArg List.length h.sent
    rw [hsent, firstBytes, List.length_map, List.length_range, List.length_singleton] at hlen
    have hbound := h.bound
    exact ⟨hlen.symm, by omega⟩
  · rintro ⟨hcount, hsize⟩
    exact {
      bound := by omega
      progress := by omega
      sent := by rw [hsent, hcount, hfirst]
      others := hothers
      idle := fun hzero => by omega }

/-- Where nothing got through, the read of the first byte is too much. -/
theorem not_reports_none (hread : Event.read data ∈ events) (hsent : sentTo device events = []) :
    ¬ Reports mem device data size count events := by
  intro h
  have hlen := congrArg List.length h.sent
  rw [hsent, firstBytes, List.length_map, List.length_range, List.length_nil] at hlen
  have hprogress := h.progress
  exact h.idle (by omega) data hread

end OneByte

/-! ## When the count is right -/

/-- The condition on the first byte and the size. -/
def Descriptor.Meets (guiMode : Bool) (byte : BitVec 8) (size : Nat) : Descriptor → Prop
  | stdout => guiMode = false ∧ byte.toNat = 1 ∧ 1 ≤ size
  | stderr => guiMode = false ∧ size = 1
  | serial => size = 1

/-- **What `write` reports.**  One byte is read and sent whatever the size, and none is
sent to the terminal under a graphical interface.  On standard output the byte itself
is returned, which is the right count for a byte of value 1 and a size above zero; on
the others the size is, which is right for a size of one. -/
theorem write_reports_iff (guiMode : Bool) (mem : BitVec 32 → BitVec 8) (frame : Registers)
    (fd : Descriptor) (hfd : frame.ebx = fd.number) :
    (∃ frame' events, syscallWrite guiMode mem frame = .ok (frame', events) ∧
        Reports mem fd.device frame.ecx frame.edx frame'.eax events) ↔
      fd.Meets guiMode (mem frame.ecx) frame.edx.toNat := by
  have hrun : syscallWrite guiMode mem frame =
      .ok ({ frame with eax := fd.answer (mem frame.ecx) frame.edx },
        .read frame.ecx :: fd.effects guiMode (mem frame.ecx)) := by
    rw [syscallWrite, hfd, vfsWriteFd_eq]
    rfl
  have hreports : (∃ frame' events, syscallWrite guiMode mem frame = .ok (frame', events) ∧
        Reports mem fd.device frame.ecx frame.edx frame'.eax events) ↔
      Reports mem fd.device frame.ecx frame.edx (fd.answer (mem frame.ecx) frame.edx)
        (.read frame.ecx :: fd.effects guiMode (mem frame.ecx)) := by
    constructor
    · rintro ⟨frame', events, hcall, h⟩
      rw [hrun] at hcall
      obtain ⟨rfl, rfl⟩ := Prod.mk.inj (Except.ok.inj hcall)
      exact h
    · intro h
      exact ⟨_, _, hrun, h⟩
  rw [hreports]
  by_cases hthrough : guiMode = false ∨ fd = .serial
  · rw [reports_one_iff (sentTo_device hthrough) fun d hd => sentTo_other hd]
    cases fd with
    | stdout =>
      have hgui : guiMode = false := hthrough.resolve_right (by decide)
      have hbyte : ((mem frame.ecx).setWidth 32).toNat = (mem frame.ecx).toNat := by
        rw [BitVec.toNat_setWidth]
        omega
      rw [Descriptor.answer, Descriptor.Meets, hbyte]
      exact ⟨fun h => ⟨hgui, h⟩, fun h => h.2⟩
    | stderr =>
      have hgui : guiMode = false := hthrough.resolve_right (by decide)
      rw [Descriptor.answer, Descriptor.Meets]
      exact ⟨fun h => ⟨hgui, h.1⟩, fun h => ⟨h.2, by omega⟩⟩
    | serial =>
      rw [Descriptor.answer, Descriptor.Meets]
      exact ⟨fun h => h.1, fun h => ⟨h, by omega⟩⟩
  · obtain ⟨hgui, hfd'⟩ := not_or.mp hthrough
    rw [Bool.not_eq_false] at hgui
    subst hgui
    have hnone : ¬ Reports mem fd.device frame.ecx frame.edx (fd.answer (mem frame.ecx) frame.edx)
        (.read frame.ecx :: fd.effects true (mem frame.ecx)) :=
      not_reports_none List.mem_cons_self (sentTo_device_none hfd')
    constructor
    · intro h
      exact absurd h hnone
    · intro h
      cases fd with
      | stdout => exact absurd h.1 (by decide)
      | stderr => exact absurd h.1 (by decide)
      | serial => exact absurd rfl hfd'

theorem write_reports_oneByte :
    ∃ frame' events, syscallWrite false (fun _ => 0x41) ⟨0, serialFd, 0x1000, 1⟩ =
        .ok (frame', events) ∧
      Reports (fun _ => 0x41) .serialPort 0x1000 1 frame'.eax events := by
  apply (write_reports_iff false (fun _ => 0x41) ⟨0, serialFd, 0x1000, 1⟩ .serial rfl).mpr
  rfl

/-- Standard output answers 65 for an "A", the serial port 2 for one byte sent. -/
theorem write_misreported :
    (∃ frame' events, syscallWrite false (fun _ => 0x41) ⟨0, stdoutFd, 0x1000, 1⟩ =
        .ok (frame', events) ∧ frame'.eax = 65 ∧
      ¬ Reports (fun _ => 0x41) .terminal 0x1000 1 frame'.eax events) ∧
    ∃ frame' events, syscallWrite false (fun _ => 0x41) ⟨0, serialFd, 0x1000, 2⟩ =
        .ok (frame', events) ∧ frame'.eax = 2 ∧ sentTo .serialPort events = [0x41] ∧
      ¬ Reports (fun _ => 0x41) .serialPort 0x1000 2 frame'.eax events := by
  refine ⟨⟨_, _, rfl, rfl, fun h => ?_⟩, ⟨_, _, rfl, rfl, rfl, fun h => ?_⟩⟩
  · exact absurd h.bound (by decide)
  · exact absurd h.sent (by decide)

end Write
end Vfs
end Medusa
