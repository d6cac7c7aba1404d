import Medusa.Serial.Transmit

/-!
# Setting up the serial line

`init_serial` programs the UART and tries it: the chip is looped back to itself, and a byte
that is written has to come back.  What comes in from the line is queued as well, so a byte
that arrives after the queue was cleared and before the loop is closed is read in its place.
Then the test fails, and the loop stays closed.
-/

namespace Medusa
namespace Serial

open Machine

/-! ## The code -/

section Code

variable {ε : Type}

/-- The writes of `init_serial` up to the one that clears the queue. -/
def programChip : PortAction ε Unit := do
  outb (port + 1) 0x00
  outb (port + 3) 0x80
  outb port 0x03
  outb (port + 1) 0x00
  outb (port + 3) 0x03
  outb (port + 2) 0xC7

def initSerial (hw : Hardware) : PortAction ε Int := do
  programChip
  outb (port + 4) 0x0B
  outb (port + 4) 0x1E
  outb port 0xAE
  let answer ← inb hw port
  if answer ≠ 0xAE then return 1
  outb (port + 4) 0x0F
  return 0

end Code

/-! ## The chip -/

structure Settings where
  lineControl : BitVec 8
  modemControl : BitVec 8
  interrupts : BitVec 8
  fifoControl : BitVec 8
  divisorLow : BitVec 8
  divisorHigh : BitVec 8
deriving DecidableEq, Repr

namespace Settings

/-- The first two ports are those of the divisor. -/
def divides (s : Settings) : Bool := s.lineControl.getLsbD 7

/-- What is sent comes back, and the line is cut off. -/
def looped (s : Settings) : Bool := s.modemControl.getLsbD 4

def access (s : Settings) : PortAccess → Settings
  | .input _ => s
  | .output p v =>
    if p = port then if s.divides then { s with divisorLow := v } else s
    else if p = port + 1 then
      if s.divides then { s with divisorHigh := v } else { s with interrupts := v &&& 0x0F }
    else if p = port + 2 then { s with fifoControl := v }
    else if p = port + 3 then { s with lineControl := v }
    else if p = port + 4 then { s with modemControl := v &&& 0x1F }
    else s

variable (s : Settings) (v : BitVec 8)

theorem divides_of {b : Bool} (hs : s.lineControl = v) (hv : v.getLsbD 7 = b) : s.divides = b := by
  rw [divides, hs, hv]

theorem looped_of {b : Bool} (hs : s.modemControl = v) (hv : v.getLsbD 4 = b) : s.looped = b := by
  rw [looped, hs, hv]

theorem access_line : s.access (.output (port + 3) v) = { s with lineControl := v } := rfl

theorem access_fifo : s.access (.output (port + 2) v) = { s with fifoControl := v } := rfl

theorem access_modem : s.access (.output (port + 4) v) = { s with modemControl := v &&& 0x1F } :=
  rfl

variable {s}

theorem access_low (h : s.divides = true) :
    s.access (.output port v) = { s with divisorLow := v } := by
  rw [access, if_pos rfl, if_pos h]

theorem access_high (h : s.divides = true) :
    s.access (.output (port + 1) v) = { s with divisorHigh := v } := by
  rw [access, if_neg (by decide), if_pos rfl, if_pos h]

theorem access_data (h : s.divides = false) : s.access (.output port v) = s := by
  rw [access, if_pos rfl, if_neg (Bool.eq_false_iff.mp h)]

end Settings

/-- The queue has room for sixteen bytes, and one for the full queue is lost. -/
def push (queue : List (BitVec 8)) (b : BitVec 8) : List (BitVec 8) :=
  if queue.length < 16 then queue ++ [b] else queue

structure Chip where
  settings : Settings
  received : List (BitVec 8)

namespace Chip

def receive (c : Chip) (bytes : List (BitVec 8)) : Chip :=
  { c with received := if c.settings.looped then c.received else bytes.foldl push c.received }

theorem receive_nil (c : Chip) : c.receive [] = c := by
  unfold receive
  split
  · rfl
  · rfl

def queue (c : Chip) : PortAccess → List (BitVec 8)
  | .input p => if p = port ∧ c.settings.divides = false then c.received.tail else c.received
  | .output p v =>
    if p = port ∧ c.settings.divides = false ∧ c.settings.looped = true then push c.received v
    else if p = port + 2 ∧ v.getLsbD 1 = true then []
    else c.received

def access (c : Chip) (a : PortAccess) : Chip := ⟨c.settings.access a, c.queue a⟩

end Chip

/-- The hardware at `PORT` is the chip; `arrived` comes in before the next access. -/
structure IsChip (hw : Hardware) (arrived : Trace → List (BitVec 8)) (chip : Trace → Chip) :
    Prop where
  step : ∀ h a, chip (h ++ [a]) = ((chip h).receive (arrived h)).access a
  truthful : ∀ h b, (chip h).settings.divides = false →
    ((chip h).receive (arrived h)).received.head? = some b → hw h port = b

/-- The accesses of `init_serial` before it sends its byte. -/
def cleared (h : Trace) : Trace :=
  h ++ [.output (port + 1) 0x00] ++ [.output (port + 3) 0x80] ++ [.output port 0x03] ++
    [.output (port + 1) 0x00] ++ [.output (port + 3) 0x03] ++ [.output (port + 2) 0xC7]

def opened (h : Trace) : Trace := cleared h ++ [.output (port + 4) 0x0B]

def closed (h : Trace) : Trace := opened h ++ [.output (port + 4) 0x1E]

/-! ## The test -/

section Test

variable {ε : Type} {hw : Hardware} {arrived : Trace → List (BitVec 8)} {chip : Trace → Chip}

theorem head?_push (queue : List (BitVec 8)) (b : BitVec 8) :
    (push queue b).head? = some (queue.headD b) := by
  unfold push
  cases queue with
  | nil => rfl
  | cons a queue =>
    split
    · rfl
    · rfl

/-- What `init_serial` asks for: both bytes of the divisor, eight bits, and the queues.  The
interrupts are off unless the ports were those of the divisor before. -/
theorem programmed (s : Settings) :
    ((((((s.access (.output (port + 1) 0x00)).access (.output (port + 3) 0x80)).access
      (.output port 0x03)).access (.output (port + 1) 0x00)).access
      (.output (port + 3) 0x03)).access (.output (port + 2) 0xC7)) =
      ⟨0x03, s.modemControl, if s.divides then s.interrupts else 0, 0xC7, 0x03, 0x00⟩ := by
  have hfirst : (s.access (.output (port + 1) 0x00)).modemControl = s.modemControl ∧
      (s.access (.output (port + 1) 0x00)).interrupts =
        if s.divides then s.interrupts else 0 := by
    rw [Settings.access, if_neg (by decide), if_pos rfl]
    split
    · exact ⟨rfl, rfl⟩
    · exact ⟨rfl, rfl⟩
  rw [Settings.access_line, Settings.access_low _ (Settings.divides_of _ 0x80 rfl (by decide)),
    Settings.access_high _ (Settings.divides_of _ 0x80 rfl (by decide)), Settings.access_line,
    Settings.access_fifo]
  dsimp only
  rw [hfirst.1, hfirst.2]

theorem IsChip.settings (hc : IsChip hw arrived chip) (h : Trace) (a : PortAccess) :
    (chip (h ++ [a])).settings = (chip h).settings.access a := by
  rw [hc.step]
  rfl

theorem IsChip.received (hc : IsChip hw arrived chip) (h : Trace) (a : PortAccess) :
    (chip (h ++ [a])).received = ((chip h).receive (arrived h)).queue a := by
  rw [hc.step]
  rfl

theorem IsChip.cleared_settings (hc : IsChip hw arrived chip) (h : Trace) :
    (chip (cleared h)).settings = ⟨0x03, (chip h).settings.modemControl,
      if (chip h).settings.divides then (chip h).settings.interrupts else 0, 0xC7, 0x03, 0x00⟩ := by
  unfold cleared
  simp only [hc.settings]
  exact programmed _

theorem IsChip.cleared_received (hc : IsChip hw arrived chip) (h : Trace) :
    (chip (cleared h)).received = [] := by
  unfold cleared
  rw [hc.received, Chip.queue, if_neg fun hport => absurd hport.1 (by decide),
    if_pos ⟨rfl, by decide⟩]

theorem IsChip.closed_settings (hc : IsChip hw arrived chip) (h : Trace) :
    (chip (closed h)).settings = ⟨0x03, 0x1E,
      if (chip h).settings.divides then (chip h).settings.interrupts else 0, 0xC7, 0x03, 0x00⟩ := by
  rw [closed, hc.settings, opened, hc.settings, hc.cleared_settings]
  rfl

theorem IsChip.received_modem (hc : IsChip hw arrived chip) (h : Trace) (v : BitVec 8) :
    (chip (h ++ [.output (port + 4) v])).received = ((chip h).receive (arrived h)).received := by
  rw [hc.received, Chip.queue, if_neg fun hport => absurd hport.1 (by decide),
    if_neg fun hport => absurd hport.1 (by decide)]

theorem IsChip.closed_received (hc : IsChip hw arrived chip) {h : Trace}
    (hcleared : arrived (cleared h) = []) (hopened : arrived (opened h) = []) :
    (chip (closed h)).received = [] := by
  rw [closed, hc.received_modem, hopened, Chip.receive_nil, opened, hc.received_modem, hcleared,
    Chip.receive_nil, hc.cleared_received]

theorem IsChip.closed_divides (hc : IsChip hw arrived chip) (h : Trace) :
    (chip (closed h)).settings.divides = false :=
  Settings.divides_of _ 0x03 (by rw [hc.closed_settings]) (by decide)

theorem IsChip.answer (hc : IsChip hw arrived chip) (h : Trace) :
    hw (closed h ++ [.output port 0xAE]) port = (chip (closed h)).received.headD 0xAE := by
  have hdivides := hc.closed_divides h
  have hlooped : (chip (closed h)).settings.looped = true :=
    Settings.looped_of _ 0x1E (by rw [hc.closed_settings]) (by decide)
  have hsent : (chip (closed h ++ [.output port 0xAE])).settings = (chip (closed h)).settings := by
    rw [hc.settings, Settings.access_data _ hdivides]
  have hqueue : (chip (closed h ++ [.output port 0xAE])).received =
      push (chip (closed h)).received 0xAE := by
    rw [hc.received, Chip.queue, if_pos ⟨rfl, hdivides, hlooped⟩, Chip.receive, if_pos hlooped]
  refine hc.truthful _ _ (by rw [hsent]; exact hdivides) ?_
  rw [Chip.receive, if_pos (by rw [hsent]; exact hlooped), hqueue]
  exact head?_push _ _

/-- **The test of the serial line.**  `init_serial` always sets up the chip, whatever it was
set to before.  It returns 0 exactly if the first byte of the queue, with its own byte at the
end, is its own; that is so if nothing comes in while the loop is opened and closed.  Otherwise
it returns 1, and leaves the chip looped back to itself. -/
theorem initSerial_tests (hc : IsChip hw arrived chip) (h : Trace) :
    ∃ r h', (initSerial hw : PortAction ε Int).run h = (.ok r, h') ∧
      (r = 0 ↔ (chip (closed h)).received.headD 0xAE = 0xAE) ∧
      (arrived (cleared h) = [] → arrived (opened h) = [] → r = 0) ∧
      (chip h').settings = ⟨0x03, if r = 0 then 0x0F else 0x1E,
        if (chip h).settings.divides then (chip h).settings.interrupts else 0, 0xC7, 0x03,
        0x00⟩ := by
  have hanswer := hc.answer h
  have hread : (chip (closed h ++ [.output port 0xAE] ++ [.input port])).settings =
      (chip (closed h)).settings := by
    rw [hc.settings, hc.settings, Settings.access_data _ (hc.closed_divides h)]
    rfl
  have hbefore : (initSerial hw : PortAction ε Int).run h =
      ((if hw (closed h ++ [.output port 0xAE]) port ≠ 0xAE then return 1 else do
        outb (port + 4) 0x0F
        return 0 : PortAction ε Int)).run
        (closed h ++ [.output port 0xAE] ++ [.input port]) := rfl
  by_cases hback : (chip (closed h)).received.headD 0xAE = 0xAE
  · refine ⟨0, closed h ++ [.output port 0xAE] ++ [.input port] ++ [.output (port + 4) 0x0F],
      ?_, iff_of_true rfl hback, fun _ _ => rfl, ?_⟩
    · have hown : ¬ hw (closed h ++ [.output port 0xAE]) port ≠ 0xAE :=
        not_not_intro (hanswer.trans hback)
      rw [hbefore, if_neg hown]
      rfl
    · rw [hc.settings, hread, hc.closed_settings]
      rfl
  · refine ⟨1, closed h ++ [.output port 0xAE] ++ [.input port], ?_,
      iff_of_false (by decide) hback, fun hcleared hopened => ?_, ?_⟩
    · have hother : hw (closed h ++ [.output port 0xAE]) port ≠ 0xAE :=
        fun hown => hback (hanswer.symm.trans hown)
      rw [hbefore, if_pos hother]
      rfl
    · rw [hc.closed_received hcleared hopened] at hback
      exact absurd rfl hback
    · rw [hread, hc.closed_settings]
      rfl

/-- A chip after a reset, on a line from which nothing comes. -/
def quietChip (h : Trace) : Chip := h.foldl Chip.access ⟨⟨0, 0, 0, 0, 0, 0⟩, []⟩

def quietHw : Hardware := fun h p => if p = port then (quietChip h).received.headD 0 else 0

theorem quiet_isChip : IsChip quietHw (fun _ => []) quietChip where
  step h a := by
    rw [Chip.receive_nil, quietChip, List.foldl_append]
    rfl
  truthful h b _ hhead := by
    rw [Chip.receive_nil] at hhead
    rw [quietHw, if_pos rfl, List.headD_eq_head?_getD, hhead]
    rfl

/-- The byte comes back, and the chip is set up. -/
theorem initSerial_tests_quiet : ∃ h', (initSerial quietHw : PortAction Unit Int).run [] =
    (.ok 0, h') ∧ (quietChip h').settings = ⟨0x03, 0x0F, 0x00, 0xC7, 0x03, 0x00⟩ := by
  obtain ⟨r, h', hrun, -, hback, hset⟩ := initSerial_tests (ε := Unit) quiet_isChip []
  obtain rfl := hback rfl rfl
  exact ⟨h', hrun, hset⟩

end Test

end Serial
end Medusa
