import Medusa.Irq.Pic
import Medusa.Machine.I8259

/-!
# Interrupts through the ports

`pic_init` and `pic_send_EOI` speak to the chips through their ports, and what the processor
enters is the vector that the chips give it.  The model of the handlers leaves both out: there
an interrupt on a line is its vector, and an end of interrupt changes the registers in
service.  After `pic_init`, whatever state the chips were in, the two agree in every run.
-/

namespace Medusa
namespace Irq
namespace Chips

open Machine I8259

/-! ## The code -/

section Code

variable {ε : Type}

def picInit : PortAction ε Unit := do
  outb 0x20 0x11
  outb 0xA0 0x11
  outb 0x21 0x20
  outb 0xA1 0x28
  outb 0x21 0x04
  outb 0xA1 0x02
  outb 0x21 0x01
  outb 0xA1 0x01
  outb 0x21 0x00
  outb 0xA1 0x00

def picDisable : PortAction ε Unit := do
  outb 0x21 0xff
  outb 0xA1 0xff

def picSendEOI (irq : Nat) : PortAction ε Unit := do
  if 40 ≤ irq then
    outb 0xA0 0x20
  outb 0x20 0x20

/-- The end of `handle_platform_irq`. -/
def finishIrq (line : Fin 16) : PortAction ε Unit :=
  if line.val = 0 then pure () else picSendEOI line.val

/-- The calls of `pic_send_EOI` in a handler. -/
def sendAll : List Nat → PortAction ε Unit
  | [] => pure ()
  | irq :: eois => do
    picSendEOI irq
    sendAll eois

/-- `handle_platform_irq`, which stops if the handler does not return. -/
def handlePlatformIrq (irqRoutines : Fin 16 → Option Handler) (line : Fin 16) :
    PortAction Unit Unit :=
  match irqRoutines line with
  | none => finishIrq line
  | some handler => do
    sendAll handler.eois
    if handler.returns then finishIrq line else Action.stop ()

theorem vector_sub_lt {vector : Nat} (h : 32 ≤ vector ∧ vector ≤ 47) : vector - 32 < 16 := by
  omega

def x86ExceptionHandler (irqRoutines : Fin 16 → Option Handler) (vector : Nat) :
    PortAction Unit Unit :=
  if h : 32 ≤ vector ∧ vector ≤ 47 then
    handlePlatformIrq irqRoutines ⟨vector - 32, vector_sub_lt h⟩
  else Action.stop ()

end Code

structure Board where
  chips : Pair
  irqRoutines : Fin 16 → Option Handler

def Board.irqRegisterHandler (b : Board) (irq : Int) (handler : Option Handler) : Board :=
  if handler = none ∨ irq < 0 ∨ 15 < irq then b
  else { b with irqRoutines := fun line =>
    if (line.val : Int) = irq then handler else b.irqRoutines line }

/-- The chips hear what a program sends, if it returns. -/
def Board.serve (b : Board) (x : PortAction Unit Unit) : Option Board :=
  match x.run [] with
  | (.ok _, h) => some { b with chips := b.chips.after h }
  | (.error _, _) => none

/-- One event; an interrupt that the chips hold back is never served. -/
def step (b : Board) : Event → Option Board
  | .register irq handler => some (b.irqRegisterHandler irq handler)
  | .interrupt line => do
    let vector ← b.chips.vector line
    let b := { b with chips := b.chips.acknowledge line }
    b.serve (x86ExceptionHandler b.irqRoutines vector.toNat)

/-! ## The chips after `pic_init` -/

def inService (p : Pair) : Pics := ⟨p.master.inService, p.slave.inService⟩

/-- Initialised chips with these registers in service. -/
def remapped (pics : Pics) : Pair where
  master := ⟨.ready, 0x11#8, 0x20#8, 0x04#8, 0x01#8, 0x00#8, pics.master⟩
  slave := ⟨.ready, 0x11#8, 0x28#8, 0x02#8, 0x01#8, 0x00#8, pics.slave⟩

def board (s : State) : Board := ⟨remapped s.pics, s.irqRoutines⟩

/-- An event, where no device interrupts on the line of the slave. -/
def Wired : Event → Prop
  | .register _ _ => True
  | .interrupt line => line.val ≠ 2

section Remapped

variable {ε : Type} {p : Pair} {pics : Pics} {line : Fin 16}

theorem picInit_remaps (p : Pair) (h : Trace) :
    ∃ h', (picInit : PortAction ε Unit).run h = (.ok (), h') ∧
      p.after h' = remapped (inService (p.after h)) := by
  refine ⟨_, rfl, ?_⟩
  simp only [Pair.after_snoc, Pair.access_masterCommand, Pair.access_masterData,
    Pair.access_slaveCommand, Pair.access_slaveData]
  rw [Chip.initialise _ (by decide) (by decide) (by decide),
    Chip.initialise _ (by decide) (by decide) (by decide)]
  rfl

theorem remapped_vector (pics : Pics) (hline : line.val ≠ 2) :
    (remapped pics).vector line = some (BitVec.ofNat 8 (32 + line.val)) := by
  have hall : ∀ line : Fin 16, line.val ≠ 2 →
      (remapped Pics.clear).vector line = some (BitVec.ofNat 8 (32 + line.val)) := by decide
  exact hall line hline

theorem remapped_acknowledge (pics : Pics) (line : Fin 16) :
    (remapped pics).acknowledge line = remapped (pics.deliver line) := by
  have hmaster : (remapped pics).master.icw4.getLsbD 1 = false := by
    change (0x01#8).getLsbD 1 = false
    decide
  have hslave : (remapped pics).slave.icw4.getLsbD 1 = false := hmaster
  unfold Pair.acknowledge Pics.deliver
  split
  · rw [Chip.enter_eq hmaster]
    rfl
  · rw [Chip.enter_eq hmaster, Chip.enter_eq hslave]
    rfl

theorem picDisable_silences {h : Trace} (hp : p.after h = remapped pics) :
    ∃ h', (picDisable : PortAction ε Unit).run h = (.ok (), h') ∧
      ∀ line : Fin 16, (p.after h').vector line = none := by
  have hall : ∀ line : Fin 16, (((remapped Pics.clear).access (.output 0x21 0xff)).access
      (.output 0xA1 0xff)).vector line = none := by decide
  refine ⟨h ++ [.output 0x21 0xff] ++ [.output 0xA1 0xff], rfl, fun line => ?_⟩
  rw [Pair.after_snoc, Pair.after_snoc, hp]
  exact hall line

/-- On remapped chips the program does what `f` does to the registers in service. -/
def Sends (x : PortAction ε Unit) (f : Pics → Pics) : Prop :=
  ∀ (p : Pair) (h : Trace) (pics : Pics), p.after h = remapped pics →
    ∃ h', x.run h = (.ok (), h') ∧ p.after h' = remapped (f pics)

theorem sends_pure : Sends (pure () : PortAction ε Unit) id := fun _ h _ hp => ⟨h, rfl, hp⟩

theorem Sends.bind {x y : PortAction ε Unit} {f g : Pics → Pics} (hx : Sends x f)
    (hy : Sends y g) : Sends (x >>= fun _ => y) (g ∘ f) := by
  intro p h pics hp
  obtain ⟨h₁, hrun, hp₁⟩ := hx p h pics hp
  obtain ⟨h₂, hrest, hp₂⟩ := hy p h₁ (f pics) hp₁
  exact ⟨h₂, (Action.bind_ok hrun).trans hrest, hp₂⟩

theorem picSendEOI_sends (irq : Nat) :
    Sends (picSendEOI irq : PortAction ε Unit) fun pics => Irq.picSendEOI pics irq := by
  intro p h pics hp
  by_cases hirq : 40 ≤ irq
  · have hsend : Irq.picSendEOI pics irq =
        ⟨endOfInterrupt pics.master, endOfInterrupt pics.slave⟩ := by
      simp [Irq.picSendEOI, hirq]
    refine ⟨h ++ [.output 0xA0 0x20] ++ [.output 0x20 0x20], ?_, ?_⟩
    · rw [picSendEOI, if_pos hirq]
      rfl
    · dsimp only
      rw [Pair.after_snoc, Pair.after_snoc, hp, hsend, Pair.access_slaveCommand,
        Pair.access_masterCommand, Chip.command_end, Chip.command_end]
      rfl
  · have hsend : Irq.picSendEOI pics irq = ⟨endOfInterrupt pics.master, pics.slave⟩ := by
      simp [Irq.picSendEOI, hirq]
    refine ⟨h ++ [.output 0x20 0x20], ?_, ?_⟩
    · rw [picSendEOI, if_neg hirq]
      rfl
    · dsimp only
      rw [Pair.after_snoc, hp, hsend, Pair.access_masterCommand, Chip.command_end]
      rfl

theorem sendAll_sends (eois : List Nat) :
    Sends (sendAll eois : PortAction ε Unit) fun pics => eois.foldl Irq.picSendEOI pics := by
  induction eois with
  | nil => exact sends_pure
  | cons irq eois ih => exact (picSendEOI_sends irq).bind ih

theorem finishIrq_sends (line : Fin 16) :
    Sends (finishIrq line : PortAction ε Unit) fun pics => Irq.finishIrq pics line := by
  unfold finishIrq Irq.finishIrq
  split
  · exact sends_pure
  · exact picSendEOI_sends line.val

end Remapped

/-! ## Whole runs -/

theorem serve_board {s s' : State} {x : PortAction Unit Unit} {f : Pics → Pics} (hx : Sends x f)
    (hs : s' = { s with pics := f s.pics }) : (board s).serve x = some (board s') := by
  obtain ⟨h, hrun, hafter⟩ := hx (remapped s.pics) [] s.pics rfl
  rw [Board.serve, hrun, hs]
  dsimp only [board]
  rw [hafter]

theorem handlePlatformIrq_serve (s : State) (line : Fin 16) :
    (board s).serve (handlePlatformIrq s.irqRoutines line) =
      (Irq.handlePlatformIrq s line).map board := by
  unfold handlePlatformIrq Irq.handlePlatformIrq
  cases s.irqRoutines line with
  | none => exact serve_board (finishIrq_sends line) rfl
  | some handler =>
    dsimp only
    cases handler.returns with
    | true => exact serve_board ((sendAll_sends handler.eois).bind (finishIrq_sends line)) rfl
    | false =>
      obtain ⟨h, hrun, -⟩ := sendAll_sends (ε := Unit) handler.eois (remapped s.pics) [] s.pics rfl
      rw [if_neg Bool.false_ne_true, Board.serve, Action.bind_ok hrun]
      rfl

theorem step_board (s : State) {e : Event} (he : Wired e) :
    step (board s) e = (Irq.step s e).map board := by
  cases e with
  | register irq handler =>
    unfold step Irq.step Board.irqRegisterHandler irqRegisterHandler
    dsimp only
    split
    · rfl
    · rfl
  | interrupt line =>
    have hvector : (BitVec.ofNat 8 (32 + line.val)).toNat = 32 + line.val := by
      rw [BitVec.toNat_ofNat, Nat.mod_eq_of_lt (by omega)]
    have hrange : 32 ≤ 32 + line.val ∧ 32 + line.val ≤ 47 := by omega
    have hdispatch : x86ExceptionHandler s.irqRoutines (32 + line.val) =
        handlePlatformIrq s.irqRoutines line := by
      simp only [x86ExceptionHandler, dif_pos hrange, Nat.add_sub_cancel_left]
    rw [step_interrupt, ← handlePlatformIrq_serve, step, board, remapped_vector _ he]
    dsimp only [Option.bind_some, bind]
    rw [remapped_acknowledge, hvector, hdispatch]
    rfl

theorem run_board (s : State) {events : List Event} (hevents : ∀ e ∈ events, Wired e) :
    events.foldlM step (board s) = (events.foldlM Irq.step s).map board := by
  induction events generalizing s with
  | nil => rfl
  | cons e events ih =>
    rw [List.foldlM_cons, List.foldlM_cons, step_board s (hevents e List.mem_cons_self)]
    cases Irq.step s e with
    | none => rfl
    | some s' => exact ih s' fun e he => hevents e (List.mem_cons_of_mem _ he)

/-- **Interrupts reach the routine of their line.**  Whatever state the chips are in,
`pic_init` brings them to one from which every run of interrupts through the ports goes as it
does where an interrupt is its vector; and every line but that of the slave keeps the vector
that is 32 above its number. -/
theorem picInit_serves (p : Pair) (h : Trace) (irqRoutines : Fin 16 → Option Handler)
    {events : List Event} (hevents : ∀ e ∈ events, Wired e) :
    ∃ h', (picInit : PortAction Unit Unit).run h = (.ok (), h') ∧
      events.foldlM step ⟨p.after h', irqRoutines⟩ =
        (events.foldlM Irq.step ⟨inService (p.after h), irqRoutines⟩).map board ∧
      ∀ b, events.foldlM step ⟨p.after h', irqRoutines⟩ = some b →
        ∀ line : Fin 16, line.val ≠ 2 →
          b.chips.vector line = some (BitVec.ofNat 8 (32 + line.val)) := by
  obtain ⟨h', hinit, hchips⟩ := picInit_remaps (ε := Unit) p h
  have hrun : events.foldlM step ⟨p.after h', irqRoutines⟩ =
      (events.foldlM Irq.step ⟨inService (p.after h), irqRoutines⟩).map board := by
    rw [hchips]
    exact run_board ⟨_, irqRoutines⟩ hevents
  refine ⟨h', hinit, hrun, fun b hb line hline => ?_⟩
  obtain ⟨s, -, rfl⟩ := Option.map_eq_some_iff.mp (hrun.symm.trans hb)
  exact remapped_vector s.pics hline

/-- Chips in the middle of an initialisation. -/
def halfway : Pair where
  master := ⟨.third, 0x11#8, 0x08#8, 0xFF#8, 0x00#8, 0xFF#8, 0x02#8⟩
  slave := ⟨.ready, 0x13#8, 0x70#8, 0x00#8, 0x00#8, 0xFF#8, 0x00#8⟩

/-- These, and an interrupt of the keyboard and one of the mouse. -/
theorem picInit_serves_mouse : ∃ h', (picInit : PortAction Unit Unit).run [] = (.ok (), h') ∧
    [Event.interrupt 1, .interrupt 12].foldlM step ⟨halfway.after h', kernelRoutines⟩ =
      ([Event.interrupt 1, .interrupt 12].foldlM Irq.step
        ⟨inService halfway, kernelRoutines⟩).map board ∧
    ∀ b, [Event.interrupt 1, .interrupt 12].foldlM step ⟨halfway.after h', kernelRoutines⟩ =
        some b →
      ∀ line : Fin 16, line.val ≠ 2 →
        b.chips.vector line = some (BitVec.ofNat 8 (32 + line.val)) :=
  picInit_serves halfway [] kernelRoutines (by simp [Wired])

end Chips
end Irq
end Medusa
