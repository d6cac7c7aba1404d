import Mathlib.Data.Fintype.Fin
import Mathlib.Tactic.FinCases
import Medusa.Machine.Run
import Medusa.Machine.Word

/-!
# Acknowledging hardware interrupts

Two cascaded 8259 chips each keep a bit for every line in service.  A line stays
blocked until an end-of-interrupt command clears its bit.  `handle_platform_irq`
runs the registered handler and sends the command itself, except for the timer,
whose handler sends its own; `pic_send_EOI` decides which of the chips hear it.

`pic_send_EOI` compares a line number with 40, the vector of the first line of the
slave.  The slave hears nothing from the dispatcher, and an interrupt on one of its
lines is acknowledged only if the handler passes a number of at least 40.
-/

namespace Medusa
namespace Irq

open Machine

/-! ## The chips -/

/-- The in-service registers. -/
structure Pics where
  master : BitVec 8
  slave : BitVec 8
deriving DecidableEq, Repr

def Pics.clear : Pics := ⟨0#8, 0#8⟩

/-- A non-specific end-of-interrupt: the line of the highest priority in service,
which is the lowest bit set, is done. -/
def endOfInterrupt (inService : BitVec 8) : BitVec 8 := inService &&& (inService - 1)

/-- A line goes into service on its chip, and the cascade with those of the slave. -/
def Pics.deliver (p : Pics) (line : Fin 16) : Pics :=
  if line.val < 8 then { p with master := p.master ||| 1#8 <<< line.val }
  else { master := p.master ||| 1#8 <<< 2, slave := p.slave ||| 1#8 <<< (line.val - 8) }

def picSendEOI (p : Pics) (irq : Nat) : Pics :=
  let p := if 40 ≤ irq then { p with slave := endOfInterrupt p.slave } else p
  { p with master := endOfInterrupt p.master }

/-! ## The dispatcher -/

/-- A handler, as far as the chips see it: the arguments of its calls of
`pic_send_EOI`, and whether it returns. -/
structure Handler where
  eois : List Nat
  returns : Bool
deriving DecidableEq, Repr

def sysTickHandler : Handler := ⟨[0], true⟩

def sysKeyHandler : Handler := ⟨[], true⟩

def sysMouseHandler : Handler := ⟨[], true⟩

/-- `paging_fault_handler`, which `init_paging` registers on line 14. -/
def pagingFaultHandler : Handler := ⟨[], false⟩

structure State where
  pics : Pics
  irqRoutines : Fin 16 → Option Handler

def irqRegisterHandler (s : State) (irq : Int) (handler : Option Handler) : State :=
  if handler = none ∨ irq < 0 ∨ 15 < irq then s
  else { s with irqRoutines := fun line =>
    if (line.val : Int) = irq then handler else s.irqRoutines line }

/-- The end of `handle_platform_irq`: nothing is sent for `IRQ_PIT`. -/
def finishIrq (p : Pics) (line : Fin 16) : Pics :=
  if line.val = 0 then p else picSendEOI p line.val

/-- `handle_platform_irq`; `none` if it does not return. -/
def handlePlatformIrq (s : State) (line : Fin 16) : Option State :=
  match s.irqRoutines line with
  | none => some { s with pics := finishIrq s.pics line }
  | some handler =>
    if handler.returns then
      some { s with pics := finishIrq (handler.eois.foldl picSendEOI s.pics) line }
    else none

/-- `x86_exception_handler`: vectors of exceptions and unknown ones halt. -/
def x86ExceptionHandler (s : State) (vector : Nat) : Option State :=
  if h : 32 ≤ vector ∧ vector ≤ 47 then handlePlatformIrq s ⟨vector - 32, by omega⟩ else none

inductive Event where
  | register (irq : Int) (handler : Option Handler)
  | interrupt (line : Fin 16)

/-- One event: the chips put the line in service and the processor enters the vector
they give. -/
def step (s : State) : Event → Option State
  | .register irq handler => some (irqRegisterHandler s irq handler)
  | .interrupt line => x86ExceptionHandler { s with pics := s.pics.deliver line } (32 + line.val)

/-! ## The law and its condition -/

/-- No line is in service when the handler has returned. -/
def Acknowledged (s : State) (e : Event) : Prop :=
  ∀ s', step s e = some s' → s'.pics = Pics.clear

/-- What the code needs: the handler of the timer sends an end-of-interrupt, and a
handler on the slave sends one with an argument of at least 40. -/
def Heard (s : State) : Event → Prop
  | .register _ _ => True
  | .interrupt line =>
    match s.irqRoutines line with
    | none => 0 < line.val ∧ line.val < 8
    | some handler => handler.returns = true →
      (line.val = 0 → handler.eois ≠ []) ∧ (8 ≤ line.val → ∃ irq ∈ handler.eois, 40 ≤ irq)

/-! ## End-of-interrupts -/

theorem endOfInterrupt_zero : endOfInterrupt 0#8 = 0#8 := by decide

/-- A chip with one line in service has none after an end-of-interrupt. -/
theorem endOfInterrupt_single {k : Nat} (hk : k < 8) : endOfInterrupt (1#8 <<< k) = 0#8 := by
  have hall : ∀ k, k < 8 → endOfInterrupt (1#8 <<< k) = 0#8 := by decide
  exact hall k hk

theorem single_ne_zero {k : Nat} (hk : k < 8) : 1#8 <<< k ≠ 0#8 := by
  have hall : ∀ k, k < 8 → 1#8 <<< k ≠ 0#8 := by decide
  exact hall k hk

/-- A handler clears a chip with at most one line in service as soon as the chip
hears it. -/
theorem foldl_picSendEOI {master slave : BitVec 8} (hm : endOfInterrupt master = 0#8)
    (hs : endOfInterrupt slave = 0#8) (eois : List Nat) :
    eois.foldl picSendEOI ⟨master, slave⟩ =
      ⟨if eois = [] then master else 0#8, if ∃ irq ∈ eois, 40 ≤ irq then 0#8 else slave⟩ := by
  induction eois generalizing master slave with
  | nil => simp
  | cons irq eois ih =>
    rw [List.foldl_cons]
    by_cases hirq : 40 ≤ irq
    · have hfirst : picSendEOI ⟨master, slave⟩ irq = ⟨0#8, 0#8⟩ := by
        simp [picSendEOI, hirq, hm, hs]
      rw [hfirst, ih endOfInterrupt_zero endOfInterrupt_zero]
      simp [hirq]
    · have hfirst : picSendEOI ⟨master, slave⟩ irq = ⟨0#8, slave⟩ := by
        simp [picSendEOI, hirq, hm]
      rw [hfirst, ih endOfInterrupt_zero hs]
      simp [hirq]

/-- The dispatcher's own end-of-interrupt only reaches the master. -/
theorem picSendEOI_line (master slave : BitVec 8) (line : Fin 16) :
    picSendEOI ⟨master, slave⟩ line.val = ⟨endOfInterrupt master, slave⟩ := by
  unfold picSendEOI
  rw [if_neg (by omega)]

/-- The chips when the dispatcher returns, with one line in service on the master
and at most one on the slave when the handler was entered. -/
theorem finishIrq_clear_iff {master slave : BitVec 8} (hm : endOfInterrupt master = 0#8)
    (hm' : master ≠ 0#8) (hs : endOfInterrupt slave = 0#8) (line : Fin 16) (eois : List Nat) :
    finishIrq (eois.foldl picSendEOI ⟨master, slave⟩) line = Pics.clear ↔
      (line.val = 0 → eois ≠ []) ∧ (slave = 0#8 ∨ ∃ irq ∈ eois, 40 ≤ irq) := by
  have hslave : (if ∃ irq ∈ eois, 40 ≤ irq then 0#8 else slave) = 0#8 ↔
      slave = 0#8 ∨ ∃ irq ∈ eois, 40 ≤ irq := by
    by_cases hheard : ∃ irq ∈ eois, 40 ≤ irq
    · rw [if_pos hheard]
      exact iff_of_true rfl (Or.inr hheard)
    · rw [if_neg hheard]
      exact ⟨Or.inl, fun h => h.resolve_right hheard⟩
  rw [foldl_picSendEOI hm hs]
  unfold finishIrq Pics.clear
  by_cases hzero : line.val = 0
  · rw [if_pos hzero, Pics.mk.injEq, hslave]
    have hmaster : (if eois = [] then master else 0#8) = 0#8 ↔ eois ≠ [] := by
      by_cases hnil : eois = []
      · simp [hnil, hm']
      · simp [hnil]
    exact and_congr (hmaster.trans ⟨fun h _ => h, fun h => h hzero⟩) Iff.rfl
  · rw [if_neg hzero, picSendEOI_line, Pics.mk.injEq, hslave]
    have hmaster : endOfInterrupt (if eois = [] then master else 0#8) = 0#8 := by
      split
      · exact hm
      · exact endOfInterrupt_zero
    exact and_congr (iff_of_true hmaster (fun h => absurd h hzero)) Iff.rfl

/-- An interrupt on clear chips whose handler sends `eois`. -/
theorem served_clear_iff (line : Fin 16) (eois : List Nat) :
    finishIrq (eois.foldl picSendEOI (Pics.clear.deliver line)) line = Pics.clear ↔
      (line.val = 0 → eois ≠ []) ∧ (8 ≤ line.val → ∃ irq ∈ eois, 40 ≤ irq) := by
  by_cases hline : line.val < 8
  · have hdeliver : Pics.clear.deliver line = ⟨1#8 <<< line.val, 0#8⟩ := by
      simp [Pics.deliver, Pics.clear, hline]
    rw [hdeliver, finishIrq_clear_iff (endOfInterrupt_single hline) (single_ne_zero hline)
      endOfInterrupt_zero]
    exact and_congr Iff.rfl (iff_of_true (Or.inl rfl) (fun h => absurd h (by omega)))
  · have hslave : line.val - 8 < 8 := by omega
    have hdeliver : Pics.clear.deliver line = ⟨1#8 <<< 2, 1#8 <<< (line.val - 8)⟩ := by
      simp [Pics.deliver, Pics.clear, hline]
    rw [hdeliver, finishIrq_clear_iff (endOfInterrupt_single (by decide))
      (single_ne_zero (by decide)) (endOfInterrupt_single hslave)]
    refine and_congr Iff.rfl ⟨fun h _ => ?_, fun h => Or.inr (h (by omega))⟩
    exact h.resolve_left (single_ne_zero hslave)

/-! ## Whole runs -/

theorem step_interrupt (s : State) (line : Fin 16) :
    step s (.interrupt line) = handlePlatformIrq { s with pics := s.pics.deliver line } line := by
  have hrange : 32 ≤ 32 + line.val ∧ 32 + line.val ≤ 47 := by omega
  simp only [step, x86ExceptionHandler, dif_pos hrange, Nat.add_sub_cancel_left]

theorem acknowledged_iff_heard (s : State) (e : Event) (hs : s.pics = Pics.clear) :
    Acknowledged s e ↔ Heard s e := by
  cases e with
  | register irq handler =>
    simp only [Heard, iff_true]
    intro s' hstep
    obtain rfl := Option.some.inj hstep
    unfold irqRegisterHandler
    split
    · exact hs
    · exact hs
  | interrupt line =>
    unfold Acknowledged
    simp only [step_interrupt, hs, handlePlatformIrq, Heard]
    cases s.irqRoutines line with
    | none =>
      have h := served_clear_iff line []
      simp only [List.foldl_nil] at h
      simp only [Option.some.injEq, forall_eq', h]
      constructor
      · intro hempty
        constructor
        · exact Nat.pos_of_ne_zero fun hzero => hempty.1 hzero rfl
        · by_contra hge
          obtain ⟨irq, hirq, -⟩ := hempty.2 (Nat.le_of_not_lt hge)
          simp at hirq
      · intro hline
        exact ⟨fun hzero => absurd hzero (Nat.ne_of_gt hline.1),
          fun hge => absurd hline.2 (Nat.not_lt_of_le hge)⟩
    | some handler =>
      have h := served_clear_iff line handler.eois
      by_cases hret : handler.returns = true
      · simp only [hret, if_true, Option.some.injEq, forall_eq', h, true_imp_iff]
      · simp [hret]

/-- **Interrupts are acknowledged exactly when the chips hear of them.**  From clear
chips, with any handlers, every interrupt of a run leaves no line in service if and
only if the timer is served by a handler that sends an end-of-interrupt and a line of
the slave by one that sends it with an argument of at least 40. -/
theorem interrupts_acknowledged_iff (routines : Fin 16 → Option Handler) (events : List Event) :
    Throughout step Acknowledged ⟨Pics.clear, routines⟩ events ↔
      Throughout step Heard ⟨Pics.clear, routines⟩ events := by
  apply throughout_iff (fun s => s.pics = Pics.clear) acknowledged_iff_heard
  · intro s e s' hs hheard hstep
    exact (acknowledged_iff_heard s e hs).mpr hheard s' hstep
  · rfl

/-- The handlers the kernel registers while it boots. -/
def kernelRoutines : Fin 16 → Option Handler
  | 0 => some sysTickHandler
  | 1 => some sysKeyHandler
  | 12 => some sysMouseHandler
  | 14 => some pagingFaultHandler
  | _ => none

/-- With these the master is acknowledged; of the slave only line 14 leaves nothing
behind, as its handler never returns. -/
theorem heard_kernelRoutines_iff (pics : Pics) (line : Fin 16) :
    Heard ⟨pics, kernelRoutines⟩ (.interrupt line) ↔ line.val < 8 ∨ line.val = 14 := by
  fin_cases line <;>
    simp [Heard, kernelRoutines, sysTickHandler, sysKeyHandler, sysMouseHandler,
      pagingFaultHandler]

/-- The mouse interrupts once, with the handler that `mouse_install` registers. -/
theorem mouse_not_acknowledged :
    ¬ Throughout step Acknowledged ⟨Pics.clear, fun _ => none⟩
      [.register 12 (some sysMouseHandler), .interrupt 12] := by
  intro h
  have hmouse := (h.2 _ rfl).1
  simp only [Acknowledged] at hmouse
  have hslave := congrArg Pics.slave (hmouse _ rfl)
  revert hslave
  decide

end Irq
end Medusa
