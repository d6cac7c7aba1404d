import Mathlib.Logic.Function.Iterate
import Medusa.Irq.Frame
import Medusa.Machine.Word

/-!
# From a vector to a handler

`idt_initialize` completes the gates of the interrupt table with the addresses of the
stubs, the processor finds the stub of a vector through the table, and
`x86_exception_handler` chooses by the vector that the stub pushed.  The routines of
the sixteen lines are set and cleared by `irq_register_handler` and
`irq_unregister_handler`, so what serves a line is decided by the last call for it.

The table has 48 gates, and the loop makes 49 rounds.  A vector without a gate raises a
general protection fault, which is an exception like any other.
-/

namespace Medusa
namespace Irq

open Machine

/-! ## The table -/

def numInt : Nat := 0x31

def codeSelector : Nat := 0x08

/-- A present interrupt gate of the kernel. -/
def gateAttributes : Nat := 0x8e

/-- The length of a stub: two instructions `pushl` of a byte, or two `nop`s and one, and
a near jump. -/
def isrStubLen : Nat := 9

/-- What `idt_initialize` keeps in registers and memory. -/
structure Fill where
  esi : Nat
  edi : Nat
  mem : Mem

/-- One round of its loop. -/
def fillGate (f : Fill) : Fill where
  esi := wrap (f.esi + isrStubLen)
  edi := wrap (f.edi + 8)
  mem := write16 (write16 f.mem f.edi f.esi) (f.edi + 6) (f.esi / 2 ^ 16)

def idtInitialize (m : Mem) (isr idt : Nat) : Mem := (fillGate^[numInt] ⟨isr, idt, m⟩).mem

/-- The table of the data section: 48 gates without offsets. -/
structure IdtData (m : Mem) (idt : Nat) : Prop where
  selector : ∀ n < numInt - 1, read16 m (idt + 8 * n + 2) = codeSelector
  attributes : ∀ n < numInt - 1, (m (idt + 8 * n + 5)).toNat = gateAttributes

structure Gate where
  offset : Nat
  selector : Nat
  attributes : Nat
deriving DecidableEq, Repr

/-- Gate `n` as the processor reads it. -/
def gate (m : Mem) (idt n : Nat) : Gate where
  offset := read16 m (idt + 8 * n) + 2 ^ 16 * read16 m (idt + 8 * n + 6)
  selector := read16 m (idt + 8 * n + 2)
  attributes := (m (idt + 8 * n + 5)).toNat

section Table

variable {m : Mem} {isr idt : Nat}

/-- The bytes of a gate that hold its offset. -/
def OffsetByte (idt n x : Nat) : Prop :=
  (idt + 8 * n ≤ x ∧ x < idt + 8 * n + 2) ∨ (idt + 8 * n + 6 ≤ x ∧ x < idt + 8 * n + 8)

/-- After `k` rounds the first `k` gates have their offsets, and nothing else has
changed. -/
theorem fillGate_rounds (k : Nat) (hisr : isr + isrStubLen * k < 2 ^ 32)
    (hidt : idt + 8 * k < 2 ^ 32) :
    let f := fillGate^[k] ⟨isr, idt, m⟩
    f.esi = isr + isrStubLen * k ∧ f.edi = idt + 8 * k ∧
      (∀ n < k, read16 f.mem (idt + 8 * n) = (isr + isrStubLen * n) % 2 ^ 16 ∧
        read16 f.mem (idt + 8 * n + 6) = (isr + isrStubLen * n) / 2 ^ 16 % 2 ^ 16) ∧
      ∀ x, (∀ n < k, ¬ OffsetByte idt n x) → f.mem x = m x := by
  unfold isrStubLen at *
  induction k with
  | zero => exact ⟨rfl, rfl, fun n hn => absurd hn (Nat.not_lt_zero n), fun x _ => rfl⟩
  | succ k ih =>
    rw [Function.iterate_succ_apply']
    obtain ⟨hesi, hedi, hgates, hrest⟩ := ih (by omega) (by omega)
    generalize fillGate^[k] ⟨isr, idt, m⟩ = f at *
    have hout : ∀ x, ¬ OffsetByte idt k x → (fillGate f).mem x = f.mem x := by
      intro x hx
      unfold OffsetByte at hx
      change write16 (write16 f.mem f.edi f.esi) (f.edi + 6) (f.esi / 2 ^ 16) x = f.mem x
      rw [write16_outside (by omega), write16_outside (by omega)]
    have hkeep : ∀ a, (∀ x, a ≤ x → x < a + 2 → ¬ OffsetByte idt k x) →
        read16 (fillGate f).mem a = read16 f.mem a :=
      fun a ha => read16_congr fun x hlo hhi => hout x (ha x hlo hhi)
    refine ⟨?_, ?_, fun n hn => ?_, fun x hx => ?_⟩
    · change wrap (f.esi + 9) = _
      rw [wrap_of_lt (by omega)]
      omega
    · change wrap (f.edi + 8) = _
      rw [wrap_of_lt (by omega)]
      omega
    · by_cases hk : n = k
      · subst hk
        have hlow : read16 (fillGate f).mem (idt + 8 * n) = f.esi % 2 ^ 16 := by
          rw [← hedi, ← read16_write16_self f.mem f.edi f.esi]
          exact read16_congr fun x hlo hhi => write16_outside (by omega)
        have hhigh : read16 (fillGate f).mem (idt + 8 * n + 6) = f.esi / 2 ^ 16 % 2 ^ 16 := by
          rw [← hedi]
          exact read16_write16_self _ _ _
        rw [hlow, hhigh, hesi]
        exact ⟨rfl, rfl⟩
      · obtain ⟨hlow, hhigh⟩ := hgates n (by omega)
        rw [hkeep _ (fun x hlo hhi => by unfold OffsetByte; omega),
          hkeep _ (fun x hlo hhi => by unfold OffsetByte; omega)]
        exact ⟨hlow, hhigh⟩
    · rw [hout x (hx k (Nat.lt_succ_self k))]
      exact hrest x fun n hn => hx n (Nat.lt_succ_of_lt hn)

/-- **The gates.**  Every gate of the table leads to the stub of its vector, in the code
segment of the kernel.  The last round lies behind the table: it writes the address of
the last stub to four bytes that are not part of it, and no other byte outside the
table changes. -/
theorem idtInitialize_gates (hdata : IdtData m idt) (hisr : isr + isrStubLen * numInt < 2 ^ 32)
    (hidt : idt + 8 * numInt < 2 ^ 32) :
    (∀ n < numInt - 1, gate (idtInitialize m isr idt) idt n =
      ⟨isr + isrStubLen * n, codeSelector, gateAttributes⟩) ∧
      (read16 (idtInitialize m isr idt) (idt + 8 * (numInt - 1)) =
          (isr + isrStubLen * (numInt - 1)) % 2 ^ 16 ∧
        read16 (idtInitialize m isr idt) (idt + 8 * (numInt - 1) + 6) =
          (isr + isrStubLen * (numInt - 1)) / 2 ^ 16 % 2 ^ 16) ∧
      ∀ x, x < idt ∨ idt + 8 * (numInt - 1) ≤ x → ¬ OffsetByte idt (numInt - 1) x →
        idtInitialize m isr idt x = m x := by
  obtain ⟨-, -, hgates, hrest⟩ := fillGate_rounds (m := m) numInt hisr hidt
  unfold isrStubLen numInt at *
  refine ⟨fun n hn => ?_, hgates _ (by decide), fun x hx hout => hrest x fun n hn => ?_⟩
  · obtain ⟨hlow, hhigh⟩ := hgates n (by omega)
    have hsel : read16 (idtInitialize m isr idt) (idt + 8 * n + 2) = codeSelector := by
      rw [← hdata.selector n hn]
      exact read16_congr fun x hlo hhi => hrest x fun i hi => by unfold OffsetByte; omega
    have hattr : (idtInitialize m isr idt (idt + 8 * n + 5)).toNat = gateAttributes := by
      rw [← hdata.attributes n hn]
      exact congrArg BitVec.toNat (hrest _ fun i hi => by unfold OffsetByte; omega)
    have hoff : read16 (idtInitialize m isr idt) (idt + 8 * n) +
        2 ^ 16 * read16 (idtInitialize m isr idt) (idt + 8 * n + 6) = isr + 9 * n := by
      unfold idtInitialize numInt
      rw [hlow, hhigh]
      omega
    simp only [gate, hsel, hattr, hoff]
  · by_cases hlast : n = 0x31 - 1
    · rw [hlast]
      exact hout
    · unfold OffsetByte
      omega

end Table

/-- A table at `0x8000` for stubs at `0x5000`. -/
def emptyTable : Mem := fun x =>
  if 0x8000 ≤ x ∧ x < 0x8180 then
    if x % 8 = 2 then 8#8 else if x % 8 = 5 then 0x8e#8 else 0#8
  else 0#8

theorem emptyTable_data : IdtData emptyTable 0x8000 where
  selector := by decide
  attributes := by decide

theorem emptyTable_gate :
    gate (idtInitialize emptyTable 0x5000 0x8000) 0x8000 33 = ⟨0x5000 + 9 * 33, 8, 0x8e⟩ :=
  (idtInitialize_gates emptyTable_data (by decide) (by decide)).1 33 (by decide)

/-! ## The routines -/

/-- `irq_routines`, for handlers of any kind. -/
abbrev Routines (H : Type) := Fin 16 → Option H

namespace Routines

variable {H : Type}

def irqRegisterHandler (r : Routines H) (irq : Int) (handler : Option H) : Routines H :=
  if handler = none ∨ irq < 0 ∨ 15 < irq then r
  else fun line => if (line.val : Int) = irq then handler else r line

/-- `irq_unregister_handler` does not check its argument; `none` if it writes outside the
routines. -/
def irqUnregisterHandler (r : Routines H) (irq : Int) : Option (Routines H) :=
  if irq < 0 ∨ 15 < irq then none
  else some fun line => if (line.val : Int) = irq then none else r line

/-- The calls that change the routines. -/
inductive Call (H : Type) where
  | register (irq : Int) (handler : Option H)
  | unregister (irq : Int)

def call (r : Routines H) : Call H → Option (Routines H)
  | .register irq handler => some (irqRegisterHandler r irq handler)
  | .unregister irq => irqUnregisterHandler r irq

def calls (r : Routines H) (cs : List (Call H)) : Option (Routines H) := cs.foldlM call r

/-- The routine that a call leaves on a line, if it concerns the line. -/
def Call.sets (line : Fin 16) : Call H → Option (Option H)
  | .register irq (some h) => if (line.val : Int) = irq then some (some h) else none
  | .register _ none => none
  | .unregister irq => if (line.val : Int) = irq then some none else none

/-- What the last call that concerns a line leaves on it. -/
def lastSet (r : Routines H) (cs : List (Call H)) (line : Fin 16) : Option H :=
  (cs.reverse.findSome? (Call.sets line)).getD (r line)

theorem call_line {r r' : Routines H} {c : Call H} (h : call r c = some r') (line : Fin 16) :
    r' line = (c.sets line).getD (r line) := by
  have hline : ¬ ((line.val : Int) < 0 ∨ 15 < (line.val : Int)) := by omega
  cases c with
  | register irq handler =>
    obtain rfl := Option.some.inj h
    cases handler with
    | none => simp [irqRegisterHandler, Call.sets]
    | some routine =>
      by_cases hirq : (line.val : Int) = irq
      · have hnot : ¬ (some routine = none ∨ irq < 0 ∨ 15 < irq) := by
          rintro (hnone | hout)
          · cases hnone
          · exact hline (hirq ▸ hout)
        rw [irqRegisterHandler, if_neg hnot, if_pos hirq, Call.sets, if_pos hirq, Option.getD_some]
      · by_cases hout : irq < 0 ∨ 15 < irq <;> simp [irqRegisterHandler, Call.sets, hout, hirq]
  | unregister irq =>
    simp only [call, irqUnregisterHandler] at h
    split_ifs at h
    obtain rfl := Option.some.inj h
    by_cases hirq : (line.val : Int) = irq <;> simp [Call.sets, hirq]

/-- **The routine of a line is what the last call for it left there.** -/
theorem calls_line {r r' : Routines H} {cs : List (Call H)} (h : calls r cs = some r')
    (line : Fin 16) : r' line = lastSet r cs line := by
  unfold lastSet
  induction cs generalizing r with
  | nil =>
    obtain rfl := Option.some.inj h
    rfl
  | cons c cs ih =>
    obtain ⟨r₁, hfirst, hrest⟩ := Option.bind_eq_some_iff.mp h
    rw [ih hrest, List.reverse_cons, List.findSome?_append, call_line hfirst line]
    cases cs.reverse.findSome? (Call.sets line) with
    | none => simp
    | some x => rfl

/-! ## Delivery -/

/-- What a vector ends in. -/
inductive Outcome (H : Type) where
  | exception (vector : Nat)
  | routine (line : Fin 16) (handler : Option H)
  | unknown

theorem line_lt {vector : Nat} (h : 32 ≤ vector ∧ vector ≤ 47) : vector - 32 < 16 := by omega

/-- `x86_exception_handler`, up to the choice it makes. -/
def x86ExceptionHandler (r : Routines H) (vector : Nat) : Outcome H :=
  if vector ≤ 31 then .exception vector
  else if h : 32 ≤ vector ∧ vector ≤ 47 then
    .routine ⟨vector - 32, line_lt h⟩ (r ⟨vector - 32, line_lt h⟩)
  else .unknown

/-- The limit in `_idtr`. -/
def idtLimit : Nat := 8 * (numInt - 1) - 1

/-- The vector that the processor enters for vector `v`, with the error code: behind the
limit there is no gate, and the fault names the one that is missing. -/
def entered (v : Nat) (err : Option Word32) : Nat × Option Word32 :=
  if 8 * v + 7 ≤ idtLimit then (v, err) else (13, some (BitVec.ofNat 32 (8 * v + 2)))

/-- An interrupt of a processor, up to the routine that serves it. -/
def interrupt (r : Routines H) (s : Cpu) (k : KernelStack) (v : Nat) (err : Option Word32) :
    Outcome H :=
  let (v', err') := entered v err
  x86ExceptionHandler r (frameOf s k v' err').vector.toNat

theorem interrupt_eq (r : Routines H) (s : Cpu) (k : KernelStack) {v : Nat} (hv : v < 256)
    (err : Option Word32) : interrupt r s k v err =
      if hirq : 32 ≤ v ∧ v < 48 then .routine ⟨v - 32, by omega⟩ (r ⟨v - 32, by omega⟩)
      else if v < 32 then .exception v else .exception 13 := by
  have hlimit : 8 * v + 7 ≤ idtLimit ↔ v < 48 := by
    unfold idtLimit numInt
    omega
  have hvector : ∀ n, n < 256 → (BitVec.ofNat 32 n).toNat = n := fun n hn => by
    rw [BitVec.toNat_ofNat]
    omega
  unfold interrupt
  by_cases hgate : v < 48
  · have hentered : entered v err = (v, err) := if_pos (hlimit.mpr hgate)
    simp only [hentered, frameOf, hvector v hv, x86ExceptionHandler]
    by_cases hirq : 32 ≤ v
    · rw [if_neg (by omega), dif_pos (by omega), dif_pos (by omega)]
    · rw [if_pos (by omega), dif_neg (by omega), if_pos (by omega)]
  · have hentered : entered v err = (13, some (BitVec.ofNat 32 (8 * v + 2))) :=
      if_neg fun h => hgate (hlimit.mp h)
    simp only [hentered, frameOf, hvector 13 (by decide), x86ExceptionHandler]
    rw [if_pos (by decide : 13 ≤ 31), dif_neg (by omega), if_neg (by omega)]

end Routines

/-! ## System calls -/

/-- The handlers of the kernel. -/
inductive KernelHandler where
  | sysTick
  | sysKey
  | sysMouse
  | pagingFault
  | syscall
deriving DecidableEq, Repr

open Routines

/-- The vector of a system call. -/
def syscallVector : Nat := 0x80

/-- **System calls are not served.**  Vector `0x80` has no gate, so `int $0x80` raises a
general protection fault; and `irq_register_handler` has no line for it, so no vector at
all leads to `syscall_handler`, whatever else is registered and cleared, as long as it
is registered with that number only. -/
theorem syscall_never_served {r r' : Routines KernelHandler} {cs : List (Call KernelHandler)}
    (hcalls : calls r cs = some r') (hstart : ∀ line, r line ≠ some .syscall)
    (honly : ∀ irq, Call.register irq (some .syscall) ∈ cs → irq = syscallVector)
    (s : Cpu) (k : KernelStack) (err : Option Word32) :
    interrupt r' s k syscallVector err = .exception 13 ∧
      ∀ v < 256, ∀ line, interrupt r' s k v err ≠ .routine line (some .syscall) := by
  have hroutine : ∀ line, r' line ≠ some .syscall := by
    intro line hline
    rw [calls_line hcalls, lastSet] at hline
    cases hfind : cs.reverse.findSome? (Call.sets line) with
    | none =>
      rw [hfind] at hline
      exact hstart line hline
    | some x =>
      rw [hfind] at hline
      obtain ⟨c, hmem, hsets⟩ := List.exists_of_findSome?_eq_some hfind
      obtain rfl : x = some .syscall := hline
      cases c with
      | register irq handler =>
        cases handler with
        | none => cases hsets
        | some h =>
          simp only [Call.sets, Option.ite_none_right_eq_some, Option.some.injEq] at hsets
          obtain ⟨hirq, rfl⟩ := hsets
          have honly' := honly irq (List.mem_reverse.mp hmem)
          unfold syscallVector at honly'
          omega
      | unregister irq =>
        simp [Call.sets] at hsets
  refine ⟨interrupt_eq r' s k (by decide) err, fun v hv line hline => ?_⟩
  rw [interrupt_eq r' s k hv err] at hline
  split_ifs at hline
  injection hline with hl hh
  exact hroutine _ hh

/-- What `kernel_main` registers. -/
def bootCalls : List (Call KernelHandler) :=
  [.register 14 (some .pagingFault), .register 0 (some .sysTick), .register 1 (some .sysKey),
    .register 0x80 (some .syscall)]

/-- A system call of the user code. -/
theorem userCode_call_not_served : ∃ r, calls (fun _ => none) bootCalls = some r ∧
    interrupt r userCode ⟨0x10#16, 0x9000#32⟩ 0x80 none = .exception 13 := by
  have hcalls : calls (fun _ => none) bootCalls = some _ := rfl
  exact ⟨_, hcalls, (syscall_never_served hcalls (by decide) (by simp [bootCalls, syscallVector])
    userCode ⟨0x10#16, 0x9000#32⟩ none).1⟩

end Irq
end Medusa
