import Mathlib.Data.List.Nodup
import Medusa.Machine.I386

/-!
# Making a system call

The routines of `syscall_helper.S` are C functions that pass their arguments in
registers: the number of the call in `eax`, the rest in registers of the caller, which are
saved on the stack meanwhile.  The four routines differ in these registers only.
-/

namespace Medusa
namespace Proc

open Machine

/-! ## The code -/

/-- Up to the interrupt. -/
def callEntry (saved : List Reg) : List Instr :=
  saved.map .push ++ loadOperands (saved.length + 1) (.eax :: saved)

def callExit (saved : List Reg) : List Instr := saved.reverse.map .pop ++ [.ret]

/-- The routine that saves the registers `saved`; `interrupt` is `int $0x80`. -/
def call (saved : List Reg) (interrupt : Cpu → Cpu) (s : Cpu) : Cpu :=
  run (interrupt (run s (callEntry saved))) (callExit saved)

def syscall : (Cpu → Cpu) → Cpu → Cpu := call []

def syscall1 : (Cpu → Cpu) → Cpu → Cpu := call [.ebx]

def syscall2 : (Cpu → Cpu) → Cpu → Cpu := call [.ebx, .ecx]

def syscall3 : (Cpu → Cpu) → Cpu → Cpu := call [.ebx, .ecx, .edx]

example : callEntry [.ebx, .ecx, .edx] = [.push .ebx, .push .ecx, .push .edx, .load 16 .esp .eax,
    .load 20 .esp .ebx, .load 24 .esp .ecx, .load 28 .esp .edx] := rfl

/-! ## What it does -/

section Call

variable {saved : List Reg} {s : Cpu} {sp : Nat} {ret : Word32} {args : List Word32}

/-- The argument that is passed in a register. -/
def passed (saved : List Reg) (args : List Word32) (r : Reg) : Word32 :=
  args.getD ((Reg.eax :: saved).idxOf r) 0

/-- A stack on which one of the routines is entered. -/
structure Entered (s : Cpu) (sp : Nat) (saved : List Reg) (ret : Word32) (args : List Word32) :
    Prop where
  top : Top s sp (ret :: args)
  count : args.length = saved.length + 1
  room : 4 * saved.length ≤ sp
  nodup : (Reg.eax :: saved).Nodup
  notStack : .esp ∉ Reg.eax :: saved

theorem Entered.passed_eq (h : Entered s sp saved ret args) {i : Nat} {r : Reg}
    (hi : (Reg.eax :: saved)[i]? = some r) : args[i]? = some (passed saved args r) := by
  obtain ⟨hlt, rfl⟩ := List.getElem?_eq_some_iff.mp hi
  have hidx : (Reg.eax :: saved).idxOf (Reg.eax :: saved)[i] = i := h.nodup.idxOf_getElem i hlt
  have hin : i < args.length := by
    rw [h.count]
    exact hlt
  rw [passed, hidx, List.getD_eq_getElem?_getD, List.getElem?_eq_getElem hin, Option.getD_some]

theorem Entered.saved_notStack (h : Entered s sp saved ret args) : .esp ∉ saved :=
  fun hin => h.notStack (List.mem_cons_of_mem _ hin)

/-- At the interrupt, the arguments are in the registers and the registers on the stack. -/
theorem run_callEntry (h : Entered s sp saved ret args) :
    let t := run s (callEntry saved)
    (∀ r, r ≠ .esp → t.reg r = if r ∈ Reg.eax :: saved then passed saved args r else s.reg r) ∧
      Top t (sp - 4 * saved.length) (saved.reverse.map s.reg ++ ret :: args) ∧
      t.seg = s.seg ∧ t.cr3 = s.cr3 ∧
      ∀ lo hi, hi ≤ sp - 4 * saved.length ∨ sp ≤ lo → Agree s.mem t.mem lo hi := by
  have hlen : (saved.map s.reg).length = saved.length := List.length_map s.reg
  have hpush := h.top.pushes (saved.map s.reg) (by rw [hlen]; exact h.room)
  have hmem := h.top.agree_pushes (saved.map s.reg) (by rw [hlen]; exact h.room)
  have hreg := fun r hr => s.pushes_reg (saved.map s.reg) (r := r) hr
  obtain ⟨hseg, -, -, hcr3⟩ := s.pushes_rest (saved.map s.reg)
  rw [hlen, ← List.map_reverse] at hpush
  rw [hlen] at hmem
  have hoperands : ∀ j r, (Reg.eax :: saved)[j]? = some r →
      (saved.reverse.map s.reg ++ ret :: args)[saved.length + 1 + j]? =
        some (passed saved args r) := by
    intro j r hj
    have hpast : (saved.reverse.map s.reg).length = saved.length := by simp
    rw [List.getElem?_append_right (by omega), hpast,
      show saved.length + 1 + j - saved.length = j + 1 by omega, List.getElem?_cons_succ]
    exact h.passed_eq hj
  obtain ⟨hloaded, htop⟩ := hpush.loads h.notStack hoperands
  have hrun : run s (callEntry saved) = run (s.pushes (saved.map s.reg))
      (loadOperands (saved.length + 1) (.eax :: saved)) := by
    rw [callEntry, run_append, run_pushes s h.saved_notStack]
  simp only [hrun]
  refine ⟨fun r hr => ?_, htop, hloaded.seg.trans hseg, hloaded.cr3.trans hcr3, ?_⟩
  · rw [hloaded.reg r hr, hreg r hr]
  · intro lo hi hout
    rw [hloaded.mem]
    exact hmem lo hi hout

theorem run_callExit {f : Reg → Word32} (h : Top s sp (saved.reverse.map f ++ ret :: args))
    (hesp : .esp ∉ saved) :
    let t := run s (callExit saved)
    (∀ r, r ≠ .esp → t.reg r = if r ∈ saved then f r else s.reg r) ∧
      t.reg .esp = BitVec.ofNat 32 (sp + 4 * saved.length + 4) ∧ t.eip = ret ∧ t.seg = s.seg ∧
      t.eflags = s.eflags ∧ t.cr3 = s.cr3 ∧ t.mem = s.mem := by
  obtain ⟨hloaded, htop⟩ := h.pops (by simpa using hesp)
  rw [List.length_reverse] at htop
  have hrun : run s (callExit saved) =
      (run s (saved.reverse.map .pop)).drop.setEip ret := by
    rw [callExit, run_append, run_cons, htop.ret]
    rfl
  simp only [hrun]
  refine ⟨fun r hr => ?_, htop.drop.esp, rfl, hloaded.seg, hloaded.eflags, hloaded.cr3,
    hloaded.mem⟩
  rw [Cpu.setEip_reg, Cpu.drop_reg, if_neg hr, hloaded.reg r hr]
  simp

/-- **A system call as a C function.**  At the interrupt, argument `i` of the call is in
register `i` of `eax` and the registers of the routine.  If the kernel comes back on the
same stack and has left the words that the routine keeps there, the caller goes on after
its call with its own registers again, whatever the kernel did with them, and the result
is what the kernel left in `eax`. -/
theorem call_returns {interrupt : Cpu → Cpu} (h : Entered s sp saved ret args)
    (hesp : (interrupt (run s (callEntry saved))).reg .esp = (run s (callEntry saved)).reg .esp)
    (hkept : Agree (run s (callEntry saved)).mem (interrupt (run s (callEntry saved))).mem
      (sp - 4 * saved.length) (sp + 4)) :
    let t := run s (callEntry saved)
    let u := call saved interrupt s
    (∀ (i : Nat) r, (Reg.eax :: saved)[i]? = some r → args[i]? = some (t.reg r)) ∧
      (∀ r ∈ saved, u.reg r = s.reg r) ∧
      (∀ r, r ∉ saved → r ≠ .esp → u.reg r = (interrupt t).reg r) ∧
      u.reg .esp = s.reg .esp + 4#32 ∧ u.eip = ret ∧ u.mem = (interrupt t).mem ∧
      ∀ lo hi, hi ≤ sp - 4 * saved.length ∨ sp ≤ lo → Agree s.mem t.mem lo hi := by
  obtain ⟨hreg, htop, -, -, hmem⟩ := run_callEntry h
  have hroom := h.room
  have hlast := h.top.room
  rw [List.length_cons] at hlast
  have hcount : (saved.reverse.map s.reg ++ [ret]).length = saved.length + 1 := by simp
  have hwords := htop.words
  rw [List.append_cons] at hwords
  have hback : Top (interrupt (run s (callEntry saved))) (sp - 4 * saved.length)
      (saved.reverse.map s.reg ++ [ret]) := by
    refine ⟨hesp.trans htop.esp, by rw [hcount]; omega, hwords.left.congr ?_⟩
    rw [hcount, show sp - 4 * saved.length + 4 * (saved.length + 1) = sp + 4 by omega]
    exact hkept
  obtain ⟨hreg', hesp', hip, -, -, -, hmem'⟩ := run_callExit hback h.saved_notStack
  refine ⟨fun i r hi => ?_, fun r hr => ?_, fun r hr hne => ?_, ?_, hip, hmem', hmem⟩
  · have hin : r ∈ Reg.eax :: saved := List.mem_of_getElem? hi
    have hne : r ≠ .esp := fun he => h.notStack (he ▸ hin)
    rw [hreg r hne, if_pos hin]
    exact h.passed_eq hi
  · have hne : r ≠ .esp := fun he => h.saved_notStack (he ▸ hr)
    exact (hreg' r hne).trans (if_pos hr)
  · exact (hreg' r hne).trans (if_neg hr)
  · refine hesp'.trans ?_
    rw [h.top.esp, ← BitVec.ofNat_add]
    congr 1
    omega

end Call

/-- A program about to write 3 bytes at `0x5000` to file 1. -/
def writing : Cpu where
  reg := fun r => if r = .esp then 0x7000 else 9
  seg := fun _ => 0x23
  eip := 0x400010
  eflags := 0x202
  cr3 := 0x9000
  mem := setFields (fun _ => 0) 0x7000 [(0, 0x400100), (4, 1), (8, 1), (12, 0x5000), (16, 3)]

/-- A kernel that answers 3 and uses registers for itself. -/
def threeWritten (c : Cpu) : Cpu := (c.setReg .eax 3).setReg .ebx 0

theorem writing_entered :
    Entered writing 0x7000 [.ebx, .ecx, .edx] 0x400100 [1, 1, 0x5000, 3] where
  top := ⟨rfl, by decide, by decide, by decide, by decide, by decide, by decide, trivial⟩
  count := rfl
  room := by decide
  nodup := by decide
  notStack := by decide

theorem writing_returns :
    (syscall3 threeWritten writing).reg .eax = 3 ∧
      (syscall3 threeWritten writing).reg .ebx = 9 := by
  have hesp : ∀ c, (threeWritten c).reg .esp = c.reg .esp := fun c => by simp [threeWritten]
  have hkept : ∀ c lo hi, Agree c.mem (threeWritten c).mem lo hi :=
    fun c lo hi => Agree.refl _ lo hi
  obtain ⟨-, hsaved, hresult, -⟩ := call_returns writing_entered (hesp _) (hkept _ _ _)
  refine ⟨(hresult .eax (by decide) (by decide)).trans ?_, hsaved .ebx (by decide)⟩
  simp [threeWritten]

end Proc
end Medusa
