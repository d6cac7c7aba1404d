import Medusa.Machine.Interrupts

/-!
# Entering user code

`enter_user_jmp` of `usermode.c` pushes the arguments of a C function, a magic number in
the place of its return address, and the words for an `iret` to user code.  So the
location it jumps to must be a function.  `_start` of `crt0.S` is not one: it calls
`main` on the stack it is entered with, and the call pushes a return address of its own.
-/

namespace Medusa
namespace Proc

open Machine

/-! ## The code -/

/-- The word that stands for a return address. -/
def magic : Word32 := 0xDECADE21

def userCodeSelector : Word32 := 0x1B

def userDataSelector : Word32 := 0x23

/-- The macro `PUSH`. -/
def pushArgument (s : Cpu) (stack item : Word32) : Cpu × Word32 :=
  (s.withMem (setWord s.mem (stack - 4#32).toNat item), stack - 4#32)

/-- The assembly of `enter_user_jmp`, up to `iret`; `location` is read from the frame of
the C function, which the code does not leave. -/
def enterCode (location : Word32) : List Instr :=
  [.pushImm magic, .movImm16 0x23 .eax, .movSeg .eax .ds, .movSeg .eax .es, .movSeg .eax .fs,
    .movSeg .eax .gs, .mov .esp .eax, .pushImm userDataSelector, .push .eax, .pushf, .pop .eax,
    .orImm 0x200 .eax, .push .eax, .pushImm userCodeSelector, .pushImm location]

def enterUserJmp (s : Cpu) (location argc argv stack : Word32) : Cpu :=
  let (s, stack) := pushArgument s stack argv
  let (s, stack) := pushArgument s stack argc
  (run (s.setReg .esp stack) (enterCode location)).iret

/-- `_start`: the only instruction left in it. -/
def start (s : Cpu) (main ret : Word32) : Cpu := (s.push ret).setEip main

/-- An argument of a C function, where the function finds it when it is entered. -/
def argument (s : Cpu) (i : Nat) : Word32 := word s.mem ((s.reg .esp).toNat + 4 + 4 * i)

/-! ## The stack of the new program -/

section

variable {s : Cpu} {sp : Nat} {ws : List Word32}

theorem argument_eq {ret w : Word32} (h : Top s sp (ret :: ws)) {i : Nat} (hi : ws[i]? = some w) :
    argument s i = w := by
  rw [argument, h.esp_toNat]
  exact h.words.2.get hi

/-- The macro pushes. -/
theorem pushArguments_eq (s : Cpu) (argc argv stack : Word32) :
    let t := pushArgument (pushArgument s stack argv).1 (pushArgument s stack argv).2 argc
    t.1.setReg .esp t.2 = (s.setReg .esp stack).pushes [argv, argc] := by
  simp [pushArgument, Cpu.pushes, Cpu.push, Cpu.setReg, Cpu.withMem]

/-- What the assembly leaves for `iret`. -/
theorem run_enterCode (h : Top s sp ws) (hsp : 24 ≤ sp) (location : Word32) :
    let t := run s (enterCode location)
    Top t (sp - 24) (location :: userCodeSelector :: (s.eflags ||| 0x200) ::
        BitVec.ofNat 32 (sp - 4) :: userDataSelector :: magic :: ws) ∧
      (∀ r, r ≠ .esp → r ≠ .eax → t.reg r = s.reg r) ∧ t.reg .eax = s.eflags ||| 0x200 ∧
      (∀ r, t.seg r = if r = .cs ∨ r = .ss then s.seg r else 0x23) ∧ t.cr3 = s.cr3 ∧
      ∀ lo hi, hi ≤ sp - 24 ∨ sp ≤ lo → Agree s.mem t.mem lo hi := by
  have hmagic := h.push (by omega) magic
  -- the data segments, and the stack pointer for the user
  obtain ⟨b, hb⟩ : ∃ b, b = run (s.push magic) [.movImm16 0x23 .eax, .movSeg .eax .ds,
    .movSeg .eax .es, .movSeg .eax .fs, .movSeg .eax .gs, .mov .esp .eax] := ⟨_, rfl⟩
  have hbtop := hmagic.of_eq (t := b) (by rw [hb]; simp [run, exec]) (by rw [hb]; simp [run, exec])
  have hbeax : b.reg .eax = BitVec.ofNat 32 (sp - 4) := by
    rw [hb, ← hmagic.esp]
    simp [run, exec]
  have hbflags : b.eflags = s.eflags := by rw [hb]; rfl
  have hbseg : ∀ r, b.seg r = if r = .cs ∨ r = .ss then s.seg r else 0x23 := by
    have hlow : (((s.reg .eax).extractLsb' 16 16 ++ 0x23#16 : Word32)).setWidth 16 = 0x23#16 :=
      BitVec.setWidth_append_eq_right
    intro r
    rw [hb]
    cases r <;> simp [run, exec, hlow]
  have hframe := hbtop.pushes [userDataSelector, BitVec.ofNat 32 (sp - 4), s.eflags]
    (by simp; omega)
  -- the flags are taken from the stack and put back with interrupts on
  obtain ⟨c, hc⟩ : ∃ c, c = b.pushes [userDataSelector, BitVec.ofNat 32 (sp - 4), s.eflags] :=
    ⟨_, rfl⟩
  rw [← hc] at hframe
  obtain ⟨hpop, hpoptop⟩ := hframe.pop (r := .eax) (by decide)
  obtain ⟨d, hd⟩ : ∃ d, d = exec (exec c (.pop .eax)) (.orImm 0x200 .eax) := ⟨_, rfl⟩
  have hdtop := hpoptop.of_eq (t := d) (by rw [hd]; simp [exec]) (by rw [hd]; simp [exec])
  have hdeax : d.reg .eax = s.eflags ||| 0x200 := by
    rw [hd, hpop]
    simp [exec]
  have hend := hdtop.pushes [s.eflags ||| 0x200, userCodeSelector, location] (by simp; omega)
  have hrun : run s (enterCode location) =
      d.pushes [s.eflags ||| 0x200, userCodeSelector, location] := by
    rw [← hdeax, hd, hc, ← hbeax, ← hbflags, hb]
    rfl
  have hcrest := b.pushes_rest [userDataSelector, BitVec.ofNat 32 (sp - 4), s.eflags]
  have hdrest := d.pushes_rest [s.eflags ||| 0x200, userCodeSelector, location]
  have hbreg : ∀ r, r ≠ .esp → r ≠ .eax → b.reg r = s.reg r := by
    intro r hesp heax
    rw [hb]
    simp [run, exec, hesp, heax]
  have hcr3 : d.cr3 = s.cr3 := by
    rw [hd, hc]
    exact hcrest.2.2.2.trans (by rw [hb]; rfl)
  have hdseg : d.seg = b.seg := by
    rw [hd, hc]
    exact hcrest.1
  have hdmem : d.mem = c.mem := by rw [hd]; rfl
  simp only [hrun]
  refine ⟨?_, ?_, ?_, ?_, ?_, ?_⟩
  · have hsp' : sp - 4 - 4 * 3 + 4 - 4 * 3 = sp - 24 := by omega
    simpa [hsp'] using hend
  · intro r hesp heax
    rw [Cpu.pushes_reg _ _ hesp, hd]
    simp only [exec, Cpu.setReg_reg, Cpu.drop_reg, if_neg hesp, if_neg heax]
    rw [hc, Cpu.pushes_reg _ _ hesp, hbreg r hesp heax]
  · rw [Cpu.pushes_reg _ _ (by decide), hdeax]
  · intro r
    rw [hdrest.1, hdseg, hbseg]
  · rw [hdrest.2.2.2, hcr3]
  · intro lo hi hout
    have hpush : Agree s.mem b.mem lo hi := by
      rw [show b.mem = (s.push magic).mem by rw [hb]; rfl, h.push_mem (by omega)]
      exact agree_setWord (by omega)
    have hsave := hbtop.agree_pushes [userDataSelector, BitVec.ofNat 32 (sp - 4), s.eflags]
      (by simp; omega) lo hi (by simp; omega)
    have hlast := hdtop.agree_pushes [s.eflags ||| 0x200, userCodeSelector, location]
      (by simp; omega) lo hi (by simp; omega)
    rw [← hc, ← hdmem] at hsave
    exact (hpush.trans hsave).trans hlast

/-- The processor that user code starts with: its stack holds the magic number and the two
arguments, and nothing else of the memory above has changed. -/
theorem enterUserJmp_eq (location argc argv : Word32) {stack : Word32} (hstack : 32 ≤ stack.toNat) :
    let t := enterUserJmp s location argc argv stack
    Top t (stack.toNat - 12) [magic, argc, argv] ∧ t.eip = location ∧
      t.eflags = s.eflags ||| 0x200 ∧ (∀ r, t.seg r = if r = .cs then 0x1B else 0x23) ∧
      (∀ r, r ≠ .esp → r ≠ .eax → t.reg r = s.reg r) ∧ t.cr3 = s.cr3 ∧
      ∀ lo hi, hi ≤ stack.toNat - 32 ∨ stack.toNat ≤ lo → Agree s.mem t.mem lo hi := by
  have hempty := top_empty (s.setReg .esp stack)
  rw [Cpu.setReg_reg, if_pos rfl] at hempty
  have hargs := hempty.pushes [argv, argc] (by simp; omega)
  have hmem := hempty.agree_pushes [argv, argc] (by simp; omega)
  have hreg := fun r hr => (s.setReg .esp stack).pushes_reg [argv, argc] (r := r) hr
  obtain ⟨hseg, -, hflags, hcr3⟩ := (s.setReg .esp stack).pushes_rest [argv, argc]
  have hcode : enterUserJmp s location argc argv stack =
      (run ((s.setReg .esp stack).pushes [argv, argc]) (enterCode location)).iret := by
    rw [← pushArguments_eq]
    rfl
  simp only [hcode]
  generalize (s.setReg .esp stack).pushes [argv, argc] = u at *
  simp only [List.length_cons, List.length_nil, List.reverse_cons, List.reverse_nil,
    List.nil_append, List.cons_append] at hargs hmem
  obtain ⟨htop, hkept, -, hsegs, hcr3', hagree⟩ := run_enterCode hargs (by omega) location
  obtain ⟨hreg', hesp, hip, hfl, hseg', hcr3'', hmem'⟩ := iret_user htop (by decide)
  generalize run u (enterCode location) = w at *
  refine ⟨⟨?_, ?_, ?_⟩, hip, ?_, ?_, ?_, ?_, ?_⟩
  · rw [hesp]
    congr 1
  · simp
    omega
  · -- the three words lie above those that `iret` took
    have hthree := htop.words.2.2.2.2.2
    rw [hmem']
    have hbase : stack.toNat - 4 * (0 + 1 + 1) - 24 + 4 + 4 + 4 + 4 + 4 = stack.toNat - 12 := by
      omega
    rw [hbase] at hthree
    exact hthree
  · rw [hfl, hflags, Cpu.setReg_eflags]
  · intro r
    rw [hseg', hsegs]
    cases r <;> simp [userDataSelector, userCodeSelector]
  · intro r hesp' heax
    rw [hreg' r hesp', hkept r hesp' heax, hreg r hesp', Cpu.setReg_reg, if_neg hesp']
  · rw [hcr3'', hcr3', hcr3, Cpu.setReg_cr3]
  · intro lo hi hout
    rw [hmem']
    exact (hmem lo hi (by omega)).trans (hagree lo hi (by omega))

/-- **The entry of a user program.**  `enter_user_jmp` starts user code with interrupts on,
in the user segments, on the new stack.  A C function at `location` finds `argc` and
`argv` as its arguments.  If `_start` is there, `main` finds the magic number as its first
argument and `argc` as its second: one word too many lies between. -/
theorem enterUserJmp_arguments (location argc argv main ret : Word32) {stack : Word32}
    (hstack : 32 ≤ stack.toNat) :
    let t := enterUserJmp s location argc argv stack
    t.userMode ∧ t.eip = location ∧ t.eflags &&& Cpu.interruptFlag ≠ 0 ∧
      (t.reg .esp).toNat = stack.toNat - 12 ∧ argument t 0 = argc ∧ argument t 1 = argv ∧
      (start t main ret).eip = main ∧ argument (start t main ret) 0 = magic ∧
      argument (start t main ret) 1 = argc ∧
      (∀ lo hi, hi ≤ stack.toNat - 32 ∨ stack.toNat ≤ lo → Agree s.mem t.mem lo hi) := by
  obtain ⟨htop, hip, hfl, hseg, -, -, hmem⟩ := enterUserJmp_eq (s := s) location argc argv hstack
  have hcall := htop.push (by omega) ret
  have hmain : Top (start (enterUserJmp s location argc argv stack) main ret)
      (stack.toNat - 12 - 4) [ret, magic, argc, argv] := hcall.of_eq rfl rfl
  refine ⟨?_, hip, ?_, htop.esp_toNat, argument_eq htop rfl, argument_eq htop rfl, rfl,
    argument_eq hmain rfl, argument_eq hmain rfl, hmem⟩
  · unfold Cpu.userMode
    rw [hseg, if_pos rfl]
    decide
  · have hbit : (s.eflags ||| 0x200) &&& Cpu.interruptFlag = Cpu.interruptFlag := by
      unfold Cpu.interruptFlag
      apply BitVec.eq_of_getLsbD_eq
      intro i hi
      simpa using Or.inr
    rw [hfl, hbit]
    decide

end

/-- Kernel code about to start a program. -/
def loading : Cpu where
  reg := fun r => if r = .esp then 0x9000 else 0
  seg := fun r => if r = .cs then 0x8 else 0x10
  eip := 0x100000
  eflags := 0x2
  cr3 := 0xA000
  mem := fun _ => 0

/-- `main` is not told that there are two arguments. -/
theorem loading_arguments :
    argument (start (enterUserJmp loading 0x400000 2 0x5000 0xC0000000) 0x400100 0x400005) 0 =
      0xDECADE21 :=
  (enterUserJmp_arguments 0x400000 2 0x5000 0x400100 0x400005 (by decide)).2.2.2.2.2.2.2.1

end Proc
end Medusa
