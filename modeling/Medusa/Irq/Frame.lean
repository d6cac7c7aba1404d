import Medusa.Machine.Interleaving
import Medusa.Machine.Interrupts

/-!
# The frame of an interrupt

The stubs and `interrupt_common` of `descriptor_tables_asm.S`.  A stub completes what
the processor pushed to a vector and an error code, the common part pushes the rest
of the registers and passes a pointer to the whole to `x86_exception_handler`, which
knows it as `registers_t`.  When the handler returns everything is popped again, so a
handler that leaves the frame alone is not noticed by the code it interrupts, and one
that writes to the frame changes exactly the registers it wrote.
-/

namespace Medusa
namespace Irq

open Machine

/-- `registers_t`, without the two words that only an interrupt from user code has. -/
structure Registers where
  edi : Word32
  esi : Word32
  ebp : Word32
  esp : Word32
  ebx : Word32
  edx : Word32
  ecx : Word32
  eax : Word32
  ds : Word32
  es : Word32
  fs : Word32
  gs : Word32
  vector : Word32
  errCode : Word32
  ip : Word32
  cs : Word32
  flags : Word32
deriving DecidableEq, Repr

def Registers.words (f : Registers) : List Word32 :=
  [f.edi, f.esi, f.ebp, f.esp, f.ebx, f.edx, f.ecx, f.eax, f.ds, f.es, f.fs, f.gs, f.vector,
    f.errCode, f.ip, f.cs, f.flags]

/-! ## The code -/

/-- The vectors for which the stubs expect the processor to have pushed an error code. -/
def hasErrorCode (i : Nat) : Bool := i == 8 || (10 ≤ i && i ≤ 14) || i == 17

/-- The stub of vector `i`, up to its jump. -/
def isrStub (i : Nat) : List Instr :=
  if hasErrorCode i then [.pushImm (BitVec.ofNat 32 i)]
  else [.pushImm 0#32, .pushImm (BitVec.ofNat 32 i)]

def dataSelector : Word32 := 0x10#32

/-- `interrupt_common` up to its call. -/
def interruptEntry : List Instr :=
  [.pushSeg .gs, .pushSeg .fs, .pushSeg .es, .pushSeg .ds, .pusha,
   .movImm dataSelector .eax, .movSeg .eax .gs, .movSeg .eax .fs, .movSeg .eax .es,
   .movSeg .eax .ds, .mov .esp .eax, .push .eax]

/-- `interrupt_common` behind its call, up to `iret`. -/
def interruptExit : List Instr :=
  [.pop .eax, .popa, .popSeg .ds, .popSeg .es, .popSeg .fs, .popSeg .gs, .addImm 8#32 .esp]

/-- The processor when it calls `x86_exception_handler` for vector `v`. -/
def enter (s : Cpu) (k : KernelStack) (v : Nat) (err : Option Word32) : Cpu :=
  run (run (s.deliver k err) (isrStub v)) interruptEntry

/-- An interrupt, with the handler as a whole. -/
def serve (handler : Cpu → Cpu) (s : Cpu) (k : KernelStack) (v : Nat) (err : Option Word32) : Cpu :=
  (run (handler (enter s k v err)) interruptExit).iret

/-! ## Entry -/

section Enter

variable {s : Cpu} {k : KernelStack} {v : Nat} {err : Option Word32}

/-- Where the frame starts. -/
def frameBase (s : Cpu) (k : KernelStack) : Nat :=
  stackBase s k - 4 * (14 + (returnWords s).length)

/-- The frame of an interrupt: the registers of the code that was interrupted. -/
def frameOf (s : Cpu) (k : KernelStack) (v : Nat) (err : Option Word32) : Registers where
  edi := s.reg .edi
  esi := s.reg .esi
  ebp := s.reg .ebp
  esp := BitVec.ofNat 32 (frameBase s k + 32)
  ebx := s.reg .ebx
  edx := s.reg .edx
  ecx := s.reg .ecx
  eax := s.reg .eax
  ds := (s.seg .ds).setWidth 32
  es := (s.seg .es).setWidth 32
  fs := (s.seg .fs).setWidth 32
  gs := (s.seg .gs).setWidth 32
  vector := BitVec.ofNat 32 v
  errCode := err.getD 0#32
  ip := s.eip
  cs := (s.seg .cs).setWidth 32
  flags := s.eflags

/-- The stack of the code that was interrupted, if it was user code. -/
def userWords (s : Cpu) : List Word32 :=
  if s.userMode then [s.reg .esp, (s.seg .ss).setWidth 32] else []

theorem returnWords_eq (s : Cpu) :
    returnWords s = [s.eip, (s.seg .cs).setWidth 32, s.eflags] ++ userWords s := rfl

theorem returnWords_length (s : Cpu) : (returnWords s).length ≤ 5 := by
  unfold returnWords
  split_ifs <;> simp

/-- The words that the stub pushes. -/
def stubWords (v : Nat) : Option Word32 → List Word32
  | none => [0#32, BitVec.ofNat 32 v]
  | some _ => [BitVec.ofNat 32 v]

theorem run_isrStub_eq (t : Cpu) (herr : err.isSome = hasErrorCode v) :
    run t (isrStub v) = t.pushes (stubWords v err) := by
  unfold isrStub
  rw [← herr]
  cases err <;> rfl

/-- With the stub every frame has a vector and an error code. -/
theorem run_isrStub (hroom : 32 ≤ stackBase s k) (herr : err.isSome = hasErrorCode v) :
    let t := run (s.deliver k err) (isrStub v)
    Top t (stackBase s k - 4 * (2 + (returnWords s).length))
        (BitVec.ofNat 32 v :: err.getD 0#32 :: returnWords s) ∧
      (∀ lo hi, hi ≤ stackBase s k - 4 * (2 + (returnWords s).length) ∨ stackBase s k ≤ lo →
        Agree s.mem t.mem lo hi) ∧
      (∀ r, r ≠ .esp → t.reg r = s.reg r) ∧
      (∀ r, r ≠ .cs → r ≠ .ss → t.seg r = s.seg r) := by
  have hlen := returnWords_length s
  obtain ⟨htop, hagree⟩ := deliver_top err (by omega : 24 ≤ stackBase s k)
  obtain ⟨hreg, hseg, -⟩ := deliver_keeps s k err
  have hcount : (err.toList ++ returnWords s).length + (stubWords v err).length =
      2 + (returnWords s).length := by
    cases err <;> simp [stubWords] <;> omega
  have hwords : (stubWords v err).reverse ++ (err.toList ++ returnWords s) =
      BitVec.ofNat 32 v :: err.getD 0#32 :: returnWords s := by
    cases err <;> rfl
  have hpush := htop.pushes (stubWords v err) (by omega)
  rw [hwords, Nat.sub_sub, ← Nat.mul_add, hcount] at hpush
  have hseg' := ((s.deliver k err).pushes_rest (stubWords v err)).1
  simp only [run_isrStub_eq _ herr]
  refine ⟨hpush, fun lo hi hout => ?_, fun r hr => ?_, fun r hcs hss => ?_⟩
  · exact (hagree lo hi (by omega)).trans
      (htop.agree_pushes _ (by omega) lo hi (by rw [Nat.sub_sub, ← Nat.mul_add, hcount]; omega))
  · rw [Cpu.pushes_reg _ _ hr, hreg r hr]
  · rw [hseg', hseg r hcs hss]

/-- The common part pushes the rest of the frame and a pointer to it. -/
theorem run_interruptEntry {t : Cpu} {sp : Nat} {ws : List Word32} (h : Top t sp ws)
    (hsp : 52 ≤ sp) :
    let u := run t interruptEntry
    Top u (sp - 52) ([BitVec.ofNat 32 (sp - 48), t.reg .edi, t.reg .esi, t.reg .ebp,
        BitVec.ofNat 32 (sp - 16), t.reg .ebx, t.reg .edx, t.reg .ecx, t.reg .eax,
        (t.seg .ds).setWidth 32, (t.seg .es).setWidth 32, (t.seg .fs).setWidth 32,
        (t.seg .gs).setWidth 32] ++ ws) ∧
      (∀ lo hi, hi ≤ sp - 52 ∨ sp ≤ lo → Agree t.mem u.mem lo hi) ∧
      u.seg .cs = t.seg .cs ∧ u.seg .ss = t.seg .ss := by
  obtain ⟨a, ha⟩ : ∃ a, a = t.pushes [(t.seg .gs).setWidth 32, (t.seg .fs).setWidth 32,
    (t.seg .es).setWidth 32, (t.seg .ds).setWidth 32] := ⟨_, rfl⟩
  have hatop : Top a (sp - 16) ((t.seg .ds).setWidth 32 :: (t.seg .es).setWidth 32 ::
      (t.seg .fs).setWidth 32 :: (t.seg .gs).setWidth 32 :: ws) := by
    rw [ha]
    exact h.pushes [_, _, _, _] (by simp; omega)
  have hareg : ∀ r, r ≠ .esp → a.reg r = t.reg r := fun r hr => by rw [ha, Cpu.pushes_reg _ _ hr]
  obtain ⟨b, hb⟩ : ∃ b, b = a.pushes (Cpu.pushaOrder.map a.reg) := ⟨_, rfl⟩
  have hbtop : Top b (sp - 48) ([t.reg .edi, t.reg .esi, t.reg .ebp, BitVec.ofNat 32 (sp - 16),
      t.reg .ebx, t.reg .edx, t.reg .ecx, t.reg .eax, (t.seg .ds).setWidth 32,
      (t.seg .es).setWidth 32, (t.seg .fs).setWidth 32, (t.seg .gs).setWidth 32] ++ ws) := by
    have hpusha := hatop.pushes (Cpu.pushaOrder.map a.reg) (by simp [Cpu.pushaOrder]; omega)
    rw [← hb] at hpusha
    simpa [Cpu.pushaOrder, hareg, hatop.esp, Nat.sub_sub] using hpusha
  -- the segments are loaded and the pointer is taken; the stack does not change
  obtain ⟨c, hc⟩ : ∃ c, c = run b [.movImm dataSelector .eax, .movSeg .eax .gs, .movSeg .eax .fs,
    .movSeg .eax .es, .movSeg .eax .ds, .mov .esp .eax] := ⟨_, rfl⟩
  have hctop := hbtop.of_eq (t := c) (by rw [hc]; simp [run, exec]) (by rw [hc]; simp [run, exec])
  have heax : c.reg .eax = BitVec.ofNat 32 (sp - 48) := by
    rw [hc, ← hbtop.esp]
    simp [run, exec]
  have hrun : run t interruptEntry = c.push (BitVec.ofNat 32 (sp - 48)) := by
    rw [← heax, hc, hb, ha]
    rfl
  simp only [hrun]
  refine ⟨?_, fun lo hi hout => ?_, ?_, ?_⟩
  · have hpush := hctop.push (by omega) (BitVec.ofNat 32 (sp - 48))
    rw [Nat.sub_sub] at hpush
    exact hpush
  · have h1 := h.agree_pushes [(t.seg .gs).setWidth 32, (t.seg .fs).setWidth 32,
      (t.seg .es).setWidth 32, (t.seg .ds).setWidth 32] (by simp; omega) lo hi
      (by simp; omega)
    have h2 := hatop.agree_pushes (Cpu.pushaOrder.map a.reg) (by simp [Cpu.pushaOrder]; omega)
      lo hi (by simp [Cpu.pushaOrder]; omega)
    rw [← ha] at h1
    rw [← hb] at h2
    rw [hctop.push_mem (by omega), show c.mem = b.mem by rw [hc]; simp [run, exec]]
    exact (h1.trans h2).trans (agree_setWord (by omega))
  · rw [Cpu.push_seg, hc]
    simp [run, exec, hb, ha, ((Cpu.pushes_rest _ _).1)]
  · rw [Cpu.push_seg, hc]
    simp [run, exec, hb, ha, ((Cpu.pushes_rest _ _).1)]

theorem enter_cr3 : (enter s k v err).cr3 = s.cr3 := by
  unfold enter
  rw [run_cr3 _ (by simp [interruptEntry]), run_cr3 _ (by unfold isrStub; split_ifs <;> simp)]
  exact (deliver_keeps s k err).2.2

/-- An interrupt of kernel code stays on its stack. -/
theorem enter_ss (huser : ¬ s.userMode) : (enter s k v err).seg .ss = s.seg .ss := by
  have hcode : ∀ d, (run (run d (isrStub v)) interruptEntry).seg .ss = d.seg .ss := fun d => by
    unfold isrStub
    split_ifs
    · rfl
    · rfl
  have hbase : s.onBase k = s := if_neg huser
  rw [enter, hcode, deliver_eq, hbase]
  exact congrFun (s.pushes_rest _).1 .ss

/-- **What the handler is given**: a pointer to the registers of the code that was
interrupted, with the vector of the stub and the error code of the processor or zero. -/
theorem enter_frame (hroom : 80 ≤ stackBase s k) (herr : err.isSome = hasErrorCode v) :
    Top (enter s k v err) (frameBase s k - 4)
        (BitVec.ofNat 32 (frameBase s k) :: (frameOf s k v err).words ++ userWords s) ∧
      (∀ lo hi, hi ≤ frameBase s k - 4 ∨ stackBase s k ≤ lo →
        Agree s.mem (enter s k v err).mem lo hi) := by
  have hlen := returnWords_length s
  obtain ⟨hstub, hagree, hreg, hseg⟩ := run_isrStub (by omega : 32 ≤ stackBase s k) herr
  obtain ⟨hentry, hagree', -, -⟩ := run_interruptEntry hstub (by omega)
  have hbase : stackBase s k - 4 * (2 + (returnWords s).length) - 48 = frameBase s k := by
    unfold frameBase
    omega
  have hesp : stackBase s k - 4 * (2 + (returnWords s).length) - 16 = frameBase s k + 32 := by
    unfold frameBase
    omega
  have hsp : stackBase s k - 4 * (2 + (returnWords s).length) - 52 = frameBase s k - 4 := by
    unfold frameBase
    omega
  rw [hbase, hesp, hsp] at hentry
  rw [hsp] at hagree'
  refine ⟨?_, fun lo hi hout => (hagree lo hi (by omega)).trans (hagree' lo hi (by omega))⟩
  simpa [Registers.words, frameOf, returnWords_eq, hreg, hseg, enter] using hentry

end Enter

/-! ## Return -/

section Return

variable {u : Cpu} {sp : Nat} {ws : List Word32} {ptr : Word32} {f : Registers}

/-- The exit code loads the registers of the frame. -/
theorem run_interruptExit (h : Top u sp (ptr :: f.words ++ ws)) :
    let w := run u interruptExit
    Top w (sp + 60) (f.ip :: f.cs :: f.flags :: ws) ∧
      (w.reg .edi = f.edi ∧ w.reg .esi = f.esi ∧ w.reg .ebp = f.ebp ∧ w.reg .ebx = f.ebx ∧
        w.reg .edx = f.edx ∧ w.reg .ecx = f.ecx ∧ w.reg .eax = f.eax) ∧
      (w.seg .ds = f.ds.setWidth 16 ∧ w.seg .es = f.es.setWidth 16 ∧ w.seg .fs = f.fs.setWidth 16 ∧
        w.seg .gs = f.gs.setWidth 16) ∧
      w.seg .ss = u.seg .ss ∧ w.seg .cs = u.seg .cs ∧ w.mem = u.mem := by
  obtain ⟨hp, h1⟩ := h.pop (r := .eax) (by decide)
  obtain ⟨h2, hdi, hsi, hbp, hbx, hdx, hcx, hax, hseg, -, hmem⟩ := h1.popa
  obtain ⟨hds, h3⟩ := h2.popSeg .ds
  obtain ⟨hes, h4⟩ := h3.popSeg .es
  obtain ⟨hfs, h5⟩ := h4.popSeg .fs
  obtain ⟨hgs, h6⟩ := h5.popSeg .gs
  obtain ⟨hadd, h7⟩ := h6.addEsp
  have hrun : run u interruptExit = exec (exec (exec (exec (exec (exec (exec u (.pop .eax)) .popa)
      (.popSeg .ds)) (.popSeg .es)) (.popSeg .fs)) (.popSeg .gs)) (.addImm 8#32 .esp) := rfl
  have hseg' : (exec (exec u (.pop .eax)) .popa).seg = u.seg := by rw [hseg, hp]; simp
  have hmem' : (exec (exec u (.pop .eax)) .popa).mem = u.mem := by rw [hmem, hp]; simp
  simp only [hrun]
  refine ⟨by simpa [Nat.add_assoc] using h7, ?_, ?_, ?_, ?_, ?_⟩
  · rw [hadd, hgs, hfs, hes, hds]
    simp [hdi, hsi, hbp, hbx, hdx, hcx, hax]
  · rw [hadd, hgs, hfs, hes, hds]
    simp
  · rw [hadd, hgs, hfs, hes, hds]
    simp [hseg']
  · rw [hadd, hgs, hfs, hes, hds]
    simp [hseg']
  · rw [hadd, hgs, hfs, hes, hds]
    simp [hmem']

/-- **Interrupts resume from their frame.**  If the handler leaves the registers `f` in
the frame and keeps its stack pointer, the code that was interrupted goes on with the
registers, flags and instruction pointer of `f`, and on its own stack. -/
theorem serve_resumes {handler : Cpu → Cpu} {s : Cpu} {k : KernelStack} {v : Nat}
    {err : Option Word32} (hroom : 80 ≤ stackBase s k)
    (hreturn : Top (handler (enter s k v err)) (frameBase s k - 4)
      (ptr :: f.words ++ userWords s))
    (hss : ¬ s.userMode → (handler (enter s k v err)).seg .ss = s.seg .ss)
    (hcs : f.cs = (s.seg .cs).setWidth 32) :
    let t := serve handler s k v err
    (t.reg .edi = f.edi ∧ t.reg .esi = f.esi ∧ t.reg .ebp = f.ebp ∧ t.reg .ebx = f.ebx ∧
      t.reg .edx = f.edx ∧ t.reg .ecx = f.ecx ∧ t.reg .eax = f.eax) ∧
      t.reg .esp = s.reg .esp ∧
      (t.seg .ds = f.ds.setWidth 16 ∧ t.seg .es = f.es.setWidth 16 ∧ t.seg .fs = f.fs.setWidth 16 ∧
        t.seg .gs = f.gs.setWidth 16) ∧
      t.seg .ss = s.seg .ss ∧ t.seg .cs = s.seg .cs ∧ t.eip = f.ip ∧ t.eflags = f.flags ∧
      t.mem = (handler (enter s k v err)).mem := by
  have hlen := returnWords_length s
  have hselector : f.cs.setWidth 16 = s.seg .cs := by
    rw [hcs]
    simp
  obtain ⟨htop, ⟨hdi, hsi, hbp, hbx, hdx, hcx, hax⟩, ⟨hds, hes, hfs, hgs⟩, hss', hcs', hmem⟩ :=
    run_interruptExit hreturn
  simp only [serve]
  generalize run (handler (enter s k v err)) interruptExit = w at *
  by_cases huser : s.userMode
  · rw [userWords, if_pos huser] at htop
    obtain ⟨hreg, hesp, hip, hfl, hseg, -, hmem'⟩ := iret_user htop (by rw [hselector]; exact huser)
    simp [hreg, hdi, hsi, hbp, hbx, hdx, hcx, hax, hesp, hip, hfl, hseg, hds, hes, hfs, hgs, hmem',
      hmem, hselector]
  · rw [userWords, if_neg huser] at htop
    obtain ⟨hreg, hesp, hip, hfl, hseg, -, hmem'⟩ := iret_kernel htop
      (by rw [hselector]; exact not_not.mp huser)
    have hback : frameBase s k - 4 + 60 + 12 = (s.reg .esp).toNat := by
      rw [stackBase, if_neg huser] at hroom
      unfold frameBase stackBase returnWords
      rw [if_neg huser, if_neg huser]
      simp
      omega
    rw [hback] at hesp
    simp [hreg, hdi, hsi, hbp, hbx, hdx, hcx, hax, hesp, hip, hfl, hseg, hds, hes, hfs, hgs, hmem',
      hmem, hselector, hss', hss huser]

/-- A handler that returns on its stack and leaves the frame alone changes no register. -/
theorem serve_keeps {handler : Cpu → Cpu} {s : Cpu} {k : KernelStack} {v : Nat}
    {err : Option Word32} (hroom : 80 ≤ stackBase s k) (herr : err.isSome = hasErrorCode v)
    (hesp : (handler (enter s k v err)).reg .esp = (enter s k v err).reg .esp)
    (hss : ¬ s.userMode → (handler (enter s k v err)).seg .ss = s.seg .ss)
    (hframe : Agree (enter s k v err).mem (handler (enter s k v err)).mem (frameBase s k)
      (stackBase s k)) :
    let t := serve handler s k v err
    t.reg = s.reg ∧ t.seg = s.seg ∧ t.eip = s.eip ∧ t.eflags = s.eflags ∧
      t.cr3 = (handler (enter s k v err)).cr3 ∧ t.mem = (handler (enter s k v err)).mem := by
  have hlen := returnWords_length s
  obtain ⟨htop, -⟩ := enter_frame hroom herr
  have hcount :
      ((frameOf s k v err).words ++ userWords s).length = 14 + (returnWords s).length := by
    rw [returnWords_eq]
    simp [Registers.words]
    omega
  have hend : frameBase s k - 4 + 4 + 4 * ((frameOf s k v err).words ++ userWords s).length =
      stackBase s k := by
    rw [hcount]
    unfold frameBase
    omega
  have hreturn : Top (handler (enter s k v err)) (frameBase s k - 4)
      (word (handler (enter s k v err)).mem (frameBase s k - 4) ::
        (frameOf s k v err).words ++ userWords s) := by
    refine ⟨hesp.trans htop.esp, htop.room, rfl, ?_⟩
    apply htop.words.2.congr
    rw [List.append_eq, hend]
    exact hframe.mono (by unfold frameBase; omega) (Nat.le_refl _)
  obtain ⟨⟨hdi, hsi, hbp, hbx, hdx, hcx, hax⟩, hsp, ⟨hds, hes, hfs, hgs⟩, hss', hcs, hip, hfl,
      hmem⟩ :=
    serve_resumes hroom hreturn hss rfl
  refine ⟨funext fun r => ?_, funext fun r => ?_, hip, hfl, ?_, hmem⟩
  · cases r with
    | eax => exact hax
    | ecx => exact hcx
    | edx => exact hdx
    | ebx => exact hbx
    | esp => exact hsp
    | ebp => exact hbp
    | esi => exact hsi
    | edi => exact hdi
  · have hnarrow : ∀ x : BitVec 16, (x.setWidth 32).setWidth 16 = x := by simp
    cases r with
    | cs => exact hcs
    | ss => exact hss'
    | ds => exact hds.trans (hnarrow _)
    | es => exact hes.trans (hnarrow _)
    | fs => exact hfs.trans (hnarrow _)
    | gs => exact hgs.trans (hnarrow _)
  · simp only [serve]
    rw [iret_cr3, run_cr3 _ (by simp [interruptExit])]

/-- **Interrupts are transparent.**  Whatever a handler computes, as long as it returns
on its stack and leaves the frame alone, the code that was interrupted goes on with
every register, segment and flag it had, from user code and from kernel code, for
vectors with and without an error code; and off the frame memory changes only where the
handler changes it. -/
theorem interrupt_transparent {handler : Cpu → Cpu} {s : Cpu} {k : KernelStack} {v : Nat}
    {err : Option Word32} (hroom : 80 ≤ stackBase s k) (herr : err.isSome = hasErrorCode v)
    (hesp : (handler (enter s k v err)).reg .esp = (enter s k v err).reg .esp)
    (hss : ¬ s.userMode → (handler (enter s k v err)).seg .ss = s.seg .ss)
    (hframe : Agree (enter s k v err).mem (handler (enter s k v err)).mem (frameBase s k)
      (stackBase s k)) :
    let t := serve handler s k v err
    t.reg = s.reg ∧ t.seg = s.seg ∧ t.eip = s.eip ∧ t.eflags = s.eflags ∧
      t.cr3 = (handler (enter s k v err)).cr3 ∧
      ∀ x, (x < frameBase s k - 4 ∨ stackBase s k ≤ x) →
        (handler (enter s k v err)).mem x = (enter s k v err).mem x → t.mem x = s.mem x := by
  obtain ⟨hreg, hseg, hip, hfl, hcr3, hmem⟩ := serve_keeps hroom herr hesp hss hframe
  obtain ⟨-, hagree⟩ := enter_frame hroom herr
  refine ⟨hreg, hseg, hip, hfl, hcr3, fun x hout hsame => ?_⟩
  rw [hmem, hsame]
  exact hagree x (x + 1) (by omega) x (Nat.le_refl x) (Nat.lt_succ_self x)

end Return

/-! ## Interrupts of kernel code at any time -/

/-- The handler takes `e` to `e'`: it returns on its stack, leaves the frame alone, and
changes memory only in `H` and in `depth` bytes below the stack of the code that was
interrupted. -/
structure Discreet (H : Set Nat) (depth : Nat) (s : Cpu) (k : KernelStack) (e e' : Cpu) : Prop where
  esp : e'.reg .esp = e.reg .esp
  ss : e'.seg .ss = s.seg .ss
  cr3 : e'.cr3 = e.cr3
  frame : Agree e.mem e'.mem (frameBase s k) (stackBase s k)
  mem : ∀ x, x ∉ H → (x < stackBase s k - depth ∨ frameBase s k ≤ x) → e'.mem x = e.mem x

/-- Kernel code is interrupted: an event that may come between any two instructions. -/
def Interrupts (H : Set Nat) (depth : Nat) (s t : Cpu) : Prop :=
  ¬ s.userMode ∧ ∃ (handler : Cpu → Cpu) (k : KernelStack) (v : Nat) (err : Option Word32),
    err.isSome = hasErrorCode v ∧
      Discreet H depth s k (enter s k v err) (handler (enter s k v err)) ∧
      t = serve handler s k v err

/-- Such an interrupt changes bytes of `H` and bytes below the stack, and nothing else. -/
theorem Interrupts.alike {H : Set Nat} {depth : Nat} {s t : Cpu} (h : Interrupts H depth s t)
    (hdepth : 80 ≤ depth) (hroom : depth ≤ (s.reg .esp).toNat) :
    Alike (H ∪ Set.Ico ((s.reg .esp).toNat - depth) (s.reg .esp).toNat) s t := by
  obtain ⟨huser, handler, k, v, err, herr, hdiscreet, rfl⟩ := h
  have hbase : stackBase s k = (s.reg .esp).toNat := if_neg huser
  have hwords : (returnWords s).length = 3 := by simp [returnWords, huser]
  have hlow : frameBase s k = (s.reg .esp).toNat - 68 := by
    rw [frameBase, hbase, hwords]
  have hstack : 80 ≤ stackBase s k := by omega
  obtain ⟨hreg, hseg, hip, hfl, hcr3, hmem⟩ := serve_keeps hstack herr hdiscreet.esp
    (fun _ => hdiscreet.ss) hdiscreet.frame
  obtain ⟨-, hagree⟩ := enter_frame hstack herr
  rw [hdiscreet.cr3, enter_cr3] at hcr3
  generalize serve handler s k v err = t at hreg hseg hip hfl hcr3 hmem
  refine ⟨?_, fun x hx => ?_⟩
  · cases t
    cases s
    subst hreg hseg hip hfl hcr3
    rfl
  · have hH : x ∉ H := fun hin => hx (Or.inl hin)
    have hout : x < (s.reg .esp).toNat - depth ∨ (s.reg .esp).toNat ≤ x := by
      by_contra hin
      exact hx (Or.inr ⟨by omega, by omega⟩)
    have hhandler := hdiscreet.mem x hH (by omega)
    have henter := hagree x (x + 1) (by omega) x (Nat.le_refl x) (Nat.lt_succ_self x)
    exact (congrFun hmem x).trans (hhandler.trans henter)

theorem absorbs_interrupts {H S : Set Nat} {depth : Nat} {s : Cpu} (hdepth : 80 ≤ depth)
    (hroom : depth ≤ (s.reg .esp).toNat) (hH : H ⊆ S)
    (hstack : Set.Ico ((s.reg .esp).toNat - depth) (s.reg .esp).toNat ⊆ S) :
    Absorbs (Interrupts H depth) S s := by
  intro u t hu h
  have hreg : u.reg = s.reg := by rw [hu.rest, Cpu.withMem_reg]
  rw [← hreg] at hroom hstack
  exact hu.trans ((h.alike hdepth hroom).mono (Set.union_subset hH hstack))

/-- User code with its stack at `0x7000`. -/
def userCode : Cpu where
  reg := fun r => if r = .esp then 0x7000#32 else 5#32
  seg := fun r => if r = .cs then 0x1b#16 else 0x23#16
  eip := 0x400000#32
  eflags := 0x202#32
  cr3 := 0x9000#32
  mem := fun _ => 0#8

/-- A handler that uses two registers for itself. -/
def clobber (c : Cpu) : Cpu := (c.setReg .eax 0#32).setReg .edx 7#32

theorem clobber_keeps (c : Cpu) :
    (clobber c).reg .esp = c.reg .esp ∧ (clobber c).seg = c.seg ∧ (clobber c).cr3 = c.cr3 ∧
      (clobber c).mem = c.mem := by
  simp [clobber]

/-- The timer interrupts the user code. -/
theorem userCode_transparent :
    (serve clobber userCode ⟨0x10#16, 0x9000#32⟩ 32 none).reg = userCode.reg := by
  obtain ⟨hesp, -, -, hmem⟩ := clobber_keeps (enter userCode ⟨0x10#16, 0x9000#32⟩ 32 none)
  have huser : userCode.userMode := by decide
  refine (interrupt_transparent (by decide) rfl hesp (fun h => absurd huser h) ?_).1
  rw [hmem]
  exact Agree.refl _ _ _

end Irq
end Medusa
