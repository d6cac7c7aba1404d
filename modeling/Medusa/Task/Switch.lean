import Medusa.Machine.I386

/-!
# Switching between tasks

`switchTask` of `task_asm.S`, instruction by instruction.  It stores the registers
of its caller in one block, as they will be when the call has returned, and loads
all of them from another.  Both blocks are reached through the caller's stack, and
the last steps already run on the stack of the other task.
-/

namespace Medusa
namespace Task

open Machine

/-- `Registers_task`. -/
structure Context where
  eax : Word32
  ebx : Word32
  ecx : Word32
  edx : Word32
  esi : Word32
  edi : Word32
  esp : Word32
  ebp : Word32
  eip : Word32
  eflags : Word32
  cr3 : Word32
deriving DecidableEq, Repr

/-- The context stored in the block at `a`. -/
def Context.stored (m : Mem) (a : Nat) : Context where
  eax := word m a
  ebx := word m (a + 4)
  ecx := word m (a + 8)
  edx := word m (a + 12)
  esi := word m (a + 16)
  edi := word m (a + 20)
  esp := word m (a + 24)
  ebp := word m (a + 28)
  eip := word m (a + 32)
  eflags := word m (a + 36)
  cr3 := word m (a + 40)

/-- The context a processor is in. -/
def Context.current (s : Cpu) : Context where
  eax := s.reg .eax
  ebx := s.reg .ebx
  ecx := s.reg .ecx
  edx := s.reg .edx
  esi := s.reg .esi
  edi := s.reg .edi
  esp := s.reg .esp
  ebp := s.reg .ebp
  eip := s.eip
  eflags := s.eflags
  cr3 := s.cr3

/-- The context of a caller whose call returns now: its return address is on top of
the stack. -/
def Context.returning (s : Cpu) : Context :=
  { Context.current s with esp := s.reg .esp + 4#32, eip := s.top }

/-- `sizeof(Registers_task)`. -/
def contextSize : Nat := 44

/-! ## The routine -/

def pushAll : List Instr := [.pusha, .pushf, .movFromCr3 .eax, .push .eax]

def storeKept : List Instr :=
  [.load 44 .esp .eax,      -- the first argument, where to save
   .store .ebx 4 .eax, .store .ecx 8 .eax, .store .edx 12 .eax, .store .esi 16 .eax,
   .store .edi 20 .eax]

def fetchPushed : List Instr :=
  [.load 36 .esp .ebx, .load 40 .esp .ecx, .load 20 .esp .edx, .addImm 4#32 .edx,
   .load 16 .esp .esi, .load 4 .esp .edi]

def storePushed : List Instr :=
  [.store .ebx 0 .eax, .store .edx 24 .eax, .store .esi 28 .eax, .store .ecx 32 .eax,
   .store .edi 36 .eax, .pop .ebx, .store .ebx 40 .eax, .push .ebx]

def loadGeneral : List Instr :=
  [.load 48 .esp .eax,      -- now it is the new object
   .load 4 .eax .ebx, .load 8 .eax .ecx, .load 12 .eax .edx, .load 16 .eax .esi,
   .load 20 .eax .edi, .load 28 .eax .ebp]

def loadFlags : List Instr := [.push .eax, .load 36 .eax .eax, .push .eax, .popf, .pop .eax]

def changeStack : List Instr :=
  [.load 24 .eax .esp, .push .eax, .load 40 .eax .eax, .movToCr3 .eax, .pop .eax]

def jumpBack : List Instr :=
  [.push .eax, .load 32 .eax .eax, .xchgTop .eax, .load 0 .eax .eax, .ret]

def saveTask : List Instr := pushAll ++ storeKept ++ fetchPushed ++ storePushed

def resumeTask : List Instr := loadGeneral ++ loadFlags ++ changeStack ++ jumpBack

def switchTask : List Instr := saveTask ++ resumeTask

/-! ## Saving -/

section Save

variable {s : Cpu} {sp : Nat} {ws : List Word32} {old : Word32}

/-- What `pushAll` leaves on the stack, top first. -/
def pushed (s : Cpu) : List Word32 :=
  [s.cr3, s.eflags, s.reg .edi, s.reg .esi, s.reg .ebp, s.reg .esp, s.reg .ebx, s.reg .edx,
    s.reg .ecx, s.reg .eax]

theorem run_pushAll (h : Top s sp ws) (hsp : 40 ≤ sp) :
    Top (run s pushAll) (sp - 40) (pushed s ++ ws) ∧
      (∀ r, r ≠ .esp → r ≠ .eax → (run s pushAll).reg r = s.reg r) ∧
      (run s pushAll).seg = s.seg ∧
      ∀ lo hi, hi ≤ sp - 40 ∨ sp ≤ lo → Agree s.mem (run s pushAll).mem lo hi := by
  have hlen : (Cpu.pushaOrder.map s.reg).length = 8 := rfl
  have hgeneral := h.pushes (Cpu.pushaOrder.map s.reg) (by omega)
  have hagree := h.agree_pushes (Cpu.pushaOrder.map s.reg) (by omega)
  rw [hlen] at hgeneral hagree
  obtain ⟨hseg, -, hflags, hcr3⟩ := s.pushes_rest (Cpu.pushaOrder.map s.reg)
  have hreg := fun r hr => s.pushes_reg (Cpu.pushaOrder.map s.reg) (r := r) hr
  have hrun : run s pushAll = (((s.pushes (Cpu.pushaOrder.map s.reg)).push s.eflags).setReg .eax
      s.cr3).push s.cr3 := by
    simp only [run, pushAll, List.foldl, exec, hflags, Cpu.push_cr3, hcr3, Cpu.setReg_reg, if_true]
  generalize s.pushes (Cpu.pushaOrder.map s.reg) = t at *
  simp only [Cpu.pushaOrder, List.map, List.reverse_cons, List.reverse_nil, List.nil_append,
    List.cons_append] at hgeneral
  have hflag := hgeneral.push (by omega) s.eflags
  have hlast := (hflag.of_eq (t := (t.push s.eflags).setReg .eax s.cr3) (by simp) rfl).push
    (by omega) s.cr3
  rw [hrun]
  refine ⟨?_, ?_, hseg, ?_⟩
  · rw [show sp - 40 = sp - 4 * 8 - 4 - 4 by omega]
    exact hlast
  · intro r hesp heax
    simp [hesp, heax, hreg r hesp]
  · intro lo hi hout x hlo hhi
    have hpush := (hflag.of_eq (t := (t.push s.eflags).setReg .eax s.cr3) (by simp) rfl).push_mem
      (by omega) s.cr3
    rw [hpush, agree_setWord (by omega) x hlo hhi, Cpu.setReg_mem, hgeneral.push_mem (by omega),
      agree_setWord (by omega) x hlo hhi]
    exact hagree lo hi (by omega) x hlo hhi

/-- The block at `b` fits the address space and has no byte in `[lo, hi)`. -/
def Apart (b : Word32) (lo hi : Nat) : Prop :=
  b.toNat + contextSize ≤ 2 ^ 32 ∧ (b.toNat + contextSize ≤ lo ∨ hi ≤ b.toNat)

instance (b : Word32) (lo hi : Nat) : Decidable (Apart b lo hi) :=
  inferInstanceAs (Decidable (_ ∧ _))

/-- Storing fields of a block off the stack keeps the stack. -/
theorem top_setFields {b : Word32} (h : Top s sp ws) (fields : List (Nat × Word32))
    (hin : ∀ f ∈ fields, f.1 + 4 ≤ contextSize) (hapart : Apart b sp (sp + 4 * ws.length)) :
    Top (s.withMem (setFields s.mem b.toNat fields)) sp ws :=
  h.of_agree rfl (agree_setFields hin (by have := hapart.2; omega))

theorem run_storeKept (h : Top s sp ws) (hold : ws[11]? = some old)
    (hfit : old.toNat + contextSize ≤ 2 ^ 32) :
    run s storeKept = (s.setReg .eax old).withMem (setFields s.mem old.toNat
      [(4, s.reg .ebx), (8, s.reg .ecx), (12, s.reg .edx), (16, s.reg .esi),
        (20, s.reg .edi)]) := by
  have hfirst : exec s (.load 44 .esp .eax) = s.setReg .eax old := by
    rw [exec, h.operand (i := 11) hold]
  have hstores := run_stores (s := s.setReg .eax old)
    (show (s.setReg .eax old).reg .eax = old by simp)
    [(4, Reg.ebx), (8, .ecx), (12, .edx), (16, .esi), (20, .edi)]
    (by unfold contextSize at hfit; simp; omega)
  rw [storeKept, run_cons, hfirst]
  simpa using hstores

theorem run_fetchPushed {c fl di si bp esp bx dx cx ax ret : Word32}
    (h : Top s sp (c :: fl :: di :: si :: bp :: esp :: bx :: dx :: cx :: ax :: ret :: ws)) :
    run s fetchPushed = ((((s.setReg .ebx ax).setReg .ecx ret).setReg .edx (esp + 4#32)).setReg .esi
      bp).setReg .edi fl := by
  have hop := fun i w => h.operand (i := i) (w := w)
  have h1 := hop 1 fl rfl
  have h4 := hop 4 bp rfl
  have h5 := hop 5 esp rfl
  have h9 := hop 9 ax rfl
  have h10 := hop 10 ret rfl
  simp only [Nat.reduceMul] at h1 h4 h5 h9 h10
  simp [run, fetchPushed, exec, h1, h4, h5, h9, h10]

theorem run_storePushed {c : Word32} (h : Top s sp (c :: ws)) (heax : s.reg .eax = old)
    (hapart : Apart old sp (sp + 4 * (c :: ws).length)) :
    run s storePushed = (s.setReg .ebx c).withMem (setFields s.mem old.toNat
      [(0, s.reg .ebx), (24, s.reg .edx), (28, s.reg .esi), (32, s.reg .ecx), (36, s.reg .edi),
        (40, c)]) := by
  have hfit := hapart.1
  unfold contextSize at hfit
  have hstores := run_stores (s := s) heax
    [(0, Reg.ebx), (24, .edx), (28, .esi), (32, .ecx), (36, .edi)] (by simp; omega)
  have hpop := ((top_setFields h [(0, s.reg .ebx), (24, s.reg .edx), (28, s.reg .esi),
    (32, s.reg .ecx), (36, s.reg .edi)] (by simp [contextSize]) hapart).pop (r := .ebx)
    (by decide)).1
  have haddr : s.addr 40 .eax = old.toNat + 40 := Cpu.addr_eq heax (by omega)
  -- what is pushed in the end is the word that was popped, so the stack is as before
  have hback := ((top_setFields h [(0, s.reg .ebx), (24, s.reg .edx), (28, s.reg .esi),
    (32, s.reg .ecx), (36, s.reg .edi), (40, c)] (by simp [contextSize]) hapart).of_eq
    (t := (s.setReg .ebx c).withMem _) (by simp) rfl).push_top
  have hsplit : storePushed = ([(0, Reg.ebx), (24, .edx), (28, .esi), (32, .ecx), (36, .edi)].map
      fun f => .store f.2 f.1 .eax) ++ [.pop .ebx, .store .ebx 40 .eax, .push .ebx] := rfl
  rw [hsplit, run_append, hstores, ← hback]
  simp only [List.map_cons, List.map_nil, run_cons, hpop]
  simp [run, exec, haddr, Cpu.drop_setReg]
  rfl

/-- A context as the fields of its block, in the order in which they are stored. -/
def Context.fields (c : Context) : List (Nat × Word32) :=
  [(4, c.ebx), (8, c.ecx), (12, c.edx), (16, c.esi), (20, c.edi), (0, c.eax), (24, c.esp),
    (28, c.ebp), (32, c.eip), (36, c.eflags), (40, c.cr3)]

theorem Context.fields_le (c : Context) : ∀ f ∈ c.fields, f.1 + 4 ≤ contextSize := by
  simp [fields, contextSize]

theorem Context.stored_setFields (m : Mem) (b : Nat) (c : Context) :
    Context.stored (setFields m b c.fields) b = c := by
  have hget : ∀ f ∈ c.fields, word (setFields m b c.fields) (b + f.1) = f.2 :=
    fun f hf => word_setFields (by simp [fields]) hf
  simp only [fields, List.forall_mem_cons, List.not_mem_nil, false_imp_iff, implies_true,
    and_true, Nat.add_zero] at hget
  obtain ⟨hbx, hcx, hdx, hsi, hdi, hax, hsp, hbp, hip, hfl, hcr⟩ := hget
  simp only [Context.stored, fields, hax, hbx, hcx, hdx, hsi, hdi, hsp, hbp, hip, hfl, hcr]

/-- `saveTask` stores the context of the caller as it will be after the call, and
leaves the stack as `pushAll` made it. -/
theorem run_saveTask {ret : Word32} (h : Top s sp (ret :: old :: ws)) (hsp : 40 ≤ sp)
    (hapart : Apart old (sp - 40) (sp + 4 * (ws.length + 2))) :
    let t := run s saveTask
    Top t (sp - 40) (pushed s ++ ret :: old :: ws) ∧ t.seg = s.seg ∧
      t.mem = setFields (run s pushAll).mem old.toNat (Context.returning s).fields := by
  obtain ⟨hpush, hregs, hseg, -⟩ := run_pushAll h hsp
  have hret : s.top = ret := h.top_eq
  have hlen : sp - 40 + 4 * (pushed s ++ ret :: old :: ws).length = sp + 4 * (ws.length + 2) := by
    simp [pushed]
    omega
  have hkept := run_storeKept hpush rfl hapart.1
  have hkept_top := top_setFields (b := old) (hpush.of_eq (t := (run s pushAll).setReg .eax old)
    (by simp) rfl) [(4, (run s pushAll).reg .ebx), (8, (run s pushAll).reg .ecx),
    (12, (run s pushAll).reg .edx), (16, (run s pushAll).reg .esi), (20, (run s pushAll).reg .edi)]
    (by simp [contextSize]) (by rw [hlen]; exact hapart)
  rw [Cpu.setReg_mem, ← hkept] at hkept_top
  have hfetch := run_fetchPushed hkept_top
  have hfetch_top := hkept_top.of_eq (t := run (run (run s pushAll) storeKept) fetchPushed)
    (by rw [hfetch]; simp) (by rw [hfetch]; simp)
  have heax : (run (run (run s pushAll) storeKept) fetchPushed).reg .eax = old := by
    rw [hfetch, hkept]
    simp
  have hstore := run_storePushed hfetch_top heax (by
    rw [← hlen] at hapart
    exact hapart)
  have hall : run s saveTask =
      run (run (run (run s pushAll) storeKept) fetchPushed) storePushed := by
    simp only [saveTask, run_append]
  have hmem : (run s saveTask).mem =
      setFields (run s pushAll).mem old.toNat (Context.returning s).fields := by
    rw [hall, hstore, hfetch, hkept]
    simp only [Cpu.withMem_mem, Cpu.setReg_mem, ← setFields_append, Context.fields,
      Context.returning, Context.current, List.cons_append, List.nil_append]
    simp [hregs, hret]
  refine ⟨?_, ?_, hmem⟩
  · refine hpush.of_agree ?_ ?_
    · rw [hall, hstore, hfetch, hkept]
      simp
    · rw [hmem]
      exact agree_setFields (Context.fields_le _) (by rw [hlen]; have := hapart.2; omega)
  · rw [hall, hstore, hfetch, hkept]
    simp [hseg]

end Save

/-! ## Resuming -/

section Resume

variable {s : Cpu} {sp : Nat} {ws : List Word32} {new : Word32} {c : Context}

theorem run_loadGeneral (h : Top s sp ws) (hnew : ws[12]? = some new)
    (hc : Context.stored s.mem new.toNat = c) (hfit : new.toNat + contextSize ≤ 2 ^ 32) :
    run s loadGeneral = ((((((s.setReg .eax new).setReg .ebx c.ebx).setReg .ecx c.ecx).setReg .edx
      c.edx).setReg .esi c.esi).setReg .edi c.edi).setReg .ebp c.ebp := by
  subst hc
  unfold contextSize at hfit
  have hfirst : exec s (.load 48 .esp .eax) = s.setReg .eax new := by
    rw [exec, h.operand (i := 12) hnew]
  have hloads := run_loads (s := s.setReg .eax new) .eax
    [(4, Reg.ebx), (8, .ecx), (12, .edx), (16, .esi), (20, .edi), (28, .ebp)] (by decide)
  have haddr : ∀ d, d < 44 → (s.setReg .eax new).addr d .eax = new.toNat + d :=
    fun d hd => Cpu.addr_eq (by simp) (by omega)
  rw [loadGeneral, run_cons, hfirst]
  simpa [haddr, Context.stored] using hloads

theorem run_loadFlags (h : Top s sp ws) (hsp : 8 ≤ sp) (heax : s.reg .eax = new)
    (hc : Context.stored s.mem new.toNat = c) (hapart : Apart new (sp - 8) sp) :
    run s loadFlags = (s.setFlags c.eflags).withMem
      (setWord (setWord s.mem (sp - 4) new) (sp - 8) c.eflags) := by
  obtain ⟨hfit, hout⟩ := hapart
  unfold contextSize at hfit hout
  have hpush := (h.push (by omega) new).of_eq (t := (s.push new).setReg .eax c.eflags) (by simp) rfl
  have hmem := h.push_mem (by omega) new
  have hfl : word (s.push new).mem ((s.push new).addr 36 .eax) = c.eflags := by
    rw [Cpu.addr_eq (b := new) (by simp [heax]) (by omega), hmem,
      word_setWord_of_disjoint (by omega), ← hc]
    rfl
  have hmem' := hpush.push_mem (by omega) c.eflags
  have htop := (hpush.push (by omega) c.eflags).top_eq
  -- once the flags are popped, the block is on top again
  have hback : ((((s.push new).setReg .eax c.eflags).push c.eflags).drop.setFlags c.eflags).top =
      new := by
    have hkept := hpush.of_agree (t := (((s.push new).setReg .eax c.eflags).push c.eflags).drop)
      (by rw [Cpu.drop_push]; rfl) (by
        rw [Cpu.drop_push, Cpu.withMem_mem, hmem']
        exact agree_setWord (by omega))
    exact hkept.top_eq
  simp only [loadFlags, run_cons, exec, heax, hfl, Cpu.setReg_reg, if_true, htop, hback]
  rw [Cpu.drop_push, hmem']
  simp [run, Cpu.drop_setReg, Cpu.drop_push, hmem, Cpu.setReg_of_eq heax]
  rfl

theorem run_changeStack (heax : s.reg .eax = new) (hc : Context.stored s.mem new.toNat = c)
    (hsp : 4 ≤ c.esp.toNat) (hapart : Apart new (c.esp.toNat - 4) c.esp.toNat) :
    run s changeStack = ((s.setReg .esp c.esp).setCr3 c.cr3).withMem
      (setWord s.mem (c.esp.toNat - 4) new) := by
  obtain ⟨hfit, hout⟩ := hapart
  unfold contextSize at hfit hout
  have hesp : word s.mem (s.addr 24 .eax) = c.esp := by
    rw [Cpu.addr_eq heax (by omega), ← hc]
    rfl
  have hempty : Top (s.setReg .esp c.esp) c.esp.toNat [] :=
    ⟨by simp, by have := c.esp.isLt; simp; omega, trivial⟩
  have hmem := hempty.push_mem hsp new
  have hcr3 : word ((s.setReg .esp c.esp).push new).mem
      (((s.setReg .esp c.esp).push new).addr 40 .eax) = c.cr3 := by
    rw [Cpu.addr_eq (b := new) (by simp [heax]) (by omega), hmem,
      word_setWord_of_disjoint (by omega), Cpu.setReg_mem, ← hc]
    rfl
  have hback := (((hempty.push hsp new).of_eq (t := (((s.setReg .esp c.esp).push new).setReg .eax
    c.cr3).setCr3 c.cr3) (by simp) rfl).pop (r := .eax) (by decide)).1
  simp only [changeStack, run_cons, exec, hesp, Cpu.setReg_reg, heax, reduceCtorEq, if_false,
    if_true, hcr3]
  simp only [exec] at hback
  rw [hback]
  simp [run, Cpu.drop_setReg, Cpu.drop_push, hmem]
  rw [Cpu.setReg_of_eq (by simp [heax])]
  rfl

theorem run_jumpBack (hesp : s.reg .esp = c.esp) (heax : s.reg .eax = new)
    (hc : Context.stored s.mem new.toNat = c) (hsp : 4 ≤ c.esp.toNat)
    (hapart : Apart new (c.esp.toNat - 4) c.esp.toNat) :
    run s jumpBack = ((s.setReg .eax c.eax).setEip c.eip).withMem
      (setWord s.mem (c.esp.toNat - 4) c.eip) := by
  obtain ⟨hfit, hout⟩ := hapart
  unfold contextSize at hfit hout
  have hempty : Top s c.esp.toNat [] :=
    ⟨by simp [hesp], by have := c.esp.isLt; simp; omega, trivial⟩
  have hmem := hempty.push_mem hsp new
  have hfield : ∀ v d, d + 4 ≤ 44 → word (setWord s.mem (c.esp.toNat - 4) v) (new.toNat + d) =
      word s.mem (new.toNat + d) := fun v d hd => word_setWord_of_disjoint (by omega)
  have heip : word (s.push new).mem ((s.push new).addr 32 .eax) = c.eip := by
    rw [Cpu.addr_eq (b := new) (by simp [heax]) (by omega), hmem, hfield _ _ (by omega), ← hc]
    rfl
  have hblock := (hempty.push hsp new).of_eq (t := (s.push new).setReg .eax c.eip) (by simp) rfl
  obtain ⟨hxchg, hjump⟩ := hblock.xchgTop (r := .eax) (by decide)
  have heax' : word (exec ((s.push new).setReg .eax c.eip) (.xchgTop .eax)).mem
      ((exec ((s.push new).setReg .eax c.eip) (.xchgTop .eax)).addr 0 .eax) = c.eax := by
    rw [Cpu.addr_eq (b := new) (by rw [hxchg]; simp) (by omega), hxchg]
    simp only [Cpu.withMem_mem, Cpu.setReg_mem, hmem, setWord_setWord_self]
    rw [hfield _ _ (by omega), ← hc]
    rfl
  have hret := (hjump.of_eq (t := (exec ((s.push new).setReg .eax c.eip)
    (.xchgTop .eax)).setReg .eax c.eax) (by simp) rfl).ret
  have hfirst : exec s (.push .eax) = s.push new := by rw [exec, heax]
  have hsecond : exec (s.push new) (.load 32 .eax .eax) = (s.push new).setReg .eax c.eip := by
    rw [exec, heip]
  have hfourth : exec (exec ((s.push new).setReg .eax c.eip) (.xchgTop .eax)) (.load 0 .eax .eax) =
      (exec ((s.push new).setReg .eax c.eip) (.xchgTop .eax)).setReg .eax c.eax := by
    rw [← heax', exec]
  simp only [jumpBack, run_cons, hfirst, hsecond, hfourth, hret]
  rw [hxchg]
  simp [run, Cpu.drop_setReg, Cpu.drop_push, hmem]
  rfl

/-- The words that resuming a task writes: two below the stack it leaves and one below
the stack it goes to. -/
def resumeWrites (m : Mem) (sp : Nat) (new : Word32) (c : Context) : Mem :=
  setWord (setWord (setWord m (sp - 4) new) (sp - 8) c.eflags) (c.esp.toNat - 4) c.eip

theorem agree_resumeWrites {m : Mem} {lo hi : Nat} (hsp : 8 ≤ sp) (hnew : 4 ≤ c.esp.toNat)
    (hout : hi ≤ sp - 8 ∨ sp ≤ lo) (hout' : hi ≤ c.esp.toNat - 4 ∨ c.esp.toNat ≤ lo) :
    Agree m (resumeWrites m sp new c) lo hi := by
  intro x hlo hhi
  unfold resumeWrites
  rw [agree_setWord (by omega) x hlo hhi, agree_setWord (by omega) x hlo hhi,
    agree_setWord (by omega) x hlo hhi]

theorem Context.stored_congr {m m' : Mem} {b : Nat} (h : Agree m m' b (b + contextSize)) :
    Context.stored m' b = Context.stored m b := by
  have hword : ∀ d, d + 4 ≤ contextSize → word m' (b + d) = word m (b + d) :=
    fun d hd => word_congr (h.mono (by omega) (by omega))
  have h0 := hword 0 (by decide)
  rw [Nat.add_zero] at h0
  simp only [stored, h0, hword 4 (by decide), hword 8 (by decide), hword 12 (by decide),
    hword 16 (by decide), hword 20 (by decide), hword 24 (by decide), hword 28 (by decide),
    hword 32 (by decide), hword 36 (by decide), hword 40 (by decide)]

/-- The block is still as it was when the stack is about to change. -/
theorem stored_loads (h : Top s sp ws) (hnew : ws[12]? = some new) (hsp : 8 ≤ sp)
    (hc : Context.stored s.mem new.toNat = c) (hapart : Apart new (sp - 8) sp) :
    run (run s loadGeneral) loadFlags = ((run s loadGeneral).setFlags c.eflags).withMem
        (setWord (setWord s.mem (sp - 4) new) (sp - 8) c.eflags) ∧
      Context.stored (run (run s loadGeneral) loadFlags).mem new.toNat = c := by
  have hgeneral := run_loadGeneral h hnew hc hapart.1
  have hmem : (run s loadGeneral).mem = s.mem := by rw [hgeneral]; simp
  have hflags := run_loadFlags (h.of_eq (t := run s loadGeneral) (by rw [hgeneral]; simp) hmem) hsp
    (show (run s loadGeneral).reg .eax = new by rw [hgeneral]; simp)
    (show Context.stored (run s loadGeneral).mem new.toNat = c by rw [hmem]; exact hc) hapart
  rw [hmem] at hflags
  refine ⟨hflags, ?_⟩
  rw [← hc]
  refine Context.stored_congr fun x hlo hhi => ?_
  have hout := hapart.2
  rw [hflags, Cpu.withMem_mem, agree_setWord (by omega) x hlo hhi,
    agree_setWord (by omega) x hlo hhi]

/-- Resuming loads the whole context. -/
theorem run_resumeTask (h : Top s sp ws) (hnew : ws[12]? = some new) (hsp : 8 ≤ sp)
    (hc : Context.stored s.mem new.toNat = c) (hapart : Apart new (sp - 8) sp)
    (hesp : 4 ≤ c.esp.toNat) (hstack : Apart new (c.esp.toNat - 4) c.esp.toNat) :
    let t := run s resumeTask
    Context.current t = c ∧ t.seg = s.seg ∧ t.mem = resumeWrites s.mem sp new c := by
  have hgeneral := run_loadGeneral h hnew hc hapart.1
  obtain ⟨hflags, hkept⟩ := stored_loads h hnew hsp hc hapart
  have hchange := run_changeStack (s := run (run s loadGeneral) loadFlags)
    (by rw [hflags, hgeneral]; simp) hkept hesp hstack
  have hkept' : Context.stored (run (run (run s loadGeneral) loadFlags) changeStack).mem
      new.toNat = c := by
    rw [← hkept]
    refine Context.stored_congr fun x hlo hhi => ?_
    have hout := hstack.2
    rw [hchange, Cpu.withMem_mem, agree_setWord (by omega) x hlo hhi]
  have hjump := run_jumpBack (s := run (run (run s loadGeneral) loadFlags) changeStack)
    (by rw [hchange]; simp) (by rw [hchange, hflags, hgeneral]; simp) hkept' hesp hstack
  have hall : run s resumeTask =
      run (run (run (run s loadGeneral) loadFlags) changeStack) jumpBack := by
    simp only [resumeTask, run_append]
  simp only [hall]
  rw [hjump, hchange, hflags, hgeneral]
  refine ⟨?_, rfl, ?_⟩
  · simp only [Context.current, Cpu.withMem_reg, Cpu.setEip_reg, Cpu.setCr3_reg,
      Cpu.setFlags_reg, Cpu.setReg_reg]
    rfl
  · simp [resumeWrites]

end Resume

/-! ## The switch -/

/-- The context that a call `switchTask(old, new)` goes to. -/
def Context.target (s : Cpu) (old new : Word32) : Context :=
  if new = old then Context.returning s else Context.stored s.mem new.toNat

/-- A call `switchTask(old, new)` with the stack pointer at `sp`: the blocks lie off the
part of the stack that the routine uses and off the top of the stack it goes to. -/
structure Call (s : Cpu) (old new : Word32) (sp : Nat) : Prop where
  top : ∃ ret, Top s sp [ret, old, new]
  room : 48 ≤ sp
  old_apart : Apart old (sp - 48) (sp + 12)
  new_apart : Apart new (sp - 48) (sp + 12)
  blocks : new = old ∨ Apart old new.toNat (new.toNat + contextSize)
  target_room : 4 ≤ (Context.target s old new).esp.toNat
  old_target : Apart old ((Context.target s old new).esp.toNat - 4)
    (Context.target s old new).esp.toNat
  new_target : Apart new ((Context.target s old new).esp.toNat - 4)
    (Context.target s old new).esp.toNat

section Switch

variable {s : Cpu} {sp : Nat} {old new : Word32}

theorem Apart.mono {b : Word32} {lo hi lo' hi' : Nat} (h : Apart b lo hi) (hlo : lo ≤ lo')
    (hhi : hi' ≤ hi) : Apart b lo' hi' := ⟨h.1, by have := h.2; omega⟩

/-- The two blocks and the stack, between saving and resuming. -/
theorem Call.saved (h : Call s old new sp) :
    Top (run s saveTask) (sp - 40) (pushed s ++ [s.top, old, new]) ∧
      (run s saveTask).seg = s.seg ∧
      Context.stored (run s saveTask).mem old.toNat = Context.returning s ∧
      Context.stored (run s saveTask).mem new.toNat = Context.target s old new ∧
      ∀ lo hi, hi ≤ sp - 40 ∨ sp ≤ lo → hi ≤ old.toNat ∨ old.toNat + contextSize ≤ lo →
        Agree s.mem (run s saveTask).mem lo hi := by
  have hroom := h.room
  obtain ⟨ret, htop⟩ := h.top
  obtain ⟨hstack, hseg, hmem⟩ := run_saveTask htop (by omega)
    (h.old_apart.mono (by omega) (by simp))
  obtain ⟨-, -, -, hpush⟩ := run_pushAll htop (by omega)
  have hframe : ∀ lo hi, hi ≤ sp - 40 ∨ sp ≤ lo → hi ≤ old.toNat ∨ old.toNat + contextSize ≤ lo →
      Agree s.mem (run s saveTask).mem lo hi := by
    intro lo hi hout hblock x hlo hhi
    rw [hmem, agree_setFields (Context.fields_le _) hblock x hlo hhi]
    exact hpush lo hi hout x hlo hhi
  have hold : Context.stored (run s saveTask).mem old.toNat = Context.returning s := by
    rw [hmem]
    exact Context.stored_setFields _ _ _
  rw [htop.top_eq]
  refine ⟨hstack, hseg, hold, ?_, hframe⟩
  unfold Context.target
  split_ifs with heq
  · rw [heq]
    exact hold
  · have hnew := h.new_apart.2
    have hblocks := (h.blocks.resolve_left heq).2
    exact Context.stored_congr (hframe _ _ (by omega) (by omega))

/-- What one switch does to the processor and to the memory. -/
theorem Call.switched (h : Call s old new sp) :
    let t := run s switchTask
    Context.current t = Context.target s old new ∧ t.seg = s.seg ∧
      t.mem = resumeWrites (run s saveTask).mem (sp - 40) new (Context.target s old new) := by
  have hroom := h.room
  obtain ⟨hstack, hseg, -, hnew, -⟩ := h.saved
  obtain ⟨hcurrent, hseg', hmem⟩ := run_resumeTask hstack rfl (by omega) hnew
    (h.new_apart.mono (by omega) (by omega)) h.target_room h.new_target
  simp only [switchTask, run_append]
  exact ⟨hcurrent, hseg'.trans hseg, hmem⟩

/-- Everything off the old block and the used parts of the two stacks is as before. -/
theorem Call.frame (h : Call s old new sp) (lo hi : Nat)
    (hstack : hi ≤ sp - 48 ∨ sp ≤ lo) (hblock : hi ≤ old.toNat ∨ old.toNat + contextSize ≤ lo)
    (htarget : hi ≤ (Context.target s old new).esp.toNat - 4 ∨
      (Context.target s old new).esp.toNat ≤ lo) :
    Agree s.mem (run s switchTask).mem lo hi := by
  have hroom := h.room
  obtain ⟨-, -, hmem⟩ := h.switched
  obtain ⟨-, -, -, -, hframe⟩ := h.saved
  intro x hlo hhi
  rw [hmem, agree_resumeWrites (by omega) h.target_room (by omega) htarget x hlo hhi]
  exact hframe lo hi (by omega) hblock x hlo hhi

/-- A switch that is not interrupted: all eleven registers of the task it goes to are
loaded, and the block of the task it leaves holds the registers of its caller as they are
after the call. -/
theorem Call.exchanged (h : Call s old new sp) :
    Context.current (run s switchTask) = Context.target s old new ∧
      Context.stored (run s switchTask).mem old.toNat = Context.returning s ∧
      (run s switchTask).seg = s.seg ∧
      ∀ x, (x < sp - 48 ∨ sp ≤ x) → (x < old.toNat ∨ old.toNat + contextSize ≤ x) →
        (x < (Context.target s old new).esp.toNat - 4 ∨
          (Context.target s old new).esp.toNat ≤ x) →
        (run s switchTask).mem x = s.mem x := by
  have hroom := h.room
  obtain ⟨hcurrent, hseg, hmem⟩ := h.switched
  obtain ⟨-, -, hold, -, -⟩ := h.saved
  refine ⟨hcurrent, ?_, hseg, fun x hstack hblock htarget => ?_⟩
  · have hout := h.old_apart.2
    have hout' := h.old_target.2
    rw [hmem, Context.stored_congr (agree_resumeWrites (by omega) h.target_room (by omega) hout'),
      hold]
  · exact h.frame x (x + 1) (by omega) (by omega) (by omega) x (Nat.le_refl x)
      (Nat.lt_succ_self x)

end Switch

/-- A processor about to switch from the block at `0x2000` to the one at `0x3000`, whose
stack pointer is `0x4000`. -/
def atSwitch : Cpu where
  reg := fun r => if r = .esp then 0x1000#32 else 5#32
  seg := fun _ => 0x10#16
  eip := 0x100#32
  eflags := 0x202#32
  cr3 := 0x9000#32
  mem := setFields (fun _ => 0#8) 0 [(0x1000, 0x111#32), (0x1004, 0x2000#32), (0x1008, 0x3000#32),
    (0x3018, 0x4000#32), (0x3020, 0x777#32)]

theorem atSwitch_call : Call atSwitch 0x2000#32 0x3000#32 0x1000 where
  top := ⟨0x111#32, rfl, by decide, by decide, by decide, by decide, trivial⟩
  room := by decide
  old_apart := by decide
  new_apart := by decide
  blocks := by decide
  target_room := by decide
  old_target := by decide
  new_target := by decide

end Task
end Medusa
