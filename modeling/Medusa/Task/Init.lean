import Medusa.Heap.Client
import Medusa.Task.Yield

/-!
# Starting the tasks

`initTasking` of `task.c` links the running task and one more in a ring.  `createTask`
takes the stack of the other task from the heap: it asks for 4000 bytes, and sets the
stack pointer 4096 bytes behind their start.  The ring that comes out runs, on the stack as
it is set; but the first thing that is put on it lies outside the object.
-/

namespace Medusa
namespace Task

open Machine Kernel Heap

/-! ## The code -/

/-- Where the linker has put the two records, and the entry of the other task. -/
structure Statics where
  mainTask : Word32
  otherTask : Word32
  otherMain : Word32

def createTask (h : Heap.State) (task main flags pagedir : Word32) : Except Stop Heap.State := do
  let m := setFields h.mem task.toNat
    [(0, 0), (4, 0), (8, 0), (12, 0), (16, 0), (20, 0), (36, flags), (32, main), (40, pagedir)]
  let (p, h) ← kmalloc { h with mem := m } 4000
  return { h with
    mem := setFields h.mem task.toNat [(24, BitVec.ofNat 32 p + 0x1000#32), (nextOffset, 0)] }

/-- The part of `initTasking` before the other task is created. -/
def readFlags (v : Statics) (s : Cpu) (m : Mem) : Mem :=
  let m := setWord m (v.mainTask.toNat + 40) s.cr3
  -- the flags are pushed, and read from the stack
  let m := setWord m (s.reg .esp - 4#32).toNat s.eflags
  setWord m (v.mainTask.toNat + 36) s.eflags

/-- `initTasking` of a caller with the registers `s`; the memory is that of the heap. -/
def initTasking (v : Statics) (s : Cpu) (h : Heap.State) :
    Except Stop (Tasking × Heap.State) := do
  let m := readFlags v s h.mem
  let h ← createTask { h with mem := m } v.otherTask v.otherMain
    (word m (v.mainTask.toNat + 36)) (word m (v.mainTask.toNat + 40))
  let m := setWord h.mem (v.mainTask.toNat + nextOffset) v.otherTask
  let m := setWord m (v.otherTask.toNat + nextOffset) v.mainTask
  return (⟨s.withMem m, v.mainTask⟩, { h with mem := m })

/-! ## The tasks afterwards -/

/-- The records and the stack `[lo, hi)` of the kernel lie below the heap, off each
other. -/
structure Placed (v : Statics) (lo hi : Nat) : Prop where
  mainLow : v.mainTask.toNat + taskSize ≤ heapBegin
  otherLow : v.otherTask.toNat + taskSize ≤ heapBegin
  stackLow : hi ≤ heapBegin
  records : v.mainTask.toNat + taskSize ≤ v.otherTask.toNat ∨
    v.otherTask.toNat + taskSize ≤ v.mainTask.toNat
  stackMain : v.mainTask.toNat + taskSize ≤ lo ∨ hi ≤ v.mainTask.toNat
  stackOther : v.otherTask.toNat + taskSize ≤ lo ∨ hi ≤ v.otherTask.toNat

/-- The registers that the other task starts with; `createTask` does not set `ebp`. -/
def startContext (v : Statics) (s : Cpu) (m : Mem) (p : Nat) : Context where
  eax := 0
  ebx := 0
  ecx := 0
  edx := 0
  esi := 0
  edi := 0
  esp := BitVec.ofNat 32 p + 0x1000#32
  ebp := word m (v.otherTask.toNat + 28)
  eip := v.otherMain
  eflags := s.eflags
  cr3 := s.cr3

section

variable {v : Statics} {s : Cpu} {h h' : Heap.State} {live : List Live} {k : Tasking} {lo hi : Nat}

theorem readFlags_main (hplaced : Placed v lo hi) (hesp : lo + 4 ≤ (s.reg .esp).toNat)
    (hesp' : (s.reg .esp).toNat ≤ hi) (m : Mem) :
    word (readFlags v s m) (v.mainTask.toNat + 36) = s.eflags ∧
      word (readFlags v s m) (v.mainTask.toNat + 40) = s.cr3 ∧
      ∀ a b, (b ≤ v.mainTask.toNat ∨ v.mainTask.toNat + taskSize ≤ a) → (b ≤ lo ∨ hi ≤ a) →
        Agree m (readFlags v s m) a b := by
  have hstack := hplaced.stackMain
  have hsub : (s.reg .esp - 4#32).toNat = (s.reg .esp).toNat - 4 := by
    rw [BitVec.toNat_sub, BitVec.toNat_ofNat]
    have hlt := (s.reg .esp).isLt
    omega
  unfold taskSize at *
  unfold readFlags
  rw [hsub]
  refine ⟨word_setWord_self _ _ _, ?_, fun a b hmain hstack x hlo hhi => ?_⟩
  · rw [word_setWord_of_disjoint (by omega), word_setWord_of_disjoint (by omega),
      word_setWord_self]
  · rw [agree_setWord (by omega) x hlo hhi, agree_setWord (by omega) x hlo hhi,
      agree_setWord (by omega) x hlo hhi]

/-- The object that the stack is made of, and the record of the other task. -/
structure Created (v : Statics) (s : Cpu) (h h' : Heap.State) (live : List Live) (k : Tasking)
    (p : Nat) : Prop where
  client : Client h' ({ ptr := p, align := 4, size := 4000 } :: live)
  cpu : k.cpu = s.withMem h'.mem
  running : k.runningTask = v.mainTask
  mainNext : word h'.mem (v.mainTask.toNat + nextOffset) = v.otherTask
  otherNext : word h'.mem (v.otherTask.toNat + nextOffset) = v.mainTask
  stored : Context.stored h'.mem v.otherTask.toNat = startContext v s h.mem p

/-- `createTask` for the other task. -/
theorem createTask_ok (hclient : Client h live) {task main flags pagedir : Word32}
    (hlow : task.toNat + taskSize ≤ heapBegin)
    (hrun : createTask h task main flags pagedir = .ok h') :
    ∃ p, Client h' ({ ptr := p, align := 4, size := 4000 } :: live) ∧
      Context.stored h'.mem task.toNat = ⟨0, 0, 0, 0, 0, 0, BitVec.ofNat 32 p + 0x1000#32,
        word h.mem (task.toNat + 28), main, flags, pagedir⟩ ∧
      ∀ a b, b ≤ heapBegin → (b ≤ task.toNat ∨ task.toNat + taskSize ≤ a) →
        Agree h.mem h'.mem a b := by
  obtain ⟨m, hm⟩ : ∃ m, m = setFields h.mem task.toNat [(0, 0), (4, 0), (8, 0), (12, 0), (16, 0),
    (20, 0), (36, flags), (32, main), (40, pagedir)] := ⟨_, rfl⟩
  rw [createTask, ← hm] at hrun
  have hcleared : ∀ a b, (b ≤ task.toNat ∨ task.toNat + taskSize ≤ a) → Agree h.mem m a b := by
    intro a b hout
    rw [hm]
    exact agree_setFields (by simp [taskSize]) hout
  have hclient' : Client { h with mem := m } live := by
    apply hclient.store
    intro x
    by_cases hin : task.toNat ≤ x ∧ x < task.toNat + taskSize
    · exact Or.inr (Or.inl (by omega))
    · exact Or.inl (hcleared x (x + 1) (by omega) x (Nat.le_refl x) (Nat.lt_succ_self x))
  obtain ⟨⟨p, h₁⟩, hkmalloc, hrest⟩ := bind_eq_ok hrun
  rcases hclient'.alloc aligns_four (by decide : 4000 ≤ heapSize) with hfail | hok
  · rw [kmalloc, hfail] at hkmalloc
    cases hkmalloc
  obtain ⟨p', h₁', hkmalloc', hclient₁, hkeeps⟩ := hok
  obtain ⟨rfl, rfl⟩ := Prod.mk.inj (Except.ok.inj (hkmalloc'.symm.trans hkmalloc))
  obtain rfl := Except.ok.inj hrest
  have hkept : Agree m h₁'.mem task.toNat (task.toNat + taskSize) := hkeeps _ _ (Or.inl hlow)
  have hlast : ∀ a b, (b ≤ task.toNat ∨ task.toNat + taskSize ≤ a) → Agree h₁'.mem
      (setFields h₁'.mem task.toNat [(24, BitVec.ofNat 32 p' + 0x1000#32), (nextOffset, 0)]) a b :=
    fun a b hout => agree_setFields (by simp [taskSize, nextOffset, contextSize]) hout
  refine ⟨p', ?_, ?_, ?_⟩
  · apply hclient₁.store
    intro x
    by_cases hin : task.toNat ≤ x ∧ x < task.toNat + taskSize
    · exact Or.inr (Or.inl (by omega))
    · exact Or.inl (hlast x (x + 1) (by omega) x (Nat.le_refl x) (Nat.lt_succ_self x))
  · have hesp : word (setFields h₁'.mem task.toNat
        [(24, BitVec.ofNat 32 p' + 0x1000#32), (nextOffset, 0)]) (task.toNat + 24) =
        BitVec.ofNat 32 p' + 0x1000#32 :=
      word_setFields (f := (24, BitVec.ofNat 32 p' + 0x1000#32))
        (by simp [nextOffset, contextSize]) (by simp)
    have hother : ∀ d, d + 4 ≤ 24 ∨ 28 ≤ d ∧ d + 4 ≤ 44 → word (setFields h₁'.mem task.toNat
        [(24, BitVec.ofNat 32 p' + 0x1000#32), (nextOffset, 0)]) (task.toNat + d) =
        word m (task.toNat + d) := by
      intro d hd
      rw [word_setFields_of_apart (by simp [nextOffset, contextSize]; omega)]
      exact word_congr (hkept.mono (by omega) (by unfold taskSize; omega))
    have hset : ∀ f ∈ [(0, 0), (4, 0), (8, 0), (12, 0), (16, 0), (20, 0), (36, flags), (32, main),
        (40, pagedir)], word m (task.toNat + f.1) = f.2 := by
      intro f hf
      rw [hm]
      exact word_setFields (by simp) hf
    have hebp : word m (task.toNat + 28) = word h.mem (task.toNat + 28) := by
      rw [hm]
      exact word_setFields_of_apart (by simp)
    simp only [List.forall_mem_cons, Nat.add_zero] at hset
    obtain ⟨h0, h4, h8, h12, h16, h20, h36, h32, h40, -⟩ := hset
    have hfirst := hother 0 (by decide)
    rw [Nat.add_zero] at hfirst
    rw [Context.stored, hesp, hfirst, h0, hother 4 (by decide), h4, hother 8 (by decide), h8,
      hother 12 (by decide), h12, hother 16 (by decide), h16, hother 20 (by decide), h20,
      hother 28 (by decide), hebp, hother 32 (by decide), h32, hother 36 (by decide), h36,
      hother 40 (by decide), h40]
  · intro a b hhi hout
    exact ((hcleared a b hout).trans (hkeeps a b (Or.inl hhi))).trans (hlast a b hout)

/-- What `initTasking` leaves. -/
theorem initTasking_created (hclient : Client h live) (hplaced : Placed v lo hi)
    (hesp : lo + 4 ≤ (s.reg .esp).toNat) (hesp' : (s.reg .esp).toNat ≤ hi)
    (hrun : initTasking v s h = .ok (k, h')) : ∃ p, Created v s h h' live k p := by
  obtain ⟨hflags, hcr3, hread⟩ := readFlags_main hplaced hesp hesp' h.mem
  have hrecords := hplaced.records
  have hstack := hplaced.stackOther
  have hstack' := hplaced.stackMain
  have hmainLow := hplaced.mainLow
  have hotherLow := hplaced.otherLow
  have hstackLow := hplaced.stackLow
  rw [initTasking, hflags, hcr3] at hrun
  have hclient' : Client { h with mem := readFlags v s h.mem } live := by
    apply hclient.store
    intro x
    by_cases hin : v.mainTask.toNat ≤ x ∧ x < v.mainTask.toNat + taskSize ∨ lo ≤ x ∧ x < hi
    · exact Or.inr (Or.inl (by omega))
    · exact Or.inl (hread x (x + 1) (by omega) (by omega) x (Nat.le_refl x) (Nat.lt_succ_self x))
  obtain ⟨h₁, hcreate, hrest⟩ := bind_eq_ok hrun
  obtain ⟨p, hclient₁, hstored, hkept⟩ := createTask_ok hclient' hotherLow hcreate
  obtain ⟨rfl, rfl⟩ := Prod.mk.inj (Except.ok.inj hrest)
  unfold taskSize at *
  have hlinks : ∀ a b, (b ≤ v.mainTask.toNat + 44 ∨ v.mainTask.toNat + 48 ≤ a) →
      (b ≤ v.otherTask.toNat + 44 ∨ v.otherTask.toNat + 48 ≤ a) → Agree h₁.mem
        (setWord (setWord h₁.mem (v.mainTask.toNat + nextOffset) v.otherTask)
          (v.otherTask.toNat + nextOffset) v.mainTask) a b := by
    intro a b hmain hother x hlo hhi
    unfold nextOffset contextSize
    rw [agree_setWord (by omega) x hlo hhi, agree_setWord (by omega) x hlo hhi]
  refine ⟨p, ?_, rfl, rfl, ?_, word_setWord_self _ _ _, ?_⟩
  · apply hclient₁.store
    intro x
    by_cases hin : x < heapBegin
    · exact Or.inr (Or.inl (Nat.succ_le_of_lt hin))
    · exact Or.inl (hlinks x (x + 1) (by omega) (by omega) x (Nat.le_refl x) (Nat.lt_succ_self x))
  · rw [word_setWord_of_disjoint (by unfold nextOffset contextSize; omega), word_setWord_self]
  · rw [Context.stored_congr (hlinks _ _ (by unfold contextSize; omega)
      (by unfold contextSize; omega)), hstored, startContext]
    congr 1
    exact word_congr (hread _ _ (by omega) (by omega))

/-! ## The ring -/

/-- The tasks and their stacks, if the stack of the other task starts at `p`. -/
def bootLayout (hplaced : Placed v lo hi) (p : Nat) (hlow : heapBegin ≤ p)
    (hhigh : p + 0x1000 ≤ 2 ^ 32) : Layout 2 where
  block := ![v.mainTask, v.otherTask]
  lo := ![lo, p]
  hi := ![hi, p + 0x1000]
  block_fits i := by
    have hmainLow := hplaced.mainLow
    have hotherLow := hplaced.otherLow
    have hheap : heapBegin ≤ 2 ^ 32 := by decide
    match i with
    | 0 => exact hmainLow.trans hheap
    | 1 => exact hotherLow.trans hheap
  stack_fits i := by
    have hstackLow := hplaced.stackLow
    match i with
    | 0 => exact hstackLow.trans (by decide)
    | 1 => exact hhigh
  blocks_apart i j hij := by
    have hrecords := hplaced.records
    match i, j with
    | 0, 0 => exact absurd rfl hij
    | 0, 1 => exact hrecords
    | 1, 0 => exact hrecords.symm
    | 1, 1 => exact absurd rfl hij
  stacks_apart i j hij := by
    have hstackLow := hplaced.stackLow
    match i, j with
    | 0, 0 => exact absurd rfl hij
    | 0, 1 => exact Or.inl (hstackLow.trans hlow)
    | 1, 0 => exact Or.inr (hstackLow.trans hlow)
    | 1, 1 => exact absurd rfl hij
  stack_block i j := by
    have hmainLow := hplaced.mainLow
    have hotherLow := hplaced.otherLow
    match i, j with
    | 0, 0 => exact hplaced.stackMain
    | 0, 1 => exact Or.inl (hmainLow.trans hlow)
    | 1, 0 => exact hplaced.stackOther
    | 1, 1 => exact Or.inl (hotherLow.trans hlow)

theorem Created.within {p : Nat} (hcreated : Created v s h h' live k p) :
    heapBegin ≤ p ∧ p + 0x1000 < 2 ^ 32 := by
  obtain ⟨hlow, hhigh, -⟩ := hcreated.client.within List.mem_cons_self
  have hheap : heapLimit + 96 < 2 ^ 32 := by decide
  dsimp only at hhigh
  exact ⟨hlow, by omega⟩

theorem Created.esp {p : Nat} (hcreated : Created v s h h' live k p) :
    (startContext v s h.mem p).esp.toNat = p + 0x1000 := by
  have hhigh := hcreated.within.2
  rw [startContext, BitVec.toNat_add, BitVec.toNat_ofNat, BitVec.toNat_ofNat]
  omega

theorem Created.ring {p : Nat} (hcreated : Created v s h h' live k p) (hplaced : Placed v lo hi)
    (hlow : heapBegin ≤ p) (hhigh : p + 0x1000 ≤ 2 ^ 32) :
    Ring (bootLayout hplaced p hlow hhigh) k 0 := by
  have hmem : k.cpu.mem = h'.mem := by rw [hcreated.cpu, Cpu.withMem_mem]
  refine ⟨hcreated.running, fun j => ?_, fun j hj => ?_⟩
  · rw [hmem]
    match j with
    | 0 => exact hcreated.mainNext
    | 1 => exact hcreated.otherNext
  · match j with
    | 0 => exact absurd rfl hj
    | 1 =>
      have hstored : Context.stored k.cpu.mem ((bootLayout hplaced p hlow hhigh).block 1).toNat =
          startContext v s h.mem p := by
        rw [hmem]
        exact hcreated.stored
      rw [hstored, hcreated.esp]
      exact ⟨Nat.add_le_add_left (by decide) p, Nat.le_refl _⟩

/-- `initTasking` goes through if the heap has room. -/
theorem initTasking_ok (v : Statics) (s : Cpu)
    (hroom : ∀ m, ∃ r, kmalloc { h with mem := m } 4000 = .ok r) :
    ∃ k h', initTasking v s h = .ok (k, h') := by
  have hcreate : ∀ m task main flags pagedir,
      ∃ h', createTask { h with mem := m } task main flags pagedir = .ok h' := by
    intro m task main flags pagedir
    obtain ⟨r, hr⟩ := hroom (setFields m task.toNat [(0, 0), (4, 0), (8, 0), (12, 0), (16, 0),
      (20, 0), (36, flags), (32, main), (40, pagedir)])
    exact ⟨_, (congrArg (· >>= _) hr).trans (ok_bind r _)⟩
  obtain ⟨h', hh'⟩ := hcreate (readFlags v s h.mem) v.otherTask v.otherMain
    (word (readFlags v s h.mem) (v.mainTask.toNat + 36))
    (word (readFlags v s h.mem) (v.mainTask.toNat + 40))
  exact ⟨_, _, (congrArg (· >>= _) hh').trans (ok_bind h' _)⟩

/-- **The first yields.**  After `initTasking` on a sound heap, the first yield enters
`otherMain` with cleared registers, 4096 bytes behind the start of an object of 4000 bytes,
and stores its entry in the last 4 of them.  When the other task has yielded back,
the main task goes on behind its call, with its registers and its stack. -/
theorem initTasking_yields (hclient : Client h live) (hplaced : Placed v lo hi)
    (hesp : lo + yieldRoom ≤ (s.reg .esp).toNat) (hesp' : (s.reg .esp).toNat ≤ hi)
    (hrun : initTasking v s h = .ok (k, h')) (ret : Word32) :
    ∃ p hlow hhigh, Client h' ({ ptr := p, align := 4, size := 4000 } :: live) ∧
      Context.current (yield k ret).cpu = startContext v s h.mem p ∧
      word (yield k ret).cpu.mem (p + 4092) = v.otherMain ∧
      ∀ events ret', yields events = 0 →
        LawfulRun (bootLayout hplaced p hlow hhigh) k (.yield ret :: events ++ [.yield ret']) →
        let k' := runEvents k (.yield ret :: events ++ [.yield ret'])
        k'.runningTask = v.mainTask ∧ Context.current k'.cpu = Context.left s ret ∧
          ∀ x, (s.reg .esp).toNat ≤ x → x < hi → k'.cpu.mem x = k.cpu.mem x := by
  unfold yieldRoom at hesp
  obtain ⟨p, hcreated⟩ := initTasking_created hclient hplaced (by omega) hesp' hrun
  obtain ⟨hlow, hstrict⟩ := hcreated.within
  have hhigh := Nat.le_of_lt hstrict
  have hring := hcreated.ring hplaced hlow hhigh
  have hreg : k.cpu.reg = s.reg := by rw [hcreated.cpu, Cpu.withMem_reg]
  have hroom : CanYield (bootLayout hplaced p hlow hhigh) k.cpu 0 := by
    unfold CanYield yieldRoom
    rw [hreg]
    exact ⟨hesp, hesp'⟩
  have hnext : Ring.nextContext (bootLayout hplaced p hlow hhigh) k 0 =
      startContext v s h.mem p := by
    rw [Ring.nextContext, hcreated.cpu, Cpu.withMem_mem]
    exact hcreated.stored
  have hcurrent := (hring.yielded hroom ret).2.1
  have hentry := hring.yield_enters hroom ret
  rw [hnext] at hcurrent hentry
  rw [hcreated.esp] at hentry
  refine ⟨p, hlow, hhigh, hcreated.client, hcurrent, hentry, fun events ret' hyields hlaw => ?_⟩
  have hleft : Context.left k.cpu ret = Context.left s ret := by rw [hcreated.cpu]; rfl
  have hreturns := yield_returns hring hyields hlaw
  rw [hleft, hreg] at hreturns
  exact hreturns

end

/-- The kernel before `initTasking`, with records at `0xC0200000`. -/
def bootStatics : Statics where
  mainTask := 0xC0200000
  otherTask := 0xC0200040
  otherMain := 0xC0101000

def booting : Cpu where
  reg := fun r => if r = .esp then 0xC0302000 else 0
  seg := fun r => if r = .cs then 0x8 else 0x10
  eip := 0xC0100000
  eflags := 0x202
  cr3 := 0x9000
  mem := fun _ => 0

theorem booting_placed : Placed bootStatics 0xC0300000 0xC0303000 where
  mainLow := by decide
  otherLow := by decide
  stackLow := by decide
  records := by decide
  stackMain := by decide
  stackOther := by decide

/-- A heap that has not been used yet has room for the stack. -/
theorem kmalloc_start (m : Mem) : ∃ r, kmalloc (start m).heap 4000 = .ok r := by
  have hroom : allocate [] (alignTo 4000 8) 4 ≠ none := by decide
  rcases (invariant_start m).serve aligns_four (by decide : 4000 ≤ heapSize) with
    ⟨hnone, -⟩ | ⟨b, blocks', h', -, hrun, -⟩
  · exact absurd hnone hroom
  · exact ⟨(b.data, h'), hrun⟩

theorem booting_yields : ∃ k h', initTasking bootStatics booting (start fun _ => 0).heap =
    .ok (k, h') ∧ (Context.current (yield k 0xC0101100).cpu).eip = bootStatics.otherMain := by
  have hroom : ∀ m, ∃ r, kmalloc { (start fun _ => 0).heap with mem := m } 4000 = .ok r :=
    kmalloc_start
  obtain ⟨k, h', hrun⟩ := initTasking_ok bootStatics booting hroom
  have hclient : Client (start fun _ => 0).heap [] := ⟨[], invariant_start _⟩
  obtain ⟨p, -, -, -, hcurrent, -⟩ := initTasking_yields hclient booting_placed (by decide)
    (by decide) hrun 0xC0101100
  refine ⟨k, h', hrun, ?_⟩
  rw [hcurrent]
  rfl

end Task
end Medusa
