import Medusa.Heap.Client
import Medusa.Libc.Printf
import Medusa.Proc.RunCode

/-!
# The stack of a new process

The part of `proc_run_code` that brings the arguments to the new process, on the
memory that its directory shows: the copies in the kernel's heap, the strings on the
stack, the pointers to them, the vector's address and the count.  The directories
themselves are those of `RunCode`; neither the switch nor the pages of the code touch
heap or stack.

Every address that is stored to on the stack is kept, in order.
-/

namespace Medusa
namespace UserStack

open Machine Kernel Libc Heap
open Proc (procStackPages procKernelStackPages processSize argRounds)

/-! ## The code -/

/-- The memory with the heap in it, the static variable of `proc_run_code`, and the
addresses of the bytes that were stored on the stack. -/
structure State where
  heap : Heap.State
  tempPage : Nat
  stored : List Nat

abbrev State.mem (s : State) : Mem := s.heap.mem

/-- The state with another memory. -/
def State.setMem (s : State) (m : Mem) : State := { s with heap := { s.heap with mem := m } }

/-- The state after stores on the stack, at these addresses. -/
def State.push (s : State) (m : Mem) (addrs : List Nat) : State :=
  { s with heap := { s.heap with mem := m }, stored := s.stored ++ addrs }

/-- `*dst = c` on the stack. -/
def pushByte (s : State) (a : Nat) (c : BitVec 8) : State :=
  s.push (Function.update s.mem a c) [a]

/-- `*ustack_int = v`. -/
def pushWord (s : State) (a v : Nat) : State := s.push (write32 s.mem a v) (List.range' a 4)

def strlenLoop (m : Mem) (str : Nat) : Nat → Nat → Except Stop Nat
  | 0, _ => .error .fuel
  | fuel + 1, len =>
    if m (wrap (str + len)) = 0#8 then .ok len else strlenLoop m str fuel (len + 1)

def strlen (m : Mem) (str : Nat) : Except Stop Nat := strlenLoop m str (2 ^ 32) 0

def strdup (h : Heap.State) (s : Nat) : Except Stop (Nat × Heap.State) := do
  let len ← strlen h.mem s
  let i := wrap (len + 1)
  let (s2, h) ← kmalloc h i
  return (s2, if s2 ≠ 0 then { h with mem := memcpy h.mem s2 s i } else h)

/-- `while (*src && num--)`; the number is where `dst` has got. -/
def strncpyLoop (s : State) (dst src : Nat) : Nat → State × Nat
  | 0 => (s, dst)
  | num + 1 =>
    if s.mem src = 0#8 then (s, dst)
    else strncpyLoop (pushByte s dst (s.mem src)) (wrap (dst + 1)) (wrap (src + 1)) num

def strncpy (s : State) (dst src num : Nat) : State :=
  if dst ≠ 0 ∧ src ≠ 0 ∧ src ≠ dst then
    let (s, last) := strncpyLoop s dst src num
    pushByte s last 0#8
  else s

/-- `argv_copy[i] = strdup(argv[i])`. -/
def copyArg (argvCopy argv : Nat) (h : Heap.State) (i : Nat) : Except Stop Heap.State := do
  let (copy, h) ← strdup h (read32 h.mem (wrap (argv + 4 * i)))
  return { h with mem := write32 h.mem (wrap (argvCopy + 4 * i)) copy }

/-- One argument goes to the stack; the number is the next free byte. -/
def pushArg (argvCopy argvNew : Nat) (st : State × Nat) (i : Nat) : Except Stop (State × Nat) := do
  let (s, ustackChar) := st
  let arg := read32 s.mem (wrap (argvCopy + 4 * i))
  let len ← strlen s.mem arg
  let ustackChar := wsub ustackChar (wsub ustackChar len % 4)
  let dest := wsub ustackChar len
  let s := strncpy s dest arg len
  let s := s.setMem (write32 s.mem (wrap (argvNew + 4 * i)) dest)
  return ({ s with heap := kfree s.heap arg }, wsub ustackChar (wrap (len + 1)))

/-- `*(ustack_int--) = arg`. -/
def pushPointer (argvNew : Nat) (st : State × Nat) (i : Nat) : State × Nat :=
  let (s, ustackInt) := st
  (pushWord s ustackInt (read32 s.mem (wrap (argvNew + 4 * i))), wsub ustackInt 4)

/-- What is left behind: `arg_list.argv`, and `ustack_int` at the end. -/
structure Built where
  state : State
  argvNew : Nat
  ustackInt : Nat

def pushArgs (s : State) (argvCopy argc : Nat) : Except Stop Built := do
  let (argvNew, h) ← kmalloc s.heap (wrap (4 * argc))
  let (s, ustackChar) ← (List.range (argRounds argc)).foldlM (pushArg argvCopy argvNew)
    ({ s with heap := h }, 0xC0000000 - 1)
  let (s, ustackInt) := (List.range (argRounds argc)).foldl (pushPointer argvNew)
    (s, ustackChar &&& 0xFFFFFFFC)
  let argsptr := wrap (ustackInt + 4)
  let s := pushWord s ustackInt (if argRounds argc ≠ 0 then argsptr else 0)
  let ustackInt := wsub ustackInt 4
  let s := pushWord s ustackInt (argRounds argc)
  return { state := s, argvNew := argvNew, ustackInt := wsub ustackInt 4 }

def ensureTempPage (s : State) : Except Stop State :=
  if s.tempPage = 0 then do
    let (page, h) ← kamalloc s.heap 0x1000 0x1000
    return { s with heap := h, tempPage := page }
  else .ok s

/-- `proc_run_code` up to the stack's last word. -/
def procRunCode (s : State) (argv argc : Nat) : Except Stop Built := do
  let s ← ensureTempPage s
  let (argvCopy, h) ← kmalloc s.heap (wrap (4 * argc))
  let h ← (List.range (argRounds argc)).foldlM (copyArg argvCopy argv) h
  let (_, h) ← kmalloc h processSize
  let (_, h) ← alignedAlloc h 4 (0x1000 * procKernelStackPages)
  pushArgs { s with heap := h } argvCopy argc

theorem push_push (s : State) (m m' : Mem) (addrs addrs' : List Nat) :
    (s.push m addrs).push m' addrs' = s.push m' (addrs ++ addrs') := by
  simp only [State.push, List.append_assoc]

/-! ## Strings in memory -/

/-- Memory from `a` on holds the bytes and a terminator. -/
def StrAt (m : Mem) (a : Nat) (bytes : List (BitVec 8)) : Prop :=
  ∀ i, i ≤ bytes.length → m (a + i) = bytes.getD i 0#8

variable {m m' : Mem} {a : Nat} {bytes : List (BitVec 8)}

theorem StrAt.congr (hstr : StrAt m a bytes) (hm : Agree m m' a (a + bytes.length + 1)) :
    StrAt m' a bytes := by
  intro i hi
  rw [hm (a + i) (by omega) (by omega)]
  exact hstr i hi

theorem StrAt.ne_zero (hstr : StrAt m a bytes) (hnul : 0#8 ∉ bytes) {i : Nat}
    (hi : i < bytes.length) : m (a + i) ≠ 0#8 := by
  rw [hstr i hi.le, List.getD_eq_getElem _ _ hi]
  exact fun hzero => hnul (hzero ▸ List.getElem_mem hi)

theorem strlen_eq (hstr : StrAt m a bytes) (hnul : 0#8 ∉ bytes)
    (hend : a + bytes.length < 2 ^ 32) : strlen m a = .ok bytes.length := by
  have hloop : ∀ fuel len, len ≤ bytes.length → bytes.length < fuel + len →
      strlenLoop m a fuel len = .ok bytes.length := by
    intro fuel
    induction fuel with
    | zero => intro len hlen hfuel; omega
    | succ fuel ih =>
      intro len hlen hfuel
      rw [strlenLoop, wrap_of_lt (by omega)]
      rcases hlen.lt_or_eq with hlt | rfl
      · rw [if_neg (hstr.ne_zero hnul hlt)]
        exact ih (len + 1) hlt (by omega)
      · rw [if_pos]
        rw [hstr _ (Nat.le_refl _), List.getD_eq_default _ _ (Nat.le_refl _)]
  exact hloop (2 ^ 32) 0 (Nat.zero_le _) (by omega)

/-- The copying loop, on a target below its source. -/
theorem strncpyLoop_eq {s : State} {dst src num : Nat} (hbelow : dst + num ≤ src)
    (hend : src + num < 2 ^ 32) (hne : ∀ i, i < num → s.mem (src + i) ≠ 0#8) :
    ∃ m, strncpyLoop s dst src num = (s.push m (List.range' dst num), dst + num) ∧
      (∀ i, i < num → m (dst + i) = s.mem (src + i)) ∧
      ∀ x, x < dst ∨ dst + num ≤ x → m x = s.mem x := by
  induction num generalizing s dst src with
  | zero =>
    refine ⟨s.mem, ?_, fun i hi => absurd hi (Nat.not_lt_zero i), fun _ _ => rfl⟩
    rw [strncpyLoop, List.range'_zero, State.push, List.append_nil]
    rfl
  | succ num ih =>
    have hkeep : ∀ i, (pushByte s dst (s.mem src)).mem (src + 1 + i) = s.mem (src + 1 + i) :=
      fun i => Function.update_of_ne (by omega) _ _
    obtain ⟨m, hrun, hcopied, hout⟩ := @ih (pushByte s dst (s.mem src)) (dst + 1) (src + 1)
      (by omega) (by omega) fun i hi => by
        rw [hkeep, Nat.add_assoc, Nat.add_comm 1 i]
        exact hne (i + 1) (by omega)
    refine ⟨m, ?_, fun i hi => ?_, fun x hx => ?_⟩
    · have hfirst : s.mem src ≠ 0#8 := hne 0 (Nat.succ_pos num)
      rw [strncpyLoop, if_neg hfirst, wrap_of_lt (by omega), wrap_of_lt (by omega), hrun, pushByte,
        push_push, List.singleton_append, List.range'_succ, Nat.add_assoc, Nat.add_comm 1 num]
    · cases i with
      | zero =>
        rw [Nat.add_zero, Nat.add_zero, hout dst (.inl (Nat.lt_succ_self dst))]
        exact Function.update_self ..
      | succ i =>
        have hstep := hcopied i (by omega)
        rw [hkeep] at hstep
        rw [show dst + (i + 1) = dst + 1 + i by omega, show src + (i + 1) = src + 1 + i by omega]
        exact hstep
    · rw [hout x (by omega)]
      exact Function.update_of_ne (by omega) _ _

/-- `strncpy` told the length writes the string and, one byte further, its
terminator. -/
theorem strncpy_eq {s : State} {dst src : Nat} (hstr : StrAt s.mem src bytes) (hnul : 0#8 ∉ bytes)
    (hdst : 0 < dst) (hbelow : dst + bytes.length + 1 ≤ src) (hend : src + bytes.length < 2 ^ 32) :
    ∃ m, strncpy s dst src bytes.length = s.push m (List.range' dst (bytes.length + 1)) ∧
      StrAt m dst bytes ∧ ∀ x, x < dst ∨ dst + bytes.length + 1 ≤ x → m x = s.mem x := by
  obtain ⟨m, hrun, hcopied, hout⟩ := @strncpyLoop_eq s dst src bytes.length (by omega) hend
    fun i hi => hstr.ne_zero hnul hi
  refine ⟨Function.update m (dst + bytes.length) 0#8, ?_, fun i hi => ?_, fun x hx => ?_⟩
  · rw [strncpy, if_pos ⟨by omega, by omega, by omega⟩, hrun]
    show (s.push m _).push _ _ = _
    rw [push_push, List.range'_concat, Nat.one_mul]
    rfl
  · rcases hi.lt_or_eq with hlt | rfl
    · rw [Function.update_of_ne (by omega), hcopied i hlt]
      exact hstr i hi
    · rw [Function.update_self, List.getD_eq_default _ _ (Nat.le_refl _)]
  · rw [Function.update_of_ne (by omega)]
    exact hout x (by omega)

/-! ## Copies in the heap -/

/-- `strdup` goes as the list says and fills what it gets. -/
theorem strdup_filled {h : Heap.State} {live : List Live} {blocks : List Block} {s : Nat}
    (hinv : Invariant { heap := h, live := live } blocks) (hstr : StrAt h.mem s bytes)
    (hheld : Held live s (s + bytes.length + 1)) (hnul : 0#8 ∉ bytes)
    (hend : s + bytes.length < 2 ^ 32) (hsize : bytes.length + 1 ≤ heapSize) :
    (allocate blocks (alignTo (bytes.length + 1) 8) 4 = none ∧ strdup h s = .error .abort) ∨
    ∃ b blocks' h', allocate blocks (alignTo (bytes.length + 1) 8) 4 = some (b, blocks') ∧
      strdup h s = .ok (b.data, h') ∧ Filled h live b blocks' (bytes.length + 1) h' ∧
      StrAt h'.mem b.data bytes := by
  have hwrap : wrap (bytes.length + 1) = bytes.length + 1 :=
    wrap_of_lt (hsize.trans_lt (by decide))
  rw [strdup, strlen_eq hstr hnul hend, ok_bind, hwrap]
  rcases hinv.serve aligns_four hsize with ⟨hnone, habort⟩ | ⟨b, blocks', h₁, halloc, hrun, hgot⟩
  · refine .inl ⟨hnone, ?_⟩
    simp only [kmalloc, habort]
    rfl
  · have hfilled := hgot.filled hgot.room
    have hne : b.data ≠ 0 := hfilled.backs.ptr_ne
    have hapart := hheld.apart ⟨blocks', hfilled.invariant⟩
    dsimp only at hapart
    refine .inr ⟨b, blocks', _, halloc, ?_, @Filled.store h live b blocks' _ h₁
      (memcpy h₁.mem b.data s (bytes.length + 1)) hfilled fun x hx => memcpy_outside hx, ?_⟩
    · simp only [kmalloc, hrun, ok_bind, if_pos hne]
      rfl
    · intro i hi
      dsimp only
      rw [memcpy_apply (by omega) (by omega), hfilled.keeps _ _ hheld (s + i) (by omega) (by omega)]
      exact hstr i hi

end UserStack
end Medusa
