import Mathlib.Data.Fin.Basic
import Mathlib.Data.Fin.VecNotation
import Medusa.Machine.Run
import Medusa.Task.Switch

/-!
# Cooperative tasks

`yield` of `task.c` runs the successor of the running task in a ring.  A `Layout`
says where the `Task` records and the stacks of a ring of `n` tasks lie; between two
yields the running task computes what it likes, as long as it keeps off the records
and off the stacks of the others.  Whatever the others do, a task that yields goes
on, one round later, with the registers and the stack that it left.
-/

namespace Medusa
namespace Task

open Machine

/-- The offset of `next` in a `Task`, behind the registers. -/
def nextOffset : Nat := contextSize

/-- `sizeof(Task)`. -/
def taskSize : Nat := 48

/-- The processor and the pointer `runningTask`. -/
structure Tasking where
  cpu : Cpu
  runningTask : Word32

/-- The processor when `yield` has called `switchTask`: the addresses of both blocks
and the address to return to are on the stack. -/
def callSwitch (s : Cpu) (old new ret : Word32) : Cpu := s.pushes [new, old, ret]

/-- `yield`, where `ret` is the address behind its call of `switchTask`. -/
def yield (k : Tasking) (ret : Word32) : Tasking :=
  let last := k.runningTask
  let next := word k.cpu.mem (last.toNat + nextOffset)
  { cpu := run (callSwitch k.cpu last next ret) switchTask, runningTask := next }

/-! ## Where the tasks are -/

/-- The `Task` records and the stacks `[lo, hi)` of `n` tasks. -/
structure Layout (n : Nat) where
  block : Fin n → Word32
  lo : Fin n → Nat
  hi : Fin n → Nat
  block_fits : ∀ i, (block i).toNat + taskSize ≤ 2 ^ 32
  stack_fits : ∀ i, hi i ≤ 2 ^ 32
  blocks_apart : ∀ i j, i ≠ j →
    (block i).toNat + taskSize ≤ (block j).toNat ∨ (block j).toNat + taskSize ≤ (block i).toNat
  stacks_apart : ∀ i j, i ≠ j → hi i ≤ lo j ∨ hi j ≤ lo i
  stack_block : ∀ i j, (block i).toNat + taskSize ≤ lo j ∨ hi j ≤ (block i).toNat

/-- The bytes of its stack that a call of `yield` needs: three words for the call and
what `switchTask` uses. -/
def yieldRoom : Nat := 60

variable {n : Nat}

/-- Task `i` runs; the records are linked in a ring, and the tasks that do not run have
stack pointers in their stacks. -/
structure Ring (L : Layout (n + 2)) (k : Tasking) (i : Fin (n + 2)) : Prop where
  running : k.runningTask = L.block i
  next : ∀ j, word k.cpu.mem ((L.block j).toNat + nextOffset) = L.block (j + 1)
  asleep : ∀ j, j ≠ i →
    L.lo j + 4 ≤ (Context.stored k.cpu.mem (L.block j).toNat).esp.toNat ∧
      (Context.stored k.cpu.mem (L.block j).toNat).esp.toNat ≤ L.hi j

/-- What a task finds when it goes on after a call of `yield`: the arguments of the
call are still on its stack. -/
def Context.left (s : Cpu) (ret : Word32) : Context :=
  { Context.current s with esp := s.reg .esp - 8#32, eip := ret }

/-- The running task may yield: its stack pointer is in its stack, with room left. -/
def CanYield (L : Layout n) (s : Cpu) (i : Fin n) : Prop :=
  L.lo i + yieldRoom ≤ (s.reg .esp).toNat ∧ (s.reg .esp).toNat ≤ L.hi i

instance (L : Layout n) (s : Cpu) (i : Fin n) : Decidable (CanYield L s i) :=
  inferInstanceAs (Decidable (_ ∧ _))

/-! ## One yield -/

section Yield

variable {L : Layout (n + 2)} {k : Tasking} {i : Fin (n + 2)} {ret : Word32}

theorem add_one_ne (i : Fin (n + 2)) : i + 1 ≠ i := by
  intro h
  have hval := congrArg Fin.val h
  rw [Fin.val_add_one] at hval
  split_ifs at hval with hlast
  · rw [hlast, Fin.val_last] at hval
    omega
  · omega

theorem callSwitch_top {s : Cpu} (old new ret : Word32) (h : 12 ≤ (s.reg .esp).toNat) :
    Top (callSwitch s old new ret) ((s.reg .esp).toNat - 12) [ret, old, new] ∧
      ∀ lo hi, hi ≤ (s.reg .esp).toNat - 12 ∨ (s.reg .esp).toNat ≤ lo →
        Agree s.mem (callSwitch s old new ret).mem lo hi := by
  have hempty := top_empty s
  exact ⟨hempty.pushes [new, old, ret] (by simpa using h), fun lo hi hout =>
    hempty.agree_pushes [new, old, ret] (by simpa using h) lo hi (by simpa using hout)⟩

/-- What the caller of `switchTask` finds afterwards. -/
theorem returning_callSwitch {s : Cpu} {old new : Word32} (h : 12 ≤ (s.reg .esp).toNat) :
    Context.returning (callSwitch s old new ret) = Context.left s ret := by
  obtain ⟨htop, -⟩ := callSwitch_top old new ret h
  obtain ⟨-, -, hflags, hcr3⟩ := s.pushes_rest [new, old, ret]
  have hreg := fun r hr => s.pushes_reg [new, old, ret] (r := r) hr
  have hesp : (callSwitch s old new ret).reg .esp + 4#32 = s.reg .esp - 8#32 := by
    rw [htop.esp]
    apply BitVec.eq_of_toNat_eq
    have hlt := (s.reg .esp).isLt
    simp only [BitVec.toNat_add, BitVec.toNat_sub, BitVec.toNat_ofNat]
    omega
  simp only [Context.returning, Context.current, Context.left, htop.top_eq, hesp]
  simp only [callSwitch, hflags, hcr3, hreg _ (show Reg.eax ≠ .esp by decide),
    hreg _ (show Reg.ebx ≠ .esp by decide), hreg _ (show Reg.ecx ≠ .esp by decide),
    hreg _ (show Reg.edx ≠ .esp by decide), hreg _ (show Reg.esi ≠ .esp by decide),
    hreg _ (show Reg.edi ≠ .esp by decide), hreg _ (show Reg.ebp ≠ .esp by decide)]

theorem Layout.block_injective (L : Layout n) : Function.Injective L.block := by
  intro i j heq
  by_contra h
  have hapart := L.blocks_apart i j h
  rw [heq] at hapart
  unfold taskSize at hapart
  omega

/-- A stack has no byte of a block. -/
theorem Layout.apart (L : Layout n) (j l : Fin n) {a b : Nat} (ha : L.lo l ≤ a) (hb : b ≤ L.hi l) :
    Apart (L.block j) a b := by
  have hfit := L.block_fits j
  have hout := L.stack_block j l
  unfold taskSize at hfit hout
  exact ⟨by unfold contextSize; omega, by unfold contextSize; omega⟩

/-- The registers that the next task has stored. -/
def Ring.nextContext (L : Layout (n + 2)) (k : Tasking) (i : Fin (n + 2)) : Context :=
  Context.stored k.cpu.mem (L.block (i + 1)).toNat

theorem CanYield.target (hroom : CanYield L k.cpu i) (ret : Word32) :
    Context.target (callSwitch k.cpu (L.block i) (L.block (i + 1)) ret) (L.block i)
      (L.block (i + 1)) = Ring.nextContext L k i := by
  unfold CanYield yieldRoom at hroom
  have hstack := L.stack_block (i + 1) i
  obtain ⟨-, hagree⟩ := callSwitch_top (s := k.cpu) (L.block i) (L.block (i + 1)) ret (by omega)
  rw [Context.target, if_neg (L.block_injective.ne (add_one_ne i))]
  unfold taskSize at hstack
  exact Context.stored_congr (hagree _ _ (by unfold contextSize; omega))

/-- A yield is a well-formed call of `switchTask`. -/
theorem Ring.call (h : Ring L k i) (hroom : CanYield L k.cpu i) (ret : Word32) :
    Call (callSwitch k.cpu (L.block i) (L.block (i + 1)) ret) (L.block i) (L.block (i + 1))
      ((k.cpu.reg .esp).toNat - 12) := by
  have htarget := hroom.target ret
  obtain ⟨hlo, hhi⟩ := h.asleep (i + 1) (add_one_ne i)
  unfold CanYield yieldRoom at hroom
  obtain ⟨htop, -⟩ := callSwitch_top (s := k.cpu) (L.block i) (L.block (i + 1)) ret (by omega)
  have hblocks := L.blocks_apart i (i + 1) (add_one_ne i).symm
  have hfit := L.block_fits i
  unfold taskSize at hblocks hfit
  refine ⟨⟨ret, htop⟩, by omega, L.apart i i (by omega) (by omega),
    L.apart (i + 1) i (by omega) (by omega), Or.inr ?_, ?_, ?_, ?_⟩
  · exact ⟨by unfold contextSize; omega, by unfold contextSize; omega⟩
  · rw [htarget]
    exact le_trans (by omega) hlo
  · rw [htarget]
    exact L.apart i (i + 1) (by unfold Ring.nextContext; omega) hhi
  · rw [htarget]
    exact L.apart (i + 1) (i + 1) (by unfold Ring.nextContext; omega) hhi

theorem Ring.yield_eq (h : Ring L k i) (ret : Word32) : yield k ret =
    ⟨run (callSwitch k.cpu (L.block i) (L.block (i + 1)) ret) switchTask, L.block (i + 1)⟩ := by
  simp only [yield, h.running, h.next i]

/-- What a yield leaves alone. -/
theorem Ring.yield_frame (h : Ring L k i) (hroom : CanYield L k.cpu i) (ret : Word32) {lo hi : Nat}
    (hstack : hi ≤ (k.cpu.reg .esp).toNat - yieldRoom ∨ (k.cpu.reg .esp).toNat ≤ lo)
    (hblock : hi ≤ (L.block i).toNat ∨ (L.block i).toNat + contextSize ≤ lo)
    (hnext : hi ≤ (Ring.nextContext L k i).esp.toNat - 4 ∨
      (Ring.nextContext L k i).esp.toNat ≤ lo) :
    Agree k.cpu.mem (yield k ret).cpu.mem lo hi := by
  have hcall := h.call hroom ret
  have hcan := hroom
  unfold CanYield yieldRoom at hcan
  unfold yieldRoom at hstack
  obtain ⟨-, hagree⟩ := callSwitch_top (s := k.cpu) (L.block i) (L.block (i + 1)) ret (by omega)
  intro x hlo hhi
  rw [h.yield_eq, hcall.frame lo hi (by omega) hblock (by rw [hroom.target]; exact hnext) x hlo hhi]
  exact hagree lo hi (by omega) x hlo hhi

/-- The stack of another task, from its stack pointer on. -/
theorem Ring.yield_stack (h : Ring L k i) (hroom : CanYield L k.cpu i) (ret : Word32)
    {j : Fin (n + 2)} (hj : j ≠ i) :
    Agree k.cpu.mem (yield k ret).cpu.mem
      (Context.stored k.cpu.mem (L.block j).toNat).esp.toNat (L.hi j) := by
  have hcan := hroom
  unfold CanYield yieldRoom at hcan
  obtain ⟨hlo, -⟩ := h.asleep j hj
  have happart := L.stacks_apart j i hj
  have hblock := L.stack_block i j
  unfold taskSize at hblock
  apply h.yield_frame hroom ret
  · unfold yieldRoom
    omega
  · unfold contextSize
    omega
  · by_cases hnext : j = i + 1
    · rw [hnext]
      exact Or.inr (Nat.le_refl _)
    · obtain ⟨hlo', hhi'⟩ := h.asleep (i + 1) (add_one_ne i)
      have happart' := L.stacks_apart j (i + 1) hnext
      unfold Ring.nextContext
      omega

/-- The stack of the task that yields. -/
theorem Ring.yield_own (h : Ring L k i) (hroom : CanYield L k.cpu i) (ret : Word32) :
    Agree k.cpu.mem (yield k ret).cpu.mem (k.cpu.reg .esp).toNat (L.hi i) := by
  have hcan := hroom
  unfold CanYield yieldRoom at hcan
  obtain ⟨hlo, hhi⟩ := h.asleep (i + 1) (add_one_ne i)
  have hblock := L.stack_block i i
  have happart := L.stacks_apart i (i + 1) (add_one_ne i).symm
  unfold taskSize at hblock
  apply h.yield_frame hroom ret
  · exact Or.inr (Nat.le_refl _)
  · unfold contextSize
    omega
  · unfold Ring.nextContext
    omega

/-- The record of another task, and the link of every task. -/
theorem Ring.yield_record (h : Ring L k i) (hroom : CanYield L k.cpu i) (ret : Word32)
    (j : Fin (n + 2)) {lo : Nat} (hlo : (L.block j).toNat ≤ lo)
    (hown : j = i → (L.block j).toNat + contextSize ≤ lo) :
    Agree k.cpu.mem (yield k ret).cpu.mem lo ((L.block j).toNat + taskSize) := by
  have hcan := hroom
  unfold CanYield yieldRoom at hcan
  obtain ⟨hlo', hhi'⟩ := h.asleep (i + 1) (add_one_ne i)
  have hstack := L.stack_block j i
  have hstack' := L.stack_block j (i + 1)
  unfold taskSize at *
  apply h.yield_frame hroom ret
  · unfold yieldRoom
    omega
  · by_cases hj : j = i
    · subst hj
      exact Or.inr (hown rfl)
    · have happart := L.blocks_apart j i hj
      unfold taskSize at happart
      unfold contextSize
      omega
  · unfold Ring.nextContext
    omega

/-- The registers that another task has stored. -/
theorem Ring.yield_stored (h : Ring L k i) (hroom : CanYield L k.cpu i) (ret : Word32)
    {j : Fin (n + 2)} (hj : j ≠ i) : Context.stored (yield k ret).cpu.mem (L.block j).toNat =
      Context.stored k.cpu.mem (L.block j).toNat :=
  Context.stored_congr ((h.yield_record hroom ret j (Nat.le_refl _) fun heq => absurd heq hj).mono
    (Nat.le_refl _) (by unfold taskSize contextSize; omega))

/-- **One yield.**  The next task goes on with the registers it had stored, and the
record of the task that yields holds the registers it will go on with. -/
theorem Ring.yielded (h : Ring L k i) (hroom : CanYield L k.cpu i) (ret : Word32) :
    Ring L (yield k ret) (i + 1) ∧
      Context.current (yield k ret).cpu = Ring.nextContext L k i ∧
      Context.stored (yield k ret).cpu.mem (L.block i).toNat = Context.left k.cpu ret := by
  have hcan := hroom
  unfold CanYield yieldRoom at hcan
  obtain ⟨hcurrent, hstored, -, -⟩ := (h.call hroom ret).exchanged
  rw [hroom.target] at hcurrent
  rw [returning_callSwitch (by omega)] at hstored
  have hyield := h.yield_eq ret
  refine ⟨⟨by rw [hyield], fun j => ?_, fun j hj => ?_⟩, by rw [hyield]; exact hcurrent,
    by rw [hyield]; exact hstored⟩
  · rw [← h.next j]
    apply word_congr
    exact (h.yield_record hroom ret j (Nat.le_add_right _ _) fun _ => Nat.le_refl _).mono
      (Nat.le_refl _) (by unfold taskSize nextOffset contextSize; omega)
  · by_cases hi : j = i
    · subst hi
      rw [hyield, hstored]
      have hesp : (Context.left k.cpu ret).esp.toNat = (k.cpu.reg .esp).toNat - 8 := by
        simp only [Context.left, BitVec.toNat_sub, BitVec.toNat_ofNat]
        have hlt := (k.cpu.reg .esp).isLt
        omega
      rw [hesp]
      omega
    · rw [h.yield_stored hroom ret hi]
      exact h.asleep j hi

/-- The next task is entered through the word below its stack pointer. -/
theorem Ring.yield_enters (h : Ring L k i) (hroom : CanYield L k.cpu i) (ret : Word32) :
    word (yield k ret).cpu.mem ((Ring.nextContext L k i).esp.toNat - 4) =
      (Ring.nextContext L k i).eip := by
  obtain ⟨-, -, hmem⟩ := (h.call hroom ret).switched
  rw [hroom.target] at hmem
  rw [h.yield_eq, hmem, resumeWrites, word_setWord_self]

end Yield

/-! ## Runs -/

inductive Event where
  | work (f : Cpu → Cpu)
  | yield (ret : Word32)

def step (k : Tasking) : Event → Tasking
  | .work f => { k with cpu := f k.cpu }
  | .yield ret => yield k ret

def runEvents (k : Tasking) (events : List Event) : Tasking := events.foldl step k

def yields : List Event → Nat
  | [] => 0
  | .work _ :: events => yields events
  | .yield _ :: events => yields events + 1

/-- What the running task may do: compute off the records and off what the others have
on their stacks, and yield with room on its own. -/
def Lawful (L : Layout n) (k : Tasking) (e : Event) : Prop :=
  ∀ i, k.runningTask = L.block i →
    match e with
    | .work f =>
      (∀ j, Agree k.cpu.mem (f k.cpu).mem (L.block j).toNat ((L.block j).toNat + taskSize)) ∧
        ∀ j, j ≠ i → Agree k.cpu.mem (f k.cpu).mem
          (Context.stored k.cpu.mem (L.block j).toNat).esp.toNat (L.hi j)
    | .yield _ => CanYield L k.cpu i

/-- Every event of a run is lawful. -/
def LawfulRun (L : Layout n) : Tasking → List Event → Prop :=
  Throughout (fun k e => some (step k e)) (Lawful L)

/-- The task whose turn it is at time `t`. -/
def turn (n t : Nat) : Fin (n + 2) := ⟨t % (n + 2), Nat.mod_lt t (by omega)⟩

theorem turn_succ (n t : Nat) : turn n t + 1 = turn n (t + 1) := by
  apply Fin.ext
  rw [Fin.val_add]
  simp [turn]

/-- A task has its turn once in every round. -/
theorem turn_ne {t u : Nat} (hlt : t < u) (hround : u < t + (n + 2)) : turn n t ≠ turn n u := by
  intro h
  have hval : t % (n + 2) = u % (n + 2) := congrArg Fin.val h
  have hdvd := Nat.dvd_of_mod_eq_zero (Nat.sub_mod_eq_zero_of_mod_eq hval.symm)
  have hle := Nat.le_of_dvd (by omega) hdvd
  omega

theorem turn_round (n t : Nat) : turn n (t + (n + 2)) = turn n t :=
  Fin.ext (Nat.add_mod_right t (n + 2))

theorem exists_turn (i : Fin (n + 2)) : turn n i.val = i := Fin.ext (Nat.mod_eq_of_lt i.isLt)

/-- Task `j` sleeps: it has stored `c`, and its stack is as it was in `m`. -/
structure Asleep (L : Layout n) (k : Tasking) (j : Fin n) (c : Context) (m : Mem) : Prop where
  stored : Context.stored k.cpu.mem (L.block j).toNat = c
  stack : Agree m k.cpu.mem c.esp.toNat (L.hi j)

section Run

variable {L : Layout (n + 2)} {k : Tasking} {t : Nat} {m : Mem} {c : Context}

theorem Ring.work_stored {i : Fin (n + 2)} (h : Ring L k i) {f : Cpu → Cpu}
    (hlaw : Lawful L k (.work f)) (j : Fin (n + 2)) :
    Context.stored (f k.cpu).mem (L.block j).toNat =
      Context.stored k.cpu.mem (L.block j).toNat :=
  Context.stored_congr (((hlaw i h.running).1 j).mono (Nat.le_refl _)
    (by unfold contextSize taskSize; omega))

/-- A computation of the running task. -/
theorem Ring.work {i : Fin (n + 2)} (h : Ring L k i) {f : Cpu → Cpu} (hlaw : Lawful L k (.work f)) :
    Ring L (step k (.work f)) i ∧
      ∀ j, j ≠ i → Asleep L k j c m → Asleep L (step k (.work f)) j c m := by
  obtain ⟨hrecords, hstacks⟩ := hlaw i h.running
  have hstored := h.work_stored hlaw
  refine ⟨⟨h.running, fun j => ?_, fun j hj => ?_⟩, fun j hj hs => ⟨?_, ?_⟩⟩
  · rw [← h.next j]
    exact word_congr ((hrecords j).mono (Nat.le_add_right _ _)
      (by unfold nextOffset taskSize contextSize; omega))
  · exact (hstored j).symm ▸ h.asleep j hj
  · exact (hstored j).trans hs.stored
  · have hstack := hstacks j hj
    rw [hs.stored] at hstack
    exact Agree.trans hs.stack hstack

/-- A task sleeps on while others yield. -/
theorem Asleep.sleeps_on {i j : Fin (n + 2)} {ret : Word32} (hs : Asleep L k j c m) (h : Ring L k i)
    (hroom : CanYield L k.cpu i) (hj : j ≠ i) : Asleep L (step k (.yield ret)) j c m := by
  have hstack := h.yield_stack hroom ret hj
  rw [hs.stored] at hstack
  exact ⟨(h.yield_stored hroom ret hj).trans hs.stored, Agree.trans hs.stack hstack⟩

/-- **Sleep.**  In a lawful run the tasks take turns, and a task whose turn does not come
sleeps through it. -/
theorem run_sleep (h : Ring L k (turn n t)) {events : List Event} (hlaw : LawfulRun L k events)
    {t₀ : Nat} (hlt : t₀ < t) (hround : t + yields events < t₀ + (n + 2))
    (hs : Asleep L k (turn n t₀) c m) :
    Ring L (runEvents k events) (turn n (t + yields events)) ∧
      Asleep L (runEvents k events) (turn n t₀) c m := by
  induction events generalizing k t with
  | nil => exact ⟨h, hs⟩
  | cons e events ih =>
    obtain ⟨hfirst, hrest⟩ := hlaw
    have hless : t < t₀ + (n + 2) := by
      unfold yields at hround
      split at hround <;> omega
    have hne : turn n t₀ ≠ turn n t := turn_ne hlt hless
    cases e with
    | work f =>
      obtain ⟨hring, hkeep⟩ := h.work (c := c) (m := m) hfirst
      exact ih hring (hrest _ rfl) hlt hround (hkeep _ hne hs)
    | yield ret =>
      have hroom := hfirst _ h.running
      have hring := (h.yielded hroom ret).1
      rw [turn_succ] at hring
      rw [yields] at hround ⊢
      rw [show t + (yields events + 1) = t + 1 + yields events by omega]
      exact ih hring (hrest _ rfl) (by omega) (by omega) (hs.sleeps_on h hroom hne)

/-- A task that yields falls asleep with what it will go on with. -/
theorem Ring.falls_asleep {i : Fin (n + 2)} (h : Ring L k i) (hroom : CanYield L k.cpu i)
    (ret : Word32) :
    Asleep L (step k (.yield ret)) i (Context.left k.cpu ret) (yield k ret).cpu.mem :=
  ⟨(h.yielded hroom ret).2.2, Agree.refl _ _ _⟩

/-- A task wakes up with the registers it had stored, and its stack is as it was. -/
theorem Asleep.wakes {i : Fin (n + 2)} (hs : Asleep L k (i + 1) c m) (h : Ring L k i)
    (hroom : CanYield L k.cpu i) (ret : Word32) :
    Context.current (yield k ret).cpu = c ∧
      Agree m (yield k ret).cpu.mem c.esp.toNat (L.hi (i + 1)) := by
  have hstack := h.yield_stack hroom ret (add_one_ne i)
  rw [hs.stored] at hstack
  refine ⟨?_, Agree.trans hs.stack hstack⟩
  rw [(h.yielded hroom ret).2.1]
  exact hs.stored

theorem runEvents_append (k : Tasking) (events more : List Event) :
    runEvents k (events ++ more) = runEvents (runEvents k events) more := List.foldl_append

theorem lawfulRun_append {events more : List Event} : LawfulRun L k (events ++ more) ↔
    LawfulRun L k events ∧ LawfulRun L (runEvents k events) more := by
  induction events generalizing k with
  | nil => exact ⟨fun h => ⟨trivial, h⟩, And.right⟩
  | cons e events ih =>
    constructor
    · rintro ⟨hfirst, hrest⟩
      obtain ⟨hleft, hright⟩ := ih.mp (hrest _ rfl)
      exact ⟨throughout_cons hfirst rfl hleft, hright⟩
    · rintro ⟨⟨hfirst, hrest⟩, hright⟩
      exact throughout_cons hfirst rfl (ih.mpr ⟨hrest _ rfl, hright⟩)

/-- **A yield returns.**  In a ring of `n + 2` tasks, whatever the tasks compute in between,
a task that yields runs again when each of the others has yielded once.  It goes on
behind its call with the registers it had, its stack pointer included, and its stack is
as it left it. -/
theorem yield_returns {i : Fin (n + 2)} {ret ret' : Word32} (h : Ring L k i)
    {events : List Event} (hyields : yields events = n)
    (hlaw : LawfulRun L k (.yield ret :: events ++ [.yield ret'])) :
    let k' := runEvents k (.yield ret :: events ++ [.yield ret'])
    k'.runningTask = L.block i ∧ Context.current k'.cpu = Context.left k.cpu ret ∧
      ∀ x, (k.cpu.reg .esp).toNat ≤ x → x < L.hi i → k'.cpu.mem x = k.cpu.mem x := by
  obtain ⟨hbefore, hlast⟩ := lawfulRun_append.mp hlaw
  obtain ⟨hfirst, hmiddle⟩ := hbefore
  have hroom := hfirst i h.running
  have hring := (h.yielded hroom ret).1
  have hasleep := h.falls_asleep hroom ret
  have hown := h.yield_own hroom ret
  rw [← exists_turn i] at hring hasleep
  rw [turn_succ] at hring
  obtain ⟨hring', hasleep'⟩ := run_sleep hring (hmiddle _ rfl) (Nat.lt_succ_self _)
    (by omega) hasleep
  have hturn : turn n (i.val + 1 + yields events) + 1 = turn n i.val := by
    rw [turn_succ, hyields, show i.val + 1 + n + 1 = i.val + (n + 2) by omega, turn_round]
  have hroom' := hlast.1 _ hring'.running
  rw [← hturn] at hasleep'
  obtain ⟨hcurrent, hstack⟩ := hasleep'.wakes hring' hroom' ret'
  rw [hturn, exists_turn] at hstack
  have hend := (hring'.yielded hroom' ret').1.running
  rw [hturn, exists_turn] at hend
  simp only [runEvents_append]
  refine ⟨hend, hcurrent, fun x hlo hhi => ?_⟩
  have hesp : (Context.left k.cpu ret).esp.toNat ≤ (k.cpu.reg .esp).toNat := by
    have hlt := (k.cpu.reg .esp).isLt
    obtain ⟨hcan, -⟩ := hroom
    unfold yieldRoom at hcan
    simp only [Context.left, BitVec.toNat_sub, BitVec.toNat_ofNat]
    omega
  exact (hstack x (by omega) hhi).trans (hown x hlo hhi)

end Run

/-- The main task and another one, as `initTasking` links them. -/
def twoTasks : Layout 2 where
  block := ![0x2000#32, 0x3000#32]
  lo := ![0x4000, 0x6000]
  hi := ![0x5000, 0x7000]
  block_fits := by decide
  stack_fits := by decide
  blocks_apart := by decide
  stacks_apart := by decide
  stack_block := by decide

/-- The main task runs, and the other one has not run yet. -/
def mainRunning : Tasking where
  cpu :=
    { reg := fun r => if r = .esp then 0x4800#32 else 5#32
      seg := fun _ => 0x10#16
      eip := 0x100#32
      eflags := 0x202#32
      cr3 := 0x9000#32
      mem := setFields (fun _ => 0#8) 0 [(0x202c, 0x3000#32), (0x302c, 0x2000#32),
        (0x3018, 0x6800#32), (0x3020, 0x777#32)] }
  runningTask := 0x2000#32

theorem mainRunning_ring : Ring (n := 0) twoTasks mainRunning 0 where
  running := rfl
  next := by decide
  asleep := by decide

end Task
end Medusa
