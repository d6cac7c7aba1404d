import Medusa.Task.Interrupted
import Medusa.Task.Yield

/-!
# Turns with interrupts

Runs of a ring of tasks in which `yield` may be interrupted between any two instructions
of its call.  An interrupted yield does what one does that runs alone, and then changes
bytes that no task is going to read, which is a lawful computation of the task that runs
next.  So a run with interrupts is a run without.
-/

namespace Medusa
namespace Task

open Machine Irq

variable {n : Nat}

/-- The call in `yield`: its pushes, and `switchTask`. -/
def yieldCode (last next ret : Word32) : List Instr :=
  [.pushImm next, .pushImm last, .pushImm ret] ++ switchTask

/-- The successor of the running task. -/
def Tasking.next (k : Tasking) : Word32 := word k.cpu.mem (k.runningTask.toNat + nextOffset)

/-- The running task has room on its stack for a yield and for a handler. -/
def Roomy (L : Layout n) (depth : Nat) (k : Tasking) : Prop :=
  ∀ i, k.runningTask = L.block i →
    L.lo i + yieldRoom + depth ≤ (k.cpu.reg .esp).toNat ∧ (k.cpu.reg .esp).toNat ≤ L.hi i

/-- A lawful run in which each yield may be interrupted.  An interrupt of a computation is
a part of the computation. -/
inductive Turns (L : Layout n) (H : Set Nat) (depth : Nat) : Tasking → List Event → Tasking → Prop
  | done (k : Tasking) : Turns L H depth k [] k
  | work {k k' : Tasking} {f : Cpu → Cpu} {events : List Event} (hlaw : Lawful L k (.work f))
      (h : Turns L H depth (step k (.work f)) events k') :
      Turns L H depth k (.work f :: events) k'
  | yield {k k' : Tasking} {ret : Word32} {t : Cpu} {events : List Event}
      (hroom : Roomy L depth k) (hrun : Interleaved exec (Interrupts H depth) k.cpu
        (yieldCode k.runningTask k.next ret) t)
      (h : Turns L H depth ⟨t, k.next⟩ events k') :
      Turns L H depth k (.yield ret :: events) k'

theorem Turns.split {L : Layout n} {H : Set Nat} {depth : Nat} {k k' : Tasking}
    {events more : List Event} (h : Turns L H depth k (events ++ more) k') :
    ∃ k₁, Turns L H depth k events k₁ ∧ Turns L H depth k₁ more k' := by
  induction events generalizing k with
  | nil => exact ⟨k, .done k, h⟩
  | cons e events ih =>
    cases h with
    | work hlaw h =>
      obtain ⟨k₁, hfirst, hrest⟩ := ih h
      exact ⟨k₁, .work hlaw hfirst, hrest⟩
    | yield hroom hrun h =>
      obtain ⟨k₁, hfirst, hrest⟩ := ih h
      exact ⟨k₁, .yield hroom hrun hfirst, hrest⟩

/-- The memory of the handlers is off the records and the stacks. -/
structure Sheltered (L : Layout n) (H : Set Nat) : Prop where
  record : ∀ i, Disjoint (Set.Ico (L.block i).toNat ((L.block i).toNat + taskSize)) H
  stack : ∀ i, Disjoint (Set.Ico (L.lo i) (L.hi i)) H

/-- The tasks that sleep have room on their stacks for a handler. -/
def Spacious (L : Layout n) (depth : Nat) (k : Tasking) (i : Fin n) : Prop :=
  ∀ j, j ≠ i → L.lo j + 4 + depth ≤ (Context.stored k.cpu.mem (L.block j).toNat).esp.toNat

/-! ## One interrupted yield -/

section One

variable {L : Layout (n + 2)} {H : Set Nat} {depth : Nat} {k : Tasking} {i : Fin (n + 2)}
  {ret : Word32} {t : Cpu}

theorem calm_arguments {s : Cpu} {lo e : Nat} {u v w : Word32} (hdepth : 80 ≤ depth)
    (he : (s.reg .esp).toNat = e + 4 + 4 + 4) (hroom : lo + depth ≤ e) :
    Calm (Interrupts H depth) (below H lo (e + 4 + 4 + 4)) s [.pushImm u, .pushImm v, .pushImm w]
      (below H lo e) := by
  have h1 : ((exec s (.pushImm u)).reg .esp).toNat = e + 4 + 4 := push_esp he
  have h2 : ((exec (exec s (.pushImm u)) (.pushImm v)).reg .esp).toNat = e + 4 := push_esp h1
  have h3 : ((exec (exec (exec s (.pushImm u)) (.pushImm v)) (.pushImm w)).reg .esp).toNat = e :=
    push_esp h2
  refine Calm.push (absorbs_below hdepth Set.Subset.rfl he (by omega)) he rfl rfl ?_
  refine Calm.push (absorbs_below hdepth Set.Subset.rfl h1 (by omega)) h1 rfl rfl ?_
  refine Calm.push (absorbs_below hdepth Set.Subset.rfl h2 (by omega)) h2 rfl rfl ?_
  exact Calm.nil (absorbs_below hdepth Set.Subset.rfl h3 hroom)

theorem Roomy.canYield (hroom : Roomy L depth k) (h : Ring L k i) : CanYield L k.cpu i := by
  obtain ⟨hlo, hhi⟩ := hroom i h.running
  exact ⟨by omega, hhi⟩

theorem Ring.undisturbed (h : Ring L k i) (hdepth : 80 ≤ depth) (hH : Sheltered L H)
    (hspace : Spacious L depth k i) (hroom : Roomy L depth k) (ret : Word32) :
    Undisturbed H depth (callSwitch k.cpu (L.block i) (L.block (i + 1)) ret) (L.block i)
      (L.block (i + 1)) ((k.cpu.reg .esp).toNat - 12) := by
  have hcan := hroom.canYield h
  have htarget := hcan.target ret
  obtain ⟨hlo, hhi⟩ := hroom i h.running
  obtain ⟨-, hhi'⟩ := h.asleep (i + 1) (add_one_ne i)
  have hlo' := hspace (i + 1) (add_one_ne i)
  have happart := L.stacks_apart i (i + 1) (add_one_ne i).symm
  change _ ≤ (Ring.nextContext L k i).esp.toNat at hlo'
  change (Ring.nextContext L k i).esp.toNat ≤ _ at hhi'
  unfold yieldRoom at hlo
  have hblock : ∀ j, Disjoint (block (L.block j)) H := fun j =>
    Set.disjoint_of_subset_left (Set.Ico_subset_Ico_right (by unfold taskSize contextSize; omega))
      (hH.record j)
  have hstack : ∀ j {a b : Nat}, L.lo j ≤ a → b ≤ L.hi j → Disjoint (Set.Ico a b) H :=
    fun j _ _ ha hb => Set.disjoint_of_subset_left (Set.Ico_subset_Ico ha hb) (hH.stack j)
  constructor
  case depth_ge => exact hdepth
  case room => omega
  case live => exact hstack i (by omega) (by omega)
  case old_off => exact hblock i
  case new_off => exact hblock (i + 1)
  case old_apart => exact L.apart i i (by omega) (by omega)
  case new_apart => exact L.apart (i + 1) i (by omega) (by omega)
  case target_room => rw [htarget]; omega
  case target_live => rw [htarget]; exact hstack (i + 1) (by omega) (by omega)
  case old_target => rw [htarget]; exact L.apart i (i + 1) (by omega) hhi'
  case new_target => rw [htarget]; exact L.apart (i + 1) (i + 1) (by omega) hhi'
  case apart => rw [htarget]; omega

/-- What interrupts leave changed when a yield is over. -/
def yieldResidue (L : Layout (n + 2)) (H : Set Nat) (depth : Nat) (k : Tasking)
    (i : Fin (n + 2)) : Set Nat :=
  residue H depth ((k.cpu.reg .esp).toNat - 12) (Ring.nextContext L k i).esp.toNat

/-- An interrupted yield ends as one that runs alone, off the residue. -/
theorem Ring.interrupted (h : Ring L k i) (hdepth : 80 ≤ depth) (hH : Sheltered L H)
    (hspace : Spacious L depth k i) (hroom : Roomy L depth k)
    (hrun : Interleaved exec (Interrupts H depth) k.cpu (yieldCode k.runningTask k.next ret) t) :
    Alike (yieldResidue L H depth k i) (yield k ret).cpu t ∧
      k.next = (yield k ret).runningTask := by
  have hcan := hroom.canYield h
  have hcalm := (h.call hcan ret).calm (h.undisturbed hdepth hH hspace hroom ret)
  have hnext : k.next = L.block (i + 1) := by rw [Tasking.next, h.running, h.next i]
  obtain ⟨hlo, -⟩ := hroom i h.running
  unfold yieldRoom at hlo
  rw [hcan.target] at hcalm
  rw [h.running, hnext] at hrun
  obtain ⟨e, he⟩ : ∃ e, (k.cpu.reg .esp).toNat = e + 4 + 4 + 4 :=
    ⟨(k.cpu.reg .esp).toNat - 12, by omega⟩
  have hpush : Calm (Interrupts H depth) (below H (e - 48 - depth) (e + 4 + 4 + 4)) k.cpu
      [.pushImm (L.block (i + 1)), .pushImm (L.block i), .pushImm ret]
      (below H (e - 48 - depth) e) := calm_arguments hdepth he (by omega)
  rw [yieldResidue, hnext, h.yield_eq]
  rw [he, show e + 4 + 4 + 4 - 12 = e by omega] at hcalm ⊢
  exact ⟨hpush.append hcalm _ _ (Alike.refl _ _) hrun, rfl⟩

/-- A byte that the residue leaves alone. -/
theorem not_mem_yieldResidue (h : Ring L k i) (hroom : Roomy L depth k)
    (hspace : Spacious L depth k i) {x : Nat} (hH : x ∉ H)
    (hown : x < L.lo i ∨ (k.cpu.reg .esp).toNat - 52 ≤ x)
    (hnext : x < L.lo (i + 1) ∨ (Ring.nextContext L k i).esp.toNat ≤ x) :
    x ∉ yieldResidue L H depth k i := by
  obtain ⟨hlo, -⟩ := hroom i h.running
  have hlo' := hspace (i + 1) (add_one_ne i)
  change _ ≤ (Ring.nextContext L k i).esp.toNat at hlo'
  unfold yieldRoom at hlo
  exact not_mem_residue hH (by omega) (by omega)

/-- To the task that runs next the residue is a lawful computation. -/
theorem Ring.residue_lawful (h : Ring L k i) (hH : Sheltered L H) (hspace : Spacious L depth k i)
    (hroom : Roomy L depth k) (halike : Alike (yieldResidue L H depth k i) (yield k ret).cpu t) :
    Lawful L (yield k ret) (.work fun _ => t) := by
  intro j hj
  have hcan := hroom.canYield h
  obtain ⟨hring, hcurrent, hstored⟩ := h.yielded hcan ret
  obtain rfl := L.block_injective (hj.symm.trans hring.running)
  obtain ⟨hlo, hhi⟩ := hroom i h.running
  obtain ⟨hlo', hhi'⟩ := h.asleep (i + 1) (add_one_ne i)
  have happart := L.stacks_apart i (i + 1) (add_one_ne i).symm
  change _ ≤ (Ring.nextContext L k i).esp.toNat at hlo'
  change (Ring.nextContext L k i).esp.toNat ≤ _ at hhi'
  unfold yieldRoom at hlo
  refine ⟨fun l x hx hx' => ?_, fun l hl x hx hx' => ?_⟩
  · have hblock := L.stack_block l i
    have hblock' := L.stack_block l (i + 1)
    refine halike.mem x (not_mem_yieldResidue h hroom hspace ?_ (by omega) (by omega))
    exact Set.disjoint_left.mp (hH.record l) ⟨hx, hx'⟩
  · obtain ⟨hasleep, -⟩ := hring.asleep l hl
    have hstacks := L.stacks_apart l (i + 1) hl
    refine halike.mem x (not_mem_yieldResidue h hroom hspace ?_ ?_ (by omega))
    · exact Set.disjoint_left.mp (hH.stack l) ⟨by omega, hx'⟩
    · by_cases hli : l = i
      · subst hli
        have hlt := (k.cpu.reg .esp).isLt
        rw [hstored] at hx
        simp only [Context.left, BitVec.toNat_sub, BitVec.toNat_ofNat] at hx
        omega
      · have hstacks' := L.stacks_apart l i hli
        omega

theorem Spacious.yielded (hspace : Spacious L depth k i) (h : Ring L k i)
    (hroom : Roomy L depth k) (ret : Word32) : Spacious L depth (yield k ret) (i + 1) := by
  have hcan := hroom.canYield h
  intro j _
  by_cases hj : j = i
  · subst hj
    obtain ⟨hlo, -⟩ := hroom j h.running
    have hlt := (k.cpu.reg .esp).isLt
    rw [(h.yielded hcan ret).2.2]
    simp only [Context.left, BitVec.toNat_sub, BitVec.toNat_ofNat]
    unfold yieldRoom at hlo
    omega
  · rw [h.yield_stored hcan ret hj]
    exact hspace j hj

theorem Spacious.work (hspace : Spacious L depth k i) (h : Ring L k i) {f : Cpu → Cpu}
    (hlaw : Lawful L k (.work f)) : Spacious L depth (step k (.work f)) i := by
  intro j hj
  change _ ≤ (Context.stored (f k.cpu).mem (L.block j).toNat).esp.toNat
  rw [h.work_stored hlaw]
  exact hspace j hj

/-- After an interrupted yield the next task runs, and all is as it should be. -/
theorem Ring.after_interrupted (h : Ring L k i) (hdepth : 80 ≤ depth) (hH : Sheltered L H)
    (hspace : Spacious L depth k i) (hroom : Roomy L depth k)
    (hrun : Interleaved exec (Interrupts H depth) k.cpu (yieldCode k.runningTask k.next ret) t) :
    LawfulRun L k [.yield ret, .work fun _ => t] ∧
      runEvents k [.yield ret, .work fun _ => t] = ⟨t, k.next⟩ ∧
      Ring L ⟨t, k.next⟩ (i + 1) ∧ Spacious L depth ⟨t, k.next⟩ (i + 1) := by
  have hcan := hroom.canYield h
  obtain ⟨halike, hnext⟩ := h.interrupted hdepth hH hspace hroom hrun
  have hlaw := h.residue_lawful hH hspace hroom halike
  have hring := (h.yielded hcan ret).1
  have hstep : step (yield k ret) (.work fun _ => t) = ⟨t, k.next⟩ := by rw [hnext]; rfl
  have hyield : Lawful L k (.yield ret) := fun j hj => by
    obtain rfl := L.block_injective (h.running.symm.trans hj)
    exact hcan
  refine ⟨throughout_cons hyield rfl (throughout_cons hlaw rfl trivial), hstep, ?_, ?_⟩
  · rw [← hstep]
    exact (hring.work (m := t.mem) (c := Context.current t) hlaw).1
  · rw [← hstep]
    exact (hspace.yielded h hroom ret).work hring hlaw

end One

/-! ## Runs -/

section Run

variable {L : Layout (n + 2)} {H : Set Nat} {depth : Nat} {k k' : Tasking} {i : Fin (n + 2)}
  {events : List Event}

/-- **Interrupts add nothing.**  A run with interrupts is a lawful run without, with as
many yields. -/
theorem Turns.lawful (h : Turns L H depth k events k') (hdepth : 80 ≤ depth)
    (hH : Sheltered L H) (hring : Ring L k i) (hspace : Spacious L depth k i) :
    ∃ events' j, LawfulRun L k events' ∧ yields events' = yields events ∧
      runEvents k events' = k' ∧ Ring L k' j ∧ Spacious L depth k' j := by
  induction h generalizing i with
  | done k => exact ⟨[], i, trivial, rfl, rfl, hring, hspace⟩
  | @work k k' f events hlaw _ ih =>
    have hnext := (hring.work (m := k.cpu.mem) (c := Context.current k.cpu) hlaw).1
    obtain ⟨events', j, hrun, hyields, hend, hring', hspace'⟩ := ih hnext (hspace.work hring hlaw)
    exact ⟨.work f :: events', j, throughout_cons hlaw rfl hrun, hyields, hend, hring', hspace'⟩
  | @yield k k' ret t events hroom hrun _ ih =>
    obtain ⟨hlaw, hstep, hnext, hspace₁⟩ := hring.after_interrupted hdepth hH hspace hroom hrun
    obtain ⟨events', j, hrun', hyields, hend, hring', hspace'⟩ := ih hnext hspace₁
    refine ⟨[.yield ret, .work fun _ => t] ++ events', j, lawfulRun_append.mpr ⟨hlaw, ?_⟩, ?_, ?_,
      hring', hspace'⟩
    · rw [hstep]
      exact hrun'
    · change yields events' + 1 = yields events + 1
      rw [hyields]
    · rw [runEvents_append, hstep, hend]

/-- A run between two yields, with the last of them alone. -/
theorem turns_alone {ret ret' : Word32}
    (hrun : Turns L H depth k (.yield ret :: events ++ [.yield ret']) k') (hdepth : 80 ≤ depth)
    (hH : Sheltered L H) (hring : Ring L k i) (hspace : Spacious L depth k i) :
    Roomy L depth k ∧ ∃ events' k₁ j, yields events' = yields events ∧
      LawfulRun L k (.yield ret :: events' ++ [.yield ret']) ∧
      runEvents k (.yield ret :: events' ++ [.yield ret']) = yield k₁ ret' ∧
      (Ring L k₁ j ∧ Spacious L depth k₁ j ∧ Roomy L depth k₁) ∧
      Alike (yieldResidue L H depth k₁ j) (yield k₁ ret').cpu k'.cpu ∧
      k'.runningTask = (yield k₁ ret').runningTask := by
  rw [List.cons_append] at hrun
  cases hrun with
  | @yield _ _ _ t _ hroom hfirst hrest =>
    obtain ⟨hlaw, hstep, hnext, hspace₁⟩ := hring.after_interrupted hdepth hH hspace hroom hfirst
    obtain ⟨k₁, hmiddle, hlast⟩ := hrest.split
    obtain ⟨events', j, hlaw', hyields', hend, hring₁, hspace₂⟩ :=
      hmiddle.lawful hdepth hH hnext hspace₁
    cases hlast with
    | @yield _ _ _ t' _ hroom' hfinal hdone =>
      cases hdone
      obtain ⟨halike, hrunning⟩ := hring₁.interrupted hdepth hH hspace₂ hroom' hfinal
      have hall : runEvents k (.yield ret :: .work (fun _ => t) :: events') = k₁ :=
        (runEvents_append k [.yield ret, .work fun _ => t] events').trans (by rw [hstep, hend])
      refine ⟨hroom, .work (fun _ => t) :: events', k₁, j, hyields', ?_, ?_,
        ⟨hring₁, hspace₂, hroom'⟩, halike, hrunning⟩
      · refine lawfulRun_append.mpr ⟨lawfulRun_append.mpr ⟨hlaw, by rw [hstep]; exact hlaw'⟩, ?_⟩
        refine throughout_cons (fun l hl => ?_) rfl trivial
        rw [hall] at hl ⊢
        obtain rfl := L.block_injective (hring₁.running.symm.trans hl)
        exact hroom'.canYield hring₁
      · rw [runEvents_append]
        exact congrArg (fun k => yield k ret') hall

/-- **A yield returns, whatever interrupts it.**  In a ring of `n + 2` tasks, whatever the
tasks compute in between and wherever their calls of `switchTask` are interrupted, a task
that yields runs again when each of the others has yielded once.  It goes on behind its
call with the registers it had, its stack pointer included, and its stack is as it left
it. -/
theorem interrupted_yield_returns {ret ret' : Word32} (hdepth : 80 ≤ depth) (hH : Sheltered L H)
    (hring : Ring L k i) (hspace : Spacious L depth k i) (hyields : yields events = n)
    (hrun : Turns L H depth k (.yield ret :: events ++ [.yield ret']) k') :
    k'.runningTask = L.block i ∧ Context.current k'.cpu = Context.left k.cpu ret ∧
      ∀ x, (k.cpu.reg .esp).toNat ≤ x → x < L.hi i → k'.cpu.mem x = k.cpu.mem x := by
  obtain ⟨hroom, events', k₁, j, hyields', hlaw, hend, ⟨hring₁, hspace₁, hroom₁⟩, halike,
    hrunning⟩ := turns_alone hrun hdepth hH hring hspace
  obtain ⟨hback, hcurrent, hstack⟩ := yield_returns hring (hyields'.trans hyields) hlaw
  rw [hend] at hback hcurrent hstack
  have hcan := hroom₁.canYield hring₁
  have hyielded := hring₁.yielded hcan ret'
  have hturn : j + 1 = i := L.block_injective (hyielded.1.running.symm.trans hback)
  refine ⟨hrunning.trans hback, (alike_current halike).1.trans hcurrent, fun x hlo hhi => ?_⟩
  rw [← hstack x hlo hhi]
  have hlt := (k.cpu.reg .esp).isLt
  have hesp : (Ring.nextContext L k₁ j).esp.toNat = (k.cpu.reg .esp).toNat - 8 := by
    obtain ⟨hown, -⟩ := hroom i hring.running
    unfold yieldRoom at hown
    rw [← hyielded.2.1, hcurrent]
    simp only [Context.left, BitVec.toNat_sub, BitVec.toNat_ofNat]
    omega
  obtain ⟨hown, -⟩ := hroom i hring.running
  obtain ⟨hlo₁, hhi₁⟩ := hroom₁ j hring₁.running
  have happart := L.stacks_apart i j (hturn ▸ add_one_ne j)
  unfold yieldRoom at hown hlo₁
  refine halike.mem x (not_mem_yieldResidue hring₁ hroom₁ hspace₁ ?_ (by omega) (by omega))
  exact Set.disjoint_left.mp (hH.stack i) ⟨by omega, hhi⟩

end Run

theorem twoTasks_sheltered : Sheltered twoTasks ∅ :=
  ⟨fun _ => Set.disjoint_empty _, fun _ => Set.disjoint_empty _⟩

theorem mainRunning_spacious : Spacious twoTasks 80 mainRunning 0 := by
  unfold Spacious
  decide

theorem mainRunning_roomy : Roomy twoTasks 80 mainRunning := by
  unfold Roomy
  decide

/-- The main task yields and is interrupted at once; the other task yields back. -/
theorem mainRunning_turns : ∃ k', Turns twoTasks ∅ 80 mainRunning
    [.yield 0x123#32, .yield 0x456#32] k' := by
  obtain ⟨t, hfirst⟩ : ∃ t, Interleaved exec (Interrupts ∅ 80) mainRunning.cpu
      (yieldCode mainRunning.runningTask mainRunning.next 0x123#32) t :=
    ⟨_, .event (interrupts_timer (by decide)) (Interleaved.foldl _ _)⟩
  obtain ⟨halike, hrunning⟩ := mainRunning_ring.interrupted (Nat.le_refl 80) twoTasks_sheltered
    mainRunning_spacious mainRunning_roomy hfirst
  obtain ⟨hring, hcurrent, -⟩ :=
    mainRunning_ring.yielded (mainRunning_roomy.canYield mainRunning_ring) 0x123#32
  have hesp : t.reg .esp = (Ring.nextContext twoTasks mainRunning 0).esp :=
    congrArg Context.esp ((alike_current halike).1.trans hcurrent)
  refine ⟨_, .yield mainRunning_roomy hfirst (.yield (fun i hi => ?_) (Interleaved.foldl _ _)
    (.done _))⟩
  obtain rfl := twoTasks.block_injective ((hrunning.trans hring.running).symm.trans hi)
  change _ ≤ (t.reg .esp).toNat ∧ (t.reg .esp).toNat ≤ _
  rw [hesp]
  decide

theorem mainRunning_returns : ∃ k', Turns twoTasks ∅ 80 mainRunning
      [.yield 0x123#32, .yield 0x456#32] k' ∧
    Context.current k'.cpu = Context.left mainRunning.cpu 0x123#32 := by
  obtain ⟨k', hturns⟩ := mainRunning_turns
  exact ⟨k', hturns, (interrupted_yield_returns (Nat.le_refl 80) twoTasks_sheltered
    mainRunning_ring mainRunning_spacious (show yields [] = 0 from rfl) hturns).2.1⟩

end Task
end Medusa
