import Medusa.Machine.I386

/-!
# Entering and leaving an interrupt

What an i386 does when it delivers an interrupt through a gate of the kernel, and
what `iret` undoes.  From user code the processor first changes to the stack that the
task state segment names.  The words it leaves there are a list, so a handler's entry
code continues that list.
-/

namespace Medusa
namespace Machine

/-- The stack for kernel code: `ss0` and `esp0` of the task state segment. -/
structure KernelStack where
  ss0 : BitVec 16
  esp0 : Word32

namespace Cpu

/-- The low bits of `cs` are the privilege level. -/
def userMode (s : Cpu) : Prop := s.seg .cs &&& 3#16 ≠ 0#16

instance (s : Cpu) : Decidable s.userMode := inferInstanceAs (Decidable (_ ≠ _))

/-- Bit 9 of the flags allows interrupts. -/
def interruptFlag : Word32 := 0x200#32

def changeStack (s : Cpu) (k : KernelStack) : Cpu :=
  if s.userMode then
    ((s.setSeg .ss k.ss0).setReg .esp k.esp0).pushes [(s.seg .ss).setWidth 32, s.reg .esp]
  else s

/-- Deliver an interrupt through an interrupt gate for code segment 8. -/
def deliver (s : Cpu) (k : KernelStack) (errorCode : Option Word32) : Cpu :=
  let t := (s.changeStack k).pushes [s.eflags, (s.seg .cs).setWidth 32, s.eip]
  let t := t.pushes errorCode.toList
  (t.setSeg .cs 8#16).setFlags (s.eflags &&& ~~~interruptFlag)

/-- `iret`: back to the code and the flags on the stack, and to the stack below them if
that code is user code. -/
def iret (s : Cpu) : Cpu :=
  let t := ((s.drop.drop.drop.setSeg .cs (s.drop.top.setWidth 16)).setFlags s.drop.drop.top).setEip
    s.top
  if t.userMode then (t.setSeg .ss (t.drop.top.setWidth 16)).setReg .esp t.top else t

end Cpu

/-! ## What lies on the stack -/

section Deliver

variable {s : Cpu} {k : KernelStack} {err : Option Word32}

/-- Where the stack of the handler starts. -/
def stackBase (s : Cpu) (k : KernelStack) : Nat :=
  if s.userMode then k.esp0.toNat else (s.reg .esp).toNat

/-- The words that `iret` needs, top first. -/
def returnWords (s : Cpu) : List Word32 :=
  [s.eip, (s.seg .cs).setWidth 32, s.eflags] ++
    if s.userMode then [s.reg .esp, (s.seg .ss).setWidth 32] else []

/-- The processor on the stack of the handler, before anything is pushed. -/
def Cpu.onBase (s : Cpu) (k : KernelStack) : Cpu :=
  if s.userMode then (s.setSeg .ss k.ss0).setReg .esp k.esp0 else s

theorem onBase_esp : ((s.onBase k).reg .esp).toNat = stackBase s k := by
  unfold Cpu.onBase stackBase
  split_ifs
  · simp
  · rfl

theorem onBase_mem : (s.onBase k).mem = s.mem := by
  unfold Cpu.onBase
  split_ifs <;> rfl

/-- Delivery is a run of pushes on that stack. -/
theorem deliver_eq (s : Cpu) (k : KernelStack) (err : Option Word32) :
    s.deliver k err = ((((s.onBase k).pushes (err.toList ++ returnWords s).reverse).setSeg .cs
      8#16).setFlags (s.eflags &&& ~~~Cpu.interruptFlag)) := by
  have herr : err.toList.reverse = err.toList := by cases err <;> rfl
  unfold Cpu.deliver Cpu.changeStack Cpu.onBase returnWords
  split_ifs
  · simp [herr]
  · simp [herr]

theorem deliver_top (err : Option Word32) (hroom : 24 ≤ stackBase s k) :
    Top (s.deliver k err) (stackBase s k - 4 * (err.toList ++ returnWords s).length)
        (err.toList ++ returnWords s) ∧
      ∀ lo hi, hi ≤ stackBase s k - 4 * (err.toList ++ returnWords s).length ∨ stackBase s k ≤ lo →
        Agree s.mem (s.deliver k err).mem lo hi := by
  have hlen : (err.toList ++ returnWords s).length ≤ 6 := by
    unfold returnWords
    cases err <;> split_ifs <;> simp
  have hempty := top_empty (s.onBase k)
  rw [onBase_esp] at hempty
  have htop := hempty.pushes (err.toList ++ returnWords s).reverse
    (by rw [List.length_reverse]; omega)
  rw [List.reverse_reverse, List.append_nil, List.length_reverse] at htop
  rw [deliver_eq]
  refine ⟨htop.of_eq rfl rfl, fun lo hi hout => ?_⟩
  have hagree := hempty.agree_pushes (err.toList ++ returnWords s).reverse
    (by rw [List.length_reverse]; omega) lo hi (by rw [List.length_reverse]; exact hout)
  rw [onBase_mem] at hagree
  exact hagree

/-- Delivery keeps the general registers other than the stack pointer and the data
segments. -/
theorem deliver_keeps (s : Cpu) (k : KernelStack) (err : Option Word32) :
    (∀ r, r ≠ .esp → (s.deliver k err).reg r = s.reg r) ∧
      (∀ r, r ≠ .cs → r ≠ .ss → (s.deliver k err).seg r = s.seg r) ∧
      (s.deliver k err).cr3 = s.cr3 := by
  rw [deliver_eq]
  obtain ⟨hseg, -, -, hcr3⟩ := (s.onBase k).pushes_rest (err.toList ++ returnWords s).reverse
  refine ⟨fun r hr => ?_, fun r hcs hss => ?_, ?_⟩
  · rw [Cpu.setFlags_reg, Cpu.setSeg_reg, Cpu.pushes_reg _ _ hr]
    unfold Cpu.onBase
    split_ifs
    · simp [hr]
    · rfl
  · change ((Cpu.pushes _ _).setSeg .cs 8#16).seg r = _
    rw [Cpu.setSeg_seg, if_neg hcs, hseg]
    unfold Cpu.onBase
    split_ifs
    · simp [hss]
    · rfl
  · change (Cpu.pushes _ _).cr3 = _
    rw [hcr3]
    unfold Cpu.onBase
    split_ifs <;> rfl

end Deliver

section Iret

variable {s : Cpu} {sp : Nat} {ws : List Word32} {ip cs fl : Word32}

theorem iret_cr3 (s : Cpu) : s.iret.cr3 = s.cr3 := by
  unfold Cpu.iret
  dsimp only
  split_ifs
  · rfl
  · rfl

/-- `iret` to kernel code. -/
theorem iret_kernel (h : Top s sp (ip :: cs :: fl :: ws)) (hcs : cs.setWidth 16 &&& 3#16 = 0#16) :
    let t := s.iret
    (∀ r, r ≠ .esp → t.reg r = s.reg r) ∧ t.reg .esp = BitVec.ofNat 32 (sp + 12) ∧ t.eip = ip ∧
      t.eflags = fl ∧ (∀ r, t.seg r = if r = .cs then cs.setWidth 16 else s.seg r) ∧ t.cr3 = s.cr3 ∧
      t.mem = s.mem := by
  have h1 := h.drop
  have h2 := h1.drop
  have h3 := h2.drop
  unfold Cpu.iret
  simp only [h.top_eq, h1.top_eq, h2.top_eq]
  have hkernel :
      ¬ (((s.drop.drop.drop.setSeg .cs (cs.setWidth 16)).setFlags fl).setEip ip).userMode := by
    change ¬ ((s.drop.drop.drop.setSeg .cs (cs.setWidth 16)).seg .cs &&& 3#16 ≠ 0#16)
    rw [Cpu.setSeg_seg, if_pos rfl, hcs]
    exact fun hne => hne rfl
  rw [if_neg hkernel]
  refine ⟨fun r hr => by simp [hr], ?_, rfl, rfl, fun r => ?_, rfl, rfl⟩
  · simpa using h3.esp
  · exact Cpu.setSeg_seg _ _ _ _

/-- `iret` to user code. -/
theorem iret_user {sp' ss : Word32} (h : Top s sp (ip :: cs :: fl :: sp' :: ss :: ws))
    (hcs : cs.setWidth 16 &&& 3#16 ≠ 0#16) :
    let t := s.iret
    (∀ r, r ≠ .esp → t.reg r = s.reg r) ∧ t.reg .esp = sp' ∧ t.eip = ip ∧ t.eflags = fl ∧
      (∀ r, t.seg r =
        if r = .ss then ss.setWidth 16 else if r = .cs then cs.setWidth 16 else s.seg r) ∧
      t.cr3 = s.cr3 ∧ t.mem = s.mem := by
  have h1 := h.drop
  have h2 := h1.drop
  have h3 := h2.drop
  have h4 := h3.drop
  unfold Cpu.iret
  simp only [h.top_eq, h1.top_eq, h2.top_eq]
  have huser :
      (((s.drop.drop.drop.setSeg .cs (cs.setWidth 16)).setFlags fl).setEip ip).userMode := by
    change (s.drop.drop.drop.setSeg .cs (cs.setWidth 16)).seg .cs &&& 3#16 ≠ 0#16
    rw [Cpu.setSeg_seg, if_pos rfl]
    exact hcs
  rw [if_pos huser]
  have htop : (((s.drop.drop.drop.setSeg .cs (cs.setWidth 16)).setFlags fl).setEip ip).top = sp' :=
    (h3.of_eq rfl rfl).top_eq
  have htop' :
      (((s.drop.drop.drop.setSeg .cs (cs.setWidth 16)).setFlags fl).setEip ip).drop.top = ss :=
    ((h3.of_eq (t := ((s.drop.drop.drop.setSeg .cs (cs.setWidth 16)).setFlags fl).setEip ip) rfl
      rfl).drop).top_eq
  rw [htop, htop']
  refine ⟨fun r hr => by simp [hr], by simp, rfl, rfl, fun r => ?_, rfl, rfl⟩
  rw [Cpu.setReg_seg, Cpu.setSeg_seg]
  congr 1
  exact Cpu.setSeg_seg _ _ _ _

end Iret

end Machine
end Medusa
