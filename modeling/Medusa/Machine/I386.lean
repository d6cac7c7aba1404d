import Mathlib.Logic.Function.Basic
import Medusa.Machine.Memory

/-!
# A processor with a stack

The part of an i386 that kernel entry code uses: eight general registers, the
segment registers, the flags, the page directory and a byte memory.  Instructions
are data and a straight piece of code is a list of them, so a routine of an
assembly file can be written down line by line.

`Top s sp ws` says that the stack pointer is `sp` and that the words `ws` lie there
in order.  Pushing adds to the front of the list, popping takes from it, and an
operand `4 * i(%esp)` is its element number `i`, so a proof about a routine follows
the stack as a list.
-/

namespace Medusa
namespace Machine

abbrev Word32 := BitVec 32

/-- The general registers, in the order in which `pusha` pushes them. -/
inductive Reg where
  | eax | ecx | edx | ebx | esp | ebp | esi | edi
deriving DecidableEq, Repr

inductive Seg where
  | cs | ss | ds | es | fs | gs
deriving DecidableEq, Repr

structure Cpu where
  reg : Reg → Word32
  seg : Seg → BitVec 16
  eip : Word32
  eflags : Word32
  cr3 : Word32
  mem : Mem

/-! ## Words in memory -/

def word (m : Mem) (a : Nat) : Word32 := BitVec.ofNat 32 (read32 m a)

def setWord (m : Mem) (a : Nat) (v : Word32) : Mem := write32 m a v.toNat

@[simp] theorem word_setWord_self (m : Mem) (a : Nat) (v : Word32) :
    word (setWord m a v) a = v := by
  unfold word setWord
  rw [read32_write32_self, Nat.mod_eq_of_lt v.isLt, BitVec.ofNat_toNat, BitVec.setWidth_eq]

theorem word_setWord_of_disjoint {m : Mem} {a b : Nat} {v : Word32}
    (h : b + 4 ≤ a ∨ a + 4 ≤ b) : word (setWord m a v) b = word m b := by
  unfold word setWord
  rw [read32_write32_of_disjoint h]

@[simp] theorem setWord_setWord_self (m : Mem) (a : Nat) (v w : Word32) :
    setWord (setWord m a v) a w = setWord m a w := by
  funext x
  unfold setWord write32
  split_ifs <;> rfl

/-- Storing the word that is there changes nothing. -/
theorem setWord_word (m : Mem) (a : Nat) : setWord m a (word m a) = m := by
  have hlt := read32_lt m a
  have hval : (word m a).toNat = read32 m a := by
    rw [word, BitVec.toNat_ofNat, Nat.mod_eq_of_lt hlt]
  have hbyte : ∀ x : BitVec 8, ∀ n, n % 2 ^ 8 = x.toNat → BitVec.ofNat 8 n = x :=
    fun x n h => BitVec.eq_of_toNat_eq (by rw [BitVec.toNat_ofNat, h])
  have h0 := (m a).isLt
  have h1 := (m (a + 1)).isLt
  have h2 := (m (a + 2)).isLt
  have h3 := (m (a + 3)).isLt
  funext x
  unfold setWord write32
  rw [hval]
  unfold read32
  split_ifs with e0 e1 e2 e3
  · subst e0
    exact hbyte _ _ (by omega)
  · subst e1
    exact hbyte _ _ (by omega)
  · subst e2
    exact hbyte _ _ (by omega)
  · subst e3
    exact hbyte _ _ (by omega)
  · rfl

theorem word_congr {m m' : Mem} {a : Nat} (h : Agree m m' a (a + 4)) : word m' a = word m a := by
  unfold word
  rw [read32_congr h]

theorem agree_setWord {m : Mem} {a lo hi : Nat} {v : Word32} (h : hi ≤ a ∨ a + 4 ≤ lo) :
    Agree m (setWord m a v) lo hi := agree_write32 h

/-- The words `ws` lie in order from `a` on. -/
def WordsAt (m : Mem) : Nat → List Word32 → Prop
  | _, [] => True
  | a, w :: ws => word m a = w ∧ WordsAt m (a + 4) ws

theorem WordsAt.congr {m m' : Mem} {a : Nat} {ws : List Word32} (h : WordsAt m a ws)
    (hagree : Agree m m' a (a + 4 * ws.length)) : WordsAt m' a ws := by
  induction ws generalizing a with
  | nil => trivial
  | cons w ws ih =>
    rw [List.length_cons] at hagree
    refine ⟨?_, ih h.2 (hagree.mono (by omega) (by omega))⟩
    rw [word_congr (hagree.mono (Nat.le_refl a) (by omega))]
    exact h.1

theorem WordsAt.get {m : Mem} {a : Nat} {ws : List Word32} (h : WordsAt m a ws) {i : Nat}
    {w : Word32}
    (hi : ws[i]? = some w) : word m (a + 4 * i) = w := by
  induction ws generalizing a i with
  | nil => cases hi
  | cons v ws ih =>
    cases i with
    | zero => exact h.1.trans (Option.some.inj hi)
    | succ i =>
      rw [List.getElem?_cons_succ] at hi
      rw [← ih h.2 hi]
      congr 1
      omega

theorem WordsAt.left {m : Mem} {a : Nat} {vs ws : List Word32} (h : WordsAt m a (vs ++ ws)) :
    WordsAt m a vs := by
  induction vs generalizing a with
  | nil => trivial
  | cons v vs ih => exact ⟨h.1, ih h.2⟩

/-- Store words at distances from `b`. -/
def setFields (m : Mem) (b : Nat) (fields : List (Nat × Word32)) : Mem :=
  fields.foldl (fun m f => setWord m (b + f.1) f.2) m

theorem setFields_append (m : Mem) (b : Nat) (fields more : List (Nat × Word32)) :
    setFields m b (fields ++ more) = setFields (setFields m b fields) b more := List.foldl_append

/-- Fields inside `[b, b + n)` leave everything else alone. -/
theorem agree_setFields {m : Mem} {b n lo hi : Nat} {fields : List (Nat × Word32)}
    (hin : ∀ f ∈ fields, f.1 + 4 ≤ n) (hout : hi ≤ b ∨ b + n ≤ lo) :
    Agree m (setFields m b fields) lo hi := by
  induction fields generalizing m with
  | nil => exact Agree.refl m lo hi
  | cons f fields ih =>
    have hf := hin f List.mem_cons_self
    intro x hlo hhi
    have hrest := ih (m := setWord m (b + f.1) f.2) (fun g hg => hin g (List.mem_cons_of_mem f hg))
    exact (hrest x hlo hhi).trans (agree_setWord (by omega) x hlo hhi)

/-- A word that none of the fields touches. -/
theorem word_setFields_of_apart {m : Mem} {b a : Nat} {fields : List (Nat × Word32)}
    (h : ∀ f ∈ fields, a + 4 ≤ b + f.1 ∨ b + f.1 + 4 ≤ a) :
    word (setFields m b fields) a = word m a := by
  induction fields generalizing m with
  | nil => rfl
  | cons f fields ih =>
    have hrest := ih (m := setWord m (b + f.1) f.2) (fun g hg => h g (List.mem_cons_of_mem f hg))
    exact hrest.trans (word_setWord_of_disjoint (h f List.mem_cons_self))

/-- Fields that do not overlap can be read back. -/
theorem word_setFields {m : Mem} {b : Nat} {fields : List (Nat × Word32)}
    (hapart : fields.Pairwise fun f g => f.1 + 4 ≤ g.1 ∨ g.1 + 4 ≤ f.1) {f : Nat × Word32}
    (hf : f ∈ fields) : word (setFields m b fields) (b + f.1) = f.2 := by
  induction fields generalizing m with
  | nil => cases hf
  | cons g fields ih =>
    rw [List.pairwise_cons] at hapart
    rcases List.mem_cons.mp hf with rfl | hmem
    · have hkeep := word_setFields_of_apart (m := setWord m (b + f.1) f.2) (b := b)
        fun g hg => show b + f.1 + 4 ≤ b + g.1 ∨ b + g.1 + 4 ≤ b + f.1 by
          have := hapart.1 g hg
          omega
      exact hkeep.trans (word_setWord_self m (b + f.1) f.2)
    · exact ih hapart.2 hmem

/-! ## Instructions -/

namespace Cpu

def setReg (s : Cpu) (r : Reg) (v : Word32) : Cpu := { s with reg := Function.update s.reg r v }

def setSeg (s : Cpu) (r : Seg) (v : BitVec 16) : Cpu := { s with seg := Function.update s.seg r v }

def setFlags (s : Cpu) (v : Word32) : Cpu := { s with eflags := v }

def setCr3 (s : Cpu) (v : Word32) : Cpu := { s with cr3 := v }

def setEip (s : Cpu) (v : Word32) : Cpu := { s with eip := v }

def withMem (s : Cpu) (m : Mem) : Cpu := { s with mem := m }

/-- The address of an operand `disp(base)`. -/
def addr (s : Cpu) (disp : Nat) (base : Reg) : Nat := (s.reg base + BitVec.ofNat 32 disp).toNat

def push (s : Cpu) (v : Word32) : Cpu :=
  let sp := s.reg .esp - 4#32
  { s with reg := Function.update s.reg .esp sp, mem := setWord s.mem sp.toNat v }

def pushes (s : Cpu) (vs : List Word32) : Cpu := vs.foldl push s

/-- The word on top of the stack. -/
def top (s : Cpu) : Word32 := word s.mem (s.reg .esp).toNat

def drop (s : Cpu) : Cpu := s.setReg .esp (s.reg .esp + 4#32)

/-- The registers that `pusha` pushes, all with the values they have before it. -/
def pushaOrder : List Reg := [.eax, .ecx, .edx, .ebx, .esp, .ebp, .esi, .edi]

/-- The registers that `popa` loads, first to last; it skips the stack pointer. -/
def popaOrder : List Reg := [.edi, .esi, .ebp, .esp, .ebx, .edx, .ecx, .eax]

def popaStep (s : Cpu) (r : Reg) : Cpu :=
  if r = .esp then s.drop else s.drop.setReg r s.top

end Cpu

inductive Instr where
  | push (r : Reg)
  | pushImm (v : Word32)
  | pushSeg (r : Seg)
  | pushf
  | pusha
  | pop (r : Reg)
  | popSeg (r : Seg)
  | popf
  | popa
  | mov (src dst : Reg)
  | movImm (v : Word32) (dst : Reg)
  | movImm16 (v : BitVec 16) (dst : Reg)
  | movSeg (src : Reg) (dst : Seg)
  | load (disp : Nat) (base dst : Reg)
  | store (src : Reg) (disp : Nat) (base : Reg)
  | movFromCr3 (dst : Reg)
  | movToCr3 (src : Reg)
  | addImm (v : Word32) (dst : Reg)
  | orImm (v : Word32) (dst : Reg)
  | xchgTop (r : Reg)
  | ret
deriving DecidableEq, Repr

/-- One instruction.  Only `ret` says where to go on. -/
def exec (s : Cpu) : Instr → Cpu
  | .push r => s.push (s.reg r)
  | .pushImm v => s.push v
  | .pushSeg r => s.push ((s.seg r).setWidth 32)
  | .pushf => s.push s.eflags
  | .pusha => s.pushes (Cpu.pushaOrder.map s.reg)
  | .pop r => s.drop.setReg r s.top
  | .popSeg r => s.drop.setSeg r (s.top.setWidth 16)
  | .popf => s.drop.setFlags s.top
  | .popa => Cpu.popaOrder.foldl Cpu.popaStep s
  | .mov src dst => s.setReg dst (s.reg src)
  | .movImm v dst => s.setReg dst v
  -- the upper half of the register stays
  | .movImm16 v dst => s.setReg dst ((s.reg dst).extractLsb' 16 16 ++ v)
  | .movSeg src dst => s.setSeg dst ((s.reg src).setWidth 16)
  | .load disp base dst => s.setReg dst (word s.mem (s.addr disp base))
  | .store src disp base => s.withMem (setWord s.mem (s.addr disp base) (s.reg src))
  | .movFromCr3 dst => s.setReg dst s.cr3
  | .movToCr3 src => s.setCr3 (s.reg src)
  | .addImm v dst => s.setReg dst (s.reg dst + v)
  | .orImm v dst => s.setReg dst (s.reg dst ||| v)
  | .xchgTop r => (s.setReg r s.top).withMem (setWord s.mem (s.reg .esp).toNat (s.reg r))
  | .ret => s.drop.setEip s.top

def run (s : Cpu) (code : List Instr) : Cpu := code.foldl exec s

theorem run_cons (s : Cpu) (i : Instr) (code : List Instr) :
    run s (i :: code) = run (exec s i) code := rfl

theorem run_append (s : Cpu) (code code' : List Instr) :
    run s (code ++ code') = run (run s code) code' := List.foldl_append

/-- Only one instruction changes the page directory. -/
theorem exec_cr3 (s : Cpu) {i : Instr} (h : ∀ r, i ≠ .movToCr3 r) : (exec s i).cr3 = s.cr3 := by
  cases i with
  | movToCr3 r => exact absurd rfl (h r)
  | popa => simp [exec, Cpu.popaOrder, Cpu.popaStep, Cpu.drop, Cpu.setReg]
  | _ => rfl

theorem run_cr3 (s : Cpu) {code : List Instr} (h : ∀ i ∈ code, ∀ r, i ≠ .movToCr3 r) :
    (run s code).cr3 = s.cr3 := by
  induction code generalizing s with
  | nil => rfl
  | cons i code ih =>
    rw [run_cons, ih _ fun j hj => h j (List.mem_cons_of_mem i hj)]
    exact exec_cr3 s (h i List.mem_cons_self)

namespace Cpu

@[simp] theorem setReg_reg (s : Cpu) (r r' : Reg) (v : Word32) :
    (s.setReg r v).reg r' = if r' = r then v else s.reg r' := Function.update_apply _ _ _ _

@[simp] theorem setReg_setReg_self (s : Cpu) (r : Reg) (v w : Word32) :
    (s.setReg r v).setReg r w = s.setReg r w := by
  unfold setReg
  simp

theorem setReg_of_eq {s : Cpu} {r : Reg} {v : Word32} (h : s.reg r = v) : s.setReg r v = s := by
  unfold setReg
  rw [← h, Function.update_eq_self]

@[simp] theorem setReg_seg (s : Cpu) (r : Reg) (v : Word32) : (s.setReg r v).seg = s.seg := rfl

@[simp] theorem setReg_eip (s : Cpu) (r : Reg) (v : Word32) : (s.setReg r v).eip = s.eip := rfl

@[simp] theorem setReg_eflags (s : Cpu) (r : Reg) (v : Word32) :
    (s.setReg r v).eflags = s.eflags := rfl

@[simp] theorem setReg_cr3 (s : Cpu) (r : Reg) (v : Word32) : (s.setReg r v).cr3 = s.cr3 := rfl

@[simp] theorem setReg_mem (s : Cpu) (r : Reg) (v : Word32) : (s.setReg r v).mem = s.mem := rfl

@[simp] theorem setSeg_reg (s : Cpu) (r : Seg) (v : BitVec 16) : (s.setSeg r v).reg = s.reg := rfl

@[simp] theorem setSeg_seg (s : Cpu) (r r' : Seg) (v : BitVec 16) :
    (s.setSeg r v).seg r' = if r' = r then v else s.seg r' := Function.update_apply _ _ _ _

@[simp] theorem setSeg_eip (s : Cpu) (r : Seg) (v : BitVec 16) : (s.setSeg r v).eip = s.eip := rfl

@[simp] theorem setSeg_eflags (s : Cpu) (r : Seg) (v : BitVec 16) :
    (s.setSeg r v).eflags = s.eflags := rfl

@[simp] theorem setSeg_cr3 (s : Cpu) (r : Seg) (v : BitVec 16) : (s.setSeg r v).cr3 = s.cr3 := rfl

@[simp] theorem setSeg_mem (s : Cpu) (r : Seg) (v : BitVec 16) : (s.setSeg r v).mem = s.mem := rfl

@[simp] theorem drop_reg (s : Cpu) (r : Reg) :
    s.drop.reg r = if r = .esp then s.reg .esp + 4#32 else s.reg r := setReg_reg _ _ _ _

@[simp] theorem drop_seg (s : Cpu) : s.drop.seg = s.seg := rfl

@[simp] theorem drop_eip (s : Cpu) : s.drop.eip = s.eip := rfl

@[simp] theorem drop_eflags (s : Cpu) : s.drop.eflags = s.eflags := rfl

@[simp] theorem drop_cr3 (s : Cpu) : s.drop.cr3 = s.cr3 := rfl

@[simp] theorem drop_mem (s : Cpu) : s.drop.mem = s.mem := rfl

@[simp] theorem withMem_reg (s : Cpu) (m : Mem) : (s.withMem m).reg = s.reg := rfl

@[simp] theorem withMem_seg (s : Cpu) (m : Mem) : (s.withMem m).seg = s.seg := rfl

@[simp] theorem withMem_eip (s : Cpu) (m : Mem) : (s.withMem m).eip = s.eip := rfl

@[simp] theorem withMem_eflags (s : Cpu) (m : Mem) : (s.withMem m).eflags = s.eflags := rfl

@[simp] theorem withMem_cr3 (s : Cpu) (m : Mem) : (s.withMem m).cr3 = s.cr3 := rfl

@[simp] theorem withMem_mem (s : Cpu) (m : Mem) : (s.withMem m).mem = m := rfl

@[simp] theorem withMem_withMem (s : Cpu) (m m' : Mem) :
    (s.withMem m).withMem m' = s.withMem m' := rfl

@[simp] theorem withMem_addr (s : Cpu) (m : Mem) (disp : Nat) (base : Reg) :
    (s.withMem m).addr disp base = s.addr disp base := rfl

@[simp] theorem drop_withMem (s : Cpu) (m : Mem) : (s.withMem m).drop = s.drop.withMem m := rfl

@[simp] theorem setReg_withMem (s : Cpu) (m : Mem) (r : Reg) (v : Word32) :
    (s.withMem m).setReg r v = (s.setReg r v).withMem m := rfl

@[simp] theorem setFlags_reg (s : Cpu) (v : Word32) : (s.setFlags v).reg = s.reg := rfl

@[simp] theorem setFlags_mem (s : Cpu) (v : Word32) : (s.setFlags v).mem = s.mem := rfl

@[simp] theorem setCr3_reg (s : Cpu) (v : Word32) : (s.setCr3 v).reg = s.reg := rfl

@[simp] theorem setCr3_mem (s : Cpu) (v : Word32) : (s.setCr3 v).mem = s.mem := rfl

@[simp] theorem setEip_reg (s : Cpu) (v : Word32) : (s.setEip v).reg = s.reg := rfl

@[simp] theorem setEip_mem (s : Cpu) (v : Word32) : (s.setEip v).mem = s.mem := rfl

@[simp] theorem drop_setFlags (s : Cpu) (v : Word32) :
    (s.setFlags v).drop = s.drop.setFlags v := rfl

@[simp] theorem setReg_setFlags (s : Cpu) (r : Reg) (v w : Word32) :
    (s.setFlags v).setReg r w = (s.setReg r w).setFlags v := rfl

@[simp] theorem drop_setCr3 (s : Cpu) (v : Word32) : (s.setCr3 v).drop = s.drop.setCr3 v := rfl

@[simp] theorem setReg_setCr3 (s : Cpu) (r : Reg) (v w : Word32) :
    (s.setCr3 v).setReg r w = (s.setReg r w).setCr3 v := rfl

theorem drop_setReg (s : Cpu) {r : Reg} (h : r ≠ .esp) (v : Word32) :
    (s.setReg r v).drop = s.drop.setReg r v := by
  have hesp : (s.setReg r v).reg .esp = s.reg .esp := by rw [setReg_reg, if_neg h.symm]
  rw [drop, hesp]
  unfold drop setReg
  simp only [Function.update_comm h]

@[simp] theorem drop_addr (s : Cpu) {base : Reg} (h : base ≠ .esp) (disp : Nat) :
    s.drop.addr disp base = s.addr disp base := by
  unfold addr
  rw [drop_reg, if_neg h]

@[simp] theorem push_reg (s : Cpu) (v : Word32) (r : Reg) :
    (s.push v).reg r = if r = .esp then s.reg .esp - 4#32 else s.reg r :=
  Function.update_apply _ _ _ _

@[simp] theorem push_seg (s : Cpu) (v : Word32) : (s.push v).seg = s.seg := rfl

@[simp] theorem push_eip (s : Cpu) (v : Word32) : (s.push v).eip = s.eip := rfl

@[simp] theorem push_eflags (s : Cpu) (v : Word32) : (s.push v).eflags = s.eflags := rfl

@[simp] theorem push_cr3 (s : Cpu) (v : Word32) : (s.push v).cr3 = s.cr3 := rfl

/-- A push that is undone leaves only its word below the stack. -/
theorem drop_push (s : Cpu) (v : Word32) : (s.push v).drop = s.withMem (s.push v).mem := by
  have hreg : (s.push v).drop.reg = s.reg := by
    funext r
    rw [drop_reg, push_reg, push_reg, if_pos rfl, BitVec.sub_add_cancel]
    split_ifs with hr
    · rw [hr]
    · rfl
  have hrest : (s.push v).drop = { (s.push v).drop with reg := (s.push v).drop.reg } := rfl
  rw [hrest, hreg]
  rfl

@[simp] theorem pushes_nil (s : Cpu) : s.pushes [] = s := rfl

@[simp] theorem pushes_cons (s : Cpu) (v : Word32) (vs : List Word32) :
    s.pushes (v :: vs) = (s.push v).pushes vs := rfl

theorem pushes_reg (s : Cpu) (vs : List Word32) {r : Reg} (hr : r ≠ .esp) :
    (s.pushes vs).reg r = s.reg r := by
  induction vs generalizing s with
  | nil => rfl
  | cons v vs ih => rw [pushes_cons, ih, push_reg, if_neg hr]

/-- Pushing changes nothing else of the processor. -/
theorem pushes_rest (s : Cpu) (vs : List Word32) :
    (s.pushes vs).seg = s.seg ∧ (s.pushes vs).eip = s.eip ∧ (s.pushes vs).eflags = s.eflags ∧
      (s.pushes vs).cr3 = s.cr3 := by
  induction vs generalizing s with
  | nil => exact ⟨rfl, rfl, rfl, rfl⟩
  | cons v vs ih => exact ih (s.push v)

end Cpu

theorem Cpu.addr_eq {s : Cpu} {base : Reg} {b : Word32} (hb : s.reg base = b) {disp : Nat}
    (hfit : b.toNat + disp < 2 ^ 32) : s.addr disp base = b.toNat + disp := by
  unfold Cpu.addr
  rw [hb, BitVec.toNat_add, BitVec.toNat_ofNat, Nat.mod_eq_of_lt (by omega : disp < 2 ^ 32),
    Nat.mod_eq_of_lt hfit]

@[simp] theorem Cpu.setReg_addr (s : Cpu) {r base : Reg} (h : base ≠ r) (v : Word32) (disp : Nat) :
    (s.setReg r v).addr disp base = s.addr disp base := by
  unfold Cpu.addr
  rw [Cpu.setReg_reg, if_neg h]

/-- A run of stores through one register. -/
theorem run_stores {s : Cpu} {base : Reg} {b : Word32} (hb : s.reg base = b)
    (fields : List (Nat × Reg)) (hfit : ∀ f ∈ fields, b.toNat + f.1 < 2 ^ 32) :
    run s (fields.map fun f => .store f.2 f.1 base) =
      s.withMem (setFields s.mem b.toNat (fields.map fun f => (f.1, s.reg f.2))) := by
  induction fields generalizing s with
  | nil => rfl
  | cons f fields ih =>
    have hstep : exec s (.store f.2 f.1 base) =
        s.withMem (setWord s.mem (b.toNat + f.1) (s.reg f.2)) := by
      rw [exec, Cpu.addr_eq hb (hfit f List.mem_cons_self)]
    rw [List.map_cons, run_cons, hstep]
    exact ih (s := s.withMem (setWord s.mem (b.toNat + f.1) (s.reg f.2))) hb
      fun g hg => hfit g (List.mem_cons_of_mem f hg)

/-- A run of loads through one register that none of them overwrites. -/
theorem run_loads {s : Cpu} (base : Reg) (fields : List (Nat × Reg))
    (hbase : ∀ f ∈ fields, f.2 ≠ base) :
    run s (fields.map fun f => .load f.1 base f.2) =
      fields.foldl (fun t f => t.setReg f.2 (word s.mem (s.addr f.1 base))) s := by
  induction fields generalizing s with
  | nil => rfl
  | cons f fields ih =>
    have hne := hbase f List.mem_cons_self
    rw [List.map_cons, run_cons, exec, ih fun g hg => hbase g (List.mem_cons_of_mem f hg)]
    simp only [Cpu.setReg_addr s hne.symm, Cpu.setReg_mem, List.foldl_cons]

/-! ## The stack as a list -/

/-- The stack pointer is `sp`, and the words `ws` lie on the stack, the top one
first. -/
structure Top (s : Cpu) (sp : Nat) (ws : List Word32) : Prop where
  esp : s.reg .esp = BitVec.ofNat 32 sp
  room : sp + 4 * ws.length ≤ 2 ^ 32
  words : WordsAt s.mem sp ws

theorem top_empty (s : Cpu) : Top s (s.reg .esp).toNat [] :=
  ⟨by simp, by have := (s.reg .esp).isLt; simp; omega, trivial⟩

namespace Top

variable {s : Cpu} {sp : Nat} {ws : List Word32}

theorem of_eq {t : Cpu} (h : Top s sp ws) (hesp : t.reg .esp = s.reg .esp) (hmem : t.mem = s.mem) :
    Top t sp ws := ⟨hesp.trans h.esp, h.room, hmem ▸ h.words⟩

/-- What a store elsewhere leaves on the stack. -/
theorem of_agree {t : Cpu} (h : Top s sp ws) (hesp : t.reg .esp = s.reg .esp)
    (hmem : Agree s.mem t.mem sp (sp + 4 * ws.length)) : Top t sp ws :=
  ⟨hesp.trans h.esp, h.room, h.words.congr hmem⟩

/-- The operand `4 * i(%esp)`. -/
theorem operand (h : Top s sp ws) {i : Nat} {w : Word32} (hi : ws[i]? = some w) :
    word s.mem (s.addr (4 * i) .esp) = w := by
  have hlt : i < ws.length := by
    by_contra hge
    rw [List.getElem?_eq_none (Nat.le_of_not_lt hge)] at hi
    cases hi
  have hroom := h.room
  unfold Cpu.addr
  rw [h.esp, ← BitVec.ofNat_add, BitVec.toNat_ofNat, Nat.mod_eq_of_lt (by omega)]
  exact h.words.get hi

theorem push_esp (h : Top s sp ws) (hsp : 4 ≤ sp) :
    s.reg .esp - 4#32 = BitVec.ofNat 32 (sp - 4) := by
  have hroom := h.room
  rw [h.esp]
  apply BitVec.eq_of_toNat_eq
  rw [BitVec.toNat_sub, BitVec.toNat_ofNat, BitVec.toNat_ofNat, BitVec.toNat_ofNat]
  omega

/-- What is pushed lies just below the old stack pointer. -/
theorem push_mem (h : Top s sp ws) (hsp : 4 ≤ sp) (v : Word32) :
    (s.push v).mem = setWord s.mem (sp - 4) v := by
  have hroom := h.room
  change setWord s.mem (s.reg .esp - 4#32).toNat v = _
  rw [h.push_esp hsp, BitVec.toNat_ofNat, Nat.mod_eq_of_lt (by omega)]

theorem push (h : Top s sp ws) (hsp : 4 ≤ sp) (v : Word32) : Top (s.push v) (sp - 4) (v :: ws) := by
  have hroom := h.room
  refine ⟨?_, ?_, ?_, ?_⟩
  · rw [Cpu.push_reg, if_pos rfl, h.push_esp hsp]
  · rw [List.length_cons]
    omega
  · rw [h.push_mem hsp, word_setWord_self]
  · rw [h.push_mem hsp, show sp - 4 + 4 = sp by omega]
    exact h.words.congr (agree_setWord (by omega))

theorem pushes (h : Top s sp ws) (vs : List Word32) (hsp : 4 * vs.length ≤ sp) :
    Top (s.pushes vs) (sp - 4 * vs.length) (vs.reverse ++ ws) := by
  induction vs generalizing s sp ws with
  | nil => exact h
  | cons v vs ih =>
    rw [List.length_cons] at hsp
    have hrest := ih (h.push (by omega) v) (by omega)
    rw [show sp - 4 - 4 * vs.length = sp - 4 * (vs.length + 1) by omega] at hrest
    rw [List.reverse_cons, List.append_assoc]
    exact hrest

/-- Pushing writes only below the old stack pointer. -/
theorem agree_pushes (h : Top s sp ws) (vs : List Word32) (hsp : 4 * vs.length ≤ sp) (lo hi : Nat)
    (hout : hi ≤ sp - 4 * vs.length ∨ sp ≤ lo) : Agree s.mem (s.pushes vs).mem lo hi := by
  induction vs generalizing s sp ws with
  | nil => exact Agree.refl s.mem lo hi
  | cons v vs ih =>
    rw [List.length_cons] at hsp hout
    have hrest := ih (h.push (by omega) v) (by omega) (by omega)
    intro x hlo hhi
    rw [Cpu.pushes_cons, hrest x hlo hhi, h.push_mem (by omega)]
    exact agree_setWord (by omega) x hlo hhi

theorem esp_toNat {w : Word32} (h : Top s sp (w :: ws)) : (s.reg .esp).toNat = sp := by
  have hroom := h.room
  rw [List.length_cons] at hroom
  rw [h.esp, BitVec.toNat_ofNat, Nat.mod_eq_of_lt (by omega)]

theorem top_eq {w : Word32} (h : Top s sp (w :: ws)) : s.top = w := by
  unfold Cpu.top
  rw [h.esp_toNat]
  exact h.words.1

theorem drop {w : Word32} (h : Top s sp (w :: ws)) : Top s.drop (sp + 4) ws := by
  have hroom := h.room
  rw [List.length_cons] at hroom
  refine ⟨?_, by omega, h.words.2⟩
  rw [Cpu.drop_reg, if_pos rfl, h.esp, BitVec.ofNat_add]

/-- Taking the top word off and pushing it again restores the processor. -/
theorem push_top {w : Word32} (h : Top s sp (w :: ws)) : s.drop.push w = s := by
  have hesp : s.drop.reg .esp - 4#32 = s.reg .esp := by
    rw [Cpu.drop_reg, if_pos rfl, BitVec.add_sub_cancel]
  have hreg : Function.update s.drop.reg .esp (s.reg .esp) = s.reg := by
    funext r
    rw [Function.update_apply, Cpu.drop_reg]
    split_ifs with hr
    · rw [hr]
    · rfl
  unfold Cpu.push
  simp only [hesp, hreg, Cpu.drop_mem]
  have hmem : setWord s.mem (s.reg .esp).toNat w = s.mem := by
    rw [← h.top_eq]
    exact setWord_word _ _
  rw [hmem]
  rfl

/-- `pop` into a register other than the stack pointer. -/
theorem pop {w : Word32} (h : Top s sp (w :: ws)) {r : Reg} (hr : r ≠ .esp) :
    exec s (.pop r) = s.drop.setReg r w ∧ Top (exec s (.pop r)) (sp + 4) ws := by
  have heq : exec s (.pop r) = s.drop.setReg r w := by rw [exec, h.top_eq]
  refine ⟨heq, ?_⟩
  rw [heq]
  exact h.drop.of_eq (by rw [Cpu.setReg_reg, if_neg (Ne.symm hr)]) rfl

theorem popSeg {w : Word32} (h : Top s sp (w :: ws)) (r : Seg) :
    exec s (.popSeg r) = s.drop.setSeg r (w.setWidth 16) ∧
      Top (exec s (.popSeg r)) (sp + 4) ws := by
  have heq : exec s (.popSeg r) = s.drop.setSeg r (w.setWidth 16) := by rw [exec, h.top_eq]
  rw [heq]
  exact ⟨rfl, h.drop.of_eq rfl rfl⟩

/-- Two words are dropped by adding to the stack pointer. -/
theorem addEsp {v w : Word32} (h : Top s sp (v :: w :: ws)) :
    exec s (.addImm 8#32 .esp) = s.drop.drop ∧ Top (exec s (.addImm 8#32 .esp)) (sp + 8) ws := by
  have heq : exec s (.addImm 8#32 .esp) = s.drop.drop := by
    simp only [exec, Cpu.drop, Cpu.setReg_setReg_self, Cpu.setReg_reg, if_true]
    rw [BitVec.add_assoc]
    rfl
  rw [heq]
  exact ⟨rfl, h.drop.drop⟩

theorem popaStep {w : Word32} (h : Top s sp (w :: ws)) {r : Reg} (hr : r ≠ .esp) :
    Cpu.popaStep s r = s.drop.setReg r w ∧ Top (s.drop.setReg r w) (sp + 4) ws := by
  rw [Cpu.popaStep, if_neg hr, h.top_eq]
  exact ⟨rfl, h.drop.of_eq (by rw [Cpu.setReg_reg, if_neg hr.symm]) rfl⟩

/-- `popa` loads what `pusha` pushed, except for the stack pointer. -/
theorem popa {di si bp x bx dx cx ax : Word32}
    (h : Top s sp (di :: si :: bp :: x :: bx :: dx :: cx :: ax :: ws)) :
    let t := exec s .popa
    Top t (sp + 32) ws ∧ t.reg .edi = di ∧ t.reg .esi = si ∧ t.reg .ebp = bp ∧ t.reg .ebx = bx ∧
      t.reg .edx = dx ∧ t.reg .ecx = cx ∧ t.reg .eax = ax ∧ t.seg = s.seg ∧ t.cr3 = s.cr3 ∧
      t.mem = s.mem := by
  obtain ⟨h1, t1⟩ := h.popaStep (r := .edi) (by decide)
  obtain ⟨h2, t2⟩ := t1.popaStep (r := .esi) (by decide)
  obtain ⟨h3, t3⟩ := t2.popaStep (r := .ebp) (by decide)
  obtain ⟨h5, t5⟩ := t3.drop.popaStep (r := .ebx) (by decide)
  obtain ⟨h6, t6⟩ := t5.popaStep (r := .edx) (by decide)
  obtain ⟨h7, t7⟩ := t6.popaStep (r := .ecx) (by decide)
  obtain ⟨h8, t8⟩ := t7.popaStep (r := .eax) (by decide)
  have h4 : ∀ u, Cpu.popaStep u .esp = u.drop := fun _ => rfl
  simp only [exec, Cpu.popaOrder, List.foldl, h1, h2, h3, h4, h5, h6, h7, h8]
  refine ⟨t8, ?_⟩
  simp

/-- Exchanging the top word with a register. -/
theorem xchgTop {w : Word32} (h : Top s sp (w :: ws)) {r : Reg} (hr : r ≠ .esp) :
    exec s (.xchgTop r) = (s.setReg r w).withMem (setWord s.mem sp (s.reg r)) ∧
      Top (exec s (.xchgTop r)) sp (s.reg r :: ws) := by
  have heq : exec s (.xchgTop r) = (s.setReg r w).withMem (setWord s.mem sp (s.reg r)) := by
    rw [exec, h.top_eq, h.esp_toNat]
  rw [heq]
  refine ⟨rfl, ?_, h.room, ?_, ?_⟩
  · rw [Cpu.withMem_reg, Cpu.setReg_reg, if_neg hr.symm, h.esp]
  · rw [Cpu.withMem_mem, word_setWord_self]
  · rw [Cpu.withMem_mem]
    exact h.words.2.congr (agree_setWord (by omega))

theorem ret {w : Word32} (h : Top s sp (w :: ws)) : exec s .ret = s.drop.setEip w := by
  rw [exec, h.top_eq]

end Top

/-! ## Registers in a row -/

/-- Load registers from operands in a row, from number `i` on. -/
def loadOperands : Nat → List Reg → List Instr
  | _, [] => []
  | i, r :: rs => .load (4 * i) .esp r :: loadOperands (i + 1) rs

/-- `t` is `s` with the registers `rs` as `f` says; the stack pointer is left open. -/
structure Loaded (s t : Cpu) (rs : List Reg) (f : Reg → Word32) : Prop where
  reg : ∀ r, r ≠ .esp → t.reg r = if r ∈ rs then f r else s.reg r
  seg : t.seg = s.seg
  eflags : t.eflags = s.eflags
  cr3 : t.cr3 = s.cr3
  mem : t.mem = s.mem

section Registers

variable {s : Cpu} {sp : Nat} {ws : List Word32} {rs : List Reg} {f : Reg → Word32}

/-- Setting one register and then the rest. -/
theorem Loaded.cons {t u : Cpu} {r : Reg} {v : Word32} (h : Loaded u t rs f) (hv : v = f r)
    (hreg : ∀ r', r' ≠ .esp → u.reg r' = if r' = r then v else s.reg r') (hseg : u.seg = s.seg)
    (heflags : u.eflags = s.eflags) (hcr3 : u.cr3 = s.cr3) (hmem : u.mem = s.mem) :
    Loaded s t (r :: rs) f := by
  refine ⟨fun r' hr' => ?_, h.seg.trans hseg, h.eflags.trans heflags, h.cr3.trans hcr3,
    h.mem.trans hmem⟩
  rw [h.reg r' hr', hreg r' hr', hv]
  by_cases hin : r' ∈ rs
  · rw [if_pos hin, if_pos (List.mem_cons_of_mem r hin)]
  · by_cases heq : r' = r
    · rw [if_neg hin, if_pos heq, if_pos (heq ▸ List.mem_cons_self), heq]
    · rw [if_neg hin, if_neg heq, if_neg (by simp [heq, hin])]

theorem run_pushes (s : Cpu) (hesp : .esp ∉ rs) :
    run s (rs.map .push) = s.pushes (rs.map s.reg) := by
  induction rs generalizing s with
  | nil => rfl
  | cons r rs ih =>
    have hrest : .esp ∉ rs := fun h => hesp (List.mem_cons_of_mem r h)
    have hsame : rs.map (s.push (s.reg r)).reg = rs.map s.reg := by
      apply List.map_congr_left
      intro r' hr'
      have hne : r' ≠ .esp := fun he => hrest (he ▸ hr')
      rw [Cpu.push_reg, if_neg hne]
    rw [List.map_cons, run_cons, exec, ih _ hrest, hsame]
    rfl

/-- Loading operands leaves the stack as it is. -/
theorem Top.loads {i : Nat} (h : Top s sp ws) (hesp : .esp ∉ rs)
    (hws : ∀ j r, rs[j]? = some r → ws[i + j]? = some (f r)) :
    Loaded s (run s (loadOperands i rs)) rs f ∧ Top (run s (loadOperands i rs)) sp ws := by
  induction rs generalizing s i with
  | nil => exact ⟨⟨fun r _ => rfl, rfl, rfl, rfl, rfl⟩, h⟩
  | cons r rs ih =>
    have hr : r ≠ .esp := fun he => hesp (he ▸ List.mem_cons_self)
    have hfirst : exec s (.load (4 * i) .esp r) = s.setReg r (f r) := by
      rw [exec, h.operand (i := i) (hws 0 r rfl)]
    have hnext : Top (s.setReg r (f r)) sp ws :=
      h.of_eq (by rw [Cpu.setReg_reg, if_neg hr.symm]) rfl
    have hmore : ∀ j r', rs[j]? = some r' → ws[i + 1 + j]? = some (f r') := by
      intro j r' hj
      rw [Nat.add_assoc, Nat.add_comm 1]
      exact hws (j + 1) r' hj
    obtain ⟨hloaded, htop⟩ := ih hnext (fun he => hesp (List.mem_cons_of_mem r he)) hmore
    rw [loadOperands, run_cons, hfirst]
    exact ⟨hloaded.cons rfl (fun r' _ => Cpu.setReg_reg s r r' (f r)) rfl rfl rfl rfl, htop⟩

/-- Popping registers takes their words off the stack. -/
theorem Top.pops (h : Top s sp (rs.map f ++ ws)) (hesp : .esp ∉ rs) :
    Loaded s (run s (rs.map .pop)) rs f ∧ Top (run s (rs.map .pop)) (sp + 4 * rs.length) ws := by
  induction rs generalizing s sp with
  | nil => exact ⟨⟨fun r _ => rfl, rfl, rfl, rfl, rfl⟩, h⟩
  | cons r rs ih =>
    have hr : r ≠ .esp := fun he => hesp (he ▸ List.mem_cons_self)
    obtain ⟨hfirst, hnext⟩ := Top.pop (w := f r) h hr
    obtain ⟨hloaded, htop⟩ := ih hnext fun he => hesp (List.mem_cons_of_mem r he)
    rw [List.map_cons, run_cons, List.length_cons,
      show sp + 4 * (rs.length + 1) = sp + 4 + 4 * rs.length by omega]
    refine ⟨?_, htop⟩
    apply hloaded.cons rfl (s := s) (r := r)
    · intro r' hr'
      rw [hfirst, Cpu.setReg_reg, Cpu.drop_reg, if_neg hr']
    all_goals rw [hfirst]; rfl

end Registers

end Machine
end Medusa
