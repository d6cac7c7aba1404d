import Medusa.Irq.Frame
import Medusa.Task.Switch

/-!
# A switch that is interrupted

`switchTask` does not keep interrupts out: the flags of the task that is resumed are
loaded while the stack of the task that is left is still in use.  An interrupt between
any two of its instructions changes the bytes below the stack pointer of that moment and
the memory of the handlers.  The routine reads neither before it has written it, so it
exchanges the contexts as if it had run alone.
-/

namespace Medusa
namespace Task

open Machine Irq

section Groups

variable {H F : Set Nat} {depth lo e : Nat} {s : Cpu} {new : Word32}

theorem absorbs_below (hdepth : 80 ≤ depth) (hH : H ⊆ F) (he : (s.reg .esp).toNat = e)
    (hroom : lo + depth ≤ e) : Absorbs (Interrupts H depth) (below F lo e) s := by
  subst he
  refine absorbs_interrupts hdepth (by omega) (hH.trans Set.subset_union_left) ?_
  exact (Set.Ico_subset_Ico_left (by omega)).trans Set.subset_union_right

theorem push_esp {v : Word32} (he : (s.reg .esp).toNat = e + 4) :
    ((s.push v).reg .esp).toNat = e := by
  have hlt := (s.reg .esp).isLt
  rw [Cpu.push_reg, if_pos rfl, BitVec.toNat_sub, BitVec.toNat_ofNat, he]
  omega

theorem drop_esp (he : (s.reg .esp).toNat = e) (hroom : e + 4 < 2 ^ 32) :
    (s.drop.reg .esp).toNat = e + 4 := by
  rw [Cpu.drop_reg, if_pos rfl, BitVec.toNat_add, he, BitVec.toNat_ofNat,
    Nat.mod_eq_of_lt (by omega : 4 < 2 ^ 32), Nat.mod_eq_of_lt hroom]

/-- The registers that the accesses keep. -/
def kept : List Reg := [.esp, .eax]

theorem calm_pushAll (hdepth : 80 ≤ depth) (hH : H ⊆ F) (he : (s.reg .esp).toNat = e + 4 + 4 + 32)
    (hroom : lo + depth ≤ e) :
    Calm (Interrupts H depth) (below F lo (e + 4 + 4 + 32)) s pushAll (below F lo e) := by
  have h1 : ((exec s .pusha).reg .esp).toNat = e + 4 + 4 := by
    have htop := ((top_empty s).pushes (Cpu.pushaOrder.map s.reg)
      (show 4 * 8 ≤ (s.reg .esp).toNat by omega)).esp
    have hlt := (s.reg .esp).isLt
    change (s.pushes _).reg .esp = BitVec.ofNat 32 ((s.reg .esp).toNat - 32) at htop
    change ((s.pushes _).reg .esp).toNat = _
    rw [htop, he, BitVec.toNat_ofNat]
    omega
  refine Calm.pusha (absorbs_below hdepth hH he (by omega)) he ?_
  generalize exec s .pusha = s1 at h1
  have h2 : ((exec s1 .pushf).reg .esp).toNat = e + 4 := push_esp h1
  refine Calm.push (absorbs_below hdepth hH h1 (by omega)) h1 rfl rfl ?_
  generalize exec s1 .pushf = s2 at h2
  have h3 : ((exec s2 (.movFromCr3 .eax)).reg .esp).toNat = e + 4 := h2
  refine Calm.compute (absorbs_below hdepth hH h2 (by omega)) rfl ?_
  generalize exec s2 (.movFromCr3 .eax) = s3 at h3
  have h4 : ((exec s3 (.push .eax)).reg .esp).toNat = e := push_esp h3
  refine Calm.push (absorbs_below hdepth hH h3 (by omega)) h3 rfl rfl ?_
  exact Calm.nil (absorbs_below hdepth hH h4 (by omega))

/-- What `saveTask` does between taking its first argument and popping again. -/
def saveAccesses : List Instr := storeKept.tail ++ fetchPushed ++ storePushed.take 5

theorem saveTask_eq : saveTask = pushAll ++ (.load 44 .esp .eax :: (saveAccesses ++
    [.pop .ebx, .store .ebx 40 .eax, .push .ebx])) := rfl

theorem calm_saveTask (hdepth : 80 ≤ depth) (hH : H ⊆ F)
    (he : (s.reg .esp).toNat = e + 4 + 4 + 32) (hroom : lo + depth ≤ e) (htop : e + 52 ≤ 2 ^ 32)
    (hlive : Disjoint (Set.Ico e (e + 52)) F) :
    Calm (Interrupts H depth) (below F lo (e + 4 + 4 + 32)) s saveTask (below F lo e) := by
  rw [saveTask_eq]
  refine Calm.append (calm_pushAll hdepth hH he hroom) ?_
  have h0 : ((run s pushAll).reg .esp).toNat = e := by
    obtain ⟨htop', -⟩ := run_pushAll (top_empty s) (by omega)
    rw [htop'.esp, he, BitVec.toNat_ofNat]
    omega
  generalize run s pushAll = u at h0
  have hoperand : ∀ u : Cpu, (u.reg .esp).toNat = e → ∀ d, d + 4 ≤ 52 →
      Disjoint (cell (u.addr d .esp)) (below F lo e) := by
    intro u hu d hd
    rw [Cpu.addr_eq rfl (by omega), hu]
    exact disjoint_below (disjoint_cell hlive (by omega) (by omega)) (Or.inr (by omega))
  have h1 : ((exec u (.load 44 .esp .eax)).reg .esp).toNat = e := by
    rw [exec, Cpu.setReg_reg, if_neg (by decide), h0]
  refine Calm.access (absorbs_below hdepth hH h0 hroom) (hoperand u h0 44 (by omega)) ?_
  generalize exec u (.load 44 .esp .eax) = v at h1
  have hkeep : ∀ i ∈ saveAccesses, i.Keeps kept := by
    simp [saveAccesses, storeKept, fetchPushed, storePushed, Instr.Keeps, kept]
  have h2 : ((run v saveAccesses).reg .esp).toNat = e := by
    rw [(Instr.Keeps.run hkeep v).1 .esp List.mem_cons_self, h1]
  refine Calm.append (Calm.accesses hkeep ?_ fun w hw _ => absorbs_below hdepth hH
    (by rw [hw .esp List.mem_cons_self, h1]) hroom) ?_
  · have hv := hoperand v h1
    simp [saveAccesses, storeKept, fetchPushed, storePushed, Instr.reads, hv]
  generalize run v saveAccesses = w at h2
  have h3 : ((exec w (.pop .ebx)).reg .esp).toNat = e + 4 := by
    rw [exec, Cpu.setReg_reg, if_neg (by decide), drop_esp h2 (by omega)]
  refine Calm.pop (absorbs_below hdepth hH h2 hroom) h2 rfl
    (disjoint_cell hlive (by omega) (by omega)) ?_
  generalize exec w (.pop .ebx) = w' at h3
  have h4 : ((exec w' (.store .ebx 40 .eax)).reg .esp).toNat = e + 4 := h3
  refine Calm.compute (absorbs_below hdepth hH h3 (by omega)) rfl ?_
  generalize exec w' (.store .ebx 40 .eax) = w'' at h4
  have h5 : ((exec w'' (.push .ebx)).reg .esp).toNat = e := push_esp h4
  refine Calm.push (absorbs_below hdepth hH h4 (by omega)) h4 rfl rfl ?_
  exact Calm.nil (absorbs_below hdepth hH h5 hroom)

/-- The bytes of the block at `b`. -/
def block (b : Word32) : Set Nat := Set.Ico b.toNat (b.toNat + contextSize)

/-- A word of a block that is off `S`. -/
theorem field_off {S : Set Nat} (hblock : Disjoint (block new) S)
    (hfit : new.toNat + contextSize ≤ 2 ^ 32) {u : Cpu} (hu : u.reg .eax = new) {d : Nat}
    (hd : d + 4 ≤ contextSize) : Disjoint (cell (u.addr d .eax)) S := by
  unfold contextSize at hfit hd
  rw [Cpu.addr_eq hu (by omega)]
  exact disjoint_cell hblock (by omega) (by unfold contextSize; omega)

theorem calm_loadGeneral (hdepth : 80 ≤ depth) (hH : H ⊆ F) (he : (s.reg .esp).toNat = e)
    (hroom : lo + depth ≤ e) (htop : e + 52 ≤ 2 ^ 32) (hlive : Disjoint (Set.Ico e (e + 52)) F)
    (hnew : word s.mem (s.addr 48 .esp) = new) (hblock : Disjoint (block new) (below F lo e))
    (hfit : new.toNat + contextSize ≤ 2 ^ 32) :
    Calm (Interrupts H depth) (below F lo e) s loadGeneral (below F lo e) := by
  have hfirst : Disjoint (cell (s.addr 48 .esp)) (below F lo e) := by
    rw [Cpu.addr_eq rfl (by omega), he]
    exact disjoint_below (disjoint_cell hlive (by omega) (by omega)) (Or.inr (by omega))
  have h1 : ((exec s (.load 48 .esp .eax)).reg .esp).toNat = e := by
    rw [exec, Cpu.setReg_reg, if_neg (by decide), he]
  have heax : (exec s (.load 48 .esp .eax)).reg .eax = new := by
    rw [exec, Cpu.setReg_reg, if_pos rfl, hnew]
  refine Calm.access (absorbs_below hdepth hH he hroom) hfirst ?_
  generalize exec s (.load 48 .esp .eax) = u at h1 heax
  refine Calm.accesses (K := kept) (by simp [Instr.Keeps, kept]) ?_
    fun w hw _ => absorbs_below hdepth hH (by rw [hw .esp List.mem_cons_self, h1]) hroom
  have hfield := fun d (hd : d + 4 ≤ contextSize) => field_off hblock hfit heax hd
  unfold contextSize at hfield
  simp [Instr.reads, hfield]

theorem calm_loadFlags (hdepth : 80 ≤ depth) (hH : H ⊆ F) (he : (s.reg .esp).toNat = e + 4 + 4)
    (hroom : lo + depth ≤ e) (hlive : Disjoint (Set.Ico e (e + 4 + 4)) F)
    (heax : s.reg .eax = new) (hblock : Disjoint (block new) (below F lo (e + 4 + 4)))
    (hfit : new.toNat + contextSize ≤ 2 ^ 32) :
    Calm (Interrupts H depth) (below F lo (e + 4 + 4)) s loadFlags (below F lo (e + 4 + 4)) := by
  have hsub : below F lo (e + 4) ⊆ below F lo (e + 4 + 4) :=
    Set.union_subset_union_right F (Set.Ico_subset_Ico_right (by omega))
  have hlt := (s.reg .esp).isLt
  have h1 : ((exec s (.push .eax)).reg .esp).toNat = e + 4 := push_esp he
  have heax1 : (exec s (.push .eax)).reg .eax = new := by
    rw [exec, Cpu.push_reg, if_neg (by decide), heax]
  refine Calm.push (absorbs_below hdepth hH he (by omega)) he rfl rfl ?_
  generalize exec s (.push .eax) = s1 at h1 heax1
  have h2 : ((exec s1 (.load 36 .eax .eax)).reg .esp).toNat = e + 4 := by
    rw [exec, Cpu.setReg_reg, if_neg (by decide), h1]
  refine Calm.access (absorbs_below hdepth hH h1 (by omega))
    (field_off (Set.disjoint_of_subset_right hsub hblock) hfit heax1 (by decide)) ?_
  generalize exec s1 (.load 36 .eax .eax) = s2 at h2
  have h3 : ((exec s2 (.push .eax)).reg .esp).toNat = e := push_esp h2
  refine Calm.push (absorbs_below hdepth hH h2 (by omega)) h2 rfl rfl ?_
  generalize exec s2 (.push .eax) = s3 at h3
  have h4 : ((exec s3 .popf).reg .esp).toNat = e + 4 := drop_esp h3 (by omega)
  refine Calm.pop (absorbs_below hdepth hH h3 (by omega)) h3 rfl
    (disjoint_cell hlive (by omega) (by omega)) ?_
  generalize exec s3 .popf = s4 at h4
  have h5 : ((exec s4 (.pop .eax)).reg .esp).toNat = e + 4 + 4 := by
    rw [exec, Cpu.setReg_reg, if_neg (by decide), drop_esp h4 (by omega)]
  refine Calm.pop (absorbs_below hdepth hH h4 (by omega)) h4 rfl
    (disjoint_cell hlive (by omega) (by omega)) ?_
  exact Calm.nil (absorbs_below hdepth hH h5 (by omega))

/-- From here on the routine runs on the stack of the other task, and what lies below
the stack pointer it had before is not read again. -/
theorem calm_changeStack (hdepth : 80 ≤ depth) (hH : H ⊆ F) (he : (s.reg .esp).toNat = e)
    (hroom : lo + depth ≤ e) (heax : s.reg .eax = new)
    (hblock : Disjoint (block new) (below F lo e)) (hfit : new.toNat + contextSize ≤ 2 ^ 32)
    {lo' p : Nat} (hesp : (word s.mem (new.toNat + 24)).toNat = p + 4) (hroom' : lo' + depth ≤ p)
    (hlive : Disjoint (cell p) (below F lo e))
    (hblock' : Disjoint (block new) (Set.Ico lo' (p + 4))) :
    Calm (Interrupts H depth) (below F lo e) s changeStack (below (below F lo e) lo' (p + 4)) := by
  have hH' : H ⊆ below F lo e := hH.trans Set.subset_union_left
  have hlt := (word s.mem (new.toNat + 24)).isLt
  have hoff : Disjoint (block new) (below (below F lo e) lo' p) :=
    Set.disjoint_union_right.mpr ⟨hblock, Set.disjoint_of_subset_right
      (Set.Ico_subset_Ico_right (Nat.le_add_right p 4)) hblock'⟩
  unfold contextSize at hfit
  have h1 : ((exec s (.load 24 .eax .esp)).reg .esp).toNat = p + 4 := by
    rw [exec, Cpu.setReg_reg, if_pos rfl, Cpu.addr_eq heax (by omega), hesp]
  have heax1 : (exec s (.load 24 .eax .esp)).reg .eax = new := by
    rw [exec, Cpu.setReg_reg, if_neg (by decide), heax]
  refine Calm.access (absorbs_below hdepth hH he hroom) (field_off hblock hfit heax (by decide))
    (Calm.mono ?_ (Set.subset_union_left (t := Set.Ico lo' (p + 4))))
  generalize exec s (.load 24 .eax .esp) = s1 at h1 heax1
  have h2 : ((exec s1 (.push .eax)).reg .esp).toNat = p := push_esp h1
  have heax2 : (exec s1 (.push .eax)).reg .eax = new := by
    rw [exec, Cpu.push_reg, if_neg (by decide), heax1]
  refine Calm.push (absorbs_below hdepth hH' h1 (by omega)) h1 rfl rfl ?_
  generalize exec s1 (.push .eax) = s2 at h2 heax2
  have h3 : ((exec s2 (.load 40 .eax .eax)).reg .esp).toNat = p := by
    rw [exec, Cpu.setReg_reg, if_neg (by decide), h2]
  refine Calm.access (absorbs_below hdepth hH' h2 hroom') (field_off hoff hfit heax2 (by decide)) ?_
  generalize exec s2 (.load 40 .eax .eax) = s3 at h3
  have h4 : ((exec s3 (.movToCr3 .eax)).reg .esp).toNat = p := h3
  refine Calm.compute (absorbs_below hdepth hH' h3 hroom') rfl ?_
  generalize exec s3 (.movToCr3 .eax) = s4 at h4
  have h5 : ((exec s4 (.pop .eax)).reg .esp).toNat = p + 4 := by
    rw [exec, Cpu.setReg_reg, if_neg (by decide), drop_esp h4 (by omega)]
  refine Calm.pop (absorbs_below hdepth hH' h4 hroom') h4 rfl hlive ?_
  exact Calm.nil (absorbs_below hdepth hH' h5 (by omega))

theorem calm_jumpBack (hdepth : 80 ≤ depth) (hH : H ⊆ F) {p : Nat}
    (he : (s.reg .esp).toNat = p + 4) (hroom : lo + depth ≤ p) (heax : s.reg .eax = new)
    (hlive : Disjoint (cell p) F) (hblock : Disjoint (block new) (below F lo p))
    (hfit : new.toNat + contextSize ≤ 2 ^ 32) :
    Calm (Interrupts H depth) (below F lo (p + 4)) s jumpBack (below F lo (p + 4)) := by
  have hlt := (s.reg .esp).isLt
  have h1 : ((exec s (.push .eax)).reg .esp).toNat = p := push_esp he
  have heax1 : (exec s (.push .eax)).reg .eax = new := by
    rw [exec, Cpu.push_reg, if_neg (by decide), heax]
  have htop1 : (exec s (.push .eax)).top = new := by
    rw [exec, heax]
    exact ((top_empty s).push (by omega) new).top_eq
  refine Calm.push (absorbs_below hdepth hH he (by omega)) he rfl rfl ?_
  generalize exec s (.push .eax) = s1 at h1 heax1 htop1
  have h2 : ((exec s1 (.load 32 .eax .eax)).reg .esp).toNat = p := by
    rw [exec, Cpu.setReg_reg, if_neg (by decide), h1]
  have htop2 : (exec s1 (.load 32 .eax .eax)).top = new := by
    rw [← htop1, exec, Cpu.top, Cpu.setReg_reg, if_neg (by decide)]
    rfl
  refine Calm.access (absorbs_below hdepth hH h1 hroom) (field_off hblock hfit heax1 (by decide)) ?_
  generalize exec s1 (.load 32 .eax .eax) = s2 at h2 htop2
  have h3 : ((exec s2 (.xchgTop .eax)).reg .esp).toNat = p := by
    rw [exec, Cpu.withMem_reg, Cpu.setReg_reg, if_neg (by decide), h2]
  have heax3 : (exec s2 (.xchgTop .eax)).reg .eax = new := by
    rw [exec, Cpu.withMem_reg, Cpu.setReg_reg, if_pos rfl, htop2]
  have hslot : Disjoint (cell p) (below F lo p) := disjoint_below hlive (Or.inr (Nat.le_refl p))
  refine Calm.access (absorbs_below hdepth hH h2 hroom) (by rw [Instr.reads, slot_zero, h2]; exact
    hslot) ?_
  generalize exec s2 (.xchgTop .eax) = s3 at h3 heax3
  have h4 : ((exec s3 (.load 0 .eax .eax)).reg .esp).toNat = p := by
    rw [exec, Cpu.setReg_reg, if_neg (by decide), h3]
  refine Calm.access (absorbs_below hdepth hH h3 hroom) (field_off hblock hfit heax3 (by decide)) ?_
  generalize exec s3 (.load 0 .eax .eax) = s4 at h4
  have h5 : ((exec s4 .ret).reg .esp).toNat = p + 4 := drop_esp h4 (by omega)
  refine Calm.pop (absorbs_below hdepth hH h4 hroom) h4 rfl hlive ?_
  exact Calm.nil (absorbs_below hdepth hH h5 (by omega))

end Groups

/-! ## The whole routine -/

/-- Handlers that change memory only in `H` and in `depth` bytes of stack keep off what a
call `switchTask(old, new)` still needs, and both stacks have room for them. -/
structure Undisturbed (H : Set Nat) (depth : Nat) (s : Cpu) (old new : Word32) (sp : Nat) :
    Prop where
  depth_ge : 80 ≤ depth
  room : 48 + depth ≤ sp
  live : Disjoint (Set.Ico (sp - 48) (sp + 12)) H
  old_off : Disjoint (block old) H
  new_off : Disjoint (block new) H
  old_apart : Apart old (sp - 48 - depth) sp
  new_apart : Apart new (sp - 48 - depth) sp
  target_room : 4 + depth ≤ (Context.target s old new).esp.toNat
  target_live : Disjoint (cell ((Context.target s old new).esp.toNat - 4)) H
  old_target : Apart old ((Context.target s old new).esp.toNat - 4 - depth)
    (Context.target s old new).esp.toNat
  new_target : Apart new ((Context.target s old new).esp.toNat - 4 - depth)
    (Context.target s old new).esp.toNat
  apart : (Context.target s old new).esp.toNat ≤ sp - 48 - depth ∨
    sp ≤ (Context.target s old new).esp.toNat - 4

section Whole

variable {H : Set Nat} {depth : Nat} {s t : Cpu} {old new : Word32} {sp : Nat}

theorem Apart.disjoint {b : Word32} {lo hi : Nat} (h : Apart b lo hi) :
    Disjoint (block b) (Set.Ico lo hi) := by
  refine Set.disjoint_left.mpr fun x hx hin => ?_
  have hblock : b.toNat ≤ x ∧ x < b.toNat + contextSize := hx
  have hcell : lo ≤ x ∧ x < hi := hin
  have hout := h.2
  omega

theorem Apart.below {b : Word32} {lo lo' hi hi' : Nat} {F : Set Nat} (h : Apart b lo' hi')
    (hF : Disjoint (block b) F) (hlo : lo' ≤ lo) (hhi : hi ≤ hi') :
    Disjoint (block b) (below F lo hi) :=
  Set.disjoint_union_right.mpr ⟨hF, (h.mono hlo hhi).disjoint⟩

/-- What may differ after a switch with interrupts. -/
def residue (H : Set Nat) (depth sp tgt : Nat) : Set Nat :=
  below (below H (sp - 48 - depth) (sp - 40)) (tgt - 4 - depth) tgt

/-- The stack pointer and the block at which the groups behind `saveTask` start. -/
theorem Call.groups (h : Call s old new sp) {s1 : Cpu} (hs1 : run s saveTask = s1) :
    ((s1.reg .esp).toNat = sp - 40 ∧ word s1.mem (s1.addr 48 .esp) = new) ∧
      (((run s1 loadGeneral).reg .esp).toNat = sp - 40 ∧ (run s1 loadGeneral).reg .eax = new) ∧
      (((run (run s1 loadGeneral) loadFlags).reg .esp).toNat = sp - 40 ∧
        (run (run s1 loadGeneral) loadFlags).reg .eax = new ∧
        word (run (run s1 loadGeneral) loadFlags).mem (new.toNat + 24) =
          (Context.target s old new).esp) ∧
      (run (run (run s1 loadGeneral) loadFlags) changeStack).reg .esp =
        (Context.target s old new).esp ∧
      (run (run (run s1 loadGeneral) loadFlags) changeStack).reg .eax = new := by
  have hroom := h.room
  obtain ⟨hsaved, -, -, hstored, -⟩ := h.saved
  rw [hs1] at hsaved hstored
  have hgeneral := run_loadGeneral hsaved rfl hstored h.new_apart.1
  obtain ⟨hflags, hkept⟩ := stored_loads hsaved rfl (by omega) hstored
    (h.new_apart.mono (by omega) (by omega))
  have heax : (run (run s1 loadGeneral) loadFlags).reg .eax = new := by
    rw [hflags, hgeneral]
    simp
  have hchange := run_changeStack heax hkept h.target_room h.new_target
  have hesp := hsaved.esp_toNat
  refine ⟨⟨hesp, hsaved.operand (i := 12) rfl⟩, ⟨?_, ?_⟩, ⟨?_, heax, ?_⟩, ?_, ?_⟩
  · rw [← hesp, hgeneral]
    simp
  · rw [hgeneral]
    simp
  · rw [← hesp, hflags, hgeneral]
    simp
  · exact congrArg Context.esp hkept
  · rw [hchange]
    simp
  · rw [hchange]
    simp [heax]

/-- Interrupts change the residue and nothing else. -/
theorem Call.calm (h : Call s old new sp) (hu : Undisturbed H depth s old new sp) :
    Calm (Interrupts H depth) (below H (sp - 48 - depth) sp) s switchTask
      (residue H depth sp (Context.target s old new).esp.toNat) := by
  obtain ⟨ret, htop⟩ := h.top
  have hdepth := hu.depth_ge
  have hroom := hu.room
  have htgt := hu.target_room
  have happart := hu.apart
  have hcell := hu.target_live
  have hblock := hu.new_target
  have hfit := hu.new_apart.1
  have hend : sp + 12 ≤ 2 ^ 32 := htop.room
  have hsp : (s.reg .esp).toNat = sp := htop.esp_toNat
  obtain ⟨p, hp⟩ : ∃ p, (Context.target s old new).esp.toNat = p + 4 :=
    ⟨(Context.target s old new).esp.toNat - 4, by omega⟩
  obtain ⟨q, hq⟩ : ∃ q, sp = q + 4 + 4 + 4 + 4 + 32 := ⟨sp - 48, by omega⟩
  have h40 : sp - 40 = q + 4 + 4 := by omega
  obtain ⟨s1, hs1⟩ : ∃ s1, run s saveTask = s1 := ⟨_, rfl⟩
  obtain ⟨⟨hesp1, hnew⟩, ⟨hesp2, heax2⟩, ⟨hesp3, heax3, htarget⟩, hesp4, heax4⟩ := h.groups hs1
  have hcode : switchTask = saveTask ++ (loadGeneral ++ (loadFlags ++ (changeStack ++ jumpBack))) :=
    by simp only [switchTask, resumeTask, List.append_assoc]
  rw [h40] at hesp1 hesp2 hesp3
  rw [hp] at htgt happart hcell hblock
  rw [hcode, residue, h40, hp, show p + 4 - 4 - depth = p - depth by omega]
  have hlow : Disjoint (Set.Ico (q + 4 + 4) (q + 4 + 4 + 52)) H :=
    Set.disjoint_of_subset_left (Set.Ico_subset_Ico (by omega) (by omega)) hu.live
  have hpush : Disjoint (Set.Ico q (q + 4 + 4)) H :=
    Set.disjoint_of_subset_left (Set.Ico_subset_Ico (by omega) (by omega)) hu.live
  have htop' : Disjoint (cell p) (below H (sp - 48 - depth) (q + 4 + 4)) :=
    disjoint_below hcell (by omega)
  have hnew' : Disjoint (block new) (below H (sp - 48 - depth) (q + 4 + 4)) :=
    hu.new_apart.below hu.new_off (Nat.le_refl _) (by omega)
  generalize hlo : sp - 48 - depth = lo at *
  have hsave : Calm (Interrupts H depth) (below H lo sp) s saveTask (below H lo (q + 4 + 4)) := by
    rw [hq] at hsp ⊢
    exact calm_saveTask hdepth Set.Subset.rfl hsp (by omega) (by omega) hlow
  have hload := calm_loadGeneral hdepth Set.Subset.rfl hesp1 (by omega) (by omega) hlow hnew hnew'
    hfit
  have hflag := calm_loadFlags hdepth Set.Subset.rfl hesp2 (by omega) hpush heax2 hnew' hfit
  have hstack := calm_changeStack hdepth Set.Subset.rfl hesp3 (by omega) heax3 hnew' hfit
    ((congrArg BitVec.toNat htarget).trans hp) (by omega : p - depth + depth ≤ p) htop'
    (hblock.mono (by omega) (Nat.le_refl _)).disjoint
  have hjump := calm_jumpBack hdepth Set.subset_union_left
    ((congrArg BitVec.toNat hesp4).trans hp) (by omega : p - depth + depth ≤ p) heax4 htop'
    (hblock.below hnew' (by omega) (by omega)) hfit
  refine hsave.append ?_
  rw [hs1]
  exact hload.append (hflag.append (hstack.append hjump))

theorem not_mem_residue {tgt x : Nat} (hH : x ∉ H) (hx : x < sp - 48 - depth ∨ sp - 40 ≤ x)
    (hx' : x < tgt - 4 - depth ∨ tgt ≤ x) : x ∉ residue H depth sp tgt := by
  rintro ((hin | hin) | hin)
  · exact hH hin
  · have hzone : sp - 48 - depth ≤ x ∧ x < sp - 40 := hin
    omega
  · have hzone : tgt - 4 - depth ≤ x ∧ x < tgt := hin
    omega

theorem alike_current {S : Set Nat} (h : Alike S s t) :
    Context.current t = Context.current s ∧ t.seg = s.seg := by
  rw [h.rest]
  exact ⟨rfl, rfl⟩

/-- **`switchTask` exchanges contexts, wherever it is interrupted.**  Interrupts may come
between any two of its instructions, any number of times, and their handlers may do
anything on their part of the stack and in a memory `H` of their own.  Still all eleven
registers of the task it goes to are loaded, the block of the task it leaves holds the
registers of its caller as they are after the call, and memory off that block, off `H` and
off what lies below the two stack pointers is untouched. -/
theorem switchTask_exchanges (h : Call s old new sp) (hu : Undisturbed H depth s old new sp)
    (hrun : Interleaved exec (Interrupts H depth) s switchTask t) :
    Context.current t = Context.target s old new ∧
      Context.stored t.mem old.toNat = Context.returning s ∧ t.seg = s.seg ∧
      ∀ x, x ∉ H → (x < sp - 48 - depth ∨ sp ≤ x) →
        (x < old.toNat ∨ old.toNat + contextSize ≤ x) →
        (x < (Context.target s old new).esp.toNat - 4 - depth ∨
          (Context.target s old new).esp.toNat ≤ x) →
        t.mem x = s.mem x := by
  have halike := h.calm hu s t (Alike.refl _ s) hrun
  obtain ⟨hcurrent, hseg⟩ := alike_current halike
  obtain ⟨hcurrent', hstored, hseg', hframe⟩ := h.exchanged
  refine ⟨hcurrent.trans hcurrent', ?_, hseg.trans hseg', fun x hH hstack hblock htarget => ?_⟩
  · rw [← hstored]
    refine Context.stored_congr fun x hlo hhi => halike.mem x (not_mem_residue ?_ ?_ ?_)
    · exact Set.disjoint_left.mp hu.old_off ⟨hlo, hhi⟩
    · have hout := hu.old_apart.2
      omega
    · have hout := hu.old_target.2
      omega
  · rw [halike.mem x (not_mem_residue hH (by omega) htarget)]
    exact hframe x (by omega) hblock (by omega)

end Whole

/-- The timer interrupts kernel code. -/
def timer (s : Cpu) : Cpu := serve clobber s ⟨0x10#16, 0x9000#32⟩ 32 none

theorem interrupts_timer {s : Cpu} (huser : ¬ s.userMode) : Interrupts ∅ 80 s (timer s) := by
  obtain ⟨hesp, hseg, hcr3, hmem⟩ := clobber_keeps (enter s ⟨0x10#16, 0x9000#32⟩ 32 none)
  refine ⟨huser, clobber, ⟨0x10#16, 0x9000#32⟩, 32, none, by decide, ?_, by rw [timer]⟩
  exact ⟨hesp, by rw [hseg, enter_ss huser], hcr3, by rw [hmem]; exact Agree.refl _ _ _,
    fun x _ _ => by rw [hmem]⟩

theorem atSwitch_undisturbed : Undisturbed ∅ 80 atSwitch 0x2000#32 0x3000#32 0x1000 where
  depth_ge := by decide
  room := by decide
  live := Set.disjoint_empty _
  old_off := Set.disjoint_empty _
  new_off := Set.disjoint_empty _
  old_apart := by decide
  new_apart := by decide
  target_room := by decide
  target_live := Set.disjoint_empty _
  old_target := by decide
  new_target := by decide
  apart := by decide

theorem atSwitch_exchanges :
    Context.current (run (timer atSwitch) switchTask) =
        Context.target atSwitch 0x2000#32 0x3000#32 ∧
      Context.stored (run (timer atSwitch) switchTask).mem 0x2000 = Context.returning atSwitch :=
  have h := switchTask_exchanges atSwitch_call atSwitch_undisturbed
    (.event (interrupts_timer (by decide)) (Interleaved.foldl (timer atSwitch) switchTask))
  ⟨h.1, h.2.1⟩

end Task
end Medusa
