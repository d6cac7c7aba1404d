import Mathlib.Data.Set.Lattice
import Mathlib.Order.CompletePartialOrder
import Mathlib.Order.Interval.Set.Basic
import Medusa.Machine.I386

/-!
# Code with events between its instructions

An event may come before any instruction of a piece of code and behind the last one,
and any number of times.  What it leaves changed is a set of bytes that the code does not
read before it has written them.  `Calm event S s code S'` follows such a set through
the code: a run with events, from a processor that is `s` off the bytes `S`, ends in one
that is `run s code` off the bytes `S'`.
-/

namespace Medusa
namespace Machine

/-! ## Runs with events -/

section Interleaved

variable {σ ι : Type*}

/-- A run of `code` from one state to another, with events. -/
inductive Interleaved (exec : σ → ι → σ) (event : σ → σ → Prop) : σ → List ι → σ → Prop
  | done (s : σ) : Interleaved exec event s [] s
  | event {s u t : σ} {code : List ι} (he : event s u) (h : Interleaved exec event u code t) :
      Interleaved exec event s code t
  | step {s t : σ} {i : ι} {code : List ι} (h : Interleaved exec event (exec s i) code t) :
      Interleaved exec event s (i :: code) t

namespace Interleaved

variable {exec : σ → ι → σ} {event : σ → σ → Prop} {s t : σ}

/-- The run without events is one of them. -/
theorem foldl (s : σ) (code : List ι) : Interleaved exec event s code (code.foldl exec s) := by
  induction code generalizing s with
  | nil => exact done s
  | cons i code ih => exact step (ih (exec s i))

theorem split {all : List ι} (h : Interleaved exec event s all t) {code more : List ι}
    (hall : all = code ++ more) :
    ∃ u, Interleaved exec event s code u ∧ Interleaved exec event u more t := by
  induction h generalizing code with
  | done s =>
    obtain ⟨rfl, rfl⟩ := List.append_eq_nil_iff.mp hall.symm
    exact ⟨s, done s, done s⟩
  | event he _ ih =>
    obtain ⟨u, hfirst, hrest⟩ := ih hall
    exact ⟨u, .event he hfirst, hrest⟩
  | @step s t i rest h ih =>
    cases code with
    | nil =>
      subst hall
      exact ⟨s, done s, step h⟩
    | cons j code =>
      obtain ⟨rfl, rfl⟩ := List.cons.inj hall
      obtain ⟨u, hfirst, hrest⟩ := ih rfl
      exact ⟨u, step hfirst, hrest⟩

end Interleaved

end Interleaved

/-! ## Footprints -/

/-- The four bytes at `a`. -/
def cell (a : Nat) : Set Nat := Set.Ico a (a + 4)

/-- The bytes of the word `i` places above the stack pointer. -/
def Cpu.slot (s : Cpu) (i : Nat) : Set Nat := cell (s.reg .esp + BitVec.ofNat 32 (4 * i)).toNat

/-- The bytes of the word that is `i` places below the stack pointer. -/
def Cpu.under (s : Cpu) (i : Nat) : Set Nat := cell (s.reg .esp - BitVec.ofNat 32 (4 * i)).toNat

namespace Instr

/-- The bytes that an instruction reads. -/
def reads (s : Cpu) : Instr → Set Nat
  | .pop _ | .popSeg _ | .popf | .xchgTop _ | .ret => s.slot 0
  | .popa => ⋃ i ∈ Set.Iio 8, s.slot i
  | .load disp base _ => cell (s.addr disp base)
  | _ => ∅

/-- The bytes that an instruction writes. -/
def writes (s : Cpu) : Instr → Set Nat
  | .push _ | .pushImm _ | .pushSeg _ | .pushf => s.under 1
  | .pusha => ⋃ i ∈ Set.Iio 8, s.under (i + 1)
  | .store _ disp base => cell (s.addr disp base)
  | .xchgTop _ => s.slot 0
  | _ => ∅

end Instr

/-- `t` is `s`, except for bytes of `S`. -/
structure Alike (S : Set Nat) (s t : Cpu) : Prop where
  rest : t = s.withMem t.mem
  mem : ∀ x, x ∉ S → t.mem x = s.mem x

section Alike

variable {S S' : Set Nat} {s t u : Cpu}

theorem Alike.refl (S : Set Nat) (s : Cpu) : Alike S s s := ⟨rfl, fun _ _ => rfl⟩

theorem Alike.trans (h : Alike S s t) (h' : Alike S t u) : Alike S s u := by
  refine ⟨?_, fun x hx => (h'.mem x hx).trans (h.mem x hx)⟩
  rw [h'.rest, h.rest]
  rfl

theorem Alike.mono (h : Alike S s t) (hsub : S ⊆ S') : Alike S' s t :=
  ⟨h.rest, fun x hx => h.mem x fun hin => hx (hsub hin)⟩

theorem word_congr_off {m m' : Mem} {a : Nat} (h : ∀ x, x ∉ S → m' x = m x)
    (hoff : Disjoint (cell a) S) : word m' a = word m a :=
  word_congr fun x hlo hhi => h x (Set.disjoint_left.mp hoff ⟨hlo, hhi⟩)

/-- A store makes the bytes that it writes the same. -/
theorem setWord_congr_off {m m' : Mem} (h : ∀ x, x ∉ S → m' x = m x) (a : Nat) (v : Word32) :
    ∀ x, x ∉ S \ cell a → setWord m' a v x = setWord m a v x := by
  intro x hx
  unfold setWord write32
  split_ifs with h0 h1 h2 h3
  · rfl
  · rfl
  · rfl
  · rfl
  · refine h x fun hin => hx ⟨hin, fun hcell => ?_⟩
    have hlo := hcell.1
    have hhi := hcell.2
    omega

/-- The stack pointer itself, as a place on the stack. -/
theorem slot_zero (s : Cpu) : s.slot 0 = cell (s.reg .esp).toNat := by
  unfold Cpu.slot
  rw [Nat.mul_zero, BitVec.add_zero]

theorem Alike.top_eq (h : Alike S s t) (hoff : Disjoint (s.slot 0) S) : t.top = s.top := by
  rw [slot_zero] at hoff
  rw [h.rest]
  exact word_congr_off h.mem hoff

theorem Alike.push (h : Alike S s t) (v : Word32) :
    Alike (S \ s.under 1) (s.push v) (t.push v) := by
  rw [h.rest]
  exact ⟨rfl, setWord_congr_off h.mem _ v⟩

theorem Alike.pushes (h : Alike S s t) (vs : List Word32) :
    Alike (S \ ⋃ i ∈ Set.Iio vs.length, s.under (i + 1)) (s.pushes vs) (t.pushes vs) := by
  induction vs generalizing S s t with
  | nil => exact h.mono fun x hx => ⟨hx, by simp⟩
  | cons v vs ih =>
    refine (ih (h.push v)).mono ?_
    rintro x ⟨⟨hin, hfirst⟩, hrest⟩
    refine ⟨hin, fun hunder => ?_⟩
    simp only [Set.mem_iUnion, Set.mem_Iio, List.length_cons] at hunder hrest
    obtain ⟨i, hi, hx⟩ := hunder
    cases i with
    | zero => exact hfirst hx
    | succ i =>
      refine hrest ⟨i, Nat.lt_of_succ_lt_succ hi, ?_⟩
      have hesp : (s.push v).reg .esp - BitVec.ofNat 32 (4 * (i + 1)) =
          s.reg .esp - BitVec.ofNat 32 (4 * (i + 1 + 1)) := by
        rw [Cpu.push_reg, if_pos rfl, Nat.mul_add 4 (i + 1) 1, BitVec.ofNat_add, ← BitVec.sub_sub,
          BitVec.sub_sub, BitVec.sub_sub, BitVec.add_comm]
      unfold Cpu.under at hx ⊢
      rw [hesp]
      exact hx

/-- One step of `popa`. -/
theorem Alike.popaStep (h : Alike S s t) (hoff : Disjoint (s.slot 0) S) (r : Reg) :
    Alike S (Cpu.popaStep s r) (Cpu.popaStep t r) ∧
      (Cpu.popaStep s r).reg .esp = s.reg .esp + 4#32 := by
  have htop := h.top_eq hoff
  have hmem : (Cpu.popaStep s r).mem = s.mem := by
    unfold Cpu.popaStep
    split_ifs <;> rfl
  refine ⟨⟨?_, fun x hx => ?_⟩, ?_⟩
  · unfold Cpu.popaStep
    rw [htop]
    split_ifs
    · rw [h.rest]
      rfl
    · rw [h.rest]
      rfl
  · have hmem' : (Cpu.popaStep t r).mem = t.mem := by
      unfold Cpu.popaStep
      split_ifs <;> rfl
    rw [hmem, hmem']
    exact h.mem x hx
  · unfold Cpu.popaStep
    split_ifs with hr
    · simp
    · simp [Ne.symm hr]

theorem Alike.popaSteps (h : Alike S s t) (rs : List Reg)
    (hoff : ∀ i, i < rs.length → Disjoint (s.slot i) S) :
    Alike S (rs.foldl Cpu.popaStep s) (rs.foldl Cpu.popaStep t) := by
  induction rs generalizing s t with
  | nil => exact h
  | cons r rs ih =>
    obtain ⟨hfirst, hesp⟩ := h.popaStep (hoff 0 (Nat.succ_pos _)) r
    refine ih hfirst fun i hi => ?_
    have hslot : (Cpu.popaStep s r).slot i = s.slot (i + 1) := by
      unfold Cpu.slot
      rw [hesp, Nat.mul_add, BitVec.ofNat_add, BitVec.add_assoc, BitVec.add_comm 4#32]
    rw [hslot]
    exact hoff (i + 1) (Nat.succ_lt_succ hi)

/-- **Instructions do not see what they do not read**, and what they write is the same
afterwards. -/
theorem Alike.exec (h : Alike S s t) (i : Instr) (hoff : Disjoint (i.reads s) S) :
    Alike (S \ i.writes s) (exec s i) (exec t i) := by
  have hset : ∀ {s' t' : Cpu}, Alike S s' t' → Alike (S \ ∅) s' t' := fun h' => by
    rwa [Set.sdiff_empty]
  obtain ⟨m, rfl⟩ : ∃ m, t = s.withMem m := ⟨t.mem, h.rest⟩
  cases i with
  | push r => exact h.push _
  | pushImm v => exact h.push v
  | pushSeg r => exact h.push _
  | pushf => exact h.push _
  | pusha =>
    have hpushes := h.pushes (Cpu.pushaOrder.map s.reg)
    have hlen : (Cpu.pushaOrder.map s.reg).length = 8 := rfl
    rw [hlen] at hpushes
    exact hpushes
  | pop r =>
    have htop := h.top_eq hoff
    exact hset ⟨by simp only [Machine.exec, htop]; rfl, h.mem⟩
  | popSeg r =>
    have htop := h.top_eq hoff
    exact hset ⟨by simp only [Machine.exec, htop]; rfl, h.mem⟩
  | popf =>
    have htop := h.top_eq hoff
    exact hset ⟨by simp only [Machine.exec, htop]; rfl, h.mem⟩
  | popa =>
    refine hset (h.popaSteps Cpu.popaOrder fun i hi => ?_)
    exact Set.disjoint_of_subset_left (Set.subset_biUnion_of_mem (u := s.slot) hi) hoff
  | load disp base dst =>
    have hword : word m (s.addr disp base) = word s.mem (s.addr disp base) :=
      word_congr_off h.mem hoff
    exact hset ⟨by simp only [Machine.exec, Cpu.withMem_mem, Cpu.withMem_addr, hword]; rfl, h.mem⟩
  | store src disp base => exact ⟨rfl, setWord_congr_off h.mem _ _⟩
  | xchgTop r =>
    have htop := h.top_eq hoff
    have hmem := setWord_congr_off h.mem (s.reg .esp).toNat (s.reg r)
    rw [← slot_zero] at hmem
    exact ⟨by simp only [Machine.exec, htop]; rfl, hmem⟩
  | ret =>
    have htop := h.top_eq hoff
    exact hset ⟨by simp only [Machine.exec, htop]; rfl, h.mem⟩
  | mov src dst => exact hset ⟨rfl, h.mem⟩
  | movImm v dst => exact hset ⟨rfl, h.mem⟩
  | movImm16 v dst => exact hset ⟨rfl, h.mem⟩
  | movSeg src dst => exact hset ⟨rfl, h.mem⟩
  | movFromCr3 dst => exact hset ⟨rfl, h.mem⟩
  | movToCr3 src => exact hset ⟨rfl, h.mem⟩
  | addImm v dst => exact hset ⟨rfl, h.mem⟩
  | orImm v dst => exact hset ⟨rfl, h.mem⟩

end Alike

/-! ## Differences along code -/

/-- Events at `s` change bytes of `S` only. -/
def Absorbs (event : Cpu → Cpu → Prop) (S : Set Nat) (s : Cpu) : Prop :=
  ∀ u t, Alike S s u → event u t → Alike S s t

def Calm (event : Cpu → Cpu → Prop) (S : Set Nat) (s : Cpu) (code : List Instr) (S' : Set Nat) :
    Prop :=
  ∀ u t, Alike S s u → Interleaved exec event u code t → Alike S' (run s code) t

namespace Calm

variable {event : Cpu → Cpu → Prop} {S S₁ S' : Set Nat} {s : Cpu} {i : Instr}
  {code more : List Instr}

theorem nil (habs : Absorbs event S s) : Calm event S s [] S := by
  intro u t hu hrun
  generalize hcode : [] = code at hrun
  induction hrun with
  | done u => exact hu
  | event he _ ih => exact ih (habs _ _ hu he) hcode
  | step _ _ => cases hcode

/-- What the first instruction reads is off `S`, and what it writes is the same
afterwards. -/
theorem cons (habs : Absorbs event S s) (hoff : Disjoint (i.reads s) S)
    (hnext : Calm event (S \ i.writes s) (exec s i) code S') :
    Calm event S s (i :: code) S' := by
  intro u t hu hrun
  generalize hall : i :: code = all at hrun
  induction hrun with
  | done u => cases hall
  | event he _ ih => exact ih (habs _ _ hu he) hall
  | step hrest _ =>
    obtain ⟨rfl, rfl⟩ := List.cons.inj hall
    exact hnext _ _ (hu.exec i hoff) hrest

theorem mono (h : Calm event S s code S') (hsub : S₁ ⊆ S) : Calm event S₁ s code S' :=
  fun u t hu hrun => h u t (hu.mono hsub) hrun

theorem append (h : Calm event S s code S₁) (h' : Calm event S₁ (run s code) more S') :
    Calm event S s (code ++ more) S' := by
  intro u t hu hrun
  obtain ⟨w, hfirst, hrest⟩ := hrun.split rfl
  rw [run_append]
  exact h' w t (h u w hu hfirst) hrest

theorem access (habs : Absorbs event S s) (hoff : Disjoint (i.reads s) S)
    (hnext : Calm event S (exec s i) code S') : Calm event S s (i :: code) S' :=
  cons habs hoff (hnext.mono Set.sdiff_subset)

/-- An instruction that reads no memory. -/
theorem compute (habs : Absorbs event S s) (hnone : i.reads s = ∅)
    (hnext : Calm event S (exec s i) code S') : Calm event S s (i :: code) S' :=
  access habs (hnone ▸ Set.empty_disjoint S) hnext

end Calm

/-! ### On the stack -/

/-- The bytes `F`, and those from `lo` up to the stack pointer `sp`. -/
def below (F : Set Nat) (lo sp : Nat) : Set Nat := F ∪ Set.Ico lo sp

theorem disjoint_below {F : Set Nat} {lo sp a : Nat} (hF : Disjoint (cell a) F)
    (hout : a + 4 ≤ lo ∨ sp ≤ a) : Disjoint (cell a) (below F lo sp) := by
  refine Set.disjoint_union_right.mpr ⟨hF, Set.disjoint_left.mpr fun x hx hin => ?_⟩
  have hcell : a ≤ x ∧ x < a + 4 := hx
  have hbelow : lo ≤ x ∧ x < sp := hin
  omega

theorem disjoint_cell {S : Set Nat} {a lo hi : Nat} (h : Disjoint (Set.Ico lo hi) S) (hlo : lo ≤ a)
    (hhi : a + 4 ≤ hi) : Disjoint (cell a) S :=
  Set.disjoint_of_subset_left (Set.Ico_subset_Ico hlo hhi) h

theorem Cpu.under_eq {s : Cpu} {sp i : Nat} (hsp : (s.reg .esp).toNat = sp + 4 * i) :
    s.under i = cell sp := by
  have hlt := (s.reg .esp).isLt
  unfold Cpu.under
  rw [BitVec.toNat_sub, BitVec.toNat_ofNat, hsp, Nat.mod_eq_of_lt (by omega : 4 * i < 2 ^ 32)]
  congr 1
  omega

namespace Calm

variable {event : Cpu → Cpu → Prop} {F S' : Set Nat} {lo sp : Nat} {s : Cpu} {i : Instr}
  {code : List Instr}

theorem push (habs : Absorbs event (below F lo (sp + 4)) s) (hsp : (s.reg .esp).toNat = sp + 4)
    (hreads : i.reads s = ∅) (hwrites : i.writes s = s.under 1)
    (hnext : Calm event (below F lo sp) (exec s i) code S') :
    Calm event (below F lo (sp + 4)) s (i :: code) S' := by
  refine cons habs (hreads ▸ Set.empty_disjoint _) (hnext.mono ?_)
  rw [hwrites, Cpu.under_eq hsp]
  rintro x ⟨hF | hin, hout⟩
  · exact Or.inl hF
  · have hbelow : lo ≤ x ∧ x < sp + 4 := hin
    have hcell : ¬ (sp ≤ x ∧ x < sp + 4) := hout
    exact Or.inr ⟨hbelow.1, by omega⟩

theorem pusha (habs : Absorbs event (below F lo (sp + 32)) s)
    (hsp : (s.reg .esp).toNat = sp + 32)
    (hnext : Calm event (below F lo sp) (exec s .pusha) code S') :
    Calm event (below F lo (sp + 32)) s (.pusha :: code) S' := by
  refine cons habs (Set.empty_disjoint _) (hnext.mono ?_)
  rintro x ⟨hF | hin, hout⟩
  · exact Or.inl hF
  · have hbelow : lo ≤ x ∧ x < sp + 32 := hin
    refine Or.inr ⟨hbelow.1, ?_⟩
    by_contra hge
    -- the word in which the byte lies
    obtain ⟨n, hn⟩ : ∃ n, n = (x - sp) / 4 := ⟨_, rfl⟩
    have hword : x ∈ s.under (7 - n + 1) := by
      rw [Cpu.under_eq (show (s.reg .esp).toNat = sp + 4 * n + 4 * (7 - n + 1) by omega)]
      exact ⟨by omega, by omega⟩
    exact hout (Set.mem_biUnion (show 7 - n ∈ Set.Iio 8 by
      rw [Set.mem_Iio]
      omega) hword)

theorem pop (habs : Absorbs event (below F lo sp) s) (hsp : (s.reg .esp).toNat = sp)
    (hreads : i.reads s = s.slot 0) (hoff : Disjoint (cell sp) F)
    (hnext : Calm event (below F lo (sp + 4)) (exec s i) code S') :
    Calm event (below F lo sp) s (i :: code) S' := by
  refine access habs ?_ (hnext.mono ?_)
  · rw [hreads, slot_zero, hsp]
    exact disjoint_below hoff (Or.inr (Nat.le_refl sp))
  · exact Set.union_subset_union_right F (Set.Ico_subset_Ico_right (by omega))

end Calm

/-! ### Accesses in a row -/

/-- An access or a sum that keeps the registers `K`, with an operand at one of them. -/
def Instr.Keeps (K : List Reg) : Instr → Prop
  | .load _ base dst => base ∈ K ∧ dst ∉ K
  | .store _ _ base => base ∈ K
  | .addImm _ dst => dst ∉ K
  | _ => False

theorem Instr.Keeps.exec {K : List Reg} {i : Instr} (h : i.Keeps K) (s : Cpu) :
    (∀ r ∈ K, (exec s i).reg r = s.reg r) ∧ (Machine.exec s i).seg = s.seg := by
  cases i with
  | load disp base dst =>
    refine ⟨fun r hr => ?_, rfl⟩
    have hne : r ≠ dst := fun he => h.2 (he ▸ hr)
    rw [Machine.exec, Cpu.setReg_reg, if_neg hne]
  | store src disp base => exact ⟨fun r _ => rfl, rfl⟩
  | addImm v dst =>
    refine ⟨fun r hr => ?_, rfl⟩
    have hne : r ≠ dst := fun he => h (he ▸ hr)
    rw [Machine.exec, Cpu.setReg_reg, if_neg hne]
  | _ => exact h.elim

theorem Instr.Keeps.run {K : List Reg} {code : List Instr} (h : ∀ i ∈ code, i.Keeps K) (s : Cpu) :
    (∀ r ∈ K, (run s code).reg r = s.reg r) ∧ (Machine.run s code).seg = s.seg := by
  induction code generalizing s with
  | nil => exact ⟨fun _ _ => rfl, rfl⟩
  | cons i code ih =>
    obtain ⟨hreg, hseg⟩ := (h i List.mem_cons_self).exec s
    obtain ⟨hreg', hseg'⟩ := ih (fun j hj => h j (List.mem_cons_of_mem i hj)) (Machine.exec s i)
    exact ⟨fun r hr => (hreg' r hr).trans (hreg r hr), hseg'.trans hseg⟩

theorem Instr.Keeps.reads_congr {K : List Reg} {i : Instr} (h : i.Keeps K) {s t : Cpu}
    (hK : ∀ r ∈ K, t.reg r = s.reg r) : i.reads t = i.reads s := by
  cases i with
  | load disp base dst =>
    have haddr : t.addr disp base = s.addr disp base := by
      unfold Cpu.addr
      rw [hK base h.1]
    rw [Instr.reads, haddr, Instr.reads]
  | store src disp base => rfl
  | addImm v dst => rfl
  | _ => exact h.elim

/-- Accesses through registers that stay. -/
theorem Calm.accesses {event : Cpu → Cpu → Prop} {S : Set Nat} {s : Cpu} {K : List Reg}
    {code : List Instr} (hkeep : ∀ i ∈ code, i.Keeps K)
    (hoff : ∀ i ∈ code, Disjoint (i.reads s) S)
    (habs : ∀ u : Cpu, (∀ r ∈ K, u.reg r = s.reg r) → u.seg = s.seg → Absorbs event S u) :
    Calm event S s code S := by
  induction code generalizing s with
  | nil => exact nil (habs s (fun _ _ => rfl) rfl)
  | cons i code ih =>
    obtain ⟨hreg, hseg⟩ := (hkeep i List.mem_cons_self).exec s
    refine access (habs s (fun _ _ => rfl) rfl) (hoff i List.mem_cons_self)
      (ih (fun j hj => hkeep j (List.mem_cons_of_mem i hj)) (fun j hj => ?_) fun u hu hsame =>
        habs u (fun r hr => (hu r hr).trans (hreg r hr)) (hsame.trans hseg))
    rw [(hkeep j (List.mem_cons_of_mem i hj)).reads_congr hreg]
    exact hoff j (List.mem_cons_of_mem i hj)

end Machine
end Medusa
