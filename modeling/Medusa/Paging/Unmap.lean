import Medusa.Paging.Translation

/-!
# Unmapping and the null frame

Block 0 is marked used at boot, and the allocators answer 0 when they fail.
`paging_unmap_page` releases the frame of any entry it finds, also of an entry
that is not present: there the frame is 0.  The unmappings that keep block 0
taken are the ones of `Spares`.
-/

namespace Medusa
namespace Paging

open Machine Kernel Pmm

variable {s t : State} {virt phys num flags : Nat}

/-! ## Allocations only mark -/

/-- Every block taken in `p` is taken in `q`. -/
structure Marks (p q : Pmm.State) : Prop where
  taken : ∀ k, Pmm.taken p k = true → Pmm.taken q k = true
  maxBlocks : q.maxBlocks = p.maxBlocks

namespace Marks

theorem refl (p : Pmm.State) : Marks p p := ⟨fun _ h => h, rfl⟩

theorem trans {p q r : Pmm.State} (h : Marks p q) (h' : Marks q r) : Marks p r :=
  ⟨fun k hk => h'.taken k (h.taken k hk), h'.maxBlocks.trans h.maxBlocks⟩

theorem mmapSet (p : Pmm.State) (b : Nat) : Marks p (mmapSet p b) := by
  refine ⟨fun k hk => ?_, rfl⟩
  rw [taken_mmapSet, hk, Bool.true_or]

theorem setBlocks (p : Pmm.State) (first num : Nat) : Marks p (setBlocks p first num) :=
  foldl_range_induction (fun _ q => Marks p q) (refl p) fun _ _ _ h => h.trans (mmapSet _ _)

theorem pmmAllocPage {p q : Pmm.State} {addr : Nat} (h : pmmAllocPage p = .ok (addr, q)) :
    Marks p q := by
  rcases (pmmAllocPage_ok h).2 with ⟨-, -, rfl⟩ | ⟨-, -, rfl⟩
  · exact refl q
  · exact mmapSet p _

theorem request {p q : Pmm.State} {addr : Nat} (r : Pmm.Request) (h : r.run p = .ok (addr, q)) :
    Marks p q := by
  cases r with
  | page => exact pmmAllocPage h
  | pages num =>
    have hq : (pmmAllocPages p num).2 = q := congrArg Prod.snd (Except.ok.inj h)
    rw [← hq, pmmAllocPages]
    by_cases hfew : wsub p.maxBlocks p.usedBlocks < num
    · rw [if_pos hfew]
      exact refl p
    · rw [if_neg hfew]
      by_cases hnone : mmapFindFreeFrame p num = 0
      · simp only [if_pos hnone]
        exact refl p
      · simp only [if_neg hnone]
        exact setBlocks p _ _
  | largePage =>
    have hq : (pmmAllocAlignedLargePage p).2 = q := congrArg Prod.snd (Except.ok.inj h)
    rw [← hq, pmmAllocAlignedLargePage]
    by_cases hfew : wsub p.maxBlocks p.usedBlocks < 2 * 1024
    · rw [if_pos hfew]
      exact refl p
    · rw [if_neg hfew]
      by_cases hnone : mmapFindFreeFrame p (2 * 1024) = 0
      · simp only [if_pos hnone]
        exact refl p
      · simp only [if_neg hnone]
        exact setBlocks p _ _

end Marks

/-! ## What each function does to the allocator -/

theorem store_pmm {v : Nat} (h : store s virt v = .ok t) : t.pmm = s.pmm := by
  rw [store] at h
  cases htrans : Machine.translate s.mem s.cr3 virt with
  | none =>
    rw [htrans] at h
    simp at h
  | some p =>
    rw [htrans] at h
    rw [← Except.ok.inj h]

theorem storeByte_pmm {v : BitVec 8} (h : storeByte s virt v = .ok t) : t.pmm = s.pmm := by
  rw [storeByte] at h
  cases htrans : Machine.translate s.mem s.cr3 virt with
  | none =>
    rw [htrans] at h
    simp at h
  | some p =>
    rw [htrans] at h
    rw [← Except.ok.inj h]

theorem memset_pmm {buf size : Nat} {value : BitVec 8} (h : memset s buf value size = .ok t) :
    t.pmm = s.pmm := by
  induction size generalizing t with
  | zero => rw [← Except.ok.inj h]
  | succ n ih =>
    rw [memset_succ] at h
    obtain ⟨u, hrun, hlast⟩ := bind_eq_ok h
    rw [storeByte_pmm hlast, ih hrun]

theorem createTable_marks {i dir : Nat} (h : createTable s i flags dir = .ok t) :
    Marks s.pmm t.pmm := by
  obtain ⟨⟨f, p⟩, halloc, h⟩ := bind_eq_ok h
  obtain ⟨u, hstore, h⟩ := bind_eq_ok h
  rw [memset_pmm h, store_pmm hstore]
  exact .pmmAllocPage halloc

theorem getPage_marks {create : Bool} {page : Nat}
    (h : pagingGetPage s virt create flags = .ok (page, t)) : Marks s.pmm t.pmm := by
  by_cases hv : virt % 0x1000 = 0
  · rw [pagingGetPage, pagingGetPageSelectDir, if_neg (not_not_intro hv)] at h
    obtain ⟨entry, -, h⟩ := bind_eq_ok h
    by_cases hcreate : (!present entry && create) = true
    · simp only [if_pos hcreate] at h
      obtain ⟨u, hnew, h⟩ := bind_eq_ok h
      obtain ⟨entry', -, h⟩ := bind_eq_ok h
      rw [← (Prod.mk.inj (Except.ok.inj h)).2]
      exact createTable_marks hnew
    · simp only [if_neg hcreate] at h
      obtain ⟨u, hsame, h⟩ := bind_eq_ok h
      obtain ⟨entry', -, h⟩ := bind_eq_ok h
      rw [← (Prod.mk.inj (Except.ok.inj h)).2, ← Except.ok.inj hsame]
      exact .refl _
  · rw [getPage_unaligned hv] at h
    simp at h

theorem mapPage_marks (h : pagingMapPage s virt phys flags = .ok t) : Marks s.pmm t.pmm := by
  obtain ⟨⟨page, u⟩, hget, h⟩ := bind_eq_ok h
  obtain ⟨entry, -, h⟩ := bind_eq_ok h
  by_cases hp : present entry = true
  · simp only [hp, if_true] at h
    cases h
  · simp only [hp] at h
    rw [store_pmm h]
    exact getPage_marks hget

theorem mapPages_marks (h : pagingMapPages s virt phys num flags = .ok t) :
    Marks s.pmm t.pmm := by
  induction num generalizing s virt phys with
  | zero =>
    rw [← Except.ok.inj h]
    exact .refl _
  | succ num ih =>
    obtain ⟨u, hpage, h⟩ := bind_eq_ok h
    exact (mapPage_marks hpage).trans (ih h)

theorem allocPage_marks {r : Option Nat} (h : pagingAllocPage s virt = .ok (r, t)) :
    Marks s.pmm t.pmm := by
  obtain ⟨⟨page, p⟩, halloc, h⟩ := bind_eq_ok h
  have hp := Marks.pmmAllocPage halloc
  by_cases hpage : page = 0
  · simp only [if_pos hpage] at h
    rw [← (Prod.mk.inj (Except.ok.inj h)).2]
    exact hp
  · simp only [if_neg hpage] at h
    obtain ⟨⟨page', u⟩, hget, h⟩ := bind_eq_ok h
    obtain ⟨u', hstore, h⟩ := bind_eq_ok h
    rw [← (Prod.mk.inj (Except.ok.inj h)).2, store_pmm hstore]
    exact hp.trans (getPage_marks hget)

theorem allocLoop_marks {i rounds r : Nat} (h : allocLoop s virt i rounds = .ok (r, t)) :
    Marks s.pmm t.pmm := by
  induction rounds generalizing s i with
  | zero =>
    rw [← (Prod.mk.inj (Except.ok.inj h)).2]
    exact .refl _
  | succ rounds ih =>
    obtain ⟨⟨page, u⟩, hpage, h⟩ := bind_eq_ok h
    cases page with
    | none =>
      rw [← (Prod.mk.inj (Except.ok.inj h)).2]
      exact allocPage_marks hpage
    | some page => exact (allocPage_marks hpage).trans (ih h)

/-! ## Unmapping a page -/

/-- Looking a page up without `create` changes nothing. -/
theorem getPage_lookup {page : Nat} (h : pagingGetPage s virt false flags = .ok (page, t)) :
    t = s := by
  by_cases hv : virt % 0x1000 = 0
  · rw [pagingGetPage, pagingGetPageSelectDir, if_neg (not_not_intro hv)] at h
    obtain ⟨entry, -, h⟩ := bind_eq_ok h
    simp only [Bool.and_false, Bool.false_eq_true, if_false] at h
    obtain ⟨u, hsame, h⟩ := bind_eq_ok h
    obtain ⟨entry', -, h⟩ := bind_eq_ok h
    rw [← (Prod.mk.inj (Except.ok.inj h)).2, ← Except.ok.inj hsame]
  · rw [getPage_unaligned hv] at h
    simp at h

/-- The entry `paging_unmap_page` finds for `virt`, if there is a table. -/
def Finds (s : State) (virt entry : Nat) : Prop :=
  ∃ page, pagingGetPage s virt false 0 = .ok (page, s) ∧ page ≠ 0 ∧ load s page = .ok entry

theorem Finds.unique {e e' : Nat} (h : Finds s virt e) (h' : Finds s virt e') : e = e' := by
  obtain ⟨page, hget, -, hload⟩ := h
  obtain ⟨page', hget', -, hload'⟩ := h'
  rw [hget] at hget'
  obtain ⟨rfl, -⟩ := Prod.mk.inj (Except.ok.inj hget')
  rw [hload] at hload'
  exact Except.ok.inj hload'

theorem Finds.lt {entry : Nat} (h : Finds s virt entry) : entry < 2 ^ 32 := by
  obtain ⟨page, -, -, hload⟩ := h
  rw [load] at hload
  cases htrans : Machine.translate s.mem s.cr3 page with
  | none =>
    rw [htrans] at hload
    simp at hload
  | some p =>
    rw [htrans] at hload
    rw [← Except.ok.inj hload]
    exact read32_lt _ _

/-- A page that was unmapped had no table, or the frame of its entry was freed. -/
theorem unmapPage_cases (h : pagingUnmapPage s virt = .ok t) :
    (t = s ∧ ∀ entry, ¬ Finds s virt entry) ∨
      ∃ entry, Finds s virt entry ∧ t.pmm = pmmFreePage s.pmm (frame entry) := by
  obtain ⟨⟨page, u⟩, hget, h⟩ := bind_eq_ok h
  have hu := getPage_lookup hget
  rw [hu] at hget h
  by_cases hpage : page = 0
  · simp only [hpage, ne_eq, not_true_eq_false, if_false] at h
    refine Or.inl ⟨(Except.ok.inj h).symm, ?_⟩
    rintro entry ⟨page', hget', hne, -⟩
    rw [hget] at hget'
    exact hne ((Prod.mk.inj (Except.ok.inj hget')).1.symm.trans hpage)
  · simp only [ne_eq, hpage, not_false_eq_true, if_true] at h
    obtain ⟨entry, hload, h⟩ := bind_eq_ok h
    exact Or.inr ⟨entry, ⟨page, hget, hpage, hload⟩, store_pmm h⟩

/-- The page has no table, or its entry does not name frame 0. -/
def Spares (s : State) (virt : Nat) : Prop := ∀ entry, Finds s virt entry → frame entry ≠ 0

/-- `Spares` in terms of the tables. -/
theorem spares_iff (h : s.Recursive) (hv : virt % 0x1000 = 0) (hi : directoryIndex virt < 1024) :
    Spares s virt ↔ (present (s.pde (directoryIndex virt)) = true →
      frame (s.pte (directoryIndex virt) (tableIndex virt)) ≠ 0) := by
  have hj := tableIndex_lt virt
  constructor
  · intro hspares hp
    refine hspares _ ⟨_, getPage_present h hv hi hp false, ?_, load_entry h hi hp hj⟩
    rw [tableAddr_eq hi]
    omega
  · rintro hframe entry ⟨page, hget, hne, hload⟩
    cases hp : present (s.pde (directoryIndex virt)) with
    | true =>
      rw [getPage_present h hv hi hp false] at hget
      rw [← (Prod.mk.inj (Except.ok.inj hget)).1, load_entry h hi hp hj] at hload
      rw [← Except.ok.inj hload]
      exact hframe hp
    | false =>
      rw [getPage_absent h hv hi hp] at hget
      exact absurd (Prod.mk.inj (Except.ok.inj hget)).1.symm hne

theorem unmapPage_null_iff (h0 : taken s.pmm 0 = true) (h : pagingUnmapPage s virt = .ok t) :
    taken t.pmm 0 = true ↔ Spares s virt := by
  rcases unmapPage_cases h with ⟨rfl, hnone⟩ | ⟨entry, hfinds, hfree⟩
  · exact ⟨fun _ entry hfinds => absurd hfinds (hnone entry), fun _ => h0⟩
  · have hmod := (frame_spec hfinds.lt).1
    rw [hfree, pmmFreePage, taken_mmapUnset, h0, Bool.true_and, Bool.not_eq_true',
      decide_eq_false_iff_not]
    constructor
    · intro hne entry' hfinds' hzero
      rw [← hfinds.unique hfinds'] at hzero
      exact hne (by rw [hzero])
    · intro hspares hzero
      exact hspares entry hfinds (by omega)

/-- Unmapping marks no block. -/
theorem unmapPage_marks (h : pagingUnmapPage s virt = .ok t) : Marks t.pmm s.pmm := by
  rcases unmapPage_cases h with ⟨rfl, -⟩ | ⟨entry, -, hfree⟩
  · exact ⟨fun _ hk => hk, rfl⟩
  · rw [hfree]
    refine ⟨fun k hk => ?_, rfl⟩
    rw [pmmFreePage, taken_mmapUnset, Bool.and_eq_true] at hk
    exact hk.1

/-- `Spares` at every page of a call of `paging_unmap_pages`, when its turn comes. -/
def SparesRange (s : State) (virt : Nat) : Nat → Prop
  | 0 => True
  | num + 1 =>
    Spares s virt ∧
      ∀ t, pagingUnmapPage s virt = .ok t → SparesRange t (wrap (virt + 0x1000)) num

theorem unmapPages_marks (h : pagingUnmapPages s virt num = .ok t) : Marks t.pmm s.pmm := by
  induction num generalizing s virt with
  | zero =>
    rw [← Except.ok.inj h]
    exact .refl _
  | succ num ih =>
    obtain ⟨u, hpage, h⟩ := bind_eq_ok h
    exact (ih h).trans (unmapPage_marks hpage)

theorem unmapPages_null_iff (h0 : taken s.pmm 0 = true)
    (h : pagingUnmapPages s virt num = .ok t) :
    taken t.pmm 0 = true ↔ SparesRange s virt num := by
  induction num generalizing s virt with
  | zero =>
    rw [← Except.ok.inj h]
    exact ⟨fun _ => trivial, fun _ => h0⟩
  | succ num ih =>
    obtain ⟨u, hpage, h⟩ := bind_eq_ok h
    have hpage' := unmapPage_null_iff h0 hpage
    constructor
    · intro ht
      -- a block that is clear along the way is clear at the end
      have hu := (unmapPages_marks h).taken 0 ht
      refine ⟨hpage'.mp hu, fun u' hrun => ?_⟩
      rw [hpage] at hrun
      rw [← Except.ok.inj hrun]
      exact (ih hu h).mp ht
    · rintro ⟨hfirst, hrest⟩
      exact (ih (hpage'.mpr hfirst) h).mpr (hrest u hpage)

/-! ## Runs -/

/-- A call of a run. -/
inductive Request where
  | mapPages (virt phys num flags : Nat)
  | allocPages (virt size : Nat)
  | unmapPages (virt num : Nat)
  | pmm (request : Pmm.Request)

namespace Request

def run (s : State) : Request → Except Stop State
  | mapPages virt phys num flags => pagingMapPages s virt phys num flags
  | allocPages virt size => do
    let (_, t) ← pagingAllocPages s virt size
    return t
  | unmapPages virt num => pagingUnmapPages s virt num
  | pmm request => do
    let (_, p) ← request.run s.pmm
    return { s with pmm := p }

/-- Only unmapping can release a frame. -/
def Spares (s : State) : Request → Prop
  | unmapPages virt num => SparesRange s virt num
  | _ => True

theorem run_null_iff {r : Request} (h0 : taken s.pmm 0 = true) (h : r.run s = .ok t) :
    taken t.pmm 0 = true ↔ r.Spares s := by
  cases r with
  | mapPages virt phys num flags =>
    exact ⟨fun _ => trivial, fun _ => (mapPages_marks h).taken 0 h0⟩
  | allocPages virt size =>
    obtain ⟨⟨_, u⟩, hrun, h⟩ := bind_eq_ok h
    rw [← Except.ok.inj h]
    exact ⟨fun _ => trivial, fun _ => (allocLoop_marks hrun).taken 0 h0⟩
  | unmapPages virt num => exact unmapPages_null_iff h0 h
  | pmm request =>
    obtain ⟨⟨_, p⟩, hrun, h⟩ := bind_eq_ok h
    rw [← Except.ok.inj h]
    exact ⟨fun _ => trivial, fun _ => (Marks.request request hrun).taken 0 h0⟩

theorem run_maxBlocks {r : Request} (h : r.run s = .ok t) : t.pmm.maxBlocks = s.pmm.maxBlocks := by
  cases r with
  | mapPages virt phys num flags => exact (mapPages_marks h).maxBlocks
  | allocPages virt size =>
    obtain ⟨⟨_, u⟩, hrun, h⟩ := bind_eq_ok h
    rw [← Except.ok.inj h]
    exact (allocLoop_marks hrun).maxBlocks
  | unmapPages virt num => exact (unmapPages_marks h).maxBlocks.symm
  | pmm request =>
    obtain ⟨⟨_, p⟩, hrun, h⟩ := bind_eq_ok h
    rw [← Except.ok.inj h]
    exact (Marks.request request hrun).maxBlocks

end Request

def runAll (s : State) : List Request → Except Stop State
  | [] => .ok s
  | r :: rs => do
    let t ← r.run s
    runAll t rs

/-- Every unmapping of the run meets `Spares` when its turn comes. -/
def SparesAll (s : State) : List Request → Prop
  | [] => True
  | r :: rs => r.Spares s ∧ ∀ t, r.run s = .ok t → SparesAll t rs

/-- Frame 0 is taken and the answer 0 of an allocator means failure: it changes
nothing, any other answer is a range of its own, and `pmm_alloc_page` gives it
only when no block of the search window is left. -/
structure NullSafe (p : Pmm.State) : Prop where
  taken : Pmm.taken p 0 = true
  sound : ∀ (r : Pmm.Request) addr q, r.Valid → r.run p = .ok (addr, q) →
    (addr = 0 ∧ q = p) ∨ Grants p q { addr := addr, num := r.blocks }
  full : ∀ q, pmmAllocPage p = .ok (0, q) → ∀ k, k < window p → Pmm.taken p k = true

theorem nullSafe_of_taken {p : Pmm.State} (h0 : taken p 0 = true) (hmax : p.maxBlocks ≤ 2 ^ 20) :
    NullSafe p where
  taken := h0
  sound := fun _ _ _ hvalid hrun => Request.run_spec h0 hmax hvalid hrun
  full := by
    intro q hrun
    rcases pmmAllocPage_spec h0 hmax hrun with ⟨-, -, hfull⟩ | hgrants
    · exact hfull
    · exact absurd hgrants.pos (Nat.lt_irrefl 0)

/-- The states of a run that returns are all `NullSafe` exactly when its unmappings
spare frame 0. -/
theorem runAll_nullSafe_iff {rs : List Request} (h0 : taken s.pmm 0 = true)
    (hmax : s.pmm.maxBlocks ≤ 2 ^ 20) (h : runAll s rs = .ok t) :
    (∀ pre u, pre <+: rs → runAll s pre = .ok u → NullSafe u.pmm) ↔ SparesAll s rs := by
  induction rs generalizing s with
  | nil =>
    refine ⟨fun _ => trivial, fun _ pre u hpre hrun => ?_⟩
    rw [List.prefix_nil.mp hpre] at hrun
    rw [← Except.ok.inj hrun]
    exact nullSafe_of_taken h0 hmax
  | cons r rs ih =>
    obtain ⟨s₁, hrun₁, hlast⟩ := bind_eq_ok h
    have hiff := Request.run_null_iff h0 hrun₁
    have hmax₁ := (Request.run_maxBlocks hrun₁).trans_le hmax
    have hcons : ∀ pre, runAll s (r :: pre) = runAll s₁ pre := by
      intro pre
      rw [runAll, hrun₁]
      rfl
    constructor
    · intro hall
      have h₁ := (hall [r] s₁ (by simp) (hcons [])).taken
      refine ⟨hiff.mp h₁, fun s₂ hrun₂ => ?_⟩
      rw [hrun₁] at hrun₂
      rw [← Except.ok.inj hrun₂]
      refine (ih h₁ hmax₁ hlast).mp fun pre u hpre hrun => hall (r :: pre) u ?_ ?_
      · exact (List.prefix_cons_inj r).mpr hpre
      · rw [hcons, hrun]
    · rintro ⟨hfirst, hrest⟩ pre u hpre hrun
      have h₁ := hiff.mpr hfirst
      cases pre with
      | nil =>
        rw [← Except.ok.inj hrun]
        exact nullSafe_of_taken h0 hmax
      | cons r' pre =>
        obtain ⟨rfl, hpre'⟩ := List.cons_prefix_cons.mp hpre
        rw [hcons] at hrun
        exact (ih h₁ hmax₁ hlast).mpr (hrest s₁ hrun₁) pre u hpre' hrun

/-! ## Pages that are not present -/

/-- The bitmap, the counter and every entry are as before. -/
structure Unchanged (s t : State) : Prop where
  bitmap : t.pmm.bitmap = s.pmm.bitmap
  usedBlocks : t.pmm.usedBlocks = s.pmm.usedBlocks
  pde : ∀ i, i < 1024 → t.pde i = s.pde i
  pte : ∀ i j, i < 1024 → j < 1024 → t.pte i j = s.pte i j

theorem wsub_one_ne (n : Nat) : wsub n 1 ≠ n := by
  unfold wsub wrap
  omega

/-- Unmapping changes nothing exactly where there is no table: the counter always
goes down otherwise. -/
theorem unmapPage_unchanged_iff (h : s.Recursive) (hv : virt % 0x1000 = 0)
    (hlt : virt < 2 ^ 32) :
    ∃ t, pagingUnmapPage s virt = .ok t ∧
      (Unchanged s t ↔ present (s.pde (directoryIndex virt)) = false) := by
  have hi : directoryIndex virt < 1024 := by
    rw [directoryIndex_eq]
    omega
  have heq := unmapPage_eq h hv hi
  cases hp : present (s.pde (directoryIndex virt)) with
  | true =>
    rw [hp, if_pos rfl] at heq
    exact ⟨_, heq, fun hsame => absurd hsame.usedBlocks (wsub_one_ne _), fun hno => nomatch hno⟩
  | false =>
    rw [hp, if_neg Bool.false_ne_true] at heq
    exact ⟨s, heq, fun _ => rfl, fun _ => ⟨rfl, rfl, fun _ _ => rfl, fun _ _ _ _ => rfl⟩⟩

theorem freeBlock_taken {b : Nat} (hb : b = 2048 ∨ b = 3072) : taken (freeBlock b) 0 = true := by
  rcases hb with rfl | rfl <;> decide

theorem initPaging_marks {addr : Nat} (hb : Boot s) (h : initPaging s addr = .ok t) :
    Marks s.pmm t.pmm := by
  obtain ⟨⟨toMap, u⟩, hprep, h⟩ := bind_eq_ok h
  have hpmm : u.pmm = s.pmm := by
    rw [preparePaging_state hb hprep]
    rfl
  rw [← hpmm]
  exact mapPages_marks h

/-- After start-up the first table has a blank entry for page 600. -/
theorem AfterInit.blank_page (h : AfterInit t) (hp : present (t.pde 0) = true) :
    t.pte 0 600 = 0 := by
  refine h.blank 0 600 (by decide) (by decide) (by rw [Set.mem_Ico]; decide) ?_ hp
  rw [(withoutBoot_cleared bootState_boot).blank 0 (by decide) (by decide)]
  rfl

/-- Page 600 has a table and no mapping; unmapping it frees frame 0. -/
theorem AfterInit.unmap (h : AfterInit t) (hp : present (t.pde 0) = true) :
    ¬ Mapped t 0x258000 ∧ ∃ u, pagingUnmapPage t 0x258000 = .ok u ∧
      u.pmm = mmapUnset t.pmm 0 := by
  have hdir : directoryIndex 0x258000 = 0 := by decide
  have htab : tableIndex 0x258000 = 600 := by decide
  have hblank := h.blank_page hp
  refine ⟨fun hmap => ?_, ?_⟩
  · have hpte := hmap.2
    rw [hdir, htab, hblank] at hpte
    cases hpte
  · have heq := unmapPage_eq h.ready.recursive
      (show 0x258000 % 0x1000 = 0 by decide) (by decide)
    rw [hdir, htab, hp, if_pos rfl, hblank] at heq
    exact ⟨_, heq, rfl⟩

/-- After start-up a page is mapped and unmapped again. -/
theorem AfterInit.mapUnmap (h : AfterInit t) :
    ∃ u, runAll (refill t) [.mapPages 0x800000 0x300000 1 pageRw, .unmapPages 0x800000 1] = .ok u ∧
      SparesAll (refill t) [.mapPages 0x800000 0x300000 1 pageRw, .unmapPages 0x800000 1] := by
  obtain ⟨hsup, hnone⟩ := h.third (show 1 ≤ 1024 by decide) 0x300000 pageRw
  obtain ⟨s₁, hmap, hedits, hpages⟩ := mapPages_edits (s := refill t) h.ready (by decide)
    (by decide) (by decide) (by decide) hsup
    fun k hk => not_mapped_of_translate (hnone _ (by omega) (by omega))
  obtain ⟨hp, hpte⟩ := hpages 0 (by decide)
  have hframe : frame (s₁.pte (directoryIndex 0x800000) (tableIndex 0x800000)) ≠ 0 := by
    rw [show s₁.pte (directoryIndex 0x800000) (tableIndex 0x800000) = _ from hpte]
    decide
  have hspares : Spares s₁ 0x800000 :=
    (spares_iff hedits.ready.recursive (by decide) (by decide)).mpr fun _ => hframe
  obtain ⟨u, hunmap, -⟩ := unmapPage_unchanged_iff hedits.ready.recursive
    (show 0x800000 % 0x1000 = 0 by decide) (by decide)
  have hrun : runAll (refill t) [.mapPages 0x800000 0x300000 1 pageRw, .unmapPages 0x800000 1] =
      .ok u := by
    simp only [runAll, Request.run, hmap, pagingUnmapPages, hunmap, bind, Except.bind]
  refine ⟨u, hrun, trivial, fun s₁' hrun₁ => ?_⟩
  rw [show s₁' = s₁ from (Except.ok.inj (hmap.symm.trans hrun₁)).symm]
  exact ⟨⟨hspares, fun _ _ => trivial⟩, fun _ _ => trivial⟩

/-- **What unmapping keeps.**  A page that is not present is left alone exactly
when it has no table; and frame 0 stays taken in every state of a run exactly when
no entry that the run unmaps names it. -/
theorem unmapPage_spares_iff (s : State) :
    (Reachable s → ∀ virt, virt % 0x1000 = 0 → virt < 2 ^ 32 → ¬ Mapped s virt →
      ∃ t, pagingUnmapPage s virt = .ok t ∧
        (Unchanged s t ↔ present (s.pde (directoryIndex virt)) = false)) ∧
    (taken s.pmm 0 = true → s.pmm.maxBlocks ≤ 2 ^ 20 → ∀ rs t, runAll s rs = .ok t →
      ((∀ pre u, pre <+: rs → runAll s pre = .ok u → NullSafe u.pmm) ↔ SparesAll s rs)) :=
  ⟨fun hs _ hv hlt _ => unmapPage_unchanged_iff (reachable_ready hs).recursive hv hlt,
    fun h0 hmax _ _ hrun => runAll_nullSafe_iff h0 hmax hrun⟩

theorem unmapPage_spares_third :
    (∃ t, pagingUnmapPage (refill started) 0x800000 = .ok t ∧ Unchanged (refill started) t) ∧
      ∃ t, runAll (refill started)
          [.mapPages 0x800000 0x300000 1 pageRw, .unmapPages 0x800000 1] = .ok t ∧
        NullSafe t.pmm := by
  have hafter : AfterInit started := started_init.2.2.1
  obtain ⟨hpage, hruns⟩ := unmapPage_spares_iff (refill started)
  have habsent := hafter.absent (i := 2) (by decide) (by decide) (by decide)
  refine ⟨?_, ?_⟩
  · obtain ⟨t, hrun, hiff⟩ := hpage (refill_reachable started_reachable) 0x800000 (by decide)
      (by decide) fun hmap => by
        have hp : present ((refill started).pde 2) = true := hmap.1
        rw [habsent] at hp
        simp at hp
    exact ⟨t, hrun, hiff.mpr habsent⟩
  · obtain ⟨t, hrun, hspares⟩ := hafter.mapUnmap
    have hzero : taken (refill started).pmm 0 = true := freeBlock_taken (spareBlock_cases _)
    have hmax : (refill started).pmm.maxBlocks ≤ 2 ^ 20 := show 4096 ≤ 2 ^ 20 by decide
    exact ⟨t, hrun, (hruns hzero hmax _ t hrun).mpr hspares _ t (List.prefix_refl _) hrun⟩

theorem unmapPage_frees_null :
    Reachable started ∧ ¬ Mapped started 0x258000 ∧ taken started.pmm 0 = true ∧
      ∃ t, pagingUnmapPage started 0x258000 = .ok t ∧ taken t.pmm 0 = false ∧
        t.pmm.usedBlocks ≠ started.pmm.usedBlocks := by
  obtain ⟨hinit, -, hafter, hp⟩ := started_init
  obtain ⟨hnot, t, hrun, hpmm⟩ := AfterInit.unmap hafter hp
  have hzero : taken started.pmm 0 = true :=
    (initPaging_marks bootState_boot hinit).taken 0 (by decide)
  refine ⟨started_reachable, hnot, hzero, t, hrun, ?_, ?_⟩
  · rw [hpmm, taken_mmapUnset, hzero]
    rfl
  · rw [hpmm]
    exact wsub_one_ne _

end Paging
end Medusa
