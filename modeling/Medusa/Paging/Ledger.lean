import Medusa.Paging.Leaf

/-!
# Frames and the pages that hold them

`paging_alloc_pages` takes a frame for every page of its range and stores the entry
without looking at the old one.  A ledger follows a run: the frames taken and not
freed since, and the pages whose entries the function wrote.  As long as no page is
allocated that still holds such an entry, every frame of the ledger is held by
exactly one page.
-/

namespace Medusa
namespace Paging

open Machine Kernel Pmm

/-- Page `q` is mapped to frame `f`, by an entry of a table. -/
def State.HoldsFrame (s : State) (q f : Nat) : Prop :=
  ∃ entry, s.leaf q = some (.page entry) ∧ frame entry = f

structure Ledger where
  state : State
  /-- The frames that `paging_alloc_pages` took and that were not freed since. -/
  took : List Nat
  /-- The pages whose entry `paging_alloc_pages` wrote last. -/
  written : List Nat

namespace Ledger

/-! ## The calls -/

def allocPage (d : Ledger) (virt : Nat) : Except Stop (Option Nat × Ledger) := do
  let (page, t) ← pagingAllocPage d.state virt
  match page with
  | none => return (none, { d with state := t })
  | some page =>
    return (some page,
      { state := t, took := page :: d.took, written := virt / 4096 :: d.written })

def allocLoop (d : Ledger) (virt i : Nat) : Nat → Except Stop (Nat × Ledger)
  | 0 => .ok (virt, d)
  | rounds + 1 => do
    let (page, d) ← d.allocPage (wrap (virt + i * 0x1000))
    match page with
    | none => return (0, d)
    | some _ => allocLoop d virt (i + 1) rounds

/-- Where there is a table, the frame of the entry is freed. -/
def unmapPage (d : Ledger) (virt : Nat) : Except Stop Ledger := do
  let t ← pagingUnmapPage d.state virt
  let freed := frame (d.state.pte (directoryIndex virt) (tableIndex virt))
  return { state := t
           took := if present (d.state.pde (directoryIndex virt)) then
               d.took.filter fun f => f ≠ freed
             else d.took
           written := d.written.filter fun q => q ≠ virt / 4096 }

def unmapPages (d : Ledger) (virt : Nat) : Nat → Except Stop Ledger
  | 0 => .ok d
  | num + 1 => do
    let d ← d.unmapPage virt
    unmapPages d (wrap (virt + 0x1000)) num

inductive Call where
  | allocPages (virt size : Nat)
  | unmapPages (virt num : Nat)

def Call.run (d : Ledger) : Call → Except Stop Ledger
  | allocPages virt size => do
    let (_, d) ← d.allocLoop virt 0 size
    return d
  | unmapPages virt num => d.unmapPages virt num

def runCalls (d : Ledger) : List Call → Except Stop Ledger
  | [] => .ok d
  | c :: cs => do
    let d ← c.run d
    runCalls d cs

/-- Nothing taken yet. -/
def start (s : State) : Ledger := { state := s, took := [], written := [] }

/-! ## A ledger only watches -/

theorem allocPage_state (d : Ledger) (virt : Nat) :
    (d.allocPage virt).map (fun r => (r.1, r.2.state)) = pagingAllocPage d.state virt := by
  rw [allocPage]
  cases hrun : pagingAllocPage d.state virt with
  | error e => rfl
  | ok r =>
    obtain ⟨page, t⟩ := r
    cases page with
    | none => rfl
    | some page => rfl

theorem allocLoop_state (d : Ledger) (virt i rounds : Nat) :
    (d.allocLoop virt i rounds).map (fun r => (r.1, r.2.state)) =
      Paging.allocLoop d.state virt i rounds := by
  induction rounds generalizing d i with
  | zero => rfl
  | succ rounds ih =>
    rw [allocLoop, Paging.allocLoop, ← allocPage_state]
    cases hrun : d.allocPage (wrap (virt + i * 0x1000)) with
    | error e => rfl
    | ok r =>
      obtain ⟨page, e⟩ := r
      cases page with
      | none => rfl
      | some page => exact ih e (i + 1)

theorem unmapPage_state (d : Ledger) (virt : Nat) :
    (d.unmapPage virt).map state = pagingUnmapPage d.state virt := by
  rw [unmapPage]
  cases hrun : pagingUnmapPage d.state virt with
  | error e => rfl
  | ok t => rfl

theorem unmapPages_state (d : Ledger) (virt num : Nat) :
    (d.unmapPages virt num).map state = pagingUnmapPages d.state virt num := by
  induction num generalizing d virt with
  | zero => rfl
  | succ num ih =>
    rw [unmapPages, pagingUnmapPages, ← unmapPage_state]
    cases hrun : d.unmapPage virt with
    | error e => rfl
    | ok e => exact ih e (wrap (virt + 0x1000))

/-- The call as one of a run of `paging.c`. -/
def Call.request : Call → Request
  | allocPages virt size => .allocPages virt size
  | unmapPages virt num => .unmapPages virt num

theorem run_state (d : Ledger) (c : Call) : (c.run d).map state = c.request.run d.state := by
  cases c with
  | allocPages virt size =>
    rw [Call.run, Call.request, Request.run, pagingAllocPages, ← allocLoop_state]
    cases d.allocLoop virt 0 size with
    | error e => rfl
    | ok r => rfl
  | unmapPages virt num => exact unmapPages_state d virt num

theorem runCalls_state (d : Ledger) (calls : List Call) :
    (runCalls d calls).map state = runAll d.state (calls.map Call.request) := by
  induction calls generalizing d with
  | nil => rfl
  | cons c cs ih =>
    rw [runCalls, List.map_cons, runAll, ← run_state]
    cases c.run d with
    | error e => rfl
    | ok e => exact ih e

/-! ## Calls that lose and share nothing -/

/-- The page is below the window and in no 4 MiB page, and holds no entry of an
earlier allocation.  The frame it is about to get is not held by a page already, and
a new table comes from an unused frame. -/
structure AllocFine (d : Ledger) (virt : Nat) : Prop where
  below : virt < 0xFFC00000
  fresh : virt / 4096 ∉ d.written
  small : present (d.state.pde (directoryIndex virt)) = true →
    large (d.state.pde (directoryIndex virt)) = false
  unshared : ∀ page p, pmmAllocPage d.state.pmm = .ok (page, p) → page ≠ 0 →
    ∀ q, q < 1023 * 1024 → ¬ d.state.HoldsFrame q page
  supplied : AllocSupplied d.state virt

/-- The page is below the window and in no 4 MiB page; an entry that is not present
does not name a frame of the ledger. -/
structure UnmapFine (d : Ledger) (virt : Nat) : Prop where
  below : virt < 0xFFC00000
  small : present (d.state.pde (directoryIndex virt)) = true →
    large (d.state.pde (directoryIndex virt)) = false
  owned : present (d.state.pte (directoryIndex virt) (tableIndex virt)) = true ∨
    frame (d.state.pte (directoryIndex virt) (tableIndex virt)) ∉ d.took

/-- `AllocFine` at every page of a range, when its turn comes. -/
def AllocFineRange (d : Ledger) (virt i : Nat) : Nat → Prop
  | 0 => True
  | rounds + 1 =>
    AllocFine d (wrap (virt + i * 0x1000)) ∧
      ∀ page e, d.allocPage (wrap (virt + i * 0x1000)) = .ok (some page, e) →
        AllocFineRange e virt (i + 1) rounds

def UnmapFineRange (d : Ledger) (virt : Nat) : Nat → Prop
  | 0 => True
  | num + 1 =>
    UnmapFine d virt ∧
      ∀ e, d.unmapPage virt = .ok e → UnmapFineRange e (wrap (virt + 0x1000)) num

def Call.Fine (d : Ledger) : Call → Prop
  | allocPages virt size => AllocFineRange d virt 0 size
  | unmapPages virt num => UnmapFineRange d virt num

def FineAll (d : Ledger) : List Call → Prop
  | [] => True
  | c :: cs => c.Fine d ∧ ∀ e, c.run d = .ok e → FineAll e cs

/-! ## The invariant -/

/-- Every frame of the ledger is marked and held by exactly one page, and the pages
of the ledger hold its frames. -/
structure Balanced (d : Ledger) : Prop where
  ready : d.state.Ready
  maxBlocks : d.state.pmm.maxBlocks ≤ 2 ^ 20
  aligned : ∀ f ∈ d.took, f % 4096 = 0
  marked : ∀ f ∈ d.took, taken d.state.pmm (f / 4096) = true
  held : ∀ f ∈ d.took, ∃ q ∈ d.written, d.state.HoldsFrame q f
  unique : ∀ f ∈ d.took, ∀ q q', q < 1023 * 1024 → q' < 1023 * 1024 →
    d.state.HoldsFrame q f → d.state.HoldsFrame q' f → q = q'
  below : ∀ q ∈ d.written, q < 1023 * 1024
  holds : ∀ q ∈ d.written, ∃ f ∈ d.took, d.state.HoldsFrame q f

theorem start_balanced {s : State} (h : s.Ready) (hmax : s.pmm.maxBlocks ≤ 2 ^ 20) :
    Balanced (start s) where
  ready := h
  maxBlocks := hmax
  aligned := fun _ hf => absurd hf List.not_mem_nil
  marked := fun _ hf => absurd hf List.not_mem_nil
  held := fun _ hf => absurd hf List.not_mem_nil
  unique := fun _ hf => absurd hf List.not_mem_nil
  below := fun _ hq => absurd hq List.not_mem_nil
  holds := fun _ hq => absurd hq List.not_mem_nil

end Ledger

variable {s t : State} {virt q f : Nat}

theorem State.HoldsFrame.congr (h : s.HoldsFrame q f) (hl : t.leaf q = s.leaf q) :
    t.HoldsFrame q f := by
  obtain ⟨entry, hleaf, hframe⟩ := h
  exact ⟨entry, hl.trans hleaf, hframe⟩

/-- A frame handed out was free before and is marked afterwards. -/
theorem pmmAllocPage_marks {p p' : Pmm.State} {page : Nat} (hmax : p.maxBlocks ≤ 2 ^ 20)
    (h : pmmAllocPage p = .ok (page, p')) (hne : page ≠ 0) :
    taken p (page / 4096) = false ∧ taken p' (page / 4096) = true := by
  rcases (pmmAllocPage_ok h).2 with ⟨-, hzero, -⟩ | ⟨hsome, hpage, hp'⟩
  · exact absurd hzero hne
  · rcases mmapFindFree_spec (s := p) (by omega) with ⟨hlt, hclear, -⟩ | ⟨hzero, -⟩
    · have hw := window_le p
      rw [wrap_of_lt (by omega)] at hpage
      have hblock : page / 4096 = mmapFindFree p := by omega
      rw [hblock, hp', taken_mmapSet]
      exact ⟨hclear, by simp⟩
    · exact absurd hzero hsome

theorem State.HoldsFrame.frame_eq {g : Nat} (h : s.HoldsFrame q f) (h' : s.HoldsFrame q g) :
    f = g := by
  obtain ⟨entry, hleaf, rfl⟩ := h
  obtain ⟨entry', hleaf', rfl⟩ := h'
  rw [hleaf] at hleaf'
  rw [Leaf.page.inj (Option.some.inj hleaf')]

/-- The tables that `paging_alloc_pages` makes have small pages. -/
theorem alloc_plain (s : State) (R : Set Nat) : Plain s R (pageRw ||| pageUser) :=
  Or.inl (by decide)

/-- A page outside 4 MiB pages holds the frame it was given. -/
theorem AllocRound.holds {page : Nat} (h : AllocRound s t virt page) (hlt : virt < 0xFFC00000)
    (hsmall : present (s.pde (directoryIndex virt)) = true →
      large (s.pde (directoryIndex virt)) = false) : t.HoldsFrame (virt / 4096) page := by
  obtain ⟨p, halloc, -⟩ := h.took
  obtain ⟨hmod, hpage⟩ := pmmAllocPage_aligned halloc
  obtain ⟨-, hframe, hpresent⟩ := allocEntry_spec hmod hpage
  refine ⟨allocEntry page, leaf_eq_page_iff.mpr ?_, hframe⟩
  rw [page_directoryIndex, page_tableIndex]
  refine ⟨h.table, ?_, hpresent, h.entry⟩
  have hi := directoryIndex_lt hlt
  cases hp : present (s.pde (directoryIndex virt)) with
  | true =>
    rw [h.edits.dirs _ (by omega) hp]
    exact hsmall hp
  | false => exact h.edits.created_small (alloc_plain s _) (by omega) hp h.table

namespace Ledger

variable {d e : Ledger}

/-! ## A page comes, a page goes -/

section Books

variable {p page freed : Nat} (h : Balanced d)
  (hother : ∀ q, q < 1023 * 1024 → q ≠ p → t.leaf q = d.state.leaf q)

include h hother

/-- A page that is entered with a frame no page held joins the ledger. -/
theorem Balanced.enter (hready : t.Ready) (hmarks : Marks d.state.pmm t.pmm)
    (hbelow : p < 1023 * 1024) (hfresh : p ∉ d.written) (hnew : t.HoldsFrame p page)
    (hmod : page % 4096 = 0) (hset : taken t.pmm (page / 4096) = true) (hclear : page ∉ d.took)
    (hunshared : ∀ q, q < 1023 * 1024 → ¬ d.state.HoldsFrame q page) :
    Balanced { state := t, took := page :: d.took, written := p :: d.written } := by
  have hkept : ∀ q ∈ d.written, ∀ f, d.state.HoldsFrame q f → t.HoldsFrame q f := by
    intro q hq f hholds
    have hne : q ≠ p := fun heq => hfresh (heq ▸ hq)
    exact hholds.congr (hother q (h.below q hq) hne)
  -- where a page holds a frame of the old ledger, it did so before
  have hback : ∀ f ∈ d.took, ∀ q, q < 1023 * 1024 → t.HoldsFrame q f →
      d.state.HoldsFrame q f := by
    intro f hf q hq hholds
    have hne : q ≠ p := by
      rintro rfl
      exact hclear (hholds.frame_eq hnew ▸ hf)
    exact hholds.congr (hother q hq hne).symm
  have hone : ∀ q, q < 1023 * 1024 → t.HoldsFrame q page → q = p := by
    intro q hq hholds
    by_contra hne
    exact hunshared q hq (hholds.congr (hother q hq hne).symm)
  constructor
  · exact hready
  · exact hmarks.maxBlocks.trans_le h.maxBlocks
  · exact List.forall_mem_cons.mpr ⟨hmod, h.aligned⟩
  · exact List.forall_mem_cons.mpr ⟨hset, fun f hf => hmarks.taken _ (h.marked f hf)⟩
  · refine List.forall_mem_cons.mpr ⟨⟨p, List.mem_cons_self, hnew⟩, ?_⟩
    intro f hf
    obtain ⟨q, hq, hholds⟩ := h.held f hf
    exact ⟨q, List.mem_cons_of_mem _ hq, hkept q hq f hholds⟩
  · intro f hf q q' hq hq' hholds hholds'
    rcases List.mem_cons.mp hf with rfl | hf
    · rw [hone q hq hholds, hone q' hq' hholds']
    · exact h.unique f hf q q' hq hq' (hback f hf q hq hholds) (hback f hf q' hq' hholds')
  · exact List.forall_mem_cons.mpr ⟨hbelow, h.below⟩
  · refine List.forall_mem_cons.mpr ⟨⟨page, List.mem_cons_self, hnew⟩, ?_⟩
    intro q hq
    obtain ⟨f, hf, hholds⟩ := h.holds q hq
    exact ⟨f, List.mem_cons_of_mem _ hf, hkept q hq f hholds⟩

/-- A page that is cleared leaves the ledger with the frame it held. -/
theorem Balanced.clear (hready : t.Ready) (hfreed : t.pmm = pmmFreePage d.state.pmm freed)
    (hbelow : p < 1023 * 1024) (hgone : t.leaf p = none) (hmod : freed % 4096 = 0)
    (hheld : freed ∈ d.took → d.state.HoldsFrame p freed)
    (hfact : ∀ f, d.state.HoldsFrame p f → f = freed) :
    Balanced { state := t, took := d.took.filter fun f => f ≠ freed,
               written := d.written.filter fun q => q ≠ p } := by
  have htook : ∀ f, f ∈ d.took.filter (fun f => f ≠ freed) ↔ f ∈ d.took ∧ f ≠ freed := by
    intro f
    rw [List.mem_filter, decide_eq_true_iff]
  have hwritten : ∀ q, q ∈ d.written.filter (fun q => q ≠ p) ↔ q ∈ d.written ∧ q ≠ p := by
    intro q
    rw [List.mem_filter, decide_eq_true_iff]
  have hback : ∀ f q, q < 1023 * 1024 → t.HoldsFrame q f → d.state.HoldsFrame q f := by
    intro f q hq hholds
    have hne : q ≠ p := by
      rintro rfl
      obtain ⟨entry, hleaf, -⟩ := hholds
      rw [hgone] at hleaf
      simp at hleaf
    exact hholds.congr (hother q hq hne).symm
  constructor
  · exact hready
  · show t.pmm.maxBlocks ≤ 2 ^ 20
    rw [hfreed]
    exact h.maxBlocks
  · intro f hf
    exact h.aligned f ((htook f).mp hf).1
  · intro f hf
    obtain ⟨hmem, hne⟩ := (htook f).mp hf
    show taken t.pmm (f / 4096) = true
    rw [hfreed, pmmFreePage, taken_mmapUnset, h.marked f hmem, Bool.true_and,
      Bool.not_eq_true', decide_eq_false_iff_not]
    have hfmod := h.aligned f hmem
    omega
  · intro f hf
    obtain ⟨hmem, hne⟩ := (htook f).mp hf
    obtain ⟨q, hq, hholds⟩ := h.held f hmem
    have hqne : q ≠ p := by
      rintro rfl
      exact hne (hfact f hholds)
    exact ⟨q, (hwritten q).mpr ⟨hq, hqne⟩, hholds.congr (hother q (h.below q hq) hqne)⟩
  · intro f hf q q' hq hq' hholds hholds'
    exact h.unique f ((htook f).mp hf).1 q q' hq hq' (hback f q hq hholds) (hback f q' hq' hholds')
  · intro q hq
    exact h.below q ((hwritten q).mp hq).1
  · intro q hq
    obtain ⟨hmem, hne⟩ := (hwritten q).mp hq
    obtain ⟨f, hf, hholds⟩ := h.holds q hmem
    have hfne : f ≠ freed := by
      rintro rfl
      exact hne (h.unique f hf q _ (h.below q hmem) hbelow hholds (hheld hf))
    exact ⟨f, (htook f).mpr ⟨hf, hfne⟩, hholds.congr (hother q (h.below q hmem) hne)⟩

end Books

/-! ## One page -/

theorem allocPage_balanced (h : Balanced d) (hfine : AllocFine d virt) {r : Option Nat}
    (hrun : d.allocPage virt = .ok (r, e)) : Balanced e := by
  obtain ⟨⟨page, t⟩, hpage, hrun⟩ := bind_eq_ok hrun
  cases page with
  | none =>
    obtain ⟨-, rfl⟩ := Prod.mk.inj (Except.ok.inj hrun)
    obtain ⟨p, rfl, hmarks⟩ := allocPage_none hpage
    exact { h with
      maxBlocks := hmarks.maxBlocks.trans_le h.maxBlocks
      marked := fun f hf => hmarks.taken _ (h.marked f hf) }
  | some page =>
    obtain ⟨-, rfl⟩ := Prod.mk.inj (Except.ok.inj hrun)
    have hround := allocPage_round h.ready hfine.below hfine.supplied hpage
    obtain ⟨p, halloc, hmarks⟩ := hround.took
    obtain ⟨hclear, hset⟩ := pmmAllocPage_marks h.maxBlocks halloc hround.pos
    have hother : ∀ q, q < 1023 * 1024 → q ≠ virt / 4096 → t.leaf q = d.state.leaf q :=
      fun q hq hne => hround.edits.leaf_outside (alloc_plain d.state _) hq hne
    have hbelow : virt / 4096 < 1023 * 1024 := by
      have hlt := hfine.below
      omega
    have hnew : page ∉ d.took := by
      intro hmem
      rw [h.marked page hmem] at hclear
      simp at hclear
    exact h.enter hother hround.edits.ready ((Marks.pmmAllocPage halloc).trans hmarks) hbelow
      hfine.fresh (hround.holds hfine.below hfine.small) (pmmAllocPage_aligned halloc).1
      (hmarks.taken _ hset) hnew (hfine.unshared page p halloc hround.pos)

/-- Where there is no table, a page of the ledger cannot be. -/
theorem Balanced.table (h : Balanced d) (hq : virt / 4096 ∈ d.written) :
    present (d.state.pde (directoryIndex virt)) = true := by
  obtain ⟨f, -, entry, hleaf, -⟩ := h.holds _ hq
  rw [← page_directoryIndex]
  exact present_of_leaf hleaf

theorem unmapPage_balanced (h : Balanced d) (hfine : UnmapFine d virt)
    (hrun : d.unmapPage virt = .ok e) : Balanced e := by
  obtain ⟨t, hpage, hrun⟩ := bind_eq_ok hrun
  cases hp : present (d.state.pde (directoryIndex virt)) with
  | false =>
    obtain rfl := unmapPage_absent h.ready hfine.below hp hpage
    have hsame : d.written.filter (fun q => q ≠ virt / 4096) = d.written := by
      apply List.filter_eq_self.mpr
      intro q hq
      rw [decide_eq_true_iff]
      rintro rfl
      rw [h.table hq] at hp
      simp at hp
    simp only [hp, Bool.false_eq_true, if_false, hsame] at hrun
    obtain rfl := Except.ok.inj hrun
    exact h
  | true =>
    have hround := unmapPage_round h.ready hfine.below hp hpage
    have hsmall := hfine.small hp
    simp only [hp, if_true] at hrun
    obtain rfl := Except.ok.inj hrun
    have hother : ∀ q, q < 1023 * 1024 → q ≠ virt / 4096 → t.leaf q = d.state.leaf q :=
      fun q hq hne => hround.edits.leaf_outside (alloc_plain d.state _) hq hne
    have hbelow : virt / 4096 < 1023 * 1024 := by
      have hlt := hfine.below
      omega
    -- the page held the frame that is freed, or the ledger has no such frame
    have hheld : frame (d.state.pte (directoryIndex virt) (tableIndex virt)) ∈ d.took →
        d.state.HoldsFrame (virt / 4096)
          (frame (d.state.pte (directoryIndex virt) (tableIndex virt))) := by
      intro hmem
      refine ⟨_, leaf_eq_page_iff.mpr ?_, rfl⟩
      rw [page_directoryIndex, page_tableIndex]
      exact ⟨hp, hsmall, hfine.owned.resolve_right (not_not_intro hmem), rfl⟩
    have hfact : ∀ f, d.state.HoldsFrame (virt / 4096) f →
        f = frame (d.state.pte (directoryIndex virt) (tableIndex virt)) := by
      rintro f ⟨entry, hleaf, rfl⟩
      rw [leaf_eq_page_iff, page_directoryIndex, page_tableIndex] at hleaf
      rw [hleaf.2.2.2]
    exact h.clear hother hround.edits.ready hround.freed hbelow
      (hround.leaf hfine.below hp hsmall) (frame_spec (read32_lt _ _)).1 hheld hfact

/-! ## Runs -/

theorem allocLoop_balanced {i rounds r : Nat} (h : Balanced d)
    (hfine : AllocFineRange d virt i rounds) (hrun : d.allocLoop virt i rounds = .ok (r, e)) :
    Balanced e := by
  induction rounds generalizing d i with
  | zero =>
    rw [← (Prod.mk.inj (Except.ok.inj hrun)).2]
    exact h
  | succ rounds ih =>
    obtain ⟨hfirst, hrest⟩ := hfine
    obtain ⟨⟨page, d₁⟩, hpage, hrun⟩ := bind_eq_ok hrun
    have h₁ := allocPage_balanced h hfirst hpage
    cases page with
    | none =>
      rw [← (Prod.mk.inj (Except.ok.inj hrun)).2]
      exact h₁
    | some page => exact ih h₁ (hrest page d₁ hpage) hrun

theorem unmapPages_balanced {num : Nat} (h : Balanced d) (hfine : UnmapFineRange d virt num)
    (hrun : d.unmapPages virt num = .ok e) : Balanced e := by
  induction num generalizing d virt with
  | zero =>
    rw [← Except.ok.inj hrun]
    exact h
  | succ num ih =>
    obtain ⟨hfirst, hrest⟩ := hfine
    obtain ⟨d₁, hpage, hrun⟩ := bind_eq_ok hrun
    exact ih (unmapPage_balanced h hfirst hpage) (hrest d₁ hpage) hrun

theorem run_balanced {c : Call} (h : Balanced d) (hfine : c.Fine d) (hrun : c.run d = .ok e) :
    Balanced e := by
  cases c with
  | allocPages virt size =>
    obtain ⟨⟨_, d₁⟩, hloop, hrun⟩ := bind_eq_ok hrun
    rw [← Except.ok.inj hrun]
    exact allocLoop_balanced h hfine hloop
  | unmapPages virt num => exact unmapPages_balanced h hfine hrun

theorem runCalls_balanced {calls : List Call} (h : Balanced d) (hfine : FineAll d calls)
    (hrun : runCalls d calls = .ok e) : Balanced e := by
  induction calls generalizing d with
  | nil =>
    rw [← Except.ok.inj hrun]
    exact h
  | cons c cs ih =>
    obtain ⟨hfirst, hrest⟩ := hfine
    obtain ⟨d₁, hcall, hrun⟩ := bind_eq_ok hrun
    exact ih (run_balanced h hfirst hcall) (hrest d₁ hcall) hrun

/-- Every frame taken and not freed is marked and belongs to exactly one page; pages
written by `paging_alloc_pages` have frames of their own. -/
structure Conserved (d : Ledger) : Prop where
  marked : ∀ f ∈ d.took, taken d.state.pmm (f / 4096) = true
  owned : ∀ f ∈ d.took, ∃! q, q < 1023 * 1024 ∧ d.state.HoldsFrame q f
  apart : ∀ q q' f, q ∈ d.written → q' ∈ d.written → d.state.HoldsFrame q f →
    d.state.HoldsFrame q' f → q = q'

theorem Balanced.conserved (h : Balanced d) : Conserved d where
  marked := h.marked
  owned := by
    intro f hf
    obtain ⟨q, hq, hholds⟩ := h.held f hf
    refine ⟨q, ⟨h.below q hq, hholds⟩, ?_⟩
    rintro q' ⟨hq', hholds'⟩
    exact h.unique f hf q' q hq' (h.below q hq) hholds' hholds
  apart := by
    intro q q' f hq hq' hholds hholds'
    obtain ⟨g, hg, hholdsg⟩ := h.holds q hq
    obtain rfl := hholds.frame_eq hholdsg
    exact h.unique f hg q q' (h.below q hq) (h.below q' hq') hholds hholds'

/-- **Demand mapping neither loses nor shares a frame**, in every run from a reachable
state whose calls meet their conditions. -/
theorem runCalls_conserved {s : State} (hs : Reachable s) (hmax : s.pmm.maxBlocks ≤ 2 ^ 20)
    {calls : List Call} (hfine : FineAll (start s) calls)
    (hrun : runCalls (start s) calls = .ok d) : Conserved d :=
  (runCalls_balanced (start_balanced (reachable_ready hs) hmax) hfine hrun).conserved

end Ledger

/-! ## One page, once and twice -/

/-- `s` after a round for page 600, whose table is the first. -/
def withPage (s : State) (page : Nat) (p : Pmm.State) : State :=
  { s with
    pmm := p
    mem := write32 s.mem (frame (s.pde (directoryIndex 0x258000)) + 4 * tableIndex 0x258000)
      (allocEntry page) }

namespace Ledger

/-- The first table is there and has small pages. -/
structure FirstTable (s : State) : Prop where
  ready : s.Ready
  present : present (s.pde (directoryIndex 0x258000)) = true
  small : large (s.pde (directoryIndex 0x258000)) = false

theorem FirstTable.supplied {s : State} (h : FirstTable s) : AllocSupplied s 0x258000 := by
  intro page p _ _ habsent
  have hp : Machine.present (s.pde (directoryIndex 0x258000)) = true := h.present
  exact absurd (hp.symm.trans habsent) Bool.noConfusion

theorem FirstTable.alloc {s : State} (h : FirstTable s) {page : Nat} {p : Pmm.State}
    (halloc : pmmAllocPage s.pmm = .ok (page, p)) (hpage : page ≠ 0) :
    pagingAllocPage s 0x258000 = .ok (some page, withPage s page p) :=
  allocPage_present h.ready (by decide) (by decide) h.present halloc hpage

/-- The round leaves every other page alone. -/
theorem FirstTable.round {s : State} (h : FirstTable s) {page : Nat} {p : Pmm.State}
    (halloc : pmmAllocPage s.pmm = .ok (page, p)) (hpage : page ≠ 0) :
    FirstTable (withPage s page p) ∧ (withPage s page p).HoldsFrame 600 page ∧
      ∀ q, q < 1023 * 1024 → q ≠ 600 → (withPage s page p).leaf q = s.leaf q := by
  have hround := allocPage_round h.ready (by decide) h.supplied (h.alloc halloc hpage)
  have hdir := hround.edits.dirs (directoryIndex 0x258000) (by decide) h.present
  refine ⟨⟨hround.edits.ready, ?_, ?_⟩, hround.holds (by decide) fun _ => h.small,
    fun q hq hne => hround.edits.leaf_outside (alloc_plain s _) hq hne⟩
  · rw [hdir]
    exact h.present
  · rw [hdir]
    exact h.small

theorem allocOne_run {d : Ledger} (h : FirstTable d.state) {page : Nat} {p : Pmm.State}
    (halloc : pmmAllocPage d.state.pmm = .ok (page, p)) (hpage : page ≠ 0) :
    (Call.allocPages 0x258000 1).run d = .ok
      { state := withPage d.state page p, took := page :: d.took, written := 600 :: d.written } := by
  have haddr : wrap (0x258000 + 0 * 0x1000) = 0x258000 := by decide
  rw [Call.run, allocLoop, haddr, allocPage, h.alloc halloc hpage]
  rfl

theorem firstTable_stocked {t : State} (h : AfterInit t)
    (hp : Machine.present (t.pde 0) = true) : FirstTable (stocked t) :=
  ⟨h.ready, hp, h.first_small hp⟩

/-- Before the first allocation no page holds a frame above the kernel. -/
theorem stocked_unshared {t : State} (h : AfterInit t) (hid : Identity t) {q f : Nat}
    (hq : q < 1023 * 1024) (hf : 513 * 4096 ≤ f) : ¬ (stocked t).HoldsFrame q f := by
  rintro ⟨entry, hleaf, rfl⟩
  obtain ⟨hlt, hframe⟩ := h.leaf_page hid hq hleaf
  omega

theorem runCalls_cons {d e : Ledger} {c : Call} (h : c.run d = .ok e) (cs : List Call) :
    runCalls d (c :: cs) = runCalls e cs := by
  rw [runCalls, h, ok_bind]

/-- The ledger after page 600 has been allocated once. -/
def once (t : State) : Ledger :=
  { state := withPage (stocked t) 0x800000 (mmapSet freeRow 2048)
    took := [0x800000]
    written := [600] }

/-- The ledger after page 600 has been allocated twice. -/
def twice (t : State) : Ledger :=
  { state := withPage (once t).state 0x801000 (mmapSet (mmapSet freeRow 2048) 2049)
    took := [0x801000, 0x800000]
    written := [600, 600] }

theorem once_run {t : State} (h : FirstTable (stocked t)) :
    (Call.allocPages 0x258000 1).run (start (stocked t)) = .ok (once t) :=
  allocOne_run (d := start (stocked t)) h freeRow_alloc (by decide)

theorem once_fine {t : State} (h : AfterInit t) (hid : Identity t)
    (hfirst : FirstTable (stocked t)) :
    FineAll (start (stocked t)) [.allocPages 0x258000 1] := by
  refine ⟨⟨⟨by decide, List.not_mem_nil, fun _ => hfirst.small, ?_, hfirst.supplied⟩,
    fun _ _ _ => trivial⟩, fun _ _ => trivial⟩
  intro page p halloc _ q hq
  obtain ⟨rfl, -⟩ := Prod.mk.inj (Except.ok.inj (freeRow_alloc.symm.trans halloc))
  exact stocked_unshared h hid hq (by decide)

theorem twice_run {t : State} (h : FirstTable (stocked t)) :
    runCalls (start (stocked t)) [.allocPages 0x258000 1, .allocPages 0x258000 1] =
      .ok (twice t) := by
  have hnext : FirstTable (once t).state := (h.round freeRow_alloc (by decide)).1
  have hcall : (Call.allocPages 0x258000 1).run (once t) = .ok (twice t) :=
    allocOne_run (d := once t) hnext freeRow_alloc_next (by decide)
  rw [runCalls_cons (once_run h), runCalls_cons hcall, runCalls]

/-- Nothing holds the frame of the first allocation any more. -/
theorem twice_lost {t : State} (h : AfterInit t) (hid : Identity t)
    (hfirst : FirstTable (stocked t)) {q : Nat} (hq : q < 1023 * 1024) :
    ¬ (twice t).state.HoldsFrame q 0x800000 := by
  obtain ⟨hnext, -, hleaf⟩ := hfirst.round freeRow_alloc (by decide)
  obtain ⟨-, hholds, hleaf'⟩ := hnext.round freeRow_alloc_next (by decide)
  intro hq'
  by_cases hpage : q = 600
  · rw [hpage] at hq'
    exact absurd (hq'.frame_eq hholds) (by decide)
  · refine stocked_unshared h hid hq (show 513 * 4096 ≤ 0x800000 by decide) ?_
    exact hq'.congr ((hleaf q hq hpage).symm.trans (hleaf' q hq hpage).symm)

theorem runCalls_conserved_once :
    ∃ d, runCalls (start (stocked started)) [.allocPages 0x258000 1] = .ok d ∧
      d.took = [0x800000] ∧ Conserved d := by
  obtain ⟨-, -, hafter, hid⟩ := started_pages
  have hfirst := firstTable_stocked hafter started_init.2.2.2
  have hrun := runCalls_cons (once_run hfirst) []
  rw [runCalls] at hrun
  exact ⟨once started, hrun, rfl, runCalls_conserved (stocked_reachable started_reachable)
    (show 4096 ≤ 2 ^ 20 by decide) (once_fine hafter hid hfirst) hrun⟩

/-- Allocating page 600 a second time overwrites its entry: frame 0x800000 stays
marked and no page holds it. -/
theorem runCalls_leaks :
    Reachable (stocked started) ∧
      ∃ d, runCalls (start (stocked started)) [.allocPages 0x258000 1, .allocPages 0x258000 1] =
          .ok d ∧
        0x800000 ∈ d.took ∧ taken d.state.pmm 2048 = true ∧
        (∀ q, q < 1023 * 1024 → ¬ d.state.HoldsFrame q 0x800000) ∧ ¬ Conserved d := by
  obtain ⟨-, -, hafter, hid⟩ := started_pages
  have hfirst := firstTable_stocked hafter started_init.2.2.2
  have hmem : 0x800000 ∈ (twice started).took := List.mem_cons_of_mem _ List.mem_cons_self
  have htaken : taken (mmapSet (mmapSet freeRow 2048) 2049) 2048 = true := by
    rw [taken_mmapSet, taken_mmapSet]
    rfl
  refine ⟨stocked_reachable started_reachable, twice started, twice_run hfirst, hmem, htaken,
    fun q hq => twice_lost hafter hid hfirst hq, fun hcons => ?_⟩
  obtain ⟨q, ⟨hq, hq'⟩, -⟩ := hcons.owned 0x800000 hmem
  exact twice_lost hafter hid hfirst hq hq'

end Ledger

end Paging
end Medusa
