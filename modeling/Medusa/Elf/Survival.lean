import Medusa.Elf.Frame
import Medusa.Elf.Linkable
import Medusa.Heap.Limit

/-!
# Surviving any object

Stage 1 survives as long as each section header that it looks at is owned and the
heap serves each section; the heap then still represents a list, so what is owned
stays apart from its headers.  With what stage 2 needs this is all that an object
must meet, and an object that does not meet it makes the loader leave the image,
divide by zero or stop.
-/

namespace Medusa
namespace Elf

open Machine Kernel

/-- The loader returns, and touches the image and its own memory only. -/
def Survives (st : Heap.State) (header len : Nat) : Prop :=
  (∃ r, elfLoadRel st header = .ok r) ∧
    Confined (Set.Ico header (header + len)) (loadRelTrace st header)

/-- The image lies below the heap's limit, in memory that the heap does not hand out;
`kernel_main` puts a module into a block of its own. -/
def Placed (st : Heap.State) (header len : Nat) : Prop :=
  ∃ blocks, Heap.Rep st blocks ∧ Heap.Aside blocks header (header + len) ∧
    header + len ≤ Heap.heapLimit

/-! ## Owned memory and the heap -/

/-- The heap is sound and does not hand out what is owned. -/
structure Owns (blocks : List Heap.Block) (own : Set Nat) (st : Heap.State) : Prop where
  rep : Heap.Rep st blocks
  low : ∀ x ∈ own, x < Heap.heapLimit
  aside : ∀ x ∈ own, Heap.Aside blocks x (x + 1)

/-- What the heap does not hand out stays so, and is as it was unless it is owned. -/
def Spares (blocks blocks' : List Heap.Block) (own : Set Nat) (st st' : Heap.State) : Prop :=
  ∀ x, x < Heap.heapLimit → Heap.Aside blocks x (x + 1) →
    Heap.Aside blocks' x (x + 1) ∧ (x ∉ own → st'.mem x = st.mem x)

variable {own own' : Set Nat} {m : Mem} {st st' st₁ : Heap.State}
  {blocks blocks' blocks₁ : List Heap.Block} {b : Heap.Block}
  {header len size p sec shdr i fuel addr n x : Nat}

theorem Spares.refl (blocks : List Heap.Block) (own : Set Nat) (st : Heap.State) :
    Spares blocks blocks own st st :=
  fun _ _ haside => ⟨haside, fun _ => rfl⟩

theorem Spares.trans (h : Spares blocks blocks₁ own st st₁)
    (h' : Spares blocks₁ blocks' own' st₁ st') (hsub : own ⊆ own') :
    Spares blocks blocks' own' st st' := by
  intro x hx haside
  obtain ⟨haside₁, hsame⟩ := h x hx haside
  obtain ⟨haside', hsame'⟩ := h' x hx haside₁
  exact ⟨haside', fun hout => (hsame' hout).trans (hsame fun hin => hout (hsub hin))⟩

namespace Owns

theorem store (h : Owns blocks own st) (hm : ∀ x, m x = st.mem x ∨ x ∈ own) :
    Owns blocks own { st with mem := m } :=
  ⟨h.rep.bytes fun x => (hm x).imp_right (h.aside x), h.low, h.aside⟩

/-- A block that is handed out becomes owned. -/
theorem grown (h : Owns blocks own st) (hall : Heap.Allocated blocks size 4 b blocks')
    (hrep : Heap.Rep st' blocks') :
    Owns blocks' (own ∪ Set.Ico b.data (b.data + b.cap)) st' := by
  have hhigh := (hall.laid.placed b hall.mem).high
  refine ⟨hrep, fun x hx => ?_, fun x hx => ?_⟩
  · rcases hx with hx | ⟨-, hx⟩
    · exact h.low x hx
    · rw [Heap.Block.data] at hx
      omega
  · rcases hx with hx | ⟨hlo, hhi⟩
    · exact (h.aside x hx).allocated hall
    · exact Or.inr (Or.inr ⟨b, hall.mem, hall.used, hlo, hhi⟩)

section Request

variable (h : Owns blocks own st) (hrun : Heap.kmalloc st size = .ok (p, st'))

include h hrun

/-- An allocation leaves what is owned as it was. -/
theorem spares (hown : Covers own addr n) : Agree st.mem st'.mem addr (addr + n) := by
  intro x hlo hhi
  have hx := hown x hlo hhi
  exact Heap.alignedAlloc_spares h.rep Heap.aligns_four hrun (h.aside x hx) (h.low x hx) x
    (Nat.le_refl x) (Nat.lt_succ_self x)

/-- A block of the size asked for was not cut. -/
theorem uncut (hsize : size ≠ 0)
    (hroom : Covers (own ∪ Set.Ico p (p + blockRoom st' p)) p size) :
    Heap.Uncut st 4 size := by
  apply Heap.uncut_of_inside h.rep Heap.aligns_four hrun
  have hlast : p + (size - 1) < Heap.heapLimit := by
    rcases hroom (p + (size - 1)) (by omega) (by omega) with hx | ⟨-, hx⟩
    · exact h.low _ hx
    · rw [blockRoom] at hx
      omega
  omega

theorem provided (huncut : Heap.Uncut st 4 size) :
    ∃ b blocks', p = b.data ∧ Heap.Allocated blocks (alignTo size 8) 4 b blocks' ∧
      size ≤ b.cap ∧ blockRoom st' p = b.cap ∧ Heap.Rep st' blocks' := by
  obtain ⟨b, blocks', -, hall, rfl, hroom, hrep, -⟩ :=
    Heap.alignedAlloc_allocated h.rep Heap.aligns_four (Or.inr huncut) hrun
  have hhigh := (hall.laid.placed b hall.mem).high
  refine ⟨b, blocks', rfl, hall, hroom, ?_, hrep⟩
  rw [blockRoom, hrep.capacity_data hall.mem, Heap.Block.data]
  omega

end Request

end Owns

/-! ## One section -/

theorem provideTrace_ok (hrun : Heap.kmalloc st (shSize st.mem sec) = .ok (p, st')) :
    provideTrace sec st = [.read (sec + 20) 4, .grant p (blockRoom st' p), .read (sec + 20) 4,
      .write p (shSize st'.mem sec), .write (sec + 16) 4, .read (sec + 20) 4] := by
  rw [provideTrace, hrun]

theorem stage1Section_ok (htakes : Takes st.mem sec)
    (hrun : Heap.kmalloc st (shSize st.mem sec) = .ok (p, st')) :
    stage1Section header sec st = .ok { st' with
      mem := write32 (Libc.memset st'.mem p 0#8 (shSize st'.mem sec)) (sec + 16)
        (wsub p header) } := by
  rw [Takes] at htakes
  rw [stage1Section, if_pos htakes, hrun]
  rfl

theorem stage1Section_error {e : Stop} (htakes : Takes st.mem sec)
    (hrun : Heap.kmalloc st (shSize st.mem sec) = .error e) :
    stage1Section header sec st = .error e := by
  rw [Takes] at htakes
  rw [stage1Section, if_pos htakes, hrun]
  rfl

theorem stage1Section_skip (hskip : ¬ Takes st.mem sec) :
    stage1Section header sec st = .ok st := by
  rw [Takes] at hskip
  rw [stage1Section, if_neg hskip]
  rfl

theorem confined_section : Confined own (stage1SectionTrace sec st) ↔
    Covers own (sec + 4) 4 ∧ (shType st.mem sec = shtNobits → Covers own (sec + 20) 4 ∧
      (shSize st.mem sec ≠ 0 → Covers own (sec + 8) 4 ∧
        (shFlags st.mem sec &&& shfAlloc ≠ 0 → Confined own (provideTrace sec st)))) := by
  rw [stage1SectionTrace]
  simp only [confined_read, confined_when, confined_unless]

theorem owned_section_of_takes (htakes : Takes st.mem sec)
    (hrun : Heap.kmalloc st (shSize st.mem sec) = .ok (p, st')) :
    Owned own (stage1SectionTrace sec st) = own ∪ Set.Ico p (p + blockRoom st' p) := by
  obtain ⟨htype, hsize, hflags⟩ := htakes
  rw [stage1SectionTrace, if_pos htype, if_neg hsize, if_pos hflags, provideTrace_ok hrun]
  rfl

theorem owned_section_of_not_takes (hskip : ¬ Takes st.mem sec) :
    Owned own (stage1SectionTrace sec st) = own := by
  rw [stage1SectionTrace, owned_read]
  split
  case isFalse => rfl
  case isTrue htype =>
    rw [owned_read]
    split
    case isTrue => rfl
    case isFalse hsize =>
      rw [owned_read, if_neg fun hflags => hskip ⟨htype, hsize, hflags⟩]
      rfl

/-- **A section that fits** is provided for, and what is owned stays apart from the
heap. -/
theorem SectionFits.run (hfits : SectionFits own st sec) (h : Owns blocks own st) (header : Nat) :
    Confined own (stage1SectionTrace sec st) ∧ ∃ st' blocks',
      stage1Section header sec st = .ok st' ∧
      Owns blocks' (Owned own (stage1SectionTrace sec st)) st' ∧
      Spares blocks blocks' (Owned own (stage1SectionTrace sec st)) st st' := by
  by_cases htakes : Takes st.mem sec
  · obtain ⟨hrefuse, huncut⟩ := hfits.served htakes
    obtain ⟨htype, hsize, hflags⟩ := htakes
    have hcoverSize := hfits.size htype
    have hcoverOffset := hfits.offset ⟨htype, hsize, hflags⟩
    rcases Heap.alignedAlloc_ends h.rep Heap.aligns_four (shSize st.mem sec) with
      habort | ⟨p, st₁, hrun⟩
    · exact absurd (Heap.refuses_of_error h.rep Heap.aligns_four habort) hrefuse
    · obtain ⟨b, blocks', rfl, hall, hroom, hblock, hrep⟩ := h.provided hrun huncut
      have hagain : shSize st₁.mem sec = shSize st.mem sec :=
        read32_congr (h.spares hrun hcoverSize)
      have hsub : own ⊆ own ∪ Set.Ico b.data (b.data + b.cap) := Set.subset_union_left
      constructor
      · rw [confined_section]
        refine ⟨hfits.type, fun _ => ⟨hcoverSize, fun _ => ⟨hfits.flags htype hsize, fun _ => ?_⟩⟩⟩
        rw [provideTrace_ok hrun, hagain, hblock]
        simp only [confined_read, confined_grant, confined_write, confined_nil, and_true]
        refine ⟨hcoverSize, hcoverSize.grow hsub, fun x hlo hhi => Or.inr ⟨hlo, ?_⟩,
          hcoverOffset.grow hsub, hcoverSize.grow hsub⟩
        omega
      · refine ⟨_, blocks', stage1Section_ok ⟨htype, hsize, hflags⟩ hrun, ?_⟩
        rw [owned_section_of_takes ⟨htype, hsize, hflags⟩ hrun, hblock, hagain]
        have hstore : ∀ x, write32 (Libc.memset st₁.mem b.data 0#8 (shSize st.mem sec)) (sec + 16)
            (wsub b.data header) x = st₁.mem x ∨ x ∈ own ∪ Set.Ico b.data (b.data + b.cap) := by
          intro x
          by_cases hfield : sec + 16 ≤ x ∧ x < sec + 16 + 4
          · exact Or.inr (hsub (hcoverOffset x hfield.1 hfield.2))
          · rw [write32_outside (by omega)]
            by_cases hdata : b.data ≤ x ∧ x < b.data + b.cap
            · exact Or.inr (Or.inr hdata)
            · exact Or.inl (Libc.memset_outside (by omega))
        refine ⟨(h.grown hall hrep).store hstore, fun x hx haside => ⟨haside.allocated hall, ?_⟩⟩
        intro hout
        have hkeep := Heap.alignedAlloc_spares h.rep Heap.aligns_four hrun haside hx x
          (Nat.le_refl x) (Nat.lt_succ_self x)
        exact ((hstore x).resolve_right hout).trans hkeep
  · constructor
    · rw [confined_section]
      exact ⟨hfits.type, fun htype => ⟨hfits.size htype, fun hsize =>
        ⟨hfits.flags htype hsize, fun hflags => absurd ⟨htype, hsize, hflags⟩ htakes⟩⟩⟩
    · refine ⟨st, blocks, stage1Section_skip htakes, ?_, Spares.refl _ _ _⟩
      rw [owned_section_of_not_takes htakes]
      exact h

/-- A block is never in the middle of a section header that is owned on both sides. -/
theorem Owns.covers_offset (h : Owns blocks own st)
    (hall : Heap.Allocated blocks size 4 b blocks') (hflags : Covers own (sec + 8) 4)
    (hoffset : Covers (own ∪ Set.Ico b.data (b.data + b.cap)) (sec + 16) 4) :
    Covers own (sec + 16) 4 := by
  intro x hlo hhi
  refine (hoffset x hlo hhi).resolve_right fun hx => ?_
  have haside := h.aside _ (hflags (sec + 11) (by omega) (by omega))
  have hout := haside.apart hall (Nat.le_refl _) (Nat.lt_succ_self _)
  have hx' : b.data ≤ x ∧ x < b.data + b.cap := hx
  rw [Heap.Block.data] at hx' hout
  omega

/-- **A section that does not fit** is fatal. -/
theorem sectionFits_of_confined (h : Owns blocks own st)
    (hrun : stage1Section header sec st = .ok st')
    (hconfined : Confined own (stage1SectionTrace sec st)) : SectionFits own st sec := by
  rw [confined_section] at hconfined
  obtain ⟨htype, hrest⟩ := hconfined
  have hserved : Takes st.mem sec → Covers own (sec + 16) 4 ∧
      ¬ Heap.Refuses st 4 (shSize st.mem sec) ∧ Heap.Uncut st 4 (shSize st.mem sec) := by
    intro htakes
    obtain ⟨hsize, hrest⟩ := hrest htakes.1
    obtain ⟨hflags, hprovide⟩ := hrest htakes.2.1
    have hprovide := hprovide htakes.2.2
    cases hmalloc : Heap.kmalloc st (shSize st.mem sec) with
    | error e =>
      rw [stage1Section_error htakes hmalloc] at hrun
      simp at hrun
    | ok r =>
      obtain ⟨p, st₁⟩ := r
      have hagain : shSize st₁.mem sec = shSize st.mem sec :=
        read32_congr (h.spares hmalloc hsize)
      rw [provideTrace_ok hmalloc, hagain] at hprovide
      simp only [confined_read, confined_grant, confined_write, confined_nil, and_true] at hprovide
      obtain ⟨-, -, hmem, hoffset, -⟩ := hprovide
      have huncut := h.uncut hmalloc htakes.2.1 hmem
      obtain ⟨b, blocks', rfl, hall, -, hblock, -⟩ := h.provided hmalloc huncut
      rw [hblock] at hoffset
      exact ⟨h.covers_offset hall hflags hoffset, Heap.not_refuses hmalloc, huncut⟩
  exact ⟨htype, fun h => (hrest h).1, fun h h' => ((hrest h).2 h').1,
    fun h => (hserved h).1, fun h => (hserved h).2⟩

/-! ## All sections -/

theorem Stage1Fits.run (hfits : Stage1Fits header shdr fuel i own st)
    (h : Owns blocks own st) (hheader : Covers own header 52) :
    Confined own (stage1LoopTrace header shdr fuel i st) ∧ ∃ st' blocks',
      stage1Loop header shdr fuel i st = .ok st' ∧
      Owns blocks' (Owned own (stage1LoopTrace header shdr fuel i st)) st' ∧
      Spares blocks blocks' (Owned own (stage1LoopTrace header shdr fuel i st)) st st' := by
  induction fuel generalizing i own st blocks with
  | zero => exact ⟨trivial, st, blocks, rfl, h, Spares.refl _ _ _⟩
  | succ fuel ih =>
    have hshnum := covers_field hheader (show 48 + 2 ≤ 52 by decide)
    rw [stage1LoopTrace, stage1Loop]
    by_cases hi : i < eShnum st.mem header
    · obtain ⟨hsec, hnext⟩ := hfits hi
      obtain ⟨hconfined, st₁, blocks₁, hrun, h₁, hspares⟩ := hsec.run h header
      obtain ⟨hconfined', st₂, blocks₂, hrun', h₂, hspares'⟩ :=
        ih (hnext st₁ hrun) h₁ (hheader.grow (subset_owned own _))
      rw [if_pos hi, if_pos hi, hrun]
      refine ⟨⟨hshnum, confined_append.mpr ⟨hconfined, hconfined'⟩⟩, st₂, blocks₂, hrun', ?_⟩
      rw [owned_read, owned_append]
      exact ⟨h₂, hspares.trans hspares' (subset_owned _ _)⟩
    · rw [if_neg hi, if_neg hi]
      exact ⟨⟨hshnum, trivial⟩, st, blocks, rfl, h, Spares.refl _ _ _⟩

theorem stage1Fits_of_confined (h : Owns blocks own st) (hheader : Covers own header 52)
    (hrun : stage1Loop header shdr fuel i st = .ok st')
    (hconfined : Confined own (stage1LoopTrace header shdr fuel i st)) :
    Stage1Fits header shdr fuel i own st := by
  induction fuel generalizing i own st blocks with
  | zero => trivial
  | succ fuel ih =>
    intro hi
    rw [stage1Loop, if_pos hi] at hrun
    obtain ⟨st₁, hsec, hrun⟩ := bind_eq_ok hrun
    rw [stage1LoopTrace, if_pos hi, hsec, confined_read, confined_append] at hconfined
    obtain ⟨-, hconfined, hconfined'⟩ := hconfined
    have hfits := sectionFits_of_confined h hsec hconfined
    obtain ⟨-, st₂, blocks₂, hsec', h₂, -⟩ := hfits.run h header
    rw [hsec] at hsec'
    obtain rfl := Except.ok.inj hsec'
    refine ⟨hfits, fun st₃ hsec₃ => ?_⟩
    rw [hsec] at hsec₃
    obtain rfl := Except.ok.inj hsec₃
    exact ih h₂ (hheader.grow (subset_owned own _)) hrun hconfined'

/-! ## The loader -/

theorem elfLoadRel_ok_iff :
    (∃ r, elfLoadRel st header = .ok r) ↔ ∃ st', elfLoadStage1 st header = .ok st' := by
  constructor
  · intro h
    obtain ⟨r, hrun⟩ := h
    obtain ⟨st', hstage1, -⟩ := bind_eq_ok hrun
    exact ⟨st', hstage1⟩
  · intro h
    obtain ⟨st', hstage1⟩ := h
    cases hstage2 : elfLoadStage2 st'.mem header with
    | error m => exact ⟨_, elfLoadRel_error hstage1 hstage2⟩
    | ok m => exact ⟨_, elfLoadRel_ok hstage1 hstage2⟩

theorem Placed.owns (h : Placed st header len) :
    ∃ blocks, Owns blocks (Set.Ico header (header + len)) st := by
  obtain ⟨blocks, hrep, haside, hlimit⟩ := h
  exact ⟨blocks, hrep, fun x hx => hx.2.trans_le hlimit, fun x hx => haside.mono hx.1 hx.2⟩

/-- The trace after stage 1 returned. -/
theorem loadRelTrace_of_stage1 (hstage1 : elfLoadStage1 st header = .ok st') :
    ∃ rest, loadRelTrace st header = stage1Trace st header ++ (stage2Trace st'.mem header ++ rest) ∧
      (rest = [] ∨ rest = [.read (header + 24) 4]) := by
  rw [loadRelTrace, hstage1]
  refine ⟨_, rfl, ?_⟩
  cases elfLoadStage2 st'.mem header with
  | error m => exact Or.inl rfl
  | ok m => exact Or.inr rfl

/-! ## What the loader leaves alone -/

theorem elfLoadRel_mem {ret : Nat} (hstage1 : elfLoadStage1 st header = .ok st₁)
    (hrun : elfLoadRel st header = .ok (ret, st')) :
    st' = { st₁ with mem := memAfter (elfLoadStage2 st₁.mem header) } := by
  cases hstage2 : elfLoadStage2 st₁.mem header with
  | error m =>
    rw [elfLoadRel_error hstage1 hstage2] at hrun
    exact (Prod.mk.inj (Except.ok.inj hrun)).2.symm
  | ok m =>
    rw [elfLoadRel_ok hstage1 hstage2] at hrun
    exact (Prod.mk.inj (Except.ok.inj hrun)).2.symm

/-- **An object that fits harms nobody**: the heap stays sound, and of the memory that
it does not hand out only the image and the new sections change. -/
theorem Loads.spares {ret : Nat} (hrep : Heap.Rep st blocks)
    (haside : Heap.Aside blocks header (header + len)) (hlimit : header + len ≤ Heap.heapLimit)
    (hlen : 52 ≤ len) (hloads : Loads st header len)
    (hrun : elfLoadRel st header = .ok (ret, st')) :
    ∃ blocks', Heap.Rep st' blocks' ∧ Spares blocks blocks'
      (Owned (Set.Ico header (header + len)) (stage1Trace st header)) st st' := by
  have howns : Owns blocks (Set.Ico header (header + len)) st :=
    ⟨hrep, fun x hx => hx.2.trans_le hlimit, fun x hx => haside.mono hx.1 hx.2⟩
  obtain ⟨-, st₁, blocks₁, hstage1, howns₁, hspares⟩ :=
    hloads.1.run howns (covers_Ico (Nat.le_refl _) (by omega))
  have hfits := hloads.2 st₁ hstage1
  obtain rfl := elfLoadRel_mem hstage1 hrun
  refine ⟨blocks₁, ?_, fun x hx haside => ?_⟩
  · refine (howns₁.store fun x => ?_).rep
    by_cases hx : x ∈ Owned (Set.Ico header (header + len)) (stage1Trace st header)
    · exact Or.inr hx
    · exact Or.inl (hfits.frame hx)
  · obtain ⟨haside₁, hsame⟩ := hspares x hx haside
    exact ⟨haside₁, fun hout => (hfits.frame hout).trans (hsame hout)⟩

/-! ## Exactly the objects that fit -/

theorem Survives.loads (hsurvives : Survives st header len) (hplaced : Placed st header len)
    (hlen : 52 ≤ len) : Loads st header len := by
  obtain ⟨blocks, howns⟩ := hplaced.owns
  have hheader : Covers (Set.Ico header (header + len)) header 52 :=
    covers_Ico (Nat.le_refl _) (by omega)
  obtain ⟨hreturns, hconfined⟩ := hsurvives
  obtain ⟨st₁, hrun⟩ := elfLoadRel_ok_iff.mp hreturns
  obtain ⟨rest, htrace, -⟩ := loadRelTrace_of_stage1 hrun
  rw [htrace, confined_append, confined_append] at hconfined
  obtain ⟨⟨-, hstage1⟩, ⟨-, hstage2⟩, -⟩ := hconfined
  have hfits := stage1Fits_of_confined howns hheader hrun hstage1
  refine ⟨hfits, fun st' hrun' => ?_⟩
  rw [hrun] at hrun'
  obtain rfl := Except.ok.inj hrun'
  obtain ⟨-, st₂, blocks₂, hrun₂, howns₂, -⟩ := hfits.run howns hheader
  exact (stage2Fits_iff howns₂.low (hheader.grow (subset_owned _ _))).mp hstage2

end Elf
end Medusa
