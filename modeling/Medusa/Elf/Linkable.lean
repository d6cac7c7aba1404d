import Medusa.Elf.Bounds
import Medusa.Elf.Load
import Medusa.Heap.Limit

/-!
# Objects that fit

A well-formed object fits when the heap has room for its sections and the code can
follow each symbol that an entry names: its number has eight bits, its section is
one of the object's, and if it is undefined it is weak.  Absolute symbols are left
out: the code takes their section number for an index of a section header.
-/

namespace Medusa
namespace Elf

open Machine Kernel

structure Image.Linkable (img : Image) : Prop where
  narrow : ∀ i j, img.IsEntry i j → img.symIndex i j < 256
  section_lt : ∀ i j, img.IsEntry i j → img.symIndex i j ≠ 0 →
    (img.symbolOf i j).shndx < img.shnum
  weak : ∀ i j, img.IsEntry i j → img.symIndex i j ≠ 0 → (img.symbolOf i j).shndx = 0 →
    elfStBind (img.symbolOf i j).info &&& stbWeak ≠ 0
  /-- The section headers of the string tables are there. -/
  names : ∀ i, img.IsRel i → (img.sections (img.sections i).link).link < img.shnum

variable {img img' : Image} {own : Set Nat} {m : Mem} {st st₁ : Heap.State}
  {blocks blocks' : List Heap.Block} {header shdr i j k n fuel rest : Nat}

theorem Image.Loaded.linkable (hl : img.Loaded img') (h : img.Linkable) : img'.Linkable := by
  constructor
  · intro i j hij
    rw [hl.isEntry_iff] at hij
    rw [hl.symIndex_eq]
    exact h.narrow i j hij
  · intro i j hij hne
    rw [hl.isEntry_iff] at hij
    rw [hl.symIndex_eq] at hne
    rw [hl.symbolOf_eq hij.1, hl.shnum]
    exact h.section_lt i j hij hne
  · intro i j hij hne
    rw [hl.isEntry_iff] at hij
    rw [hl.symIndex_eq] at hne
    rw [hl.symbolOf_eq hij.1]
    exact h.weak i j hij hne
  · intro i hi
    rw [hl.isRel_iff] at hi
    rw [hl.rel_same hi, hl.shnum, hl.sec]
    exact h.names i hi

/-! ## One entry -/

section Covered

variable (h : Shows img m header) (hw : img.WellFormed header)
  (hown : Covers own header img.len)

include hw hown

/-- The fields of a section header. -/
theorem covers_shdr (hi : i < img.shnum) (hk : k + n ≤ 40) :
    Covers own (header + img.shoff + 40 * i + k) n := by
  have hhigh := hw.headers.2
  exact hown.mono (by omega) (by omega)

include h

theorem covers_section (hi : i < img.shnum) (hk : k + n ≤ 40) :
    Covers own (elfSection m header i + k) n := by
  rw [elfSection, h.sheader_eq hw hi]
  exact covers_shdr hw hown hi hk

theorem valueFits_of_linkable (hlink : img.Linkable) (hij : img.IsEntry i j)
    (hne : img.symIndex i j ≠ 0) :
    ValueFits own m header (elfSection m header (img.sections i).link)
      (header + (img.sections (img.sections i).link).offset + 16 * img.symIndex i j) := by
  obtain ⟨-, -, -, hlt, -⟩ := hw.rel i hij.1
  have hsymtab : img.IsSymtab (img.sections i).link := ⟨i, hij.1, rfl⟩
  have hk := hw.symIndex_lt i j hij
  obtain ⟨-, -, hfit⟩ := hw.symtab _ hsymtab
  obtain ⟨-, hinfo, hshndx⟩ := h.sym _ _ hsymtab hk
  have hsymbol : ∀ k n, k + n ≤ 16 → Covers own
      (header + (img.sections (img.sections i).link).offset + 16 * img.symIndex i j + k) n :=
    fun k n hkn => hown.mono (by omega) (by omega)
  have hsec := h.section_eq hw hlt
  constructor
  · intro _
    rw [hsec.link]
    exact ⟨covers_section h hw hown hlt (by decide),
      covers_section h hw hown (hlink.names i hij.1) (by decide), hsymbol 0 4 (by decide),
      hsymbol 12 1 (by decide)⟩
  · intro hundef hstrong
    rw [hshndx] at hundef
    rw [hinfo] at hstrong
    exact absurd hstrong (hlink.weak i j hij hne hundef)
  · exact fun _ => hsymbol 4 4 (by decide)
  · intro _ _
    rw [hshndx]
    exact covers_section h hw hown (hlink.section_lt i j hij hne) (by decide)

theorem relocFits_of_linkable (hlink : img.Linkable) (hij : img.IsEntry i j) :
    RelocFits own m header (header + (img.sections i).offset + 8 * j)
      (header + img.shoff + 40 * i) := by
  obtain ⟨-, hfit, -, hlt, hinfo_lt⟩ := hw.rel i hij.1
  obtain ⟨hoff, hinfo⟩ := h.rel i j hij
  have hsec := h.sec i hij.1.1
  have htarget := h.section_eq hw hinfo_lt
  have hj := hij.2
  constructor
  · exact covers_shdr hw hown hij.1.1 (by decide)
  · rw [hsec.info]
    exact covers_section h hw hown hinfo_lt (by decide)
  · exact hown.mono (by omega) (by omega)
  · exact fun _ => covers_shdr hw hown hij.1.1 (by decide)
  · intro hsym
    rw [hinfo] at hsym ⊢
    rw [hsec.link]
    intro _ _
    have hsymtab : img.IsSymtab (img.sections i).link := ⟨i, hij.1, rfl⟩
    have hk : img.symIndex i j < _ := hw.symIndex_lt i j hij
    have hmod : elfRSym (img.rels i j).info % 256 = img.symIndex i j :=
      Nat.mod_eq_of_lt (hlink.narrow i j hij)
    have hlinked := h.section_eq hw hlt
    have hat : symbolAt m header (elfSection m header (img.sections i).link)
        (img.symIndex i j) =
        header + (img.sections (img.sections i).link).offset + 16 * img.symIndex i j := by
      rw [symbolAt, hlinked.offset, hw.sym_eq hsymtab hk]
    obtain ⟨-, -, hsymfit⟩ := hw.symtab _ hsymtab
    rw [hmod]
    constructor
    · exact covers_section h hw hown hlt (by decide)
    · exact covers_section h hw hown hlt (by decide)
    · rw [hlinked.entsize, (hw.symtab _ hsymtab).2.1]
      decide
    · exact fun _ => covers_section h hw hown hlt (by decide)
    · intro _
      rw [hat]
      exact hown.mono (by omega) (by omega)
    · intro _
      rw [hat]
      exact valueFits_of_linkable h hw hown hlink hij hsym
  · intro _ htype
    rw [hinfo] at htype
    have hsite := hw.site_lt hij htype
    obtain ⟨-, hroom, hlen, -⟩ := hw.site i j hij htype
    rw [Image.site] at hsite
    rw [relocSite, hsec.info, htarget.offset, hoff]
    show Covers own (wrap (wrap (header + (img.target i).offset) + (img.rels i j).offset)) 4
    rw [wrap_of_lt (show header + (img.target i).offset < 2 ^ 32 by omega),
      wrap_of_lt (by omega)]
    exact hown.mono (by omega) (by omega)

end Covered

/-! ## Stage 2 -/

theorem entriesFit_of_linkable {idx : Nat} (h : Shows img m header) (hw : img.WellFormed header)
    (hown : Covers own header img.len) (hlink : img.Linkable) (hi : img.IsRel i) :
    EntriesFit own header (header + img.shoff + 40 * i) fuel idx m := by
  induction fuel generalizing idx m with
  | zero => trivial
  | succ fuel ih =>
    have hsec := h.sec i hi.1
    rw [EntriesFit, hsec.size, hsec.entsize, (hw.rel i hi).1]
    refine ⟨⟨covers_shdr hw hown hi.1 (by decide), covers_shdr hw hown hi.1 (by decide),
      by decide⟩, fun hlt => ?_⟩
    have hij : img.IsEntry i idx := ⟨hi, hlt⟩
    rw [entryAt, hsec.offset, hw.rel_eq hij]
    refine ⟨covers_shdr hw hown hi.1 (by decide), relocFits_of_linkable h hw hown hlink hij,
      fun hok => ih (step_shows h hw hij ?_)⟩
    rw [Image.step]
    exact if_neg hok

theorem relocLoop_shows {m' : Mem} (h : Shows img m header) (hw : img.WellFormed header)
    (hi : img.IsRel i)
    (hrun : relocLoop header (header + img.shoff + 40 * i) (2 ^ 32) 0 m = .ok m') :
    Shows img m' header := by
  have hsize : (img.sections i).size < 2 ^ 32 := by
    rw [← (h.sec i hi.1).size]
    exact read32_lt _ _
  rw [relocLoop_eq h hw hi (Nat.zero_add _) (by omega)] at hrun
  refine foldlM_shows h hw (fun r hr => ?_) hrun
  obtain ⟨j, hj, rfl⟩ := List.mem_map.mp hr
  have hlt := (List.mem_range'_1.mp hj).2
  rw [Nat.zero_add] at hlt
  exact ⟨hi, hlt⟩

theorem stage2Fits_of_linkable (h : Shows img m header) (hw : img.WellFormed header)
    (hown : Covers own header img.len) (hlink : img.Linkable)
    (hshdr : ∀ i, i < img.shnum → shdrAt shdr i = header + img.shoff + 40 * i) :
    Stage2Fits own header shdr fuel i m := by
  induction fuel generalizing i m with
  | zero => trivial
  | succ fuel ih =>
    intro hlt
    rw [h.shnum] at hlt
    rw [hshdr i hlt, (h.sec i hlt).type]
    refine ⟨covers_shdr hw hown hlt (by decide), fun htype => ?_, fun _ => ih h⟩
    exact ⟨entriesFit_of_linkable h hw hown hlink ⟨hlt, htype⟩,
      fun m' hrun => ih (relocLoop_shows h hw ⟨hlt, htype⟩ hrun)⟩

/-! ## Stage 1 -/

/-- A section that the list serves fits. -/
theorem sectionFits_of_served (h : Stage1 img header st i img' st₁ blocks)
    (hw : img.WellFormed header) (hown : Covers own header img.len) (hi : i < img.shnum)
    (hserve : (img.sections i).Allocated → (img.sections i).size + 7 < 2 ^ 32 ∧
      ∃ r, Heap.allocate blocks (alignTo (img.sections i).size 8) 4 = some r) :
    SectionFits own st₁ (header + img.shoff + 40 * i) := by
  have hl := h.loaded
  have hsec := h.shows.sec i (by rw [hl.shnum]; exact hi)
  rw [hl.shoff] at hsec
  have hfield : ∀ k n, k + n ≤ 40 → Covers own (header + img.shoff + 40 * i + k) n :=
    fun k n hkn => covers_shdr hw hown hi hkn
  refine ⟨hfield 4 4 (by decide), fun _ => hfield 20 4 (by decide),
    fun _ _ => hfield 8 4 (by decide), fun _ => hfield 16 4 (by decide), fun htakes => ?_⟩
  have halloc : (img.sections i).Allocated := by
    rw [Takes, hsec.type, hsec.size, hsec.flags] at htakes
    exact (hl.allocated_iff i).mp htakes
  obtain ⟨hsize, ⟨b, blocks'⟩, hserve⟩ := hserve halloc
  obtain ⟨st₂, hrun, hrep, -, -, hb, hroom, -⟩ := Heap.kmalloc_aside h.rep h.aside hsize hserve
  have hhigh := (hrep.laid.placed b hb).high
  rw [hsec.size, hl.size_eq]
  refine ⟨Heap.not_refuses hrun, Heap.uncut_of_inside h.rep Heap.aligns_four hrun ?_⟩
  rw [Heap.Block.data]
  omega

theorem Stage1.fits (h : Stage1 img header st i img' st₁ blocks) (hw : img.WellFormed header)
    (hshdr : ∀ i, i < img.shnum → shdrAt shdr i = header + img.shoff + 40 * i)
    (hsizes : ∀ n ∈ img.requestsFrom i rest, n + 7 < 2 ^ 32)
    (hserve : Heap.serveAll blocks (img.requestsFrom i rest) = some blocks')
    (hrest : i + rest = img.shnum) (hown : Covers own header img.len) :
    Stage1Fits header shdr fuel i own st₁ := by
  induction fuel generalizing i rest st₁ img' blocks own with
  | zero => trivial
  | succ fuel ih =>
    intro hlt
    rw [h.shows.shnum, h.loaded.shnum] at hlt
    cases rest with
    | zero => omega
    | succ rest =>
      rw [Image.requestsFrom_succ] at hsizes hserve
      rw [hshdr i hlt]
      by_cases halloc : (img.sections i).Allocated
      · rw [if_pos halloc] at hsizes hserve
        have hsize := hsizes _ List.mem_cons_self
        obtain ⟨r, hone, hrest⟩ := Heap.serveAll_cons hserve
        obtain ⟨st₂, hrun, h₂⟩ := h.provide hw hlt halloc hsize hone
        refine ⟨sectionFits_of_served h hw hown hlt fun _ => ⟨hsize, r, hone⟩, fun st' hrun' => ?_⟩
        rw [hrun] at hrun'
        obtain rfl := Except.ok.inj hrun'
        exact ih h₂ (fun n hn => hsizes n (List.mem_cons_of_mem _ hn)) hrest (by omega)
          (hown.grow (subset_owned own _))
      · rw [if_neg halloc] at hsizes hserve
        obtain ⟨hrun, h₂⟩ := h.skip hlt halloc
        refine ⟨sectionFits_of_served h hw hown hlt fun h' => absurd h' halloc, fun st' hrun' => ?_⟩
        rw [hrun] at hrun'
        obtain rfl := Except.ok.inj hrun'
        exact ih h₂ hsizes hserve (by omega) (hown.grow (subset_owned own _))

/-- **An object that is well formed and linkable fits.** -/
theorem Image.loads (h : Shows img st.mem header) (hw : img.WellFormed header)
    (hroom : img.Room header st) (hlink : img.Linkable) : Loads st header img.len := by
  have hown : Covers (Set.Ico header (header + img.len)) header img.len :=
    covers_Ico (Nat.le_refl _) (Nat.le_refl _)
  obtain ⟨blocks, hrep, haside, hserve⟩ := hroom.served
  obtain ⟨blocks', hserve⟩ := Option.isSome_iff_exists.mp hserve
  have hstart : Stage1 img header st 0 img st blocks :=
    ⟨Image.Loaded.refl img, fun _ hk => absurd hk (Nat.not_lt_zero _), h, hrep, haside,
      fun _ _ _ _ => rfl⟩
  refine ⟨hstart.fits hw (fun i hi => h.sheader_eq hw hi) hroom.sizes hserve (Nat.zero_add _) hown,
    fun st' hrun => ?_⟩
  obtain ⟨img₁, st₁, blocks₁, hrun₁, h₁⟩ := stage1_spec h hw hroom
  rw [hrun] at hrun₁
  obtain rfl := Except.ok.inj hrun₁
  have hw₁ := h₁.loaded.wellFormed hw
  refine stage2Fits_of_linkable h₁.shows hw₁ ?_ (h₁.loaded.linkable hlink)
    fun i hi => h₁.shows.sheader_eq hw₁ hi
  rw [h₁.loaded.len]
  exact hown.grow (subset_owned _ _)

end Elf
end Medusa
