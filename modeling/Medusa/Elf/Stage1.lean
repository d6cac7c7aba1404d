import Medusa.Elf.Relocate
import Medusa.Heap.Client

/-!
# Memory for the sections that the file does not hold

Stage 1 takes a block from the heap for every such section and stores where it is in
the section's header.  The object itself lies in memory that the heap does not hand
out, so nothing else of it changes.
-/

namespace Medusa

namespace Elf

open Machine Kernel

variable {img img' : Image} {st st' : Heap.State} {m m' : Mem} {header i : Nat}

/-! ## The object with its new offsets -/

/-- `img'` is `img` after stage 1: allocated sections have got an offset. -/
structure Image.Loaded (img img' : Image) : Prop where
  len : img'.len = img.len
  entry : img'.entry = img.entry
  shoff : img'.shoff = img.shoff
  shnum : img'.shnum = img.shnum
  symbols : img'.symbols = img.symbols
  rels : img'.rels = img.rels
  sec : ∀ i, img'.sections i = { img.sections i with offset := (img'.sections i).offset }
  offset : ∀ i, ¬ (img.sections i).Allocated →
    (img'.sections i).offset = (img.sections i).offset

theorem Image.Loaded.refl (img : Image) : img.Loaded img :=
  ⟨rfl, rfl, rfl, rfl, rfl, rfl, fun _ => rfl, fun _ _ => rfl⟩

/-- Section `i` gets the offset `off`. -/
def Image.setOffset (img : Image) (i off : Nat) : Image :=
  { img with
    sections := Function.update img.sections i { img.sections i with offset := off } }

theorem Image.setOffset_self (img : Image) (i off : Nat) :
    (img.setOffset i off).sections i = { img.sections i with offset := off } :=
  Function.update_self ..

theorem Image.setOffset_of_ne {k : Nat} (hk : k ≠ i) (img : Image) (off : Nat) :
    (img.setOffset i off).sections k = img.sections k :=
  Function.update_of_ne hk ..

/-- An address of an `sh_offset` that stage 1 writes. -/
def Image.OffsetField (img : Image) (header x : Nat) : Prop :=
  ∃ i, i < img.shnum ∧ (img.sections i).Allocated ∧
    header + img.shoff + 40 * i + 16 ≤ x ∧ x < header + img.shoff + 40 * i + 20

section Loaded

variable (hl : img.Loaded img')

include hl

theorem Image.Loaded.same (hi : ¬ (img.sections i).Allocated) :
    img'.sections i = img.sections i := by
  rw [hl.sec i, hl.offset i hi]

theorem Image.Loaded.type_eq (i : Nat) : (img'.sections i).type = (img.sections i).type := by
  rw [hl.sec i]

theorem Image.Loaded.size_eq (i : Nat) : (img'.sections i).size = (img.sections i).size := by
  rw [hl.sec i]

theorem Image.Loaded.allocated_iff (i : Nat) :
    (img'.sections i).Allocated ↔ (img.sections i).Allocated := by
  rw [Section.Allocated, Section.Allocated, hl.sec i]

theorem Image.Loaded.isRel_iff (i : Nat) : img'.IsRel i ↔ img.IsRel i := by
  rw [Image.IsRel, Image.IsRel, hl.shnum, hl.type_eq]

theorem Image.Loaded.rel_same (hi : img.IsRel i) : img'.sections i = img.sections i := by
  apply hl.same
  rintro ⟨htype, -⟩
  rw [hi.2] at htype
  exact absurd htype (by decide)

theorem Image.Loaded.isSymtab_iff (t : Nat) : img'.IsSymtab t ↔ img.IsSymtab t := by
  apply exists_congr
  intro i
  rw [hl.isRel_iff]
  refine and_congr_right fun hi => ?_
  rw [hl.rel_same hi]

theorem Image.Loaded.symtab_same (hw : img.WellFormed header) {t : Nat} (ht : img.IsSymtab t) :
    img'.sections t = img.sections t := by
  apply hl.same
  rintro ⟨htype, -⟩
  rw [(hw.symtab t ht).1] at htype
  exact absurd htype (by decide)

theorem Image.Loaded.tables_iff (hw : img.WellFormed header) (x : Nat) :
    img'.Tables header x ↔ img.Tables header x := by
  rw [Image.Tables, Image.Tables, hl.shoff, hl.shnum]
  refine or_congr_right (or_congr_right (or_congr ?_ ?_))
  · apply exists_congr
    intro i
    rw [hl.isRel_iff]
    refine and_congr_right fun hi => ?_
    rw [hl.rel_same hi]
  · apply exists_congr
    intro t
    rw [hl.isSymtab_iff]
    refine and_congr_right fun ht => ?_
    rw [hl.symtab_same hw ht]

theorem Image.Loaded.isEntry_iff (i j : Nat) : img'.IsEntry i j ↔ img.IsEntry i j := by
  rw [Image.IsEntry, Image.IsEntry, hl.isRel_iff]
  refine and_congr_right fun hi => ?_
  rw [hl.rel_same hi]

theorem Image.Loaded.symIndex_eq (i j : Nat) : img'.symIndex i j = img.symIndex i j := by
  rw [Image.symIndex, Image.symIndex, hl.rels]

theorem Image.Loaded.relType_eq (i j : Nat) : img'.relType i j = img.relType i j := by
  rw [Image.relType, Image.relType, hl.rels]

theorem Image.Loaded.symbolOf_eq (hi : img.IsRel i) (j : Nat) :
    img'.symbolOf i j = img.symbolOf i j := by
  rw [Image.symbolOf, Image.symbolOf, hl.symbols, hl.rel_same hi, hl.symIndex_eq]

/-- Being well formed does not depend on where allocated sections are. -/
theorem Image.Loaded.wellFormed (hw : img.WellFormed header) : img'.WellFormed header := by
  constructor
  · rw [hl.len]
    exact hw.bound
  · rw [hl.shnum]
    exact hw.shnum_lt
  · rw [hl.shoff, hl.shnum, hl.len]
    exact hw.headers
  · intro i hi
    rw [hl.isRel_iff] at hi
    rw [hl.rel_same hi, hl.len, hl.shnum]
    exact hw.rel i hi
  · intro t ht
    rw [hl.isSymtab_iff] at ht
    rw [hl.symtab_same hw ht, hl.len]
    exact hw.symtab t ht
  · intro t ht
    rw [hl.isRel_iff, hl.isSymtab_iff] at ht
    have hsame : img'.sections t = img.sections t :=
      ht.elim (fun hrel => hl.rel_same hrel) fun hsym => hl.symtab_same hw hsym
    rw [hsame, hl.shoff, hl.shnum]
    exact hw.apart t ht
  · intro i j hij
    rw [hl.isEntry_iff] at hij
    have hsym : img.IsSymtab (img.sections i).link := ⟨i, hij.1, rfl⟩
    rw [hl.symIndex_eq, hl.rel_same hij.1, hl.symtab_same hw hsym]
    exact hw.symIndex_lt i j hij
  · intro i j hij hne
    rw [hl.isEntry_iff] at hij
    rw [hl.symIndex_eq] at hne
    rw [hl.symbolOf_eq hij.1, hl.shnum]
    exact hw.shndx i j hij hne
  · intro i j hij hne
    rw [hl.isEntry_iff] at hij
    rw [hl.symIndex_eq] at hne
    rw [hl.symbolOf_eq hij.1, hl.allocated_iff, hl.size_eq]
    exact hw.inside i j hij hne
  · intro i j hij htype
    rw [hl.isEntry_iff] at hij
    rw [hl.relType_eq] at htype
    obtain ⟨hkind, hoff, hlen, hout⟩ := hw.site i j hij htype
    have htarget : img'.target i = img.target i := by
      rw [Image.target, Image.target, hl.rel_same hij.1]
      exact hl.same fun halloc => hkind halloc.1
    have hsite : img'.site header i j = img.site header i j := by
      rw [Image.site, Image.site, htarget, hl.rels]
    rw [htarget, hl.rels, hl.len, hsite]
    refine ⟨hkind, hoff, hlen, fun x hlo hhi => ?_⟩
    rw [hl.tables_iff hw]
    exact hout x hlo hhi

theorem Image.Loaded.setOffset (hi : (img.sections i).Allocated) (off : Nat) :
    img.Loaded (img'.setOffset i off) := by
  refine ⟨hl.len, hl.entry, hl.shoff, hl.shnum, hl.symbols, hl.rels, fun k => ?_, fun k hk => ?_⟩
  · by_cases hki : k = i
    · rw [hki, Image.setOffset_self, hl.sec i]
    · rw [Image.setOffset_of_ne hki]
      exact hl.sec k
  · have hki : k ≠ i := by
      rintro rfl
      exact hk hi
    rw [Image.setOffset_of_ne hki]
    exact hl.offset k hk

end Loaded

/-- The tables are where they were. -/
theorem Image.setOffset_loaded (hi : (img.sections i).Allocated) (off : Nat) :
    img.Loaded (img.setOffset i off) :=
  (Image.Loaded.refl img).setOffset hi off

/-- Storing an offset shows the object with that offset. -/
theorem Shows.setOffset (h : Shows img m header) (hw : img.WellFormed header)
    (hi : i < img.shnum) (halloc : (img.sections i).Allocated) {off : Nat}
    (hsame : ∀ x, header ≤ x → x < header + img.len →
      x < header + img.shoff + 40 * i + 16 ∨ header + img.shoff + 40 * i + 20 ≤ x → m' x = m x)
    (hread : read32 m' (header + img.shoff + 40 * i + 16) = off) :
    Shows (img.setOffset i off) m' header := by
  have hl := Image.setOffset_loaded halloc off
  obtain ⟨hlow, hhigh⟩ := hw.headers
  obtain ⟨hentry, hshoff, hshnum⟩ : eEntry m' header = eEntry m header ∧
      eShoff m' header = eShoff m header ∧ eShnum m' header = eShnum m header :=
    header_congr fun x hlo hhi => hsame x hlo (by omega) (by omega)
  -- a table lies inside the file and apart from the section headers
  have htable : ∀ t, img.IsRel t ∨ img.IsSymtab t →
      Agree m m' (header + (img.sections t).offset)
        (header + (img.sections t).offset + (img.sections t).size) := by
    intro t ht x hlo hhi
    have hfit : (img.sections t).offset + (img.sections t).size ≤ img.len :=
      ht.elim (fun hrel => (hw.rel t hrel).2.1) fun hsym => (hw.symtab t hsym).2.2
    have hapart := hw.apart t ht
    exact hsame x (by omega) (by omega) (by omega)
  constructor
  · exact hentry.trans h.entry
  · exact hshoff.trans h.shoff
  · exact hshnum.trans h.shnum
  · intro k hk
    change k < img.shnum at hk
    show ShowsSection m' (header + img.shoff + 40 * k) _
    by_cases hki : k = i
    · subst hki
      rw [Image.setOffset_self]
      exact (h.sec k hi).setOffset
        (fun x hlo hhi => hsame x (by omega) (by omega) (by omega)) hread
        fun x hlo hhi => hsame x (by omega) (by omega) (by omega)
    · rw [Image.setOffset_of_ne hki]
      exact (h.sec k hk).congr fun x hlo hhi => hsame x (by omega) (by omega) (by omega)
  · intro k j hkj
    rw [hl.isEntry_iff] at hkj
    rw [hl.rel_same hkj.1]
    have hj := hkj.2
    obtain ⟨hoff, hinfo⟩ := rel_congr ((htable k (Or.inl hkj.1)).mono
      (Nat.le_add_right _ (8 * j)) (by omega))
    rw [hoff, hinfo]
    exact h.rel k j hkj
  · intro t k ht hk
    rw [hl.isSymtab_iff] at ht
    rw [hl.symtab_same hw ht] at hk ⊢
    obtain ⟨hvalue, hinfo, hshndx⟩ := sym_congr ((htable t (Or.inr ht)).mono
      (Nat.le_add_right _ (16 * k)) (by omega))
    rw [hvalue, hinfo, hshndx]
    exact h.sym t k ht hk

/-! ## The loop -/

instance (s : Section) : Decidable s.Allocated :=
  inferInstanceAs (Decidable (_ ∧ _ ∧ _))

/-- The sizes that stage 1 asks for, from section `i` on. -/
def Image.requestsFrom (img : Image) (i rest : Nat) : List Nat :=
  ((List.range' i rest).filter fun i => (img.sections i).Allocated).map
    fun i => (img.sections i).size

/-- The sizes that stage 1 asks for. -/
def Image.requests (img : Image) : List Nat := img.requestsFrom 0 img.shnum

theorem Image.requestsFrom_succ (img : Image) (i rest : Nat) :
    img.requestsFrom i (rest + 1) =
      if (img.sections i).Allocated then
        (img.sections i).size :: img.requestsFrom (i + 1) rest
      else img.requestsFrom (i + 1) rest := by
  rw [Image.requestsFrom, List.range'_succ, List.filter_cons]
  split
  case isTrue h =>
    rw [if_pos (of_decide_eq_true h), List.map_cons]
    rfl
  case isFalse h =>
    rw [if_neg fun h' => h (decide_eq_true h')]
    rfl

/-- The section has memory of its own in the heap. -/
def Section.Provided (s : Section) (header : Nat) : Prop :=
  ∃ p, s.offset = wsub p header ∧ Heap.heapBegin ≤ p ∧ p + s.size ≤ Heap.heapLimit

/-- Stage 1 has got from `st` to `st'`, where the object is `img'`, with the sections
below `i`. -/
structure Stage1 (img : Image) (header : Nat) (st : Heap.State) (i : Nat) (img' : Image)
    (st' : Heap.State) (blocks : List Heap.Block) : Prop where
  loaded : img.Loaded img'
  provided : ∀ k, k < i → (img.sections k).Allocated → (img'.sections k).Provided header
  shows : Shows img' st'.mem header
  rep : Heap.Rep st' blocks
  aside : Heap.Aside blocks header (header + img.len)
  same : ∀ x, header ≤ x → x < header + img.len → ¬ img.OffsetField header x →
    st'.mem x = st.mem x

variable {blocks blocks' : List Heap.Block} {st₁ : Heap.State}

/-- A section that the file holds. -/
theorem Stage1.skip (h : Stage1 img header st i img' st₁ blocks) (hi : i < img.shnum)
    (hnot : ¬ (img.sections i).Allocated) :
    stage1Section header (header + img.shoff + 40 * i) st₁ = .ok st₁ ∧
      Stage1 img header st (i + 1) img' st₁ blocks := by
  have hl := h.loaded
  have hsec := h.shows.sec i (by rw [hl.shnum]; exact hi)
  rw [hl.shoff] at hsec
  constructor
  · rw [stage1Section, hsec.type, hsec.size, hsec.flags]
    exact if_neg fun halloc => hnot ((hl.allocated_iff i).mp halloc)
  · refine { h with provided := fun k hk halloc => h.provided k ?_ halloc }
    have hne : k ≠ i := by
      rintro rfl
      exact hnot halloc
    omega

/-- What is stored for a section that gets the block at `p`. -/
theorem stage1Section_of_kmalloc {shdr p : Nat} {s : Section} {st₂ : Heap.State}
    (hsec : ShowsSection st₁.mem shdr s) (halloc : s.Allocated)
    (hrun : Heap.kmalloc st₁ s.size = .ok (p, st₂)) (hagain : shSize st₂.mem shdr = s.size) :
    stage1Section header shdr st₁ =
      .ok { st₂ with
        mem := write32 (Libc.memset st₂.mem p 0#8 s.size) (shdr + 16) (wsub p header) } := by
  rw [Section.Allocated] at halloc
  rw [stage1Section, hsec.type, hsec.size, hsec.flags, if_pos halloc, hrun, ok_bind]
  simp only [hagain]
  rfl

theorem provided_of_placed {s : Section} {b : Heap.Block} (hplaced : b.Placed)
    (hroom : s.size ≤ b.cap) : { s with offset := wsub b.data header }.Provided header := by
  have hlow := hplaced.low
  have hhigh := hplaced.high
  refine ⟨b.data, rfl, ?_, ?_⟩
  · rw [Heap.Block.data]
    omega
  · show b.data + s.size ≤ Heap.heapLimit
    rw [Heap.Block.data]
    omega

/-- A section that gets memory. -/
theorem Stage1.provide (h : Stage1 img header st i img' st₁ blocks) (hw : img.WellFormed header)
    (hi : i < img.shnum) (halloc : (img.sections i).Allocated)
    (hsize : (img.sections i).size + 7 < 2 ^ 32) {b : Heap.Block}
    (hserve : Heap.allocate blocks (alignTo (img.sections i).size 8) 4 = some (b, blocks')) :
    ∃ st₂, stage1Section header (header + img.shoff + 40 * i) st₁ = .ok st₂ ∧
      Stage1 img header st (i + 1) (img'.setOffset i (wsub b.data header)) st₂ blocks' := by
  have hl := h.loaded
  have hsec := h.shows.sec i (by rw [hl.shnum]; exact hi)
  have hhigh := hw.headers.2
  rw [hl.shoff] at hsec
  obtain ⟨st₂, hrun, hrep, haside, hagree, hb, hroom, hapart⟩ :=
    Heap.kmalloc_aside h.rep h.aside hsize hserve
  have hkeep : ∀ x, header ≤ x → x < header + img.len →
      Libc.memset st₂.mem b.data 0#8 (img.sections i).size x = st₁.mem x := by
    intro x hlo hhi
    have hx := hapart x hlo hhi
    rw [Libc.memset_outside (by omega), hagree x hlo hhi]
  have hagain : shSize st₂.mem (header + img.shoff + 40 * i) = (img'.sections i).size := by
    rw [← hsec.size]
    exact read32_congr (hagree.mono (by omega) (by omega))
  rw [← hl.size_eq] at hrun hroom hkeep
  refine ⟨_, stage1Section_of_kmalloc hsec ((hl.allocated_iff i).mpr halloc) hrun hagain, ?_⟩
  constructor
  · exact hl.setOffset halloc _
  · intro k hk hk'
    by_cases hki : k = i
    · subst hki
      rw [Image.setOffset_self]
      exact provided_of_placed (hrep.laid.placed b hb) hroom
    · rw [Image.setOffset_of_ne hki]
      exact h.provided k (by omega) hk'
  · refine h.shows.setOffset (hl.wellFormed hw) (by rw [hl.shnum]; exact hi)
      ((hl.allocated_iff i).mpr halloc) ?_ ?_
    · rw [hl.len, hl.shoff]
      intro x hlo hhi hout
      exact (write32_outside (by omega)).trans (hkeep x hlo hhi)
    · rw [hl.shoff, read32_write32_self]
      exact wrap_of_lt (wrap_lt _)
  · have hcleared := hrep.payload hb (m := Libc.memset st₂.mem b.data 0#8 (img'.sections i).size)
      fun x hx => Libc.memset_outside (by omega)
    refine hcleared.aside haside fun x hx => ?_
    exact write32_outside (by omega)
  · exact haside
  · intro x hlo hhi hfield
    have hout : x < header + img.shoff + 40 * i + 16 ∨ header + img.shoff + 40 * i + 16 + 4 ≤ x := by
      by_contra hin
      exact hfield ⟨i, hi, halloc, by omega, by omega⟩
    exact ((write32_outside hout).trans (hkeep x hlo hhi)).trans (h.same x hlo hhi hfield)

/-- The rounds from section `i` on. -/
theorem Stage1.loop {shdr rest fuel : Nat} (h : Stage1 img header st i img' st₁ blocks)
    (hw : img.WellFormed header)
    (hshdr : ∀ i, i < img.shnum → shdrAt shdr i = header + img.shoff + 40 * i)
    (hsizes : ∀ n ∈ img.requestsFrom i rest, n + 7 < 2 ^ 32)
    (hserve : Heap.serveAll blocks (img.requestsFrom i rest) = some blocks')
    (hrest : i + rest = img.shnum) (hfuel : rest ≤ fuel) :
    ∃ img₂ st₂, stage1Loop header shdr fuel i st₁ = .ok st₂ ∧
      Stage1 img header st img.shnum img₂ st₂ blocks' := by
  induction rest generalizing i fuel st₁ img' blocks with
  | zero =>
    have hnil : blocks = blocks' := Option.some.inj hserve
    have hend : i = img.shnum := by omega
    have hstop : ¬ i < eShnum st₁.mem header := by
      rw [h.shows.shnum, h.loaded.shnum]
      omega
    refine ⟨img', st₁, ?_, hnil ▸ hend ▸ h⟩
    cases fuel with
    | zero => rfl
    | succ fuel => rw [stage1Loop, if_neg hstop]
  | succ rest ih =>
    cases fuel with
    | zero => omega
    | succ fuel =>
      have hi : i < img.shnum := by omega
      have hgo : i < eShnum st₁.mem header := by
        rw [h.shows.shnum, h.loaded.shnum]
        exact hi
      rw [stage1Loop, if_pos hgo, hshdr i hi]
      rw [Image.requestsFrom_succ] at hsizes hserve
      by_cases halloc : (img.sections i).Allocated
      · rw [if_pos halloc] at hsizes hserve
        obtain ⟨r, hone, hrest⟩ := Heap.serveAll_cons hserve
        obtain ⟨st₂, hrun, h₂⟩ := h.provide hw hi halloc (hsizes _ List.mem_cons_self) hone
        rw [hrun, ok_bind]
        exact ih h₂ (fun n hn => hsizes n (List.mem_cons_of_mem _ hn)) hrest (by omega)
          (by omega)
      · rw [if_neg halloc] at hsizes hserve
        obtain ⟨hrun, h₂⟩ := h.skip hi halloc
        rw [hrun, ok_bind]
        exact ih h₂ hsizes hserve (by omega) (by omega)

/-- The heap can give stage 1 what it asks for, and does not own the object. -/
structure Image.Room (img : Image) (header : Nat) (st : Heap.State) : Prop where
  sizes : ∀ n ∈ img.requests, n + 7 < 2 ^ 32
  served : ∃ blocks, Heap.Rep st blocks ∧ Heap.Aside blocks header (header + img.len) ∧
    (Heap.serveAll blocks img.requests).isSome

/-- **Stage 1 changes offsets only.** -/
theorem stage1_spec (h : Shows img st.mem header) (hw : img.WellFormed header)
    (hroom : img.Room header st) :
    ∃ img₁ st₁ blocks, elfLoadStage1 st header = .ok st₁ ∧
      Stage1 img header st img.shnum img₁ st₁ blocks := by
  obtain ⟨blocks, hrep, haside, hserve⟩ := hroom.served
  obtain ⟨blocks', hserve⟩ := Option.isSome_iff_exists.mp hserve
  have hlt := hw.shnum_lt
  have hstart : Stage1 img header st 0 img st blocks :=
    ⟨Image.Loaded.refl img, fun _ hk => absurd hk (Nat.not_lt_zero _), h, hrep, haside,
      fun _ _ _ _ => rfl⟩
  obtain ⟨img₁, st₁, hrun, h₁⟩ := hstart.loop hw (fun i hi => h.sheader_eq hw hi) hroom.sizes
    hserve (Nat.zero_add _) (show img.shnum ≤ 65536 by omega)
  exact ⟨img₁, st₁, blocks', hrun, h₁⟩

end Elf
end Medusa
