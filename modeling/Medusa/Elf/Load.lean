import Medusa.Elf.Stage1

/-!
# Loading an object

Stage 1 followed by stage 2.  The pointer returned is the entry point, so an object
whose entry point is 0 cannot be told from one that could not be loaded, and the
entries are made as asked when the code sees each of them as it is.
-/

namespace Medusa
namespace Elf

open Machine Kernel

variable {img img' : Image} {st st' st₁ : Heap.State} {m m' : Mem} {header i j : Nat}
  {blocks : List Heap.Block}

/-! ## The object before and after stage 1 -/

section Loaded

variable (hl : img.Loaded img')

include hl

theorem Image.Loaded.entries_eq : img'.entries = img.entries := by
  rw [Image.entries, Image.entries, hl.shnum]
  congr 1
  funext i
  rw [hl.type_eq, hl.size_eq]

/-- Which symbols have a value does not depend on where sections are. -/
theorem Image.Loaded.value_none_iff (hi : img.IsRel i) :
    img'.value header i j = none ↔ img.value header i j = none := by
  rw [Image.value, Image.value, hl.symIndex_eq, hl.symbolOf_eq hi]
  split
  · rfl
  · split
    · rfl
    · split
      · rfl
      · exact iff_of_false (Option.some_ne_none _) (Option.some_ne_none _)

theorem Image.Loaded.bad_iff (hi : img.IsRel i) :
    img'.Bad header i j ↔ img.Bad header i j := by
  rw [Image.Bad, Image.Bad, hl.relType_eq, hl.value_none_iff hi]

theorem Image.Loaded.detected_iff (hi : img.IsRel i) :
    img'.Detected header i j ↔ img.Detected header i j := by
  rw [Image.Detected, Image.Detected, hl.relType_eq, hl.value_none_iff hi, hl.symIndex_eq,
    hl.symbolOf_eq hi]

theorem Image.Loaded.plain (hi : img.IsRel i) (hp : img.Plain i j) : img'.Plain i j := by
  constructor
  · rw [hl.symIndex_eq]
    exact hp.narrow
  · rw [hl.symbolOf_eq hi]
    exact hp.weak
  · rw [hl.symIndex_eq, hl.symbolOf_eq hi]
    exact hp.section_ne

/-- Nothing moves when no section gets memory. -/
theorem Image.Loaded.eq_self (hnone : ∀ i, ¬ (img.sections i).Allocated) : img' = img := by
  have hsections : img'.sections = img.sections := funext fun i => hl.same (hnone i)
  obtain ⟨hlen, hentry, hshoff, hshnum, hsymbols, hrels, -, -⟩ := hl
  cases img
  cases img'
  simp only at hlen hentry hshoff hshnum hsymbols hrels hsections
  subst hlen hentry hshoff hshnum hsymbols hrels hsections
  rfl

end Loaded

/-- The symbol lies in the file and its value is the error value. -/
def Image.InBand (img : Image) (header i j : Nat) : Prop :=
  img.value header i j = some elfRelocErr ∧
    ¬ (img.sections (img.symbolOf i j).shndx).Allocated

/-- A provided section ends below the heap's limit, far from the error value. -/
theorem provided_value_ne {s : Section} (hs : s.Provided header) {v : Nat} (hv : v ≤ s.size) :
    wrap (header + s.offset + v) ≠ elfRelocErr := by
  obtain ⟨p, hoff, hlow, hhigh⟩ := hs
  have hlimit : Heap.heapLimit = 0xC2200000 := rfl
  have herr : elfRelocErr = 0xFFFFFFFF := rfl
  rw [hoff, herr]
  unfold wrap wsub wrap
  omega

theorem Stage1.regular {k : Nat} (h : Stage1 img header st k img' st₁ blocks)
    (hk : img.shnum ≤ k) (hw : img.WellFormed header) (hij : img.IsEntry i j)
    (hp : img.Plain i j) (hin : ¬ img.InBand header i j) : img'.Regular header i j := by
  have hl := h.loaded
  refine ⟨hl.plain hij.1 hp, fun hv => ?_⟩
  rw [Image.value, hl.symIndex_eq, hl.symbolOf_eq hij.1] at hv
  by_cases halloc : (img.sections (img.symbolOf i j).shndx).Allocated
  · split at hv
    · exact absurd (Option.some.inj hv) (by decide)
    case isFalse hne =>
      split at hv
      · split at hv
        · exact absurd (Option.some.inj hv) (by decide)
        · simp at hv
      · have hsabs := (hp.section_ne hne).2
        rw [if_neg hsabs] at hv
        have hlt := (hw.shndx i j hij hne).resolve_left hsabs
        refine provided_value_ne (h.provided _ (by omega) halloc) ?_ (Option.some.inj hv)
        rw [hl.size_eq]
        exact hw.inside i j hij hne halloc
  · rw [hl.same halloc] at hv
    refine hin ⟨?_, halloc⟩
    rw [Image.value]
    exact hv

/-! ## What the relocations write -/

/-- Relocations look at and change the words at the sites only. -/
theorem relocate_congr (hw : img.WellFormed header) (hij : img.IsEntry i j)
    {P : Nat → Prop} (hP : ∀ x, header ≤ x → x < header + img.len → ¬ img.Tables header x → P x)
    (hsame : ∀ x, P x → m' x = m x) {x : Nat} (hx : P x) :
    img.relocate header m' (i, j) x = img.relocate header m (i, j) x := by
  have hword : img.relType i j = 1 ∨ img.relType i j = 2 →
      read32 m' (img.site header i j) = read32 m (img.site header i j) := by
    intro htype
    obtain ⟨-, hoff, hlen, hout⟩ := hw.site i j hij htype
    refine read32_congr fun y hlo hhi => hsame y (hP y ?_ ?_ (hout y hlo hhi))
    · rw [Image.site] at hlo
      omega
    · rw [Image.site] at hhi
      omega
  unfold Image.relocate
  dsimp only
  split
  case isTrue htype =>
    rw [hword (Or.inl htype)]
    exact write32_apply_congr (hsame x hx) _ _
  · split
    case isTrue htype =>
      rw [hword (Or.inr htype)]
      exact write32_apply_congr (hsame x hx) _ _
    · exact hsame x hx

theorem foldl_relocate_congr {rs : List (Nat × Nat)} (hw : img.WellFormed header)
    (hrs : ∀ r ∈ rs, img.IsEntry r.1 r.2)
    {P : Nat → Prop} (hP : ∀ x, header ≤ x → x < header + img.len → ¬ img.Tables header x → P x)
    (hsame : ∀ x, P x → m' x = m x) {x : Nat} (hx : P x) :
    rs.foldl (img.relocate header) m' x = rs.foldl (img.relocate header) m x := by
  induction rs generalizing m m' with
  | nil => exact hsame x hx
  | cons r rs ih =>
    rw [List.foldl_cons, List.foldl_cons]
    refine ih (fun r' hr' => hrs r' (List.mem_cons_of_mem r hr')) fun y hy => ?_
    exact relocate_congr hw (hrs r List.mem_cons_self) hP hsame hy

/-! ## Both stages -/

/-- **The object is loaded as asked**: the null pointer means that some entry cannot
be made; otherwise the entries are made in order, with the sections at the addresses
that the section headers now hold, and the object is changed nowhere else. -/
def Image.LoadedAsAsked (img : Image) (header : Nat) (st : Heap.State) : Prop :=
  ∃ ret st', elfLoadRel st header = .ok (ret, st') ∧
    (ret = 0 ↔ ∃ r ∈ img.entries, img.Bad header r.1 r.2) ∧
    ((∀ r ∈ img.entries, ¬ img.Bad header r.1 r.2) →
      ∃ img₁, img.Loaded img₁ ∧ Shows img₁ st'.mem header ∧
        (∀ i, i < img.shnum → (img.sections i).Allocated → (img₁.sections i).Provided header) ∧
        ∀ x, header ≤ x → x < header + img.len → ¬ img.OffsetField header x →
          st'.mem x = img₁.relocated header st.mem x)

/-- Some entry is bad and the code returns null, by finding one or because the entry
point is 0; or the entry point is not 0 and the code sees every entry as it is. -/
def Image.Fit (img : Image) (header : Nat) : Prop :=
  ((∃ r ∈ img.entries, img.Bad header r.1 r.2) ∧
    (img.entry = 0 ∨ ∃ r ∈ img.entries, img.Detected header r.1 r.2)) ∨
  (img.entry ≠ 0 ∧ ∀ r ∈ img.entries, img.Plain r.1 r.2 ∧ ¬ img.InBand header r.1 r.2)

theorem elfLoadRel_error (h₁ : elfLoadStage1 st header = .ok st₁)
    (h₂ : elfLoadStage2 st₁.mem header = .error m) :
    elfLoadRel st header = .ok (0, { st₁ with mem := m }) := by
  rw [elfLoadRel, h₁, ok_bind, h₂]
  rfl

theorem elfLoadRel_ok (h₁ : elfLoadStage1 st header = .ok st₁)
    (h₂ : elfLoadStage2 st₁.mem header = .ok m) :
    elfLoadRel st header = .ok (eEntry m header, { st₁ with mem := m }) := by
  rw [elfLoadRel, h₁, ok_bind, h₂]
  rfl

/-- A bad entry and a null pointer. -/
theorem loadedAsAsked_of_null {ret : Nat} (hrun : elfLoadRel st header = .ok (ret, st'))
    (hret : ret = 0) (hbad : ∃ r ∈ img.entries, img.Bad header r.1 r.2) :
    img.LoadedAsAsked header st := by
  refine ⟨ret, st', hrun, iff_of_true hret hbad, fun hgood => ?_⟩
  obtain ⟨r, hr, hb⟩ := hbad
  exact absurd hb (hgood r hr)

/-- **An object that is fit is loaded as asked.** -/
theorem elfLoadRel_asAsked (h : Shows img st.mem header) (hw : img.WellFormed header)
    (hroom : img.Room header st) (hfit : img.Fit header) : img.LoadedAsAsked header st := by
  obtain ⟨img₁, st₁, blocks, hrun, h₁⟩ := stage1_spec h hw hroom
  have hl := h₁.loaded
  have hw₁ := hl.wellFormed hw
  have hentry : ∀ r ∈ img.entries, img.IsEntry r.1 r.2 := fun r hr => Image.mem_entries.mp hr
  have hentry₁ : ∀ r ∈ img₁.entries, img₁.IsEntry r.1 r.2 := fun r hr => Image.mem_entries.mp hr
  have hstage2 := stage2_eq h₁.shows hw₁
  rw [hl.entries_eq] at hstage2 hentry₁
  rcases hfit with ⟨hbad, hnull⟩ | ⟨hne, hgood⟩
  · -- a bad entry: the fold may end early or late, but the pointer is null
    cases hfold : img.entries.foldlM (img₁.step header) st₁.mem with
    | error m =>
      rw [hfold] at hstage2
      exact loadedAsAsked_of_null (elfLoadRel_error hrun hstage2) rfl hbad
    | ok m =>
      rw [hfold] at hstage2
      refine loadedAsAsked_of_null (elfLoadRel_ok hrun hstage2) ?_ hbad
      rcases hnull with hzero | ⟨r, hr, hd⟩
      · rw [(foldlM_shows h₁.shows hw₁ hentry₁ hfold).entry, hl.entry]
        exact hzero
      · obtain ⟨m', herr⟩ := foldlM_detected h₁.shows hw₁ hentry₁
          ⟨r, hr, (hl.detected_iff (hentry r hr).1).mpr hd⟩
        rw [hfold] at herr
        simp at herr
  · have hregular : ∀ r ∈ img.entries, img₁.Regular header r.1 r.2 := fun r hr =>
      h₁.regular (Nat.le_refl _) hw (hentry r hr) (hgood r hr).1 (hgood r hr).2
    by_cases hbad : ∃ r ∈ img.entries, img.Bad header r.1 r.2
    · obtain ⟨r, hr, hb⟩ := hbad
      have hd := (hregular r hr).detected ((hl.bad_iff (hentry r hr).1).mpr hb)
      obtain ⟨m, herr⟩ := foldlM_detected h₁.shows hw₁ hentry₁ ⟨r, hr, hd⟩
      rw [herr] at hstage2
      exact loadedAsAsked_of_null (elfLoadRel_error hrun hstage2) rfl ⟨r, hr, hb⟩
    · have hnot : ∀ r ∈ img.entries, ¬ img.Bad header r.1 r.2 :=
        fun r hr hb => hbad ⟨r, hr, hb⟩
      have hmade := foldlM_regular h₁.shows hw₁ hentry₁ fun r hr =>
        ⟨hregular r hr, fun hb => hnot r hr ((hl.bad_iff (hentry r hr).1).mp hb)⟩
      have hshows := foldlM_shows h₁.shows hw₁ hentry₁ hmade
      rw [hmade] at hstage2
      refine ⟨_, _, elfLoadRel_ok hrun hstage2, ?_, fun _ => ⟨img₁, hl, hshows, ?_, ?_⟩⟩
      · rw [hshows.entry, hl.entry]
        exact iff_of_false hne hbad
      · exact fun i hi halloc => h₁.provided i hi halloc
      · intro x hlo hhi hfield
        rw [Image.relocated, hl.entries_eq]
        refine foldl_relocate_congr hw₁ hentry₁
          (P := fun x => header ≤ x ∧ x < header + img.len ∧ ¬ img.OffsetField header x)
          (fun y hlo hhi hout => ?_) (fun y hy => h₁.same y hy.1 hy.2.1 hy.2.2) ⟨hlo, hhi, hfield⟩
        refine ⟨hlo, by rw [← hl.len]; exact hhi, ?_⟩
        rintro ⟨k, hk, -, hklo, hkhi⟩
        refine hout (Or.inr (Or.inl ?_))
        rw [hl.shoff, hl.shnum]
        omega

/-! ## A small object -/

/-- The section whose header is at `shdr`. -/
def Section.read (m : Mem) (shdr : Nat) : Section where
  type := shType m shdr
  flags := shFlags m shdr
  offset := shOffset m shdr
  size := shSize m shdr
  link := shLink m shdr
  info := shInfo m shdr
  entsize := shEntsize m shdr

/-- The object that memory holds at `header`. -/
def Image.read (m : Mem) (header len : Nat) : Image where
  len := len
  entry := eEntry m header
  shoff := eShoff m header
  shnum := eShnum m header
  sections i := Section.read m (header + eShoff m header + 40 * i)
  symbols t k :=
    let sym := header + shOffset m (header + eShoff m header + 40 * t) + 16 * k
    { value := stValue m sym, info := stInfo m sym, shndx := stShndx m sym }
  rels i j :=
    let rel := header + shOffset m (header + eShoff m header + 40 * i) + 8 * j
    { offset := rOffset m rel, info := rInfo m rel }

theorem shows_read (m : Mem) (header len : Nat) : Shows (Image.read m header len) m header where
  entry := rfl
  shoff := rfl
  shnum := rfl
  sec _ _ := ⟨rfl, rfl, rfl, rfl, rfl, rfl, rfl⟩
  rel _ _ _ := ⟨rfl, rfl⟩
  sym _ _ _ _ := ⟨rfl, rfl, rfl⟩

/-- An object of five sections: its code, a symbol table, one relocation of the code
and a word of data.  The symbol lies in section `shndx`. -/
def sampleWords (shndx : Nat) : List Nat :=
  [0x464C457F, 0x10101, 0, 0, 0x30001, 1, 252, 0, 52, 0, 52, 40 * 2 ^ 16, 5] ++
  [0, 0, 0, 0, 0, 0, 0, 0, 0, 0] ++
  [0, 1, 6, 0, 252, 4, 0, 0, 4, 0] ++
  [0, 2, 0, 0, 256, 32, 0, 1, 4, 16] ++
  [0, 9, 0, 0, 288, 8, 2, 1, 4, 8] ++
  [0, 1, 3, 0, 296, 4, 0, 0, 4, 0] ++
  [5] ++ [0, 0, 0, 0, 0, 0, 0, 0x10 + shndx * 2 ^ 16] ++ [0, 0x101] ++ [7]

/-- The object in an otherwise empty memory, at 4096. -/
def sample (shndx : Fin 5) : Heap.State where
  mem x := BitVec.ofNat 8 ((sampleWords shndx).getD ((x - 4096) / 4) 0 / 2 ^ (8 * (x % 4)))
  bottom := 0
  top := 0
  usedMemory := 0

abbrev sampleImage (shndx : Fin 5) : Image := Image.read (sample shndx).mem 4096 300

theorem sample_isRel {k : Fin 5} (hi : (sampleImage k).IsRel i) : i = 3 := by
  have hshnum : ∀ k, (sampleImage k).shnum = 5 := by decide
  have hall : ∀ k, ∀ i < 5, ((sampleImage k).sections i).type = shtRel → i = 3 := by decide
  exact hall k i (by rw [← hshnum k]; exact hi.1) hi.2

theorem sample_isSymtab {k : Fin 5} {t : Nat} (ht : (sampleImage k).IsSymtab t) : t = 2 := by
  obtain ⟨i, hi, rfl⟩ := ht
  rw [sample_isRel hi]
  clear hi
  revert k
  decide

theorem sample_isEntry {k : Fin 5} (hij : (sampleImage k).IsEntry i j) : i = 3 ∧ j = 0 := by
  obtain ⟨hi, hj⟩ := hij
  have hsize : ∀ k, ((sampleImage k).sections 3).size / 8 = 1 := by decide
  rw [sample_isRel hi, hsize k] at hj
  exact ⟨sample_isRel hi, by omega⟩

/-- The word that is changed lies between the section headers and the symbols. -/
theorem sample_site (k : Fin 5) {x : Nat} (hlo : 4348 ≤ x) (hhi : x < 4352) :
    ¬ (sampleImage k).Tables 4096 x := by
  have hshdrs : ∀ k, (sampleImage k).shoff + 40 * (sampleImage k).shnum = 252 := by decide
  have hrel : ∀ k, ((sampleImage k).sections 3).offset = 288 := by decide
  have hsym : ∀ k, ((sampleImage k).sections 2).offset = 256 := by decide
  rintro (hx | hx | ⟨n, hn, hx⟩ | ⟨t, ht, hx⟩)
  · omega
  · have hend := hshdrs k
    omega
  · rw [sample_isRel hn, hrel k] at hx
    omega
  · rw [sample_isSymtab ht, hsym k] at hx
    omega

theorem sample_wellFormed (k : Fin 5) : (sampleImage k).WellFormed 4096 := by
  constructor
  · revert k
    decide
  · revert k
    decide
  · revert k
    decide
  · intro i hi
    rw [sample_isRel hi]
    clear hi
    revert k
    decide
  · intro t ht
    rw [sample_isSymtab ht]
    clear ht
    revert k
    decide
  · rintro t (hrel | hsym)
    · rw [sample_isRel hrel]
      clear hrel
      revert k
      decide
    · rw [sample_isSymtab hsym]
      clear hsym
      revert k
      decide
  · intro i j hij
    obtain ⟨rfl, rfl⟩ := sample_isEntry hij
    clear hij
    revert k
    decide
  · intro i j hij
    obtain ⟨rfl, rfl⟩ := sample_isEntry hij
    clear hij
    revert k
    decide
  · intro i j hij
    obtain ⟨rfl, rfl⟩ := sample_isEntry hij
    clear hij
    revert k
    decide
  · intro i j hij htype
    obtain ⟨rfl, rfl⟩ := sample_isEntry hij
    have hplace : ∀ k, (sampleImage k).site 4096 3 0 = 4348 := by decide
    have hsection : ∀ k, ((sampleImage k).target 3).type ≠ shtNobits ∧
        ((sampleImage k).rels 3 0).offset + 4 ≤ ((sampleImage k).target 3).size ∧
        ((sampleImage k).target 3).offset + ((sampleImage k).target 3).size ≤
          (sampleImage k).len := by
      decide
    obtain ⟨hkind, hoff, hlen⟩ := hsection k
    rw [hplace k]
    exact ⟨hkind, hoff, hlen, fun x hlo hhi => sample_site k hlo hhi⟩

theorem sample_room (k : Fin 5) : (sampleImage k).Room 4096 (sample k) := by
  have hnone : ∀ k, (sampleImage k).requests = [] := by decide
  refine ⟨?_, [], ⟨rfl, rfl, trivial, List.isChain_nil, ?_⟩, Or.inl ?_, ?_⟩
  · rw [hnone k]
    exact fun n hmem => absurd hmem List.not_mem_nil
  · exact fun b hb => absurd hb List.not_mem_nil
  · show 4096 + 300 ≤ Heap.heapBegin
    decide
  · rw [hnone k]
    rfl

theorem sample_fit : (sampleImage 4).Fit 4096 := by
  refine Or.inr ⟨by decide, fun r hr => ?_⟩
  obtain ⟨h3, h0⟩ := sample_isEntry (Image.mem_entries.mp hr)
  rw [h3, h0]
  exact ⟨⟨by decide, by decide, by decide⟩, fun hin => absurd hin.1 (by decide)⟩

theorem elfLoadRel_asAsked_data : (sampleImage 4).LoadedAsAsked 4096 (sample 4) :=
  elfLoadRel_asAsked (shows_read _ _ _) (sample_wellFormed 4) (sample_room 4)
    sample_fit

theorem sample_past {x : Nat} (hx : 4396 ≤ x) : (sample 1).mem x = 0#8 := by
  have hlen : (sampleWords 1).length ≤ (x - 4096) / 4 := by
    show 75 ≤ (x - 4096) / 4
    omega
  show BitVec.ofNat 8 ((sampleWords 1).getD ((x - 4096) / 4) 0 / _) = _
  rw [List.getD_eq_default _ _ hlen, Nat.zero_div]

/-- No section of the sample gets memory, whatever lies past the section headers. -/
theorem sample_not_allocated (i : Nat) : ¬ ((sampleImage 1).sections i).Allocated := by
  by_cases hi : i < 7
  · have hall : ∀ i < 7, ¬ ((sampleImage 1).sections i).Allocated := by decide
    exact hall i hi
  · have hread : ∀ a, 4396 ≤ a → read32 (sample 1).mem a = 0 := by
      intro a ha
      rw [read32, sample_past ha, sample_past (by omega), sample_past (by omega),
        sample_past (by omega)]
      rfl
    have hshoff : eShoff (sample 1).mem 4096 = 52 := by decide
    rintro ⟨htype, -⟩
    have hzero := hread (4096 + eShoff (sample 1).mem 4096 + 40 * i + 4) (by omega)
    rw [show ((sampleImage 1).sections i).type = 0 from hzero] at htype
    exact absurd htype (by decide)

/-- A symbol of section 1 is taken for an absolute one, so the word becomes 5 and not
the address of the code plus 5. -/
theorem elfLoadRel_section_one : Shows (sampleImage 1) (sample 1).mem 4096 ∧
    (sampleImage 1).WellFormed 4096 ∧ (sampleImage 1).Room 4096 (sample 1) ∧
    ¬ (sampleImage 1).LoadedAsAsked 4096 (sample 1) := by
  refine ⟨shows_read _ _ _, sample_wellFormed 1, sample_room 1, ?_⟩
  rintro ⟨ret, st', hrun, -, hbytes⟩
  obtain ⟨img₁, hl, -, -, hsame⟩ := hbytes (by decide)
  have hword : (elfLoadRel (sample 1) 4096).toOption.map (fun r => read32 r.2.mem 4348) =
      some 5 := by
    decide +kernel
  have hasked : read32 ((sampleImage 1).relocated 4096 (sample 1).mem) 4348 = 4353 := by
    decide +kernel
  have hsite : read32 st'.mem 4348 = 4353 := by
    rw [← hasked]
    refine read32_congr fun x hlo hhi => ?_
    rw [← hl.eq_self sample_not_allocated]
    refine hsame x (by omega) (by change x < 4396; omega) ?_
    rintro ⟨i, -, halloc, -⟩
    exact sample_not_allocated i halloc
  rw [hrun] at hword
  have hfive : read32 st'.mem 4348 = 5 := Option.some.inj hword
  rw [hsite] at hfive
  exact absurd hfive (by decide)

end Elf
end Medusa
