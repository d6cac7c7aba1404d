import Medusa.Elf.Image
import Medusa.Machine.Loop

/-!
# What stage 2 does to an object

Relocations change words outside the tables, so the tables read the same all the
way through and stage 2 is a fold over the entries.  An entry is made as asked when
it is `Regular`: its symbol's number fits eight bits, its section number is neither
the 1 that the code takes for an absolute symbol nor the 0xFFF1 that stands for one,
and its value is not the error value.
-/

namespace Medusa
namespace Elf

open Machine

variable {img : Image} {m m' : Mem} {header i j : Nat}

/-! ## Addresses -/

theorem Image.WellFormed.shdr_lt (hw : img.WellFormed header) (hi : i < img.shnum) :
    header + img.shoff + 40 * i + 40 ≤ 2 ^ 32 := by
  have hbound := hw.bound
  have hheaders := hw.headers.2
  omega

theorem Shows.sheader_eq (h : Shows img m header) (hw : img.WellFormed header)
    (hi : i < img.shnum) : shdrAt (elfSheader m header) i = header + img.shoff + 40 * i := by
  have hlt := hw.shdr_lt hi
  rw [shdrAt, elfSheader, h.shoff, wrap_of_lt (show header + img.shoff < 2 ^ 32 by omega),
    wrap_of_lt (by omega)]

/-- The section header that the code finds. -/
theorem Shows.section_eq (h : Shows img m header) (hw : img.WellFormed header)
    (hi : i < img.shnum) : ShowsSection m (elfSection m header i) (img.sections i) := by
  rw [elfSection, h.sheader_eq hw hi]
  exact h.sec i hi

theorem Image.WellFormed.rel_eq (hw : img.WellFormed header) (hij : img.IsEntry i j) :
    wrap (wrap (header + (img.sections i).offset) + 8 * j) =
      header + (img.sections i).offset + 8 * j := by
  have hbound := hw.bound
  have hfit := (hw.rel i hij.1).2.1
  have hj := hij.2
  rw [wrap_of_lt (show header + (img.sections i).offset < 2 ^ 32 by omega),
    wrap_of_lt (by omega)]

theorem Image.WellFormed.sym_eq (hw : img.WellFormed header) {t k : Nat} (ht : img.IsSymtab t)
    (hk : k < (img.sections t).size / 16) :
    wrap (wrap (header + (img.sections t).offset) + 16 * k) =
      header + (img.sections t).offset + 16 * k := by
  have hbound := hw.bound
  have hfit := (hw.symtab t ht).2.2
  rw [wrap_of_lt (show header + (img.sections t).offset < 2 ^ 32 by omega),
    wrap_of_lt (by omega)]

theorem Image.WellFormed.site_lt (hw : img.WellFormed header) (hij : img.IsEntry i j)
    (htype : img.relType i j = 1 ∨ img.relType i j = 2) :
    img.site header i j + 4 ≤ 2 ^ 32 := by
  have hbound := hw.bound
  obtain ⟨-, hoff, hlen, -⟩ := hw.site i j hij htype
  rw [Image.site]
  omega

/-! ## Symbols -/

/-- The code sees the entry's symbol as it is. -/
structure Image.Plain (img : Image) (i j : Nat) : Prop where
  narrow : img.symIndex i j < 256
  weak : (img.symbolOf i j).shndx = 0 →
    (elfStBind (img.symbolOf i j).info &&& stbWeak ≠ 0 ↔ elfStBind (img.symbolOf i j).info = stbWeak)
  section_ne : img.symIndex i j ≠ 0 →
    (img.symbolOf i j).shndx ≠ shnAbs ∧ (img.symbolOf i j).shndx ≠ 0xFFF1

/-- The symbol's value, or the error value for a symbol without one. -/
theorem getSymval_eq (h : Shows img m header) (hw : img.WellFormed header)
    (hij : img.IsEntry i j) (hne : img.symIndex i j ≠ 0) (hplain : img.Plain i j) :
    elfGetSymval m header (img.sections i).link (img.symIndex i j) =
      (img.value header i j).getD elfRelocErr := by
  obtain ⟨-, -, hlink, hlt, -⟩ := hw.rel i hij.1
  have hsymtab : img.IsSymtab (img.sections i).link := ⟨i, hij.1, rfl⟩
  have hk := hw.symIndex_lt i j hij
  have hsec := h.section_eq hw hlt
  obtain ⟨hvalue, hinfo, hshndx⟩ := h.sym _ _ hsymtab hk
  obtain ⟨habs, hsabs⟩ := hplain.section_ne hne
  rw [elfGetSymval]
  simp only [Nat.mod_eq_of_lt hplain.narrow]
  rw [if_neg (by rintro (h0 | h0) <;> contradiction), hsec.size, hsec.entsize,
    (hw.symtab _ hsymtab).2.1, if_neg (by omega), hsec.offset, hw.sym_eq hsymtab hk, hvalue,
    hinfo, hshndx]
  show (if (img.symbolOf i j).shndx = 0 then _ else _) = _
  rw [Image.value, if_neg hne]
  by_cases hundef : (img.symbolOf i j).shndx = 0
  · rw [if_pos hundef, if_pos hundef]
    simp only [elfLookupSymbol, if_true]
    show (if elfStBind (img.symbolOf i j).info &&& stbWeak ≠ 0 then _ else _) = _
    by_cases hweak : elfStBind (img.symbolOf i j).info = stbWeak
    · rw [if_pos ((hplain.weak hundef).mpr hweak), if_pos hweak]
      rfl
    · rw [if_neg fun hbit => hweak ((hplain.weak hundef).mp hbit), if_neg hweak]
      rfl
  · have hlt' : (img.symbolOf i j).shndx < img.shnum :=
      (hw.shndx i j hij hne).resolve_left hsabs
    rw [if_neg hundef, if_neg hundef, if_neg hsabs]
    show (if (img.symbolOf i j).shndx = shnAbs then _ else wrap (header +
      (img.symbolOf i j).value + shOffset m (elfSection m header (img.symbolOf i j).shndx))) = _
    rw [if_neg habs, (h.section_eq hw hlt').offset, Option.getD_some, Nat.add_right_comm]

/-! ## One entry -/

/-- `elf_do_reloc` once its operands are known. -/
def relocResult (m : Mem) (type sym symval ref : Nat) : Nat × Mem :=
  if sym ≠ 0 ∧ symval = elfRelocErr then (elfRelocErr, m)
  else
    match type with
    | 0 => (symval, m)
    | 1 => (symval, write32 m ref (symval + read32 m ref))
    | 2 => (symval, write32 m ref (wsub (wrap (symval + read32 m ref)) ref))
    | _ => (elfRelocErr, m)

/-- The place matters only where something is written. -/
theorem relocResult_place {type sym symval ref ref' : Nat}
    (h : type = 1 ∨ type = 2 → ref = ref') :
    relocResult m type sym symval ref = relocResult m type sym symval ref' := by
  match type with
  | 0 => rfl
  | 1 => rw [h (Or.inl rfl)]
  | 2 => rw [h (Or.inr rfl)]
  | n + 3 => rfl

/-- Only the word at `ref` can change, and only for the two types. -/
theorem relocResult_outside {type sym symval ref x : Nat}
    (hx : type = 1 ∨ type = 2 → x < ref ∨ ref + 4 ≤ x) :
    (relocResult m type sym symval ref).2 x = m x := by
  unfold relocResult
  split
  · rfl
  · match type with
    | 0 => rfl
    | 1 => exact write32_outside (hx (Or.inl rfl))
    | 2 => exact write32_outside (hx (Or.inr rfl))
    | n + 3 => rfl

/-- Types past 2 are errors. -/
theorem relocResult_type {type sym symval ref : Nat} (h : 2 < type) :
    (relocResult m type sym symval ref).1 = elfRelocErr := by
  unfold relocResult
  split
  · rfl
  · match type with
    | 0 | 1 | 2 => omega
    | n + 3 => rfl

/-- What the code takes for the entry's value. -/
def Image.codeValue (img : Image) (m : Mem) (header i j : Nat) : Nat :=
  if img.symIndex i j ≠ 0 then
    elfGetSymval m header (img.sections i).link (img.symIndex i j)
  else 0

/-- `elf_do_reloc` on an entry of the object. -/
theorem doReloc_eq (h : Shows img m header) (hw : img.WellFormed header)
    (hij : img.IsEntry i j) :
    elfDoReloc m header (header + (img.sections i).offset + 8 * j)
        (header + img.shoff + 40 * i) =
      relocResult m (img.relType i j) (img.symIndex i j) (img.codeValue m header i j)
        (img.site header i j) := by
  obtain ⟨hoff, hinfo⟩ := h.rel i j hij
  have hsec := h.sec i hij.1.1
  have htarget := h.section_eq hw (hw.rel i hij.1).2.2.2.2
  rw [elfDoReloc, hoff, hinfo, hsec.info, hsec.link, htarget.offset]
  refine relocResult_place fun htype => ?_
  have hlt := hw.site_lt hij htype
  rw [Image.site] at hlt ⊢
  show wrap (wrap (header + (img.target i).offset) + (img.rels i j).offset) = _
  rw [wrap_of_lt (show header + (img.target i).offset < 2 ^ 32 by omega), wrap_of_lt (by omega)]

/-- One round of stage 2, at entry `r`. -/
def Image.step (img : Image) (header : Nat) (m : Mem) (r : Nat × Nat) : Except Mem Mem :=
  let out := elfDoReloc m header (header + (img.sections r.1).offset + 8 * r.2)
    (header + img.shoff + 40 * r.1)
  if out.1 = elfRelocErr then .error out.2 else .ok out.2

/-- The tables read the same after a relocation. -/
theorem step_shows (h : Shows img m header) (hw : img.WellFormed header)
    (hij : img.IsEntry i j) (hstep : img.step header m (i, j) = .ok m') :
    Shows img m' header := by
  rw [Image.step, doReloc_eq h hw hij] at hstep
  split at hstep
  · simp at hstep
  · rw [← Except.ok.inj hstep]
    refine h.congr fun x hx => relocResult_outside fun htype => ?_
    by_contra hin
    exact (hw.site i j hij htype).2.2.2 x (by omega) (by omega) hx

/-- An entry that the code can tell to be bad. -/
def Image.Detected (img : Image) (header i j : Nat) : Prop :=
  2 < img.relType i j ∨
    (img.value header i j = none ∧ img.symIndex i j < 256 ∧
      elfStBind (img.symbolOf i j).info &&& stbWeak = 0)

/-- An entry that the code makes as asked, if it is not bad. -/
structure Image.Regular (img : Image) (header i j : Nat) : Prop extends img.Plain i j where
  value_ne : img.value header i j ≠ some elfRelocErr

theorem value_none (hnone : img.value header i j = none) :
    img.symIndex i j ≠ 0 ∧ (img.symbolOf i j).shndx = 0 ∧
      elfStBind (img.symbolOf i j).info ≠ stbWeak := by
  rw [Image.value] at hnone
  split at hnone
  · simp at hnone
  case isFalse hne =>
    split at hnone
    case isTrue hundef =>
      split at hnone
      · simp at hnone
      case isFalse hweak => exact ⟨hne, hundef, hweak⟩
    · split at hnone <;> simp at hnone

theorem Image.Regular.detected (hr : img.Regular header i j) (hbad : img.Bad header i j) :
    img.Detected header i j := by
  refine hbad.imp_right fun hnone => ⟨hnone, hr.narrow, ?_⟩
  obtain ⟨-, hundef, hweak⟩ := value_none hnone
  by_contra hbit
  exact hweak ((hr.weak hundef).mp hbit)

theorem step_detected (h : Shows img m header) (hw : img.WellFormed header)
    (hij : img.IsEntry i j) (hd : img.Detected header i j) :
    ∃ m', img.step header m (i, j) = .error m' := by
  have herr : (relocResult m (img.relType i j) (img.symIndex i j) (img.codeValue m header i j)
      (img.site header i j)).1 = elfRelocErr := by
    rcases hd with htype | ⟨hnone, hnarrow, hbit⟩
    · exact relocResult_type htype
    · obtain ⟨hne, hundef, hweak⟩ := value_none hnone
      have hplain : img.Plain i j :=
        ⟨hnarrow, fun _ => ⟨fun hbit' => absurd hbit hbit', fun heq => absurd heq hweak⟩,
          fun _ => by rw [hundef]; decide⟩
      have hval := getSymval_eq h hw hij hne hplain
      rw [hnone] at hval
      have hcode : img.codeValue m header i j = elfRelocErr := by
        rw [Image.codeValue, if_pos hne, hval]
        rfl
      unfold relocResult
      rw [if_pos ⟨hne, hcode⟩]
  rw [Image.step, doReloc_eq h hw hij, if_pos herr]
  exact ⟨_, rfl⟩

/-- The difference that `DO_386_PC32` takes. -/
theorem pc32_word (s a p : Nat) (hp : p < 2 ^ 32) :
    wsub (wrap (s + a)) p % 2 ^ 32 = (s + a + 2 ^ 32 - p) % 2 ^ 32 := by
  unfold wsub wrap
  omega

theorem step_regular (h : Shows img m header) (hw : img.WellFormed header)
    (hij : img.IsEntry i j) (hr : img.Regular header i j) (hgood : ¬ img.Bad header i j) :
    img.step header m (i, j) = .ok (img.relocate header m (i, j)) := by
  obtain ⟨v, hv⟩ := Option.ne_none_iff_exists'.mp fun hnone => hgood (Or.inr hnone)
  have htype : img.relType i j ≤ 2 := Nat.not_lt.mp fun hlt => hgood (Or.inl hlt)
  have hne : v ≠ elfRelocErr := fun heq => hr.value_ne (heq ▸ hv)
  have hcode : img.codeValue m header i j = v := by
    rw [Image.codeValue]
    split
    case isTrue hsym =>
      rw [getSymval_eq h hw hij hsym hr.toPlain, hv]
      rfl
    case isFalse hsym =>
      rw [Image.value, if_pos (not_not.mp hsym)] at hv
      exact Option.some.inj hv
  have hresult : relocResult m (img.relType i j) (img.symIndex i j) v (img.site header i j) =
      (v, img.relocate header m (i, j)) := by
    unfold relocResult Image.relocate
    rw [if_neg fun hboth => hne hboth.2]
    simp only [hv, Option.getD_some]
    match hn : img.relType i j with
    | 0 => rfl
    | 1 => rfl
    | 2 =>
      have hsite := hw.site_lt hij (Or.inr hn)
      have hword := pc32_word v (read32 m (img.site header i j)) (img.site header i j) (by omega)
      simp only [show ¬ (2 = 1) by decide, if_true, if_false]
      rw [write32_congr hword]
    | n + 3 => omega
  rw [Image.step, doReloc_eq h hw hij, hcode, hresult, if_neg hne]

/-! ## All entries -/

/-- The entries of section `i` from `idx` on. -/
theorem relocLoop_eq (h : Shows img m header) (hw : img.WellFormed header) (hi : img.IsRel i)
    {idx rest fuel : Nat} (hrest : idx + rest = (img.sections i).size / 8) (hfuel : rest ≤ fuel) :
    relocLoop header (header + img.shoff + 40 * i) fuel idx m =
      ((List.range' idx rest).map fun j => (i, j)).foldlM (img.step header) m := by
  induction rest generalizing idx fuel m with
  | zero =>
    cases fuel with
    | zero => rfl
    | succ fuel =>
      have hsec := h.sec i hi.1
      rw [relocLoop, hsec.size, hsec.entsize, (hw.rel i hi).1, if_neg (by omega)]
      rfl
  | succ rest ih =>
    cases fuel with
    | zero => omega
    | succ fuel =>
      have hsec := h.sec i hi.1
      have hentry : img.IsEntry i idx := ⟨hi, by omega⟩
      rw [relocLoop, hsec.size, hsec.entsize, hsec.offset, (hw.rel i hi).1, if_pos (by omega),
        hw.rel_eq hentry, List.range'_succ, List.map_cons, List.foldlM_cons]
      have hstep : img.step header m (i, idx) = if (elfDoReloc m header
          (header + (img.sections i).offset + 8 * idx) (header + img.shoff + 40 * i)).1 =
            elfRelocErr then .error _ else .ok _ := rfl
      dsimp only
      by_cases herr : (elfDoReloc m header (header + (img.sections i).offset + 8 * idx)
          (header + img.shoff + 40 * i)).1 = elfRelocErr
      · rw [if_pos herr] at hstep ⊢
        rw [hstep]
        rfl
      · rw [if_neg herr] at hstep ⊢
        rw [hstep, ok_bind]
        exact ih (step_shows h hw hentry hstep) (by omega) (by omega)

/-- The entries of section `i`, if it holds relocations. -/
def Image.entriesOf (img : Image) (i : Nat) : List (Nat × Nat) :=
  if (img.sections i).type = shtRel then
    (List.range ((img.sections i).size / 8)).map fun j => (i, j)
  else []

theorem mem_entriesOf (hi : i < img.shnum) {r : Nat × Nat} (hr : r ∈ img.entriesOf i) :
    img.IsEntry r.1 r.2 := by
  apply Image.mem_entries.mp
  exact List.mem_flatMap.mpr ⟨i, List.mem_range.mpr hi, hr⟩

/-- The tables read the same all the way through. -/
theorem foldlM_shows {rs : List (Nat × Nat)} (h : Shows img m header)
    (hw : img.WellFormed header) (hrs : ∀ r ∈ rs, img.IsEntry r.1 r.2)
    (hrun : rs.foldlM (img.step header) m = .ok m') : Shows img m' header := by
  induction rs generalizing m with
  | nil =>
    rw [← Except.ok.inj hrun]
    exact h
  | cons r rs ih =>
    rw [List.foldlM_cons] at hrun
    obtain ⟨m₁, hstep, hrun⟩ := bind_eq_ok hrun
    have hr := hrs r List.mem_cons_self
    exact ih (step_shows h hw hr hstep) (fun r' hr' => hrs r' (List.mem_cons_of_mem r hr')) hrun

theorem stage2Loop_eq {shdr : Nat} (h : Shows img m header) (hw : img.WellFormed header)
    (hshdr : ∀ i, i < img.shnum → shdrAt shdr i = header + img.shoff + 40 * i)
    {rest fuel : Nat} (hrest : i + rest = img.shnum) (hfuel : rest ≤ fuel) :
    stage2Loop header shdr fuel i m =
      ((List.range' i rest).flatMap img.entriesOf).foldlM (img.step header) m := by
  induction rest generalizing i fuel m with
  | zero =>
    cases fuel with
    | zero => rfl
    | succ fuel =>
      rw [stage2Loop, h.shnum, if_neg (by omega)]
      rfl
  | succ rest ih =>
    cases fuel with
    | zero => omega
    | succ fuel =>
      have hi : i < img.shnum := by omega
      rw [stage2Loop, h.shnum, if_pos hi, hshdr i hi, List.range'_succ, List.flatMap_cons,
        List.foldlM_append]
      dsimp only
      rw [(h.sec i hi).type]
      by_cases htype : (img.sections i).type = shtRel
      · have hsize : (img.sections i).size / 8 ≤ 2 ^ 32 := by
          have hlt : (img.sections i).size < 2 ^ 32 := by
            rw [← (h.sec i hi).size]
            exact read32_lt _ _
          omega
        have hentries : img.entriesOf i =
            (List.range' 0 ((img.sections i).size / 8)).map fun j => (i, j) := by
          rw [Image.entriesOf, if_pos htype, List.range_eq_range']
        rw [if_pos htype, relocLoop_eq h hw ⟨hi, htype⟩ (Nat.zero_add _) hsize, ← hentries]
        cases hrun : (img.entriesOf i).foldlM (img.step header) m with
        | error e => rfl
        | ok m₁ =>
          exact ih (foldlM_shows h hw (fun r hr => mem_entriesOf hi hr) hrun) (by omega) (by omega)
      · rw [if_neg htype, Image.entriesOf, if_neg htype, List.foldlM_nil]
        exact ih h (by omega) (by omega)

/-- **Stage 2 is a fold over the entries.** -/
theorem stage2_eq (h : Shows img m header) (hw : img.WellFormed header) :
    elfLoadStage2 m header = img.entries.foldlM (img.step header) m := by
  have hlt := hw.shnum_lt
  rw [elfLoadStage2, stage2Loop_eq h hw (fun i hi => h.sheader_eq hw hi) (Nat.zero_add _)
    (show img.shnum ≤ 65536 by omega), ← List.range_eq_range']
  rfl

/-- A bad entry that the code can tell ends the fold, if it gets that far. -/
theorem foldlM_detected {rs : List (Nat × Nat)} (h : Shows img m header)
    (hw : img.WellFormed header) (hrs : ∀ r ∈ rs, img.IsEntry r.1 r.2)
    (hd : ∃ r ∈ rs, img.Detected header r.1 r.2) :
    ∃ m', rs.foldlM (img.step header) m = .error m' := by
  induction rs generalizing m with
  | nil =>
    obtain ⟨r, hr, -⟩ := hd
    exact absurd hr List.not_mem_nil
  | cons r rs ih =>
    rw [List.foldlM_cons]
    have hr := hrs r List.mem_cons_self
    cases hstep : img.step header m r with
    | error m' => exact ⟨m', rfl⟩
    | ok m₁ =>
      refine ih (step_shows h hw hr hstep) (fun r' hr' => hrs r' (List.mem_cons_of_mem r hr')) ?_
      obtain ⟨r', hr', hd'⟩ := hd
      rcases List.mem_cons.mp hr' with rfl | hmem
      · obtain ⟨m', herr⟩ := step_detected h hw hr hd'
        rw [hstep] at herr
        simp at herr
      · exact ⟨r', hmem, hd'⟩

/-- Entries that are all regular and good are made as asked. -/
theorem foldlM_regular {rs : List (Nat × Nat)} (h : Shows img m header)
    (hw : img.WellFormed header) (hrs : ∀ r ∈ rs, img.IsEntry r.1 r.2)
    (hgood : ∀ r ∈ rs, img.Regular header r.1 r.2 ∧ ¬ img.Bad header r.1 r.2) :
    rs.foldlM (img.step header) m = .ok (rs.foldl (img.relocate header) m) := by
  induction rs generalizing m with
  | nil => rfl
  | cons r rs ih =>
    obtain ⟨hregular, hnot⟩ := hgood r List.mem_cons_self
    have hstep := step_regular h hw (hrs r List.mem_cons_self) hregular hnot
    rw [List.foldlM_cons, List.foldl_cons, hstep, ok_bind]
    exact ih (step_shows h hw (hrs r List.mem_cons_self) hstep)
      (fun r' hr' => hrs r' (List.mem_cons_of_mem r hr'))
      (fun r' hr' => hgood r' (List.mem_cons_of_mem r hr'))

end Elf
end Medusa
