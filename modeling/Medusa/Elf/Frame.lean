import Medusa.Elf.Bounds
import Medusa.Elf.Relocate

/-!
# What stage 2 looks at and changes

Where an object fits, stage 2 changes owned bytes only, and what it does depends on
owned bytes only.
-/

namespace Medusa
namespace Elf

open Machine Kernel

variable {own : Set Nat} {m m' : Mem} {header symtab symbol table idx rel reltab sec shdr : Nat}
  {i fuel x : Nat}

/-! ## Changes -/

/-- The memory that stage 2 leaves, whether it returns an error or not. -/
def memAfter : Except Mem Mem → Mem
  | .ok m => m
  | .error m => m

theorem doReloc_result (m : Mem) (header rel reltab : Nat) : elfDoReloc m header rel reltab =
    relocResult m (elfRType (rInfo m rel)) (elfRSym (rInfo m rel))
      (relocSymval m header rel reltab) (relocSite m header rel reltab) := rfl

theorem RelocFits.frame (hfits : RelocFits own m header rel reltab) (hx : x ∉ own) :
    (elfDoReloc m header rel reltab).2 x = m x := by
  rw [doReloc_result]
  by_cases hno : NoValue m header rel reltab
  · have hkeep : relocResult m (elfRType (rInfo m rel)) (elfRSym (rInfo m rel))
        (relocSymval m header rel reltab) (relocSite m header rel reltab) = (elfRelocErr, m) :=
      if_pos hno
    rw [hkeep]
  · refine relocResult_outside fun htype => ?_
    by_contra hin
    exact hx (hfits.site hno htype x (by omega) (by omega))

theorem EntriesFit.frame (hfits : EntriesFit own header sec fuel idx m) (hx : x ∉ own) :
    memAfter (relocLoop header sec fuel idx m) x = m x := by
  induction fuel generalizing idx m with
  | zero => rfl
  | succ fuel ih =>
    rw [relocLoop]
    split
    case isFalse => rfl
    case isTrue hlt =>
      obtain ⟨-, hentry, hnext⟩ := hfits.2 hlt
      have hone := hentry.frame hx
      dsimp only
      split
      case isTrue => exact hone
      case isFalse hok => exact (ih (hnext hok)).trans hone

theorem Stage2Fits.frame (hfits : Stage2Fits own header shdr fuel i m) (hx : x ∉ own) :
    memAfter (stage2Loop header shdr fuel i m) x = m x := by
  induction fuel generalizing i m with
  | zero => rfl
  | succ fuel ih =>
    rw [stage2Loop]
    split
    case isFalse => rfl
    case isTrue hlt =>
      obtain ⟨-, hrel, hother⟩ := hfits hlt
      dsimp only
      split
      case isFalse htype => exact ih (hother htype)
      case isTrue htype =>
        obtain ⟨hentries, hnext⟩ := hrel htype
        have hone := hentries.frame hx
        cases hrun : relocLoop header (shdrAt shdr i) (2 ^ 32) 0 m with
        | error m₁ =>
          rw [hrun] at hone
          exact hone
        | ok m₁ =>
          rw [hrun] at hone
          exact (ih (hnext m₁ hrun)).trans hone

/-! ## Looks -/

/-- The two runs end in the same way, with the same owned bytes. -/
def SameEnd (own : Set Nat) : Except Mem Mem → Except Mem Mem → Prop
  | .ok m, .ok m' => SameOn own m m'
  | .error m, .error m' => SameOn own m m'
  | _, _ => False

section Same

variable (hheader : Covers own header 52) (hsame : SameOn own m m')

include hheader hsame

theorem elfSection_same (k : Nat) : elfSection m' header k = elfSection m header k := by
  have hshoff : eShoff m' header = eShoff m header :=
    (covers_field hheader (show 32 + 4 ≤ 52 by decide)).read32_eq hsame
  rw [elfSection, elfSection, elfSheader, elfSheader, hshoff]

theorem SymvalFits.determined (hfits : SymvalFits own m header table idx) :
    elfGetSymval m' header table idx = elfGetSymval m header table idx := by
  have hsection := elfSection_same hheader hsame
  rw [elfGetSymval, elfGetSymval]
  by_cases hnone : table = 0 ∨ idx % 256 = 0
  · rw [if_pos hnone, if_pos hnone]
  · obtain ⟨htable, hidx⟩ := not_or.mp hnone
    have htab := hfits htable hidx
    have hsize : shSize m' (elfSection m header table) = shSize m (elfSection m header table) :=
      htab.size.read32_eq hsame
    have hentsize : shEntsize m' (elfSection m header table) =
        shEntsize m (elfSection m header table) := htab.entsize.read32_eq hsame
    simp only [if_neg hnone, hsection, hsize, hentsize]
    by_cases hrange : shSize m (elfSection m header table) /
        shEntsize m (elfSection m header table) ≤ idx % 256
    · rw [if_pos hrange, if_pos hrange]
    · have hlt := Nat.lt_of_not_le hrange
      have hoffset : shOffset m' (elfSection m header table) =
          shOffset m (elfSection m header table) := (htab.offset hlt).read32_eq hsame
      have hvalue := htab.value hlt
      have hshndx := htab.shndx hlt
      rw [if_neg hrange, if_neg hrange, hoffset]
      rw [symbolAt] at hvalue hshndx
      generalize wrap (wrap (header + shOffset m (elfSection m header table)) +
        16 * (idx % 256)) = symbol at hvalue hshndx ⊢
      have hnum : stShndx m' symbol = stShndx m symbol := read16_congr (hshndx.agree hsame)
      rw [hnum]
      by_cases hundef : stShndx m symbol = 0
      · obtain ⟨-, -, -, hinfo⟩ := hvalue.undefined hundef
        have hbind : stInfo m' symbol = stInfo m symbol :=
          congrArg BitVec.toNat (hinfo.agree hsame (symbol + 12) (by omega) (by omega))
        rw [if_pos hundef, if_pos hundef, hbind]
        rfl
      · have hst : stValue m' symbol = stValue m symbol :=
          (hvalue.value hundef).read32_eq hsame
        rw [if_neg hundef, if_neg hundef, hst]
        by_cases habs : stShndx m symbol = shnAbs
        · rw [if_pos habs, if_pos habs]
        · have htarget : shOffset m' (elfSection m header (stShndx m symbol)) =
              shOffset m (elfSection m header (stShndx m symbol)) :=
            (hvalue.target hundef habs).read32_eq hsame
          rw [if_neg habs, if_neg habs, htarget]

omit hheader in
theorem relocResult_determined {type sym symval ref : Nat}
    (hsite : ¬ (sym ≠ 0 ∧ symval = elfRelocErr) → type = 1 ∨ type = 2 → Covers own ref 4) :
    (relocResult m' type sym symval ref).1 = (relocResult m type sym symval ref).1 ∧
      SameOn own (relocResult m type sym symval ref).2
        (relocResult m' type sym symval ref).2 := by
  unfold relocResult
  by_cases hno : sym ≠ 0 ∧ symval = elfRelocErr
  · rw [if_pos hno, if_pos hno]
    exact ⟨rfl, hsame⟩
  · rw [if_neg hno, if_neg hno]
    match type with
    | 0 => exact ⟨rfl, hsame⟩
    | 1 =>
      rw [(hsite hno (Or.inl rfl)).read32_eq hsame]
      exact ⟨rfl, hsame.write32 _ _⟩
    | 2 =>
      rw [(hsite hno (Or.inr rfl)).read32_eq hsame]
      exact ⟨rfl, hsame.write32 _ _⟩
    | n + 3 => exact ⟨rfl, hsame⟩

theorem RelocFits.determined (hfits : RelocFits own m header rel reltab) :
    (elfDoReloc m' header rel reltab).1 = (elfDoReloc m header rel reltab).1 ∧
      SameOn own (elfDoReloc m header rel reltab).2 (elfDoReloc m' header rel reltab).2 := by
  obtain ⟨hoff, hinfo⟩ := covers_add.mp (show Covers own rel (4 + 4) from hfits.entry)
  have hrinfo : rInfo m' rel = rInfo m rel := hinfo.read32_eq hsame
  have hroff : rOffset m' rel = rOffset m rel := hoff.read32_eq hsame
  have hsinfo : shInfo m' reltab = shInfo m reltab := hfits.info.read32_eq hsame
  have htarget : shOffset m' (elfSection m header (shInfo m reltab)) =
      shOffset m (elfSection m header (shInfo m reltab)) := hfits.target.read32_eq hsame
  have hsite : relocSite m' header rel reltab = relocSite m header rel reltab := by
    rw [relocSite, relocSite, hsinfo, hroff, elfSection_same hheader hsame, htarget]
  have hsymval : relocSymval m' header rel reltab = relocSymval m header rel reltab := by
    rw [relocSymval, relocSymval, hrinfo]
    by_cases hsym : elfRSym (rInfo m rel) ≠ 0
    · have hlink : shLink m' reltab = shLink m reltab := (hfits.link hsym).read32_eq hsame
      rw [if_pos hsym, if_pos hsym, hlink, (hfits.symval hsym).determined hheader hsame]
    · rw [if_neg hsym, if_neg hsym]
  rw [doReloc_result, doReloc_result, hrinfo, hsite, hsymval]
  exact relocResult_determined hsame hfits.site

omit hsame

theorem EntriesFit.determined (hfits : EntriesFit own header sec fuel idx m)
    (hsame : SameOn own m m') :
    SameEnd own (relocLoop header sec fuel idx m) (relocLoop header sec fuel idx m') := by
  induction fuel generalizing idx m m' with
  | zero => exact hsame
  | succ fuel ih =>
    obtain ⟨⟨hsize, hentsize, -⟩, hentry⟩ := hfits
    have hsize : shSize m' sec = shSize m sec := hsize.read32_eq hsame
    have hentsize : shEntsize m' sec = shEntsize m sec := hentsize.read32_eq hsame
    rw [relocLoop, relocLoop, hsize, hentsize]
    by_cases hlt : idx < shSize m sec / shEntsize m sec
    · obtain ⟨hoffset, hreloc, hnext⟩ := hentry hlt
      have hoffset : shOffset m' sec = shOffset m sec := hoffset.read32_eq hsame
      obtain ⟨hresult, hmem⟩ := hreloc.determined hheader hsame
      rw [entryAt] at hresult hmem hnext
      simp only [if_pos hlt, hoffset, hresult]
      by_cases herr : (elfDoReloc m header (wrap (wrap (header + shOffset m sec) + 8 * idx))
          sec).1 = elfRelocErr
      · rw [if_pos herr, if_pos herr]
        exact hmem
      · rw [if_neg herr, if_neg herr]
        exact ih (hnext herr) hmem
    · rw [if_neg hlt, if_neg hlt]
      exact hsame

/-- **Stage 2 looks at owned bytes only.** -/
theorem Stage2Fits.determined (hfits : Stage2Fits own header shdr fuel i m)
    (hsame : SameOn own m m') :
    SameEnd own (stage2Loop header shdr fuel i m) (stage2Loop header shdr fuel i m') := by
  induction fuel generalizing i m m' with
  | zero => exact hsame
  | succ fuel ih =>
    have hshnum : eShnum m' header = eShnum m header :=
      read16_congr ((covers_field hheader (show 48 + 2 ≤ 52 by decide)).agree hsame)
    rw [stage2Loop, stage2Loop, hshnum]
    by_cases hlt : i < eShnum m header
    · obtain ⟨htype, hrel, hother⟩ := hfits hlt
      have htype : shType m' (shdrAt shdr i) = shType m (shdrAt shdr i) := htype.read32_eq hsame
      rw [if_pos hlt, if_pos hlt]
      dsimp only
      rw [htype]
      by_cases hisrel : shType m (shdrAt shdr i) = shtRel
      · obtain ⟨hentries, hnext⟩ := hrel hisrel
        have hend := hentries.determined hheader hsame
        rw [if_pos hisrel, if_pos hisrel]
        cases hrun : relocLoop header (shdrAt shdr i) (2 ^ 32) 0 m with
        | error m₁ =>
          cases hrun' : relocLoop header (shdrAt shdr i) (2 ^ 32) 0 m' with
          | error m₂ =>
            rw [hrun, hrun'] at hend
            exact hend
          | ok m₂ =>
            rw [hrun, hrun'] at hend
            exact absurd hend id
        | ok m₁ =>
          cases hrun' : relocLoop header (shdrAt shdr i) (2 ^ 32) 0 m' with
          | error m₂ =>
            rw [hrun, hrun'] at hend
            exact absurd hend id
          | ok m₂ =>
            rw [hrun, hrun'] at hend
            exact ih (hnext m₁ hrun) hend
      · rw [if_neg hisrel, if_neg hisrel]
        exact ih (hother hisrel) hsame
    · rw [if_neg hlt, if_neg hlt]
      exact hsame

end Same

end Elf
end Medusa
