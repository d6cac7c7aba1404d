import Medusa.Elf.Trace
import Medusa.Heap.Session

/-!
# What the loader would have to check

No offset, size, entry size, link or index of an object is compared with the length
of the object, so the loader stays inside only when each of them happens to fit at
the time it is used.  The conditions below are those comparisons, one for each
field, entry, symbol and name, stated of the memory before the access; earlier
relocations may have changed it.
-/

namespace Medusa
namespace Elf

open Machine Kernel

/-! ## Symbols -/

/-- There is a string, and all of it is owned. -/
def NameFits (own : Set Nat) (m : Mem) (name : Nat) : Prop :=
  ∃ n, m (name + n) = 0#8 ∧ Covers own name (n + 1)

structure ValueFits (own : Set Nat) (m : Mem) (header symtab symbol : Nat) : Prop where
  undefined : stShndx m symbol = 0 → Covers own (symtab + 24) 4 ∧
    Covers own (elfSection m header (shLink m symtab) + 16) 4 ∧ Covers own symbol 4 ∧
    Covers own (symbol + 12) 1
  name : stShndx m symbol = 0 → elfStBind (stInfo m symbol) &&& stbWeak = 0 →
    NameFits own m (symName m header symtab symbol)
  value : stShndx m symbol ≠ 0 → Covers own (symbol + 4) 4
  target : stShndx m symbol ≠ 0 → stShndx m symbol ≠ shnAbs →
    Covers own (elfSection m header (stShndx m symbol) + 16) 4

structure SymtabFits (own : Set Nat) (m : Mem) (header symtab idx : Nat) : Prop where
  size : Covers own (symtab + 20) 4
  entsize : Covers own (symtab + 36) 4
  entsize_ne : shEntsize m symtab ≠ 0
  offset : idx < shSize m symtab / shEntsize m symtab → Covers own (symtab + 16) 4
  shndx : idx < shSize m symtab / shEntsize m symtab →
    Covers own (symbolAt m header symtab idx + 14) 2
  value : idx < shSize m symtab / shEntsize m symtab →
    ValueFits own m header symtab (symbolAt m header symtab idx)

def SymvalFits (own : Set Nat) (m : Mem) (header table idx : Nat) : Prop :=
  table ≠ 0 → idx % 256 ≠ 0 → SymtabFits own m header (elfSection m header table) (idx % 256)

/-! ## Relocations -/

structure RelocFits (own : Set Nat) (m : Mem) (header rel reltab : Nat) : Prop where
  info : Covers own (reltab + 28) 4
  target : Covers own (elfSection m header (shInfo m reltab) + 16) 4
  entry : Covers own rel 8
  link : elfRSym (rInfo m rel) ≠ 0 → Covers own (reltab + 24) 4
  symval : elfRSym (rInfo m rel) ≠ 0 →
    SymvalFits own m header (shLink m reltab) (elfRSym (rInfo m rel))
  site : ¬ NoValue m header rel reltab →
    elfRType (rInfo m rel) = 1 ∨ elfRType (rInfo m rel) = 2 →
    Covers own (relocSite m header rel reltab) 4

/-- The entries from `idx` on, each when its turn comes. -/
def EntriesFit (own : Set Nat) (header sec : Nat) : Nat → Nat → Mem → Prop
  | 0, _, _ => True
  | fuel + 1, idx, m =>
    (Covers own (sec + 20) 4 ∧ Covers own (sec + 36) 4 ∧ shEntsize m sec ≠ 0) ∧
    (idx < shSize m sec / shEntsize m sec →
      Covers own (sec + 16) 4 ∧ RelocFits own m header (entryAt m header sec idx) sec ∧
      ((elfDoReloc m header (entryAt m header sec idx) sec).1 ≠ elfRelocErr →
        EntriesFit own header sec fuel (idx + 1)
          (elfDoReloc m header (entryAt m header sec idx) sec).2))

/-- The sections from `i` on, each when its turn comes. -/
def Stage2Fits (own : Set Nat) (header shdr : Nat) : Nat → Nat → Mem → Prop
  | 0, _, _ => True
  | fuel + 1, i, m => i < eShnum m header →
    Covers own (shdrAt shdr i + 4) 4 ∧
    (shType m (shdrAt shdr i) = shtRel →
      EntriesFit own header (shdrAt shdr i) (2 ^ 32) 0 m ∧
      ∀ m', relocLoop header (shdrAt shdr i) (2 ^ 32) 0 m = .ok m' →
        Stage2Fits own header shdr fuel (i + 1) m') ∧
    (shType m (shdrAt shdr i) ≠ shtRel → Stage2Fits own header shdr fuel (i + 1) m)

/-! ## Sections that get memory -/

/-- Stage 1 gets memory for the section. -/
def Takes (m : Mem) (sec : Nat) : Prop :=
  shType m sec = shtNobits ∧ shSize m sec ≠ 0 ∧ shFlags m sec &&& shfAlloc ≠ 0

instance (m : Mem) (sec : Nat) : Decidable (Takes m sec) :=
  inferInstanceAs (Decidable (_ ∧ _))

structure SectionFits (own : Set Nat) (st : Heap.State) (sec : Nat) : Prop where
  type : Covers own (sec + 4) 4
  size : shType st.mem sec = shtNobits → Covers own (sec + 20) 4
  flags : shType st.mem sec = shtNobits → shSize st.mem sec ≠ 0 → Covers own (sec + 8) 4
  offset : Takes st.mem sec → Covers own (sec + 16) 4
  /-- The heap has the memory, and no sum on the way to it is cut. -/
  served : Takes st.mem sec →
    ¬ Heap.Refuses st 4 (shSize st.mem sec) ∧ Heap.Uncut st 4 (shSize st.mem sec)

/-- The sections from `i` on, each when its turn comes; what a section gets is owned
from then on. -/
def Stage1Fits (header shdr : Nat) : Nat → Nat → Set Nat → Heap.State → Prop
  | 0, _, _, _ => True
  | fuel + 1, i, own, st => i < eShnum st.mem header →
    SectionFits own st (shdrAt shdr i) ∧
    ∀ st', stage1Section header (shdrAt shdr i) st = .ok st' →
      Stage1Fits header shdr fuel (i + 1) (Owned own (stage1SectionTrace (shdrAt shdr i) st)) st'

/-- The object fits: stage 1 finds what it needs in the image and in the heap, and
stage 2 in the image and in what stage 1 got. -/
def Loads (st : Heap.State) (header len : Nat) : Prop :=
  Stage1Fits header (elfSheader st.mem header) 65536 0 (Set.Ico header (header + len)) st ∧
  ∀ st', elfLoadStage1 st header = .ok st' →
    Stage2Fits (Owned (Set.Ico header (header + len)) (stage1Trace st header)) header
      (elfSheader st'.mem header) 65536 0 st'.mem

variable {own : Set Nat} {m : Mem}
  {header symtab symbol table idx rel reltab sec shdr i fuel a : Nat}

/-! ## Strings -/

theorem cstrRead_le {n : Nat} (h : m (a + n) = 0#8) : cstrRead m fuel a ≤ n + 1 := by
  induction fuel generalizing a n with
  | zero => exact Nat.zero_le _
  | succ fuel ih =>
    rw [cstrRead]
    split
    · exact Nat.le_add_left 1 n
    case isFalse hne =>
      cases n with
      | zero => exact absurd h hne
      | succ n =>
        rw [← Nat.succ_add_eq_add_succ] at h
        exact Nat.succ_le_succ (ih h)

theorem cstrRead_ends (m : Mem) (fuel a : Nat) :
    cstrRead m fuel a = fuel ∨ ∃ n, m (a + n) = 0#8 ∧ cstrRead m fuel a = n + 1 := by
  induction fuel generalizing a with
  | zero => exact Or.inl rfl
  | succ fuel ih =>
    rw [cstrRead]
    split
    case isTrue hzero => exact Or.inr ⟨0, hzero, rfl⟩
    · rcases ih (a + 1) with hfuel | ⟨n, hn, hread⟩
      · exact Or.inl (congrArg (· + 1) hfuel)
      · refine Or.inr ⟨n + 1, ?_, congrArg (· + 1) hread⟩
        rw [← hn, Nat.add_right_comm, Nat.add_assoc]

/-! ## Stage 2 is given no memory -/

theorem owned_valueTrace : Owned own (valueTrace m header symtab symbol) = own := by
  simp [valueTrace, apply_ite (Owned own)]

theorem owned_symvalTrace : Owned own (symvalTrace m header table idx) = own := by
  simp [symvalTrace, apply_ite (Owned own), owned_valueTrace]

theorem owned_relocTrace : Owned own (relocTrace m header rel reltab) = own := by
  simp [relocTrace, apply_ite (Owned own), owned_symvalTrace]

theorem owned_relocLoopTrace : Owned own (relocLoopTrace header sec fuel idx m) = own := by
  induction fuel generalizing idx m with
  | zero => rfl
  | succ fuel ih =>
    simp [relocLoopTrace, apply_ite (Owned own), owned_relocTrace, ih]

section Checks

variable (hlow : ∀ x ∈ own, x < Heap.heapLimit) (hheader : Covers own header 52)

include hlow in
/-- The heap's limit is below 2^32, so the fuel does not end a string that is owned. -/
theorem nameFits_iff : Covers own a (cstrRead m (2 ^ 32) a) ↔ NameFits own m a := by
  constructor
  · intro hcovers
    rcases cstrRead_ends m (2 ^ 32) a with hfuel | ⟨n, hn, hread⟩
    · rw [hfuel] at hcovers
      have hmem := hlow _ (hcovers (a + (2 ^ 32 - 1)) (by omega) (by omega))
      have hlimit : Heap.heapLimit = 0xC2200000 := rfl
      omega
    · rw [hread] at hcovers
      exact ⟨n, hn, hcovers⟩
  · rintro ⟨n, hn, hcovers⟩
    have hle : cstrRead m (2 ^ 32) a ≤ n + 1 := cstrRead_le hn
    exact hcovers.mono (Nat.le_refl _) (by omega)

include hheader in
theorem covers_field {k n : Nat} (hk : k + n ≤ 52) : Covers own (header + k) n :=
  hheader.mono (Nat.le_add_right _ _) (by omega)

include hlow hheader

theorem valueFits_iff :
    Confined own (valueTrace m header symtab symbol) ↔ ValueFits own m header symtab symbol := by
  have hshoff := covers_field hheader (show 32 + 4 ≤ 52 by decide)
  rw [valueTrace]
  by_cases hundef : stShndx m symbol = 0
  · simp only [if_pos hundef, elfLookupSymbol, if_true, List.cons_append, List.nil_append,
      confined_read, confined_unless, confined_nil, nameFits_iff hlow, and_true, not_not]
    constructor
    · intro h
      obtain ⟨hlink, _, htarget, hname, hinfo, hstring⟩ := h
      exact ⟨fun _ => ⟨hlink, htarget, hname, hinfo⟩, fun _ => hstring,
        fun hne => absurd hundef hne, fun hne => absurd hundef hne⟩
    · intro hfits
      obtain ⟨hlink, htarget, hname, hinfo⟩ := hfits.undefined hundef
      exact ⟨hlink, hshoff, htarget, hname, hinfo, hfits.name hundef⟩
  · rw [if_neg hundef]
    by_cases habs : stShndx m symbol = shnAbs
    · rw [if_pos habs, confined_read, and_iff_left confined_nil]
      exact ⟨fun hvalue => ⟨fun h => absurd h hundef, fun h => absurd h hundef, fun _ => hvalue,
        fun _ h => absurd habs h⟩, fun hfits => hfits.value hundef⟩
    · rw [if_neg habs]
      simp only [confined_read, confined_nil, and_true]
      exact ⟨fun h => ⟨fun h => absurd h hundef, fun h => absurd h hundef, fun _ => h.2.1,
        fun _ _ => h.2.2⟩, fun hfits => ⟨hshoff, hfits.value hundef, hfits.target hundef habs⟩⟩

theorem symvalFits_iff :
    Confined own (symvalTrace m header table idx) ↔ SymvalFits own m header table idx := by
  have hshoff := covers_field hheader (show 32 + 4 ≤ 52 by decide)
  rw [symvalTrace, SymvalFits]
  simp only [confined_unless, not_or, and_imp, List.cons_append, List.nil_append, confined_read,
    confined_divide, valueFits_iff hlow hheader, Nat.not_le]
  refine imp_congr_right fun _ => imp_congr_right fun _ => ?_
  constructor
  · intro h
    obtain ⟨_, hsize, hentsize, hne, hsymbol⟩ := h
    exact ⟨hsize, hentsize, hne, fun h => (hsymbol h).1, fun h => (hsymbol h).2.1,
      fun h => (hsymbol h).2.2⟩
  · intro hfits
    exact ⟨hshoff, hfits.size, hfits.entsize, hfits.entsize_ne, fun h =>
      ⟨hfits.offset h, hfits.shndx h, hfits.value h⟩⟩

theorem relocFits_iff :
    Confined own (relocTrace m header rel reltab) ↔ RelocFits own m header rel reltab := by
  have hshoff := covers_field hheader (show 32 + 4 ≤ 52 by decide)
  have hkeep : Owned own (if elfRSym (rInfo m rel) ≠ 0 then .read (reltab + 24) 4 ::
      symvalTrace m header (shLink m reltab) (elfRSym (rInfo m rel)) else []) = own := by
    rw [apply_ite (Owned own), owned_read, owned_symvalTrace, owned_nil, ite_self]
  rw [relocTrace]
  simp only [confined_append, List.cons_append, List.nil_append, confined_read, confined_write,
    confined_when, confined_unless, confined_nil, and_true, symvalFits_iff hlow hheader, hkeep,
    and_self]
  constructor
  · intro h
    obtain ⟨hinfo, _, htarget, hoff, hrinfo, hsym, hsite⟩ := h
    exact ⟨hinfo, htarget, covers_add.mpr ⟨hoff, hrinfo⟩, fun h => (hsym h).1,
      fun h => (hsym h).2, hsite⟩
  · intro hfits
    obtain ⟨hoff, hrinfo⟩ := covers_add.mp (show Covers own rel (4 + 4) from hfits.entry)
    exact ⟨hfits.info, hshoff, hfits.target, hoff, hrinfo,
      fun h => ⟨hfits.link h, hfits.symval h⟩, hfits.site⟩

/-- Each round of the loop checks the entry in hand. -/
theorem entriesFit_iff :
    Confined own (relocLoopTrace header sec fuel idx m) ↔
      EntriesFit own header sec fuel idx m := by
  induction fuel generalizing idx m with
  | zero => exact Iff.rfl
  | succ fuel ih =>
    rw [relocLoopTrace, EntriesFit]
    simp only [List.cons_append, List.nil_append, confined_read, confined_divide, confined_when,
      confined_unless, confined_append, owned_relocTrace, relocFits_iff hlow hheader, ih,
      and_assoc]

theorem stage2Fits_iff :
    Confined own (stage2LoopTrace header shdr fuel i m) ↔
      Stage2Fits own header shdr fuel i m := by
  have hshnum := covers_field hheader (show 48 + 2 ≤ 52 by decide)
  induction fuel generalizing i m with
  | zero => exact Iff.rfl
  | succ fuel ih =>
    rw [stage2LoopTrace, Stage2Fits]
    simp only [confined_read, confined_when, and_iff_right hshnum]
    refine imp_congr_right fun _ => and_congr_right fun _ => ?_
    by_cases htype : shType m (shdrAt shdr i) = shtRel
    · rw [if_pos htype, confined_append, owned_relocLoopTrace, entriesFit_iff hlow hheader,
        forall_prop_of_true htype, and_iff_left fun h => absurd htype h]
      refine and_congr_right fun _ => ?_
      cases hrun : relocLoop header (shdrAt shdr i) (2 ^ 32) 0 m with
      | error e =>
        refine iff_of_true trivial fun m' hm => ?_
        simp at hm
      | ok m₁ =>
        constructor
        · intro h m' hm
          rw [← Except.ok.inj hm]
          exact ih.mp h
        · intro h
          exact ih.mpr (h m₁ rfl)
    · rw [if_neg htype]
      exact ⟨fun h => ⟨fun h' => absurd h' htype, fun _ => ih.mp h⟩,
        fun h => ih.mpr (h.2 htype)⟩

end Checks

end Elf
end Medusa
