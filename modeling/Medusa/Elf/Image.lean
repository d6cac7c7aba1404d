import Medusa.Elf.Defs

/-!
# Relocatable objects

A relocatable object as a value: its section headers, symbols and relocation
entries.  `Shows` says that memory holds it, and `WellFormed` what an object must
meet for its relocations to make sense.  `value` is what a relocation's symbol
stands for, and `relocated` the memory that the relocations ask for.
-/

namespace Medusa
namespace Elf

open Machine

structure Section where
  type : Nat
  flags : Nat
  offset : Nat
  size : Nat
  link : Nat
  info : Nat
  entsize : Nat

structure Symbol where
  value : Nat
  info : Nat
  shndx : Nat

structure Rel where
  offset : Nat
  info : Nat

/-- Sections, the symbols of a symbol table and the entries of a relocation section
go by their numbers. -/
structure Image where
  len : Nat
  entry : Nat
  shoff : Nat
  shnum : Nat
  sections : Nat → Section
  symbols : Nat → Nat → Symbol
  rels : Nat → Nat → Rel

/-- Section memory that stage 1 provides. -/
def Section.Allocated (s : Section) : Prop :=
  s.type = shtNobits ∧ s.size ≠ 0 ∧ s.flags &&& shfAlloc ≠ 0

namespace Image

variable (img : Image)

/-- Section `i` holds relocations. -/
def IsRel (i : Nat) : Prop := i < img.shnum ∧ (img.sections i).type = shtRel

/-- Section `t` holds the symbols of a relocation section. -/
def IsSymtab (t : Nat) : Prop := ∃ i, img.IsRel i ∧ (img.sections i).link = t

/-- Entry `j` of relocation section `i`. -/
def IsEntry (i j : Nat) : Prop := img.IsRel i ∧ j < (img.sections i).size / 8

/-- The entries in the order in which they are processed. -/
def entries : List (Nat × Nat) :=
  (List.range img.shnum).flatMap fun i =>
    if (img.sections i).type = shtRel then
      (List.range ((img.sections i).size / 8)).map fun j => (i, j)
    else []

def symIndex (i j : Nat) : Nat := elfRSym (img.rels i j).info

def relType (i j : Nat) : Nat := elfRType (img.rels i j).info

/-- The symbol that an entry names. -/
def symbolOf (i j : Nat) : Symbol := img.symbols (img.sections i).link (img.symIndex i j)

/-- The section that relocation section `i` changes. -/
def target (i : Nat) : Section := img.sections (img.sections i).info

variable (header : Nat)

/-- The address of the word that an entry changes. -/
def site (i j : Nat) : Nat := header + (img.target i).offset + (img.rels i j).offset

/-- The addresses that hold the header, the section headers, relocations or
symbols. -/
def Tables (x : Nat) : Prop :=
  (header ≤ x ∧ x < header + 52) ∨
  (header + img.shoff ≤ x ∧ x < header + img.shoff + 40 * img.shnum) ∨
  (∃ i, img.IsRel i ∧ header + (img.sections i).offset ≤ x ∧
    x < header + (img.sections i).offset + (img.sections i).size) ∨
  ∃ t, img.IsSymtab t ∧ header + (img.sections t).offset ≤ x ∧
    x < header + (img.sections t).offset + (img.sections t).size

/-! ## What a relocation asks for -/

/-- The value of an entry's symbol; an undefined symbol that is not weak has none. -/
def value (i j : Nat) : Option Nat :=
  if img.symIndex i j = 0 then some 0
  else if (img.symbolOf i j).shndx = 0 then
    if elfStBind (img.symbolOf i j).info = stbWeak then some 0 else none
  else if (img.symbolOf i j).shndx = 0xFFF1 then some (img.symbolOf i j).value
  else some (wrap (header + (img.sections (img.symbolOf i j).shndx).offset +
    (img.symbolOf i j).value))

/-- A relocation that cannot be made. -/
def Bad (i j : Nat) : Prop := 2 < img.relType i j ∨ img.value header i j = none

instance (i j : Nat) : Decidable (img.Bad header i j) := inferInstanceAs (Decidable (_ ∨ _))

/-- The memory after one relocation. -/
def relocate (m : Mem) (r : Nat × Nat) : Mem :=
  let s := (img.value header r.1 r.2).getD 0
  let p := img.site header r.1 r.2
  if img.relType r.1 r.2 = 1 then write32 m p (s + read32 m p)
  else if img.relType r.1 r.2 = 2 then write32 m p (s + read32 m p + 2 ^ 32 - p)
  else m

def relocated (m : Mem) : Mem := img.entries.foldl (img.relocate header) m

/-! ## Well-formed objects -/

structure WellFormed : Prop where
  bound : header + img.len ≤ 2 ^ 32
  shnum_lt : img.shnum < 65536
  headers : 52 ≤ img.shoff ∧ img.shoff + 40 * img.shnum ≤ img.len
  rel : ∀ i, img.IsRel i → (img.sections i).entsize = 8 ∧
    (img.sections i).offset + (img.sections i).size ≤ img.len ∧
    (img.sections i).link ≠ 0 ∧ (img.sections i).link < img.shnum ∧
    (img.sections i).info < img.shnum
  symtab : ∀ t, img.IsSymtab t → (img.sections t).type = 2 ∧ (img.sections t).entsize = 16 ∧
    (img.sections t).offset + (img.sections t).size ≤ img.len
  /-- The tables lie apart from the section headers. -/
  apart : ∀ t, img.IsRel t ∨ img.IsSymtab t →
    (img.sections t).offset + (img.sections t).size ≤ img.shoff ∨
      img.shoff + 40 * img.shnum ≤ (img.sections t).offset
  symIndex_lt : ∀ i j, img.IsEntry i j →
    img.symIndex i j < (img.sections (img.sections i).link).size / 16
  shndx : ∀ i j, img.IsEntry i j → img.symIndex i j ≠ 0 →
    (img.symbolOf i j).shndx = 0xFFF1 ∨ (img.symbolOf i j).shndx < img.shnum
  /-- A symbol of a section that the file does not hold lies in it. -/
  inside : ∀ i j, img.IsEntry i j → img.symIndex i j ≠ 0 →
    (img.sections (img.symbolOf i j).shndx).Allocated →
    (img.symbolOf i j).value ≤ (img.sections (img.symbolOf i j).shndx).size
  /-- A word that is changed lies in a section of the file, outside the tables. -/
  site : ∀ i j, img.IsEntry i j → img.relType i j = 1 ∨ img.relType i j = 2 →
    (img.target i).type ≠ shtNobits ∧ (img.rels i j).offset + 4 ≤ (img.target i).size ∧
    (img.target i).offset + (img.target i).size ≤ img.len ∧
    ∀ x, img.site header i j ≤ x → x < img.site header i j + 4 → ¬ img.Tables header x

end Image

/-! ## Objects in memory -/

structure ShowsSection (m : Mem) (shdr : Nat) (s : Section) : Prop where
  type : shType m shdr = s.type
  flags : shFlags m shdr = s.flags
  offset : shOffset m shdr = s.offset
  size : shSize m shdr = s.size
  link : shLink m shdr = s.link
  info : shInfo m shdr = s.info
  entsize : shEntsize m shdr = s.entsize

/-- Memory holds the object at `header`. -/
structure Shows (img : Image) (m : Mem) (header : Nat) : Prop where
  entry : eEntry m header = img.entry
  shoff : eShoff m header = img.shoff
  shnum : eShnum m header = img.shnum
  sec : ∀ i, i < img.shnum → ShowsSection m (header + img.shoff + 40 * i) (img.sections i)
  rel : ∀ i j, img.IsEntry i j →
    rOffset m (header + (img.sections i).offset + 8 * j) = (img.rels i j).offset ∧
    rInfo m (header + (img.sections i).offset + 8 * j) = (img.rels i j).info
  sym : ∀ t k, img.IsSymtab t → k < (img.sections t).size / 16 →
    stValue m (header + (img.sections t).offset + 16 * k) = (img.symbols t k).value ∧
    stInfo m (header + (img.sections t).offset + 16 * k) = (img.symbols t k).info ∧
    stShndx m (header + (img.sections t).offset + 16 * k) = (img.symbols t k).shndx

section

variable {img : Image} {m m' : Mem} {header shdr a : Nat} {s : Section}

theorem header_congr (hsame : Agree m m' header (header + 52)) :
    eEntry m' header = eEntry m header ∧ eShoff m' header = eShoff m header ∧
      eShnum m' header = eShnum m header := by
  refine ⟨read32_congr ?_, read32_congr ?_, read16_congr ?_⟩ <;>
    exact hsame.mono (by omega) (by omega)

theorem rel_congr (hsame : Agree m m' a (a + 8)) :
    rOffset m' a = rOffset m a ∧ rInfo m' a = rInfo m a := by
  refine ⟨read32_congr ?_, read32_congr ?_⟩ <;> exact hsame.mono (by omega) (by omega)

theorem sym_congr (hsame : Agree m m' a (a + 16)) :
    stValue m' a = stValue m a ∧ stInfo m' a = stInfo m a ∧ stShndx m' a = stShndx m a := by
  refine ⟨read32_congr ?_, congrArg BitVec.toNat (hsame _ (by omega) (by omega)),
    read16_congr ?_⟩ <;>
    exact hsame.mono (by omega) (by omega)

/-- A section header with another offset. -/
theorem ShowsSection.setOffset {off : Nat} (h : ShowsSection m shdr s)
    (hlow : Agree m m' shdr (shdr + 16)) (hread : shOffset m' shdr = off)
    (hhigh : Agree m m' (shdr + 20) (shdr + 40)) :
    ShowsSection m' shdr { s with offset := off } := by
  have hbefore : ∀ k, k + 4 ≤ 16 → read32 m' (shdr + k) = read32 m (shdr + k) :=
    fun k hk => read32_congr (hlow.mono (by omega) (by omega))
  have hafter : ∀ k, 20 ≤ k → k + 4 ≤ 40 → read32 m' (shdr + k) = read32 m (shdr + k) :=
    fun k hk hk' => read32_congr (hhigh.mono (by omega) (by omega))
  constructor
  · exact (hbefore 4 (by decide)).trans h.type
  · exact (hbefore 8 (by decide)).trans h.flags
  · exact hread
  · exact (hafter 20 (by decide) (by decide)).trans h.size
  · exact (hafter 24 (by decide) (by decide)).trans h.link
  · exact (hafter 28 (by decide) (by decide)).trans h.info
  · exact (hafter 36 (by decide) (by decide)).trans h.entsize

theorem ShowsSection.congr (h : ShowsSection m shdr s) (hsame : Agree m m' shdr (shdr + 40)) :
    ShowsSection m' shdr s := by
  have hoff : shOffset m' shdr = s.offset :=
    (read32_congr (hsame.mono (by omega) (by omega))).trans h.offset
  exact h.setOffset (hsame.mono (by omega) (by omega)) hoff (hsame.mono (by omega) (by omega))

/-- What is shown of an object depends on its tables only. -/
theorem Shows.congr (h : Shows img m header)
    (hsame : ∀ x, img.Tables header x → m' x = m x) : Shows img m' header := by
  obtain ⟨hentry, hshoff, hshnum⟩ : eEntry m' header = eEntry m header ∧
      eShoff m' header = eShoff m header ∧ eShnum m' header = eShnum m header :=
    header_congr fun x hlo hhi => hsame x (Or.inl ⟨hlo, hhi⟩)
  constructor
  · exact hentry.trans h.entry
  · exact hshoff.trans h.shoff
  · exact hshnum.trans h.shnum
  · intro i hi
    refine (h.sec i hi).congr fun x hlo hhi => hsame x (Or.inr (Or.inl ?_))
    omega
  · intro i j hij
    have hj := hij.2
    obtain ⟨hoff, hinfo⟩ := rel_congr (a := header + (img.sections i).offset + 8 * j)
      fun x hlo hhi => hsame x (Or.inr (Or.inr (Or.inl ⟨i, hij.1, by omega, by omega⟩)))
    rw [hoff, hinfo]
    exact h.rel i j hij
  · intro t k ht hk
    obtain ⟨hvalue, hinfo, hshndx⟩ := sym_congr (a := header + (img.sections t).offset + 16 * k)
      fun x hlo hhi => hsame x (Or.inr (Or.inr (Or.inr ⟨t, ht, by omega, by omega⟩)))
    rw [hvalue, hinfo, hshndx]
    exact h.sym t k ht hk

theorem Image.mem_entries {i j : Nat} : (i, j) ∈ img.entries ↔ img.IsEntry i j := by
  simp only [Image.entries, List.mem_flatMap, List.mem_range, Image.IsEntry, Image.IsRel]
  constructor
  · rintro ⟨i', hi', hmem⟩
    by_cases htype : (img.sections i').type = shtRel
    · rw [if_pos htype, List.mem_map] at hmem
      obtain ⟨j', hj', heq⟩ := hmem
      obtain ⟨rfl, rfl⟩ := Prod.mk.inj heq
      exact ⟨⟨hi', htype⟩, List.mem_range.mp hj'⟩
    · rw [if_neg htype] at hmem
      exact absurd hmem List.not_mem_nil
  · rintro ⟨⟨hi, htype⟩, hj⟩
    refine ⟨i, hi, ?_⟩
    rw [if_pos htype, List.mem_map]
    exact ⟨j, List.mem_range.mpr hj, rfl⟩

end

end Elf
end Medusa
