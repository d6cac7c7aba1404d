import Medusa.Elf.Load
import Medusa.Elf.Trace
import Medusa.Libc.String

/-!
# Modules that are objects

What `kernel_main` does with a module of the boot loader that is not the initrd: it
copies the module into a block of its own and calls `elf_load_file` on the copy.  All
that an object says is relative to where it lies, so it is relocated in the block as
well as it could have been where the boot loader put it.
-/

namespace Medusa
namespace Elf

open Machine Kernel

/-! ## The code -/

section Move

variable {m m' : Mem} {a b n : Nat} {img : Image}

/-- The `n` bytes at `b` are those that were at `a`. -/
def Copied (m m' : Mem) (a b n : Nat) : Prop := ∀ k, k < n → m' (b + k) = m (a + k)

theorem Copied.read16 (h : Copied m m' a b n) {d : Nat} (hd : d + 2 ≤ n) :
    read16 m' (b + d) = read16 m (a + d) := by
  unfold Machine.read16
  simp only [Nat.add_assoc]
  rw [h d (by omega), h (d + 1) (by omega)]

theorem Copied.read32 (h : Copied m m' a b n) {d : Nat} (hd : d + 4 ≤ n) :
    read32 m' (b + d) = read32 m (a + d) := by
  unfold Machine.read32
  simp only [Nat.add_assoc]
  rw [h d (by omega), h (d + 1) (by omega), h (d + 2) (by omega), h (d + 3) (by omega)]

/-- The tables of an object move with it. -/
theorem Image.tables_move (x : Nat) : img.Tables b (b + x) ↔ img.Tables a (a + x) := by
  have hmove : ∀ c : Nat, (b + c ≤ b + x ↔ a + c ≤ a + x) ∧ (b + x < b + c ↔ a + x < a + c) :=
    fun c => ⟨by omega, by omega⟩
  have hstart : b ≤ b + x ↔ a ≤ a + x := by omega
  simp only [Image.Tables, Nat.add_assoc, hmove, hstart]

/-- Being well formed does not depend on where an object lies. -/
theorem Image.WellFormed.move (hw : img.WellFormed a) (hbound : b + img.len ≤ 2 ^ 32) :
    img.WellFormed b where
  bound := hbound
  shnum_lt := hw.shnum_lt
  headers := hw.headers
  rel := hw.rel
  symtab := hw.symtab
  apart := hw.apart
  symIndex_lt := hw.symIndex_lt
  shndx := hw.shndx
  inside := hw.inside
  site := by
    intro i j hij htype
    obtain ⟨hkind, hoff, hlen, hout⟩ := hw.site i j hij htype
    refine ⟨hkind, hoff, hlen, fun x hlo hhi => ?_⟩
    obtain ⟨y, rfl⟩ : ∃ y, x = b + y := ⟨x - b, by unfold Image.site at hlo; omega⟩
    rw [Image.tables_move (a := a)]
    unfold Image.site at hlo hhi hout
    exact hout (a + y) (by omega) (by omega)

/-- A copy of an object shows the object. -/
theorem Shows.move (h : Shows img m a) (hw : img.WellFormed a)
    (hcopy : Copied m m' a b img.len) : Shows img m' b := by
  have hheaders := hw.headers
  have hword : ∀ p d, p + d + 4 ≤ img.len → read32 m' (b + p + d) = read32 m (a + p + d) := by
    intro p d hd
    rw [Nat.add_assoc, Nat.add_assoc]
    exact hcopy.read32 hd
  constructor
  · exact (hcopy.read32 (by omega)).trans h.entry
  · exact (hcopy.read32 (by omega)).trans h.shoff
  · exact (hcopy.read16 (by omega)).trans h.shnum
  · intro i hi
    have hsec := h.sec i hi
    have hfield : ∀ d, d + 4 ≤ 40 → read32 m' (b + img.shoff + 40 * i + d) =
        read32 m (a + img.shoff + 40 * i + d) := fun d hd => by
      rw [Nat.add_assoc b, Nat.add_assoc a]
      exact hword _ _ (by omega)
    exact ⟨(hfield 4 (by decide)).trans hsec.type, (hfield 8 (by decide)).trans hsec.flags,
      (hfield 16 (by decide)).trans hsec.offset, (hfield 20 (by decide)).trans hsec.size,
      (hfield 24 (by decide)).trans hsec.link, (hfield 28 (by decide)).trans hsec.info,
      (hfield 36 (by decide)).trans hsec.entsize⟩
  · intro i j hij
    obtain ⟨hoff, hinfo⟩ := h.rel i j hij
    obtain ⟨-, hlen, -⟩ := hw.rel i hij.1
    have hj := hij.2
    refine ⟨(hword _ _ (by omega)).trans hoff, ?_⟩
    have hsecond := hword (img.sections i).offset (8 * j + 4) (by omega)
    rw [← Nat.add_assoc, ← Nat.add_assoc] at hsecond
    exact hsecond.trans hinfo
  · intro t k ht hk
    obtain ⟨hvalue, hinfo, hshndx⟩ := h.sym t k ht hk
    obtain ⟨-, -, hlen⟩ := hw.symtab t ht
    have hplace : ∀ c d, c + (img.sections t).offset + 16 * k + d =
        c + ((img.sections t).offset + 16 * k + d) := fun c d => by omega
    refine ⟨Eq.trans ?_ hvalue, Eq.trans ?_ hinfo, Eq.trans ?_ hshndx⟩
    · unfold stValue
      rw [hplace, hplace]
      exact hcopy.read32 (by omega)
    · unfold stInfo
      rw [hplace, hplace, hcopy _ (by omega)]
    · unfold stShndx
      rw [hplace, hplace]
      exact hcopy.read16 (by omega)

end Move

/-! ## Loading a copy -/

section LoadModule

variable {img : Image} {st : Heap.State} {modStart header i j : Nat}

/-- An entry that the code sees as it is wherever the object lies: its symbol, if it is
one of a section of the file, lies in the file. -/
structure Image.Steady (img : Image) (i j : Nat) : Prop extends img.Plain i j where
  held : (img.symbolOf i j).shndx ≠ 0 →
    ¬ (img.sections (img.symbolOf i j).shndx).Allocated →
    (img.sections (img.symbolOf i j).shndx).offset + (img.symbolOf i j).value ≤ img.len

/-- The heap serves a copy of the object, and then what stage 1 asks for. -/
structure Image.CopyRoom (img : Image) (st : Heap.State) : Prop where
  sizes : ∀ n ∈ img.len :: img.requests, n + 7 < 2 ^ 32
  served : ∃ blocks, Heap.Rep st blocks ∧ (Heap.serveAll blocks (img.len :: img.requests)).isSome

/-- The copy lies in a block of its own, and the heap can serve the rest. -/
theorem Image.CopyRoom.copied (hroom : img.CopyRoom st)
    (hout : modStart + img.len ≤ Heap.heapBegin ∨ Heap.heapLimit ≤ modStart) :
    ∃ data st₁, Heap.kmalloc st img.len = .ok (data, st₁) ∧ Heap.heapBegin < data ∧
      data + img.len ≤ Heap.heapLimit ∧
      Copied st.mem (Libc.memcpy st₁.mem data modStart img.len) modStart data img.len ∧
      img.Room data { st₁ with mem := Libc.memcpy st₁.mem data modStart img.len } := by
  obtain ⟨blocks, hrep, hserve⟩ := hroom.served
  obtain ⟨blocks₂, hserve⟩ := Option.isSome_iff_exists.mp hserve
  obtain ⟨⟨b, blocks₁⟩, hfirst, hrest⟩ := Heap.serveAll_cons hserve
  have hsize := hroom.sizes _ List.mem_cons_self
  have haside : Heap.Aside blocks modStart (modStart + img.len) := hout.imp_right Or.inl
  obtain ⟨st₁, hrun, hrep₁, -, hagree, hb, hcap, -⟩ := Heap.kmalloc_aside hrep haside hsize hfirst
  have hall := Heap.allocated_of_allocate hrep.laid (by decide) (by decide)
    (by have := Heap.alignTo_eight_mod img.len; omega) hfirst
  have hplaced := hrep₁.laid.placed b hb
  have hlow := hplaced.low
  have hhigh := hplaced.high
  have hdata : b.data = b.addr + 8 := rfl
  have hown : Heap.Aside blocks₁ b.data (b.data + img.len) :=
    Or.inr (Or.inr ⟨b, hb, hall.used, Nat.le_refl _, by omega⟩)
  refine ⟨b.data, st₁, hrun, by omega, by omega, fun k hk => ?_,
    ⟨fun n hn => hroom.sizes n (List.mem_cons_of_mem _ hn), blocks₁, ?_, hown, ?_⟩⟩
  · rw [Libc.memcpy_apply (by omega) hk]
    exact hagree _ (by omega) (by omega)
  · exact hrep₁.aside hown fun x hx => Libc.memcpy_outside hx
  · rw [hrest]
    rfl

end LoadModule

end Elf
end Medusa
