import Medusa.Elf.Defs
import Medusa.Machine.Access

/-!
# What the loader touches

The trace of `elf_load_rel`: every field that it reads, in the order of the source,
every word and section that it writes, every entry size that it divides by and the
blocks that it gets.  The heap's own headers, the stack and the serial port are not
part of it.  `elf_check_supported` is here too, since it is all that stands between
a module and the loader.
-/

namespace Medusa
namespace Elf

open Machine Kernel

/-! ## The check before loading -/

/-- `header->e_ident[k]`. -/
def eIdent (m : Mem) (header k : Nat) : Nat := (m (header + k)).toNat

def elfCheckFile (m : Mem) (header : Nat) : Bool :=
  if header = 0 then false
  else if eIdent m header 0 ≠ 0x7F then false
  else if eIdent m header 1 ≠ 0x45 then false
  else if eIdent m header 2 ≠ 0x4C then false
  else if eIdent m header 3 ≠ 0x46 then false
  else true

/-- The bytes that `strlen` reads, terminator included. -/
def cstrRead (m : Mem) : Nat → Nat → Nat
  | 0, _ => 0
  | fuel + 1, a => if m a = 0#8 then 1 else cstrRead m fuel (a + 1) + 1

/-- The name of a symbol. -/
def symName (m : Mem) (header symtab symbol : Nat) : Nat :=
  wrap (header + shOffset m (elfSection m header (shLink m symtab)) + stName m symbol)

/-- `elf_get_symval` once the symbol's section number is read.  The message about an
undefined symbol prints its name, of at most 2^32 bytes. -/
def valueTrace (m : Mem) (header symtab symbol : Nat) : List Access :=
  if stShndx m symbol = 0 then
    [.read (symtab + 24) 4, .read (header + 32) 4,
      .read (elfSection m header (shLink m symtab) + 16) 4, .read symbol 4] ++
    if elfLookupSymbol (symName m header symtab symbol) = 0 then
      .read (symbol + 12) 1 ::
        if elfStBind (stInfo m symbol) &&& stbWeak ≠ 0 then []
        else
          let name := symName m header symtab symbol
          [.read name (cstrRead m (2 ^ 32) name)]
    else []
  else if stShndx m symbol = shnAbs then [.read (symbol + 4) 4]
  else [.read (header + 32) 4, .read (symbol + 4) 4,
    .read (elfSection m header (stShndx m symbol) + 16) 4]

/-- The symbol of this number in the table. -/
def symbolAt (m : Mem) (header symtab idx : Nat) : Nat :=
  wrap (wrap (header + shOffset m symtab) + 16 * idx)

def symvalTrace (m : Mem) (header table idx : Nat) : List Access :=
  let idx := idx % 256
  if table = 0 ∨ idx = 0 then []
  else
    let symtab := elfSection m header table
    [.read (header + 32) 4, .read (symtab + 20) 4, .read (symtab + 36) 4,
      .divide (shEntsize m symtab)] ++
    if shSize m symtab / shEntsize m symtab ≤ idx then []
    else
      let symbol := symbolAt m header symtab idx
      [.read (symtab + 16) 4, .read (symbol + 14) 2] ++ valueTrace m header symtab symbol

/-! ## Relocations -/

/-- `ref` of `elf_do_reloc`. -/
def relocSite (m : Mem) (header rel reltab : Nat) : Nat :=
  wrap (wrap (header + shOffset m (elfSection m header (shInfo m reltab))) + rOffset m rel)

/-- `symval` of `elf_do_reloc`. -/
def relocSymval (m : Mem) (header rel reltab : Nat) : Nat :=
  let sym := elfRSym (rInfo m rel)
  if sym ≠ 0 then elfGetSymval m header (shLink m reltab) sym else 0

/-- `elf_do_reloc` returns before it looks at the relocation's type. -/
def NoValue (m : Mem) (header rel reltab : Nat) : Prop :=
  elfRSym (rInfo m rel) ≠ 0 ∧ relocSymval m header rel reltab = elfRelocErr

instance (m : Mem) (header rel reltab : Nat) : Decidable (NoValue m header rel reltab) :=
  inferInstanceAs (Decidable (_ ∧ _))

def relocTrace (m : Mem) (header rel reltab : Nat) : List Access :=
  let sym := elfRSym (rInfo m rel)
  let type := elfRType (rInfo m rel)
  let ref := relocSite m header rel reltab
  [.read (reltab + 28) 4, .read (header + 32) 4,
    .read (elfSection m header (shInfo m reltab) + 16) 4, .read rel 4, .read (rel + 4) 4] ++
  (if sym ≠ 0 then
    .read (reltab + 24) 4 :: symvalTrace m header (shLink m reltab) sym
  else []) ++
  if NoValue m header rel reltab then []
  else if type = 1 ∨ type = 2 then [.read ref 4, .write ref 4]
  else []

/-- Entry `idx` of a relocation section. -/
def entryAt (m : Mem) (header sec idx : Nat) : Nat :=
  wrap (wrap (header + shOffset m sec) + 8 * idx)

def relocLoopTrace (header sec : Nat) : Nat → Nat → Mem → List Access
  | 0, _, _ => []
  | fuel + 1, idx, m =>
    [.read (sec + 20) 4, .read (sec + 36) 4, .divide (shEntsize m sec)] ++
    if idx < shSize m sec / shEntsize m sec then
      let reltab := entryAt m header sec idx
      let (result, m') := elfDoReloc m header reltab sec
      .read (sec + 16) 4 :: relocTrace m header reltab sec ++
        if result = elfRelocErr then [] else relocLoopTrace header sec fuel (idx + 1) m'
    else []

/-! ## The two stages -/

/-- The part of a block that lies in the heap. -/
def blockRoom (st : Heap.State) (mem : Nat) : Nat :=
  min (Heap.capacity st.mem (Heap.memGetBlock mem)) (Heap.heapLimit - mem)

/-- A section that gets memory. -/
def provideTrace (sec : Nat) (st : Heap.State) : List Access :=
  .read (sec + 20) 4 ::
    match Heap.kmalloc st (shSize st.mem sec) with
    | .error _ => []
    | .ok (mem, st') =>
      [.grant mem (blockRoom st' mem), .read (sec + 20) 4, .write mem (shSize st'.mem sec),
        .write (sec + 16) 4, .read (sec + 20) 4]

def stage1SectionTrace (sec : Nat) (st : Heap.State) : List Access :=
  .read (sec + 4) 4 ::
    if shType st.mem sec = shtNobits then
      .read (sec + 20) 4 ::
        if shSize st.mem sec = 0 then []
        else
          .read (sec + 8) 4 ::
            if shFlags st.mem sec &&& shfAlloc ≠ 0 then provideTrace sec st else []
    else []

def stage1LoopTrace (header shdr : Nat) : Nat → Nat → Heap.State → List Access
  | 0, _, _ => []
  | fuel + 1, i, st =>
    .read (header + 48) 2 ::
      if i < eShnum st.mem header then
        stage1SectionTrace (shdrAt shdr i) st ++
          match stage1Section header (shdrAt shdr i) st with
          | .error _ => []
          | .ok st => stage1LoopTrace header shdr fuel (i + 1) st
      else []

def stage1Trace (st : Heap.State) (header : Nat) : List Access :=
  .read (header + 32) 4 :: stage1LoopTrace header (elfSheader st.mem header) 65536 0 st

def stage2LoopTrace (header shdr : Nat) : Nat → Nat → Mem → List Access
  | 0, _, _ => []
  | fuel + 1, i, m =>
    .read (header + 48) 2 ::
      if i < eShnum m header then
        let sec := shdrAt shdr i
        .read (sec + 4) 4 ::
          if shType m sec = shtRel then
            relocLoopTrace header sec (2 ^ 32) 0 m ++
              match relocLoop header sec (2 ^ 32) 0 m with
              | .error _ => []
              | .ok m => stage2LoopTrace header shdr fuel (i + 1) m
          else stage2LoopTrace header shdr fuel (i + 1) m
      else []

def stage2Trace (m : Mem) (header : Nat) : List Access :=
  .read (header + 32) 4 :: stage2LoopTrace header (elfSheader m header) 65536 0 m

def loadRelTrace (st : Heap.State) (header : Nat) : List Access :=
  stage1Trace st header ++
    match elfLoadStage1 st header with
    | .error _ => []
    | .ok st =>
      stage2Trace st.mem header ++
        match elfLoadStage2 st.mem header with
        | .error _ => []
        | .ok _ => [.read (header + 24) 4]

end Elf
end Medusa
