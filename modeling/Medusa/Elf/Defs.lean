import Medusa.Heap.Defs

/-!
# Loading a relocatable object

`elf_load_rel` of `elf.c` and what it calls, on byte memory.  The object lies at
`header`; pointers into it are formed as the code forms them, in 32 bits, and every
field is read again where the code reads it again.  An error is the value -1 in
place of a symbol's value.
-/

namespace Medusa
namespace Elf

open Machine Kernel

/-! ## Fields -/

def eEntry (m : Mem) (header : Nat) : Nat := read32 m (header + 24)

def eShoff (m : Mem) (header : Nat) : Nat := read32 m (header + 32)

def eShnum (m : Mem) (header : Nat) : Nat := read16 m (header + 48)

def shType (m : Mem) (shdr : Nat) : Nat := read32 m (shdr + 4)

def shFlags (m : Mem) (shdr : Nat) : Nat := read32 m (shdr + 8)

def shOffset (m : Mem) (shdr : Nat) : Nat := read32 m (shdr + 16)

def shSize (m : Mem) (shdr : Nat) : Nat := read32 m (shdr + 20)

def shLink (m : Mem) (shdr : Nat) : Nat := read32 m (shdr + 24)

def shInfo (m : Mem) (shdr : Nat) : Nat := read32 m (shdr + 28)

def shEntsize (m : Mem) (shdr : Nat) : Nat := read32 m (shdr + 36)

def stName (m : Mem) (sym : Nat) : Nat := read32 m sym

def stValue (m : Mem) (sym : Nat) : Nat := read32 m (sym + 4)

def stInfo (m : Mem) (sym : Nat) : Nat := (m (sym + 12)).toNat

def stShndx (m : Mem) (sym : Nat) : Nat := read16 m (sym + 14)

def rOffset (m : Mem) (rel : Nat) : Nat := read32 m rel

def rInfo (m : Mem) (rel : Nat) : Nat := read32 m (rel + 4)

def elfRSym (info : Nat) : Nat := info >>> 8

def elfRType (info : Nat) : Nat := info % 256

def elfStBind (info : Nat) : Nat := info >>> 4

def shtNobits : Nat := 8

def shtRel : Nat := 9

def shfAlloc : Nat := 2

def stbWeak : Nat := 2

/-- `SHN_ABS`, for which the header file says that its value is not known. -/
def shnAbs : Nat := 1

/-- `ELF_RELOC_ERR` as a word. -/
def elfRelocErr : Nat := 0xFFFFFFFF

/-! ## Sections -/

def elfSheader (m : Mem) (header : Nat) : Nat := wrap (header + eShoff m header)

/-- `&shdr[idx]`. -/
def shdrAt (shdr idx : Nat) : Nat := wrap (shdr + 40 * idx)

def elfSection (m : Mem) (header idx : Nat) : Nat := shdrAt (elfSheader m header) idx

/-! ## Symbols -/

/-- No symbol is ever found. -/
def elfLookupSymbol (_name : Nat) : Nat := 0

/-- `idx` is passed as a `uint8_t`. -/
def elfGetSymval (m : Mem) (header table idx : Nat) : Nat :=
  let idx := idx % 256
  if table = 0 ∨ idx = 0 then 0
  else
    let symtab := elfSection m header table
    if shSize m symtab / shEntsize m symtab ≤ idx then elfRelocErr
    else
      let symbol := wrap (wrap (header + shOffset m symtab) + 16 * idx)
      if stShndx m symbol = 0 then
        let strtab := elfSection m header (shLink m symtab)
        let name := wrap (header + shOffset m strtab + stName m symbol)
        let target := elfLookupSymbol name
        if target = 0 then
          if elfStBind (stInfo m symbol) &&& stbWeak ≠ 0 then 0 else elfRelocErr
        else target
      else if stShndx m symbol = shnAbs then stValue m symbol
      else
        let target := elfSection m header (stShndx m symbol)
        wrap (header + stValue m symbol + shOffset m target)

/-! ## One relocation -/

/-- The result and the memory afterwards. -/
def elfDoReloc (m : Mem) (header rel reltab : Nat) : Nat × Mem :=
  let target := elfSection m header (shInfo m reltab)
  let addr := wrap (header + shOffset m target)
  let ref := wrap (addr + rOffset m rel)
  let sym := elfRSym (rInfo m rel)
  let symval := if sym ≠ 0 then elfGetSymval m header (shLink m reltab) sym else 0
  if sym ≠ 0 ∧ symval = elfRelocErr then (elfRelocErr, m)
  else
    match elfRType (rInfo m rel) with
    | 0 => (symval, m)
    | 1 => (symval, write32 m ref (symval + read32 m ref))
    | 2 => (symval, write32 m ref (wsub (wrap (symval + read32 m ref)) ref))
    | _ => (elfRelocErr, m)

/-! ## The two stages -/

/-- A section that appears in memory and is not in the file gets zeroed memory. -/
def stage1Section (header sec : Nat) (st : Heap.State) : Except Stop Heap.State :=
  if shType st.mem sec = shtNobits ∧ shSize st.mem sec ≠ 0 ∧
      shFlags st.mem sec &&& shfAlloc ≠ 0 then do
    let (mem, st) ← Heap.kmalloc st (shSize st.mem sec)
    let cleared := Libc.memset st.mem mem 0#8 (shSize st.mem sec)
    return { st with mem := write32 cleared (sec + 16) (wsub mem header) }
  else return st

/-- The rounds from `i` on.  `e_shnum` has 16 bits, so 65536 rounds are enough. -/
def stage1Loop (header shdr : Nat) : Nat → Nat → Heap.State → Except Stop Heap.State
  | 0, _, st => .ok st
  | fuel + 1, i, st =>
    if i < eShnum st.mem header then do
      let st ← stage1Section header (shdrAt shdr i) st
      stage1Loop header shdr fuel (i + 1) st
    else .ok st

def elfLoadStage1 (st : Heap.State) (header : Nat) : Except Stop Heap.State :=
  stage1Loop header (elfSheader st.mem header) 65536 0 st

/-- The entries of a relocation section from `idx` on; the error holds the memory.
A quotient of words is below 2^32, so that many rounds are enough. -/
def relocLoop (header sec : Nat) : Nat → Nat → Mem → Except Mem Mem
  | 0, _, m => .ok m
  | fuel + 1, idx, m =>
    if idx < shSize m sec / shEntsize m sec then
      let reltab := wrap (wrap (header + shOffset m sec) + 8 * idx)
      let (result, m) := elfDoReloc m header reltab sec
      if result = elfRelocErr then .error m else relocLoop header sec fuel (idx + 1) m
    else .ok m

def stage2Loop (header shdr : Nat) : Nat → Nat → Mem → Except Mem Mem
  | 0, _, m => .ok m
  | fuel + 1, i, m =>
    if i < eShnum m header then
      let sec := shdrAt shdr i
      if shType m sec = shtRel then do
        let m ← relocLoop header sec (2 ^ 32) 0 m
        stage2Loop header shdr fuel (i + 1) m
      else stage2Loop header shdr fuel (i + 1) m
    else .ok m

def elfLoadStage2 (m : Mem) (header : Nat) : Except Mem Mem :=
  stage2Loop header (elfSheader m header) 65536 0 m

/-- The pointer returned and the state afterwards. -/
def elfLoadRel (st : Heap.State) (header : Nat) : Except Stop (Nat × Heap.State) := do
  let st ← elfLoadStage1 st header
  match elfLoadStage2 st.mem header with
  | .error m => return (0, { st with mem := m })
  | .ok m => return (eEntry m header, { st with mem := m })

end Elf
end Medusa
