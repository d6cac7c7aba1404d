import Medusa.Machine.Word

/-!
# Segment descriptors

`set_gdt_entry` of `descriptor_tables.c` scatters a base and a limit over the fields of
a descriptor, and the processor gathers them again.  The base survives; of the limit
only twenty bits have a place, counted in bytes or in pages.
-/

namespace Medusa
namespace Irq

/-- `struct gdt_entry`. -/
structure GdtEntry where
  limitLow : BitVec 16
  baseLow : BitVec 16
  baseMiddle : BitVec 8
  access : BitVec 8
  granularity : BitVec 8
  baseHigh : BitVec 8
deriving DecidableEq, Repr

def setGdtEntry (base limit : BitVec 32) (access granularity : BitVec 8) : GdtEntry where
  baseLow := (base &&& 0xFFFF#32).setWidth 16
  baseMiddle := ((base >>> 16) &&& 0xFF#32).setWidth 8
  baseHigh := ((base >>> 24) &&& 0xFF#32).setWidth 8
  limitLow := (limit &&& 0xFFFF#32).setWidth 16
  granularity := ((limit >>> 16) &&& 0x0F#32).setWidth 8 ||| (granularity &&& 0xF0#8)
  access := access

/-! ## What the processor reads -/

namespace GdtEntry

def base (e : GdtEntry) : Nat :=
  e.baseLow.toNat + 2 ^ 16 * e.baseMiddle.toNat + 2 ^ 24 * e.baseHigh.toNat

def limit (e : GdtEntry) : Nat := e.limitLow.toNat + 2 ^ 16 * (e.granularity.toNat % 2 ^ 4)

/-- The flags above the limit: granularity, size, long mode and one bit that is free. -/
def flags (e : GdtEntry) : Nat := e.granularity.toNat / 2 ^ 4

/-- The offset of the last byte of the segment; with the granularity flag the limit
counts pages. -/
def lastByte (e : GdtEntry) : Nat :=
  if e.flags / 8 = 1 then e.limit * 4096 + 4095 else e.limit

/-- The privilege level that the access byte asks for. -/
def privilege (e : GdtEntry) : Nat := e.access.toNat / 2 ^ 5 % 4

end GdtEntry

section Entry

variable (base limit : BitVec 32) (access granularity : BitVec 8)

end Entry

/-! ## The table -/

/-- `sizeof(tss_entry)`. -/
def tssSize : Nat := 104

/-- The entry that `write_tss` sets; the limit it computes is the end of the segment, not
its size. -/
def writeTss (tssEntry : BitVec 32) : GdtEntry :=
  setGdtEntry tssEntry (tssEntry + BitVec.ofNat 32 tssSize) 0xE9#8 0x00#8

/-- `gdt_initialize`, with the task state segment at `tssEntry`. -/
def gdtInitialize (tssEntry : BitVec 32) : List GdtEntry :=
  [setGdtEntry 0#32 0#32 0#8 0#8,                 -- null
   setGdtEntry 0#32 0xFFFFFFFF#32 0x9A#8 0xCF#8,  -- code
   setGdtEntry 0#32 0xFFFFFFFF#32 0x92#8 0xCF#8,  -- data
   setGdtEntry 0#32 0xFFFFFFFF#32 0xFA#8 0xCF#8,  -- ring 3 code
   setGdtEntry 0#32 0xFFFFFFFF#32 0xF2#8 0xCF#8,  -- ring 3 data
   writeTss tssEntry]

/-- The segments for code and data are flat: they begin at zero and end with the address
space, two of them for the kernel and two for user code. -/
theorem gdtInitialize_flat (tssEntry : BitVec 32) :
    ((gdtInitialize tssEntry).map fun e => (e.base, e.lastByte, e.privilege)).take 5 =
      [(0, 0, 0), (0, 2 ^ 32 - 1, 0), (0, 2 ^ 32 - 1, 0), (0, 2 ^ 32 - 1, 3),
        (0, 2 ^ 32 - 1, 3)] := by
  simp only [gdtInitialize, List.map_cons, List.take_succ_cons, List.take_zero]
  decide

end Irq
end Medusa
