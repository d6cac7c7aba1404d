import Medusa.Kernel.Misc
import Medusa.Machine.Loop
import Medusa.Machine.Mmu
import Medusa.Pmm.Alloc

/-!
# Page tables

`paging.c` on physical memory.  Every access of the code to the directory or to
a table goes through the address translation that these very structures define,
and an access through an address with no mapping is a fault.
-/

namespace Medusa
namespace Paging

open Machine Kernel Pmm

structure State where
  pmm : Pmm.State
  /-- Physical memory. -/
  mem : Mem
  cr3 : Nat

def pageRw : Nat := 2

def pageUser : Nat := 4

def pageFlags (flags : Nat) : Nat := flags &&& 0xFFF

def kernelBaseVirt : Nat := 0xC0000000

def directoryIndex (x : Nat) : Nat := x >>> 22

def tableIndex (x : Nat) : Nat := (x >>> 12) &&& 0x3FF

/-! ## Memory accesses -/

def load (s : State) (virt : Nat) : Except Stop Nat :=
  match Machine.translate s.mem s.cr3 virt with
  | none => .error .fault
  | some p => .ok (read32 s.mem p)

def store (s : State) (virt v : Nat) : Except Stop State :=
  match Machine.translate s.mem s.cr3 virt with
  | none => .error .fault
  | some p => .ok { s with mem := write32 s.mem p v }

def storeByte (s : State) (virt : Nat) (v : BitVec 8) : Except Stop State :=
  match Machine.translate s.mem s.cr3 virt with
  | none => .error .fault
  | some p => .ok { s with mem := Function.update s.mem p v }

/-- `memset` on a virtual buffer, byte by byte. -/
def memset (s : State) (buf : Nat) (value : BitVec 8) (size : Nat) : Except Stop State :=
  (List.range size).foldlM (fun t i => storeByte t (wrap (buf + i)) value) s

/-! ## Looking up a page -/

/-- Where the recursive entry shows table `dirIndex`. -/
def tableAddr (dirIndex : Nat) : Nat := wrap (0xFFC00000 + (dirIndex <<< 12))

/-- The branch of `paging_get_page_select_dir` that makes a table. -/
def createTable (s : State) (dirIndex flags dir : Nat) : Except Stop State := do
  let (newTable, pmm) ← pmmAllocPage s.pmm
  let s ← store { s with pmm := pmm } (dir + 4 * dirIndex)
    (newTable ||| 1 ||| pageRw ||| pageFlags flags)
  memset s (tableAddr dirIndex) 0#8 4096

/-- The address of the entry for `virt`, null when there is no table. -/
def pagingGetPageSelectDir (s : State) (virt : Nat) (create : Bool) (flags dir : Nat) :
    Except Stop (Nat × State) :=
  if virt % 0x1000 ≠ 0 then .error .abort
  else do
    let dirIndex := directoryIndex virt
    let entry ← load s (dir + 4 * dirIndex)
    let s ← if !present entry && create then createTable s dirIndex flags dir else .ok s
    let entry ← load s (dir + 4 * dirIndex)
    return (if present entry then tableAddr dirIndex + 4 * tableIndex virt else 0, s)

def pagingGetPage (s : State) (virt : Nat) (create : Bool) (flags : Nat) :
    Except Stop (Nat × State) :=
  pagingGetPageSelectDir s virt create flags 0xFFFFF000

/-! ## Mapping -/

def pagingMapPage (s : State) (virt phys flags : Nat) : Except Stop State := do
  let (page, s) ← pagingGetPage s virt true flags
  let entry ← load s page
  if present entry then throw .abort
  store s page (phys ||| 1 ||| pageFlags flags)

def pagingUnmapPage (s : State) (virt : Nat) : Except Stop State := do
  let (page, s) ← pagingGetPage s virt false 0
  if page ≠ 0 then
    let entry ← load s page
    store { s with pmm := pmmFreePage s.pmm (frame entry) } page 0
  else return s

def pagingMapPages (s : State) (virt phys : Nat) : Nat → Nat → Except Stop State
  | 0, _ => .ok s
  | num + 1, flags => do
    let s ← pagingMapPage s virt phys flags
    pagingMapPages s (wrap (virt + 0x1000)) (wrap (phys + 0x1000)) num flags

def pagingUnmapPages (s : State) (virt : Nat) : Nat → Except Stop State
  | 0 => .ok s
  | num + 1 => do
    let s ← pagingUnmapPage s virt
    pagingUnmapPages s (wrap (virt + 0x1000)) num

/-- One round of `paging_alloc_pages`; `none` when the allocator has no page. -/
def pagingAllocPage (s : State) (virt : Nat) : Except Stop (Option Nat × State) := do
  let (page, pmm) ← pmmAllocPage s.pmm
  let s := { s with pmm := pmm }
  if page = 0 then return (none, s)
  let (p, s) ← pagingGetPage s virt true (pageRw ||| pageUser)
  let s ← store s p (page ||| 1 ||| pageRw ||| pageUser)
  return (some page, s)

/-- The rounds `i`, …, `size - 1`; the result is `virt` or the null pointer. -/
def allocLoop (s : State) (virt i : Nat) : Nat → Except Stop (Nat × State)
  | 0 => .ok (virt, s)
  | rounds + 1 => do
    let (page, s) ← pagingAllocPage s (wrap (virt + i * 0x1000))
    match page with
    | none => return (0, s)
    | some _ => allocLoop s virt (i + 1) rounds

def pagingAllocPages (s : State) (virt size : Nat) : Except Stop (Nat × State) :=
  allocLoop s virt 0 size

/-- The address `virt` is mapped to; the null pointer when it has no table. -/
def pagingVirtToPhys (s : State) (virt : Nat) : Except Stop Nat := do
  let (p, s) ← pagingGetPage s (frame virt) false 0
  if p = 0 then return 0
  let entry ← load s p
  return wrap (frame entry + (virt &&& 0xFFF))

/-! ## Start-up -/

def pmmGetKernelEnd (p : Pmm.State) : Nat := wrap (p.kernelEnd + p.maxBlocks / 8)

/-- `init_paging` up to its last loop: the recursive entry, the number of pages
to map and the removal of the boot mapping.  `cr3` holds the physical address of
`kernel_directory`. -/
def preparePaging (s : State) (addr : Nat) : Except Stop (Nat × State) := do
  let kernelDirectory := wrap (s.cr3 + kernelBaseVirt)
  let s ← store s (kernelDirectory + 4 * 1023) (s.cr3 ||| 1 ||| pageRw)
  let totalSize ← load s addr
  let last := maxInt (wrap (addr + totalSize)) (pmmGetKernelEnd s.pmm)
  let s ← memset s kernelDirectory 0#8 ((directoryIndex kernelBaseVirt - 1) * 4)
  return (divideUp last 0x1000, s)

def initPaging (s : State) (addr : Nat) : Except Stop State := do
  let (toMap, s) ← preparePaging s addr
  pagingMapPages s 0 0 toMap pageRw

end Paging
end Medusa
