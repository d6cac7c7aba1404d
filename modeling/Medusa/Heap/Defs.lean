import Medusa.Kernel.Misc
import Medusa.Libc.String

/-!
# The kernel heap

`kmalloc.c` on byte memory.  A block is a header of two words, `next` and
`size`, with its data eight bytes after its start; `sizeof(mem_block_t)` is 12
because of the padded `data[1]`, and the code uses both numbers.  The low bit of
`size` is the used flag.

The region from `KERNEL_HEAP_BEGIN` on is taken to be mapped: the first call of
`aligned_alloc` also allocates and maps its pages, which leaves the block list
alone.
-/

namespace Medusa
namespace Heap

open Machine Kernel Libc

/-- `KERNEL_HEAP_BEGIN`. -/
def heapBegin : Nat := 0xC0400000

/-- `KERNEL_HEAP_SIZE`. -/
def heapSize : Nat := 0x1E00000

def heapLimit : Nat := heapBegin + heapSize

/-- Memory and the static variables of `kmalloc.c`. -/
structure State where
  mem : Mem
  bottom : Nat
  top : Nat
  usedMemory : Nat

/-- `block->next`. -/
def next (m : Mem) (block : Nat) : Nat := read32 m block

/-- `block->size`, flag included. -/
def size (m : Mem) (block : Nat) : Nat := read32 m (block + 4)

/-- `n & ~1`. -/
def clearFlag (n : Nat) : Nat := n &&& 0xFFFFFFFE

/-- `block->size & ~1`. -/
def capacity (m : Mem) (block : Nat) : Nat := clearFlag (size m block)

def setNext (m : Mem) (block v : Nat) : Mem := write32 m block v

def setSize (m : Mem) (block v : Nat) : Mem := write32 m (block + 4) v

def memBlockSize (m : Mem) (block : Nat) : Nat := wrap (12 + capacity m block)

def memGetBlock (pointer : Nat) : Nat := wrap (wsub pointer 12 + 4)

/-- The first two stores of `mem_new_block`. -/
def newHeader (h : State) (block size : Nat) : State :=
  { h with mem := setNext (setSize h.mem block (size ||| 1)) block 0 }

/-- The free block between `top` and an aligned block, if there is enough
space. -/
def insertFiller (h : State) (next nextAligned : Nat) : State :=
  if wsub nextAligned next > 12 + 4 then
    { h with
      mem := setNext (setSize h.mem next (wsub (wsub nextAligned next) 12)) h.top next
      top := next }
  else h

/-- The last two stores of `mem_new_block`. -/
def pushBlock (h : State) (block : Nat) : State :=
  { h with mem := setNext h.mem h.top block, top := block }

def memNewBlock (h : State) (size align : Nat) : Nat × State :=
  let next := wrap (h.top + memBlockSize h.mem h.top)
  let nextAligned := wsub (alignTo (wrap (next + 8)) align) 8
  let h := newHeader h nextAligned size
  let next := wsub (alignTo (wrap (next + 8)) 4) 8
  (nextAligned, pushBlock (insertFiller h next nextAligned) nextAligned)

def memIsAligned (block align : Nat) : Bool := (block + 8) % align = 0

/-- The test of the loop in `mem_find_block`, negated: `block` can serve. -/
def serves (m : Mem) (size align block : Nat) : Bool :=
  !(decide (capacity m block < size) || decide (Heap.size m block &&& 1 ≠ 0) ||
    !memIsAligned block align)

def findLoop (m : Mem) (size align : Nat) : Nat → Nat → Except Stop Nat
  | 0, _ => .error .fuel
  | fuel + 1, block =>
    if serves m size align block then .ok block
    else if next m block = 0 then .ok 0
    else findLoop m size align fuel (next m block)

/-- `mem_find_block`; the null pointer is 0.  Blocks are twelve bytes apart, so
the heap's size is more rounds than a sound list needs. -/
def memFindBlock (h : State) (size align : Nat) : Except Stop Nat :=
  if h.bottom = 0 then .ok 0 else findLoop h.mem size align heapSize h.bottom

/-- The block list at its first use: one used block of size 0. -/
def setup (h : State) : State :=
  if h.top = 0 then
    { h with
      mem := setNext (setSize h.mem heapBegin 1) heapBegin 0
      bottom := heapBegin
      top := heapBegin }
  else h

/-- Where the data of a new block starts: the expression of `aligned_alloc`
before the size is added. -/
def newData (h : State) (align : Nat) : Nat :=
  alignTo (wrap (wrap (h.top + memBlockSize h.mem h.top) + 8)) align

/-- What `aligned_alloc` does to a block that `mem_find_block` found. -/
def takeBlock (h : State) (block : Nat) : State :=
  { h with
    mem := setSize h.mem block (size h.mem block ||| 1)
    usedMemory := wrap (h.usedMemory + size h.mem block) }

def alignedAlloc (h : State) (align size : Nat) : Except Stop (Nat × State) := do
  let size := alignTo size 8
  let h := setup h
  let block ← memFindBlock h size align
  if block ≠ 0 then
    return (block + 8, takeBlock h block)
  else
    if heapLimit < wrap (newData h align + size) then throw .abort
    let (block, h) := memNewBlock h size align
    return (block + 8, { h with usedMemory := wrap (h.usedMemory + size) })

def kmalloc (h : State) (size : Nat) : Except Stop (Nat × State) := alignedAlloc h 4 size

def calloc (h : State) (nmemb size : Nat) : Except Stop (Nat × State) := do
  let (ptr, h) ← kmalloc h (wrap (nmemb * size))
  return (ptr, { h with mem := memset h.mem ptr 0#8 (wrap (nmemb * size)) })

def zalloc (h : State) (size : Nat) : Except Stop (Nat × State) := calloc h 1 size

def kamalloc (h : State) (size align : Nat) : Except Stop (Nat × State) :=
  alignedAlloc h align size

def kfree (h : State) (pointer : Nat) : State :=
  if pointer = 0 then h
  else
    let block := memGetBlock pointer
    let m := setSize h.mem block (clearFlag (size h.mem block))
    { h with mem := m, usedMemory := wsub h.usedMemory (size m block) }

def krealloc (h : State) (ptr size : Nat) : Except Stop (Nat × State) := do
  if ptr = 0 then kmalloc h size
  else if size = 0 then return (0, kfree h ptr)
  else
    let (new, h) ← kmalloc h size
    let h := { h with mem := memcpy h.mem new ptr (capacity h.mem (memGetBlock ptr)) }
    return (new, kfree h ptr)

end Heap
end Medusa
