import Medusa.Heap.Defs
import Medusa.Proc.World

/-!
# Starting a process

`proc_run_code` and the functions it calls, through the page tables.  The heap is
the one of `Heap`, with its first use written out: its pages are allocated and
mapped there.  Argument strings are copied to the new process's stack in the new
directory.
-/

namespace Medusa
namespace Proc

open Machine Kernel Paging Heap

/-! ## The heap -/

def memBlockSize (block : Nat) : Code Nat := do
  let size ← load (wrap (block + 4))
  return wrap (12 + clearFlag size)

/-- The free block before an aligned one, if there is enough space. -/
def insertFiller (next nextAligned : Nat) : Code Unit :=
  if wsub nextAligned next > 12 + 4 then do
    store (wrap (next + 4)) (wsub (wsub nextAligned next) 12)
    let top ← Action.read World.top
    store top next
    Action.modify fun w => { w with top := next }
  else pure ()

def memNewBlock (size align : Nat) : Code Nat := do
  let top ← Action.read World.top
  let blockSize ← memBlockSize top
  let next := wrap (top + blockSize)
  let nextAligned := wsub (alignTo (wrap (next + 8)) align) 8
  store (wrap (nextAligned + 4)) (size ||| 1)
  store nextAligned 0
  insertFiller (wsub (alignTo (wrap (next + 8)) 4) 8) nextAligned
  let top ← Action.read World.top
  store top nextAligned
  Action.modify fun w => { w with top := nextAligned }
  return nextAligned

def findLoop (size align : Nat) : Nat → Nat → Code Nat
  | 0, _ => Action.stop .fuel
  | fuel + 1, block => do
    let word ← load (wrap (block + 4))
    if clearFlag word < size ∨ word &&& 1 ≠ 0 ∨ wrap (block + 8) % align ≠ 0 then do
      let next ← load block
      if next = 0 then return 0 else findLoop size align fuel next
    else return block

def memFindBlock (size align : Nat) : Code Nat := do
  let bottom ← Action.read World.bottom
  if bottom = 0 then return 0 else findLoop size align heapSize bottom

/-- What the first call of `aligned_alloc` does first. -/
def setupHeap : Code Unit := do
  allocMap heapBegin (heapSize / 0x1000) pageRw
  Action.modify fun w => { w with bottom := heapBegin, top := heapBegin }
  store (heapBegin + 4) 1
  store heapBegin 0

def ensureHeap (top : Nat) : Code Unit := if top = 0 then setupHeap else pure ()

def takeBlock (block : Nat) : Code Nat := do
  let word ← load (wrap (block + 4))
  Action.modify fun w => { w with usedMemory := wrap (w.usedMemory + word) }
  store (wrap (block + 4)) (word ||| 1)
  return wrap (block + 8)

/-- The branch of `aligned_alloc` that has found no block. -/
def growHeap (size align : Nat) : Code Nat := do
  let top ← Action.read World.top
  let blockSize ← memBlockSize top
  if heapLimit < wrap (alignTo (wrap (wrap (top + blockSize) + 8)) align + size) then
    Action.stop .abort
  else do
    let block ← memNewBlock size align
    Action.modify fun w => { w with usedMemory := wrap (w.usedMemory + size) }
    return wrap (block + 8)

def alignedAlloc (align size : Nat) : Code Nat := do
  let top ← Action.read World.top
  ensureHeap top
  let block ← memFindBlock (alignTo size 8) align
  if block ≠ 0 then takeBlock block else growHeap (alignTo size 8) align

def kmalloc (size : Nat) : Code Nat := alignedAlloc 4 size

def kamalloc (size align : Nat) : Code Nat := alignedAlloc align size

def kfree (pointer : Nat) : Code Unit :=
  if pointer = 0 then pure ()
  else do
    let block := wrap (wsub pointer 12 + 4)
    let word ← load (wrap (block + 4))
    store (wrap (block + 4)) (clearFlag word)
    Action.modify fun w => { w with usedMemory := wsub w.usedMemory (clearFlag word) }

/-! ## Strings -/

def strlenLoop (str : Nat) : Nat → Nat → Code Nat
  | 0, _ => Action.stop .fuel
  | fuel + 1, len => do
    let c ← loadByte (wrap (str + len))
    if c = 0#8 then return len else strlenLoop str fuel (len + 1)

def strlen (str : Nat) : Code Nat := strlenLoop str (2 ^ 32) 0

def strdup (s : Nat) : Code Nat := do
  let len ← strlen s
  let i := wrap (len + 1)
  let s2 ← kmalloc i
  if s2 ≠ 0 then do
    memcpy s2 s i
    return s2
  else return s2

/-- `while (*src && num--)`; the value is where `dst` has got. -/
def strncpyLoop (dst src : Nat) : Nat → Code Nat
  | 0 => do
    let _ ← loadByte src
    return dst
  | num + 1 => do
    let c ← loadByte src
    if c = 0#8 then return dst
    else do
      storeByte dst c
      strncpyLoop (wrap (dst + 1)) (wrap (src + 1)) num

def strncpy (dst src num : Nat) : Code Unit :=
  if dst ≠ 0 ∧ src ≠ 0 ∧ src ≠ dst then do
    let last ← strncpyLoop dst src num
    storeByte last 0#8
  else pure ()

/-! ## `proc_run_code` -/

def procStackPages : Nat := 4

def procKernelStackPages : Nat := 1

/-- `sizeof(process_t)`: nineteen registers, the directory and a pointer. -/
def processSize : Nat := 84

/-- The number of rounds of a loop up to `argc`, an `int`. -/
def argRounds (argc : Nat) : Nat := (toInt argc).toNat

/-- `temp_page` once it is set. -/
def ensureTempPage (page : Nat) : Code Unit :=
  if page = 0 then do
    let page ← kamalloc 0x1000 0x1000
    Action.modify fun w => { w with tempPage := page }
  else pure ()

def copyArgv (argvCopy argv argc : Nat) : Code Unit :=
  Action.rounds (fun i _ => do
    let arg ← load (wrap (argv + 4 * i))
    let copy ← strdup arg
    store (wrap (argvCopy + 4 * i)) copy) 0 (argRounds argc) ()

/-- The new directory, filled through the temporary mapping: a copy of the current
one with its own recursive entry and nothing below the kernel. -/
def fillDirectory (tempPage pdPhys : Nat) : Code Unit := do
  let p ← pagingGetPage tempPage false 0
  setEntry p (pdPhys ||| 1 ||| pageRw)
  memcpy tempPage 0xFFFFF000 0x1000
  setEntry (wrap (tempPage + 4 * 1023)) (pdPhys ||| 1 ||| pageRw)
  Action.rounds (fun i _ => setEntry (wrap (tempPage + 4 * i)) 0) 0
    (directoryIndex kernelBaseVirt) ()

/-- The directory in use, by its own recursive entry. -/
def currentDirectory : Code Nat := do
  let p ← pagingGetPage 0xFFFFF000 false 0
  let entry ← load p
  return frame entry

/-- One argument goes to the stack; the value is the next free byte. -/
def pushArg (argvCopy argvNew i ustackChar : Nat) : Code Nat := do
  let arg ← load (wrap (argvCopy + 4 * i))
  let len ← strlen arg
  let ustackChar := wsub ustackChar (wsub ustackChar len % 4)
  let dest := wsub ustackChar len
  strncpy dest arg len
  store (wrap (argvNew + 4 * i)) dest
  kfree arg
  return wsub ustackChar (wrap (len + 1))

def pushPointer (argvNew i ustackInt : Nat) : Code Nat := do
  let arg ← load (wrap (argvNew + 4 * i))
  store ustackInt arg
  return wsub ustackInt 4

/-- The arguments on the new stack: the strings, the pointers to them, the array's
address and their number. -/
def pushArgs (argvCopy argc : Nat) : Code Unit := do
  let argvNew ← kmalloc (wrap (4 * argc))
  let ustackChar ← Action.rounds (pushArg argvCopy argvNew) 0 (argRounds argc) (0xC0000000 - 1)
  let ustackInt ← Action.rounds (pushPointer argvNew) 0 (argRounds argc) (ustackChar &&& 0xFFFFFFFC)
  store ustackInt (if argRounds argc ≠ 0 then wrap (ustackInt + 4) else 0)
  store (wsub ustackInt 4) (argRounds argc)

/-- The stack of the process. -/
def mapStack : Code Unit :=
  allocMap (0xC0000000 - 0x1000 * procStackPages) procStackPages (pageUser ||| pageRw)

/-- The code of the process, with the rest of its last page cleared. -/
def mapCode (code size : Nat) : Code Unit := do
  let numCodePages := divideUp size 0x1000
  allocMap 0x1000 numCodePages (pageUser ||| pageRw)
  memcpy 0x1000 code size
  memset (wrap (0x1000 + size)) 0#8 (wsub (wrap (numCodePages * 0x1000)) size)

/-- Everything from the allocation of the directory on. -/
def buildSpace (tempPage process code size argvCopy argc : Nat) : Code Unit := do
  let pdPhys ← pmmAlloc .page
  fillDirectory tempPage pdPhys
  let previousPd ← currentDirectory
  pagingSwitchDirectory pdPhys
  mapCode code size
  mapStack
  pushArgs argvCopy argc
  pagingSwitchDirectory previousPd
  memset process 0#8 processSize
  store (wrap (process + 76)) pdPhys

def procRunCode (code size argv argc : Nat) : Code Nat := do
  let page ← Action.read World.tempPage
  ensureTempPage page
  let tempPage ← Action.read World.tempPage
  let argvCopy ← kmalloc (wrap (4 * argc))
  copyArgv argvCopy argv argc
  let process ← kmalloc processSize
  let _ ← alignedAlloc 4 (0x1000 * procKernelStackPages)
  buildSpace tempPage process code size argvCopy argc
  return process

end Proc
end Medusa
