import Medusa.Kernel.Misc
import Medusa.Machine.Memory

/-!
# The Multiboot2 information block

GRUB leaves a block in memory: a total size, then 8-aligned tags, the last of
type 0.  The readers below are the fields of the packed structures of
`multiboot2_internal.h`, and `mb2_find_tag` is the walk of `multiboot2.c`.

`BootInfo` is a well-formed block.  Its tags are given by their addresses, and
the proofs it carries say that these are the addresses a walk meets.
-/

namespace Medusa
namespace Multiboot

open Machine Kernel

/-! ## Fields -/

def totalSize (m : Mem) (boot : Nat) : Nat := read32 m boot

def tagType (m : Mem) (tag : Nat) : Nat := read32 m tag

def tagSize (m : Mem) (tag : Nat) : Nat := read32 m (tag + 4)

def modStart (m : Mem) (tag : Nat) : Nat := read32 m (tag + 8)

def modEnd (m : Mem) (tag : Nat) : Nat := read32 m (tag + 12)

def entrySize (m : Mem) (tag : Nat) : Nat := read32 m (tag + 8)

/-- `mb2_mmap_entry_t`, without its reserved word. -/
structure Entry where
  baseAddr : Nat
  length : Nat
  type : Nat
deriving DecidableEq, Repr

def readEntry (m : Mem) (ent : Nat) : Entry where
  baseAddr := read64 m ent
  length := read64 m (ent + 8)
  type := read32 m (ent + 16)

/-- `MB2_MMAP_AVAIL`. -/
def Entry.Avail (e : Entry) : Prop := e.type = 1

instance (e : Entry) : Decidable e.Avail := inferInstanceAs (Decidable (e.type = 1))

/-! ## Walking the tags -/

/-- The step every walk makes: past the tag, rounded up to eight bytes. -/
def nextTag (m : Mem) (tag : Nat) : Nat := wrap (tag + alignTo (tagSize m tag) 8)

def findTagLoop (m : Mem) (type : Nat) : Nat → Nat → Except Stop Nat
  | 0, _ => .error .fuel
  | fuel + 1, tag =>
    if tagType m tag = type then .ok tag
    else if tagType m tag ≠ 0 then findTagLoop m type fuel (nextTag m tag)
    else .ok 0

/-- `mb2_find_tag`; the null pointer is 0.  A tag takes at least eight bytes of
the block, so the block's size is more rounds than a well-formed one needs. -/
def mb2FindTag (m : Mem) (boot type : Nat) : Except Stop Nat :=
  findTagLoop m type (totalSize m boot) (boot + 8)

/-- The tags met from `a` on are those at the addresses `tags`, and the end tag
that follows them lies below `limit`. -/
def TagChain (m : Mem) (limit : Nat) : Nat → List Nat → Prop
  | a, [] => tagType m a = 0 ∧ a + 8 ≤ limit
  | a, t :: rest =>
    t = a ∧ tagType m a ≠ 0 ∧ 8 ≤ tagSize m a ∧
      TagChain m limit (a + roundUp (tagSize m a) 8) rest

/-- A well-formed information block in memory. -/
structure BootInfo where
  mem : Mem
  addr : Nat
  tags : List Nat
  /-- The first memory-map tag. -/
  mmap : Nat
  aligned : addr % 8 = 0
  fits : addr + totalSize mem addr < 2 ^ 32
  chain : TagChain mem (addr + totalSize mem addr) (addr + 8) tags
  mmap_first : tags.find? (fun t => tagType mem t = 6) = some mmap
  entry_size : 24 ≤ entrySize mem mmap
  entries_fit : 16 ≤ tagSize mem mmap ∧ (tagSize mem mmap - 16) % entrySize mem mmap = 0
  modules_ordered : ∀ t ∈ tags, tagType mem t = 3 → modStart mem t ≤ modEnd mem t

/-- A memory that holds the words `ws` from `base` on, and zero elsewhere. -/
def wordsAt (base : Nat) (ws : List Nat) : Mem := fun a =>
  if a < base then 0#8
  else BitVec.ofNat 8 (ws.getD ((a - base) / 4) 0 / 2 ^ (8 * ((a - base) % 4)))

namespace BootInfo

/-- The number of memory-map entries. -/
def entryCount (info : BootInfo) : Nat :=
  (tagSize info.mem info.mmap - 16) / entrySize info.mem info.mmap

def entryAddr (info : BootInfo) (i : Nat) : Nat :=
  info.mmap + 16 + i * entrySize info.mem info.mmap

/-- The memory map. -/
def entries (info : BootInfo) : List Entry :=
  (List.range info.entryCount).map fun i => readEntry info.mem (info.entryAddr i)

/-- The entries of type `MB2_MMAP_AVAIL`. -/
def available (info : BootInfo) : List Entry := info.entries.filter fun e => e.Avail

/-- The module tags. -/
def modules (info : BootInfo) : List Nat := info.tags.filter fun t => tagType info.mem t = 3

theorem mem_available {info : BootInfo} {e : Entry} :
    e ∈ info.available ↔ e ∈ info.entries ∧ e.Avail := by
  simp [available]

end BootInfo

theorem nextTag_eq {m : Mem} {limit a : Nat} {rest : List Nat} (hlimit : limit ≤ 2 ^ 32)
    (h : TagChain m limit (a + roundUp (tagSize m a) 8) rest) :
    nextTag m a = a + roundUp (tagSize m a) 8 := by
  have hbound : ∀ (l : List Nat) (b : Nat), TagChain m limit b l → b + 8 ≤ limit := by
    intro l
    induction l with
    | nil => exact fun b hb => hb.2
    | cons t l ih =>
      intro b hb
      have := ih _ hb.2.2.2
      omega
  have hlast := hbound rest _ h
  unfold nextTag
  rw [alignTo_eq (by decide) (by omega), wrap_of_lt (by omega)]

/-- A chain of `n` tags takes at least `8 * n` bytes. -/
theorem TagChain.length_le {m : Mem} {limit : Nat} :
    ∀ {tags : List Nat} {a : Nat}, TagChain m limit a tags → a + 8 * tags.length + 8 ≤ limit
  | [], _, h => by simpa using h.2
  | t :: rest, a, h => by
    have hrest := h.2.2.2.length_le
    have hround : tagSize m a ≤ roundUp (tagSize m a) 8 := le_roundUp (by decide)
    have hsize := h.2.2.1
    simp only [List.length_cons]
    omega

/-- Every tag of a chain lies below the limit, with its header. -/
theorem TagChain.mem_bound {m : Mem} {limit : Nat} :
    ∀ {tags : List Nat} {a t : Nat}, TagChain m limit a tags → t ∈ tags →
      a ≤ t ∧ t + tagSize m t + 8 ≤ limit
  | t' :: rest, a, t, h, ht => by
    have hround : tagSize m a ≤ roundUp (tagSize m a) 8 := le_roundUp (by decide)
    rcases List.mem_cons.mp ht with rfl | hin
    · have hrest := h.2.2.2.length_le
      rw [h.1]
      exact ⟨Nat.le_refl _, by omega⟩
    · have hrest := h.2.2.2.mem_bound hin
      exact ⟨by omega, hrest.2⟩

theorem findTagLoop_chain {m : Mem} {limit type : Nat} (hlimit : limit < 2 ^ 32) (htype : type ≠ 0) :
    ∀ {tags : List Nat} {a fuel : Nat}, TagChain m limit a tags → tags.length < fuel →
      findTagLoop m type fuel a =
        .ok ((tags.find? (fun t => tagType m t = type)).getD 0)
  | [], a, fuel + 1, h, _ => by
    rw [findTagLoop, h.1, if_neg (Ne.symm htype), if_neg (by simp)]
    rfl
  | t :: rest, a, fuel + 1, h, hfuel => by
    obtain ⟨rfl, hne, hsize, hrest⟩ := h
    rw [findTagLoop]
    by_cases ht : tagType m t = type
    · rw [if_pos ht, List.find?_cons_of_pos (by simpa using ht)]
      rfl
    · rw [if_neg ht, if_pos hne, nextTag_eq hlimit.le hrest,
        findTagLoop_chain hlimit htype hrest (by simpa using hfuel),
        List.find?_cons_of_neg (by simpa using ht)]

namespace BootInfo

variable (info : BootInfo)

theorem rounds : info.tags.length < totalSize info.mem info.addr := by
  have h := info.chain.length_le
  omega

theorem mb2FindTag_mmap : mb2FindTag info.mem info.addr 6 = .ok info.mmap := by
  unfold mb2FindTag
  rw [findTagLoop_chain info.fits (by decide) info.chain info.rounds, info.mmap_first]
  rfl

theorem mmap_mem : info.mmap ∈ info.tags := List.mem_of_find?_eq_some info.mmap_first

theorem tags_ne_nil : info.tags ≠ [] := List.ne_nil_of_mem info.mmap_mem

theorem mmap_bound :
    info.mmap + tagSize info.mem info.mmap + 8 ≤ info.addr + totalSize info.mem info.addr :=
  (info.chain.mem_bound info.mmap_mem).2

/-- The entries fill the rest of the tag exactly. -/
theorem entryCount_mul :
    16 + info.entryCount * entrySize info.mem info.mmap = tagSize info.mem info.mmap := by
  have hdiv := Nat.div_add_mod (tagSize info.mem info.mmap - 16) (entrySize info.mem info.mmap)
  have hmod := info.entries_fit.2
  have hle := info.entries_fit.1
  unfold entryCount
  rw [Nat.mul_comm]
  omega

end BootInfo
end Multiboot
end Medusa
