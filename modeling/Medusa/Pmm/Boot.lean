import Mathlib.Algebra.BigOperators.Group.List.Basic
import Medusa.Multiboot.Info
import Medusa.Pmm.Bitmap

/-!
# Building the bitmap at boot

`init_pmm` finds where the kernel and its modules end, marks every block taken,
clears the blocks of the available regions of the memory map, and takes back
the blocks below that end and those of the information block.

The loops over tags and entries are walks through memory.  On a well-formed
block they are folds over the lists of `BootInfo`, and `Booted` collects what
the bitmap and the counters are afterwards, in terms of those lists alone.
-/

namespace Medusa
namespace Pmm

open Machine Kernel Multiboot

/-- `pmm_init_region`: the last line keeps block 0 from being handed out. -/
def pmmInitRegion (s : State) (addr size : Nat) : State :=
  let baseBlock := addr / 4096
  let num := divideUp (wrap (size + addr % 4096)) 4096
  mmapSet (unsetBlocks s baseBlock num) 0

def pmmDeinitRegion (s : State) (addr size : Nat) : State :=
  let baseBlock := addr / 4096
  let num := divideUp (wrap (size + addr % 4096)) 4096
  setBlocks s baseBlock num

/-- The first loop of `init_pmm`.  It looks at a tag before it asks whether the
next one is the end tag. -/
def moduleLoop (m : Mem) : Nat → Nat → Nat → Except Stop Nat
  | 0, _, _ => .error .fuel
  | fuel + 1, tag, kernelEnd =>
    let kernelEnd := if tagType m tag = 3 then maxInt (modEnd m tag) kernelEnd else kernelEnd
    if tagType m (nextTag m tag) ≠ 0 then moduleLoop m fuel (nextTag m tag) kernelEnd
    else .ok kernelEnd

/-- The loop over the memory map.  Base and length are 64 bits wide and are cut
to 32 when they are passed to `pmm_init_region`. -/
def mmapLoop (m : Mem) (mmap : Nat) : Nat → Nat → State → Nat → Except Stop (State × Nat)
  | 0, _, _, _ => .error .fuel
  | fuel + 1, ent, s, available =>
    if ent < wrap (mmap + tagSize m mmap) then
      let e := readEntry m ent
      let next := wrap (ent + entrySize m mmap)
      if e.Avail then
        mmapLoop m mmap fuel next (pmmInitRegion s (wrap e.baseAddr) (wrap e.length))
          ((available + e.length) % 2 ^ 64)
      else mmapLoop m mmap fuel next s available
    else .ok (s, available)

/-- `memset(bitmap, 0xFF, sizeof(bitmap))`. -/
def fillBitmap (s : State) : State :=
  { s with bitmap := fun i => if i < 32768 then 0xFFFFFFFF#32 else s.bitmap i }

/-- `init_pmm`.  The linker places `KERNEL_END` 0xC0000000 above
`KERNEL_END_PHYS`, and the kernel refuses to start past `KERNEL_END_MAP`. -/
def initPmm (m : Mem) (kernelEndPhys addr : Nat) (s : State) : Except Stop State := do
  let rounds := totalSize m addr
  let modulesEnd ← moduleLoop m rounds (addr + 8) s.kernelEnd
  let kernelEnd := if modulesEnd < kernelEndPhys then kernelEndPhys else modulesEnd
  if 0xC0400000 < kernelEndPhys + 0xC0000000 then throw .abort
  let mmap ← mb2FindTag m addr 6
  let (s, available) ← mmapLoop m mmap rounds (mmap + 16)
    (fillBitmap { s with kernelEnd := kernelEnd }) 0
  let memSize := wrap available
  let maxBlocks := memSize / 4096
  let s := { s with memSize := memSize, maxBlocks := maxBlocks, usedBlocks := maxBlocks }
  let s := pmmDeinitRegion s 0 kernelEnd
  return pmmDeinitRegion s addr (totalSize m addr)

/-- The statics before `init_pmm`: all zero. -/
def State.zero : State where
  bitmap := fun _ => 0#32
  memSize := 0
  usedBlocks := 0
  maxBlocks := 0
  kernelEnd := 0
  strayed := false

/-! ## The lists behind the loops -/

/-- The block in which an entry starts, once its base is cut to 32 bits. -/
def firstBlock (e : Entry) : Nat := wrap e.baseAddr / 4096

/-- The number of blocks cleared for an entry. -/
def numBlocks (e : Entry) : Nat :=
  divideUp (wrap (wrap e.length + wrap e.baseAddr % 4096)) 4096

/-- `init_pmm` clears block `k` on account of entry `e`. -/
def Clears (e : Entry) (k : Nat) : Prop := firstBlock e ≤ k ∧ k < firstBlock e + numBlocks e

instance (e : Entry) (k : Nat) : Decidable (Clears e k) :=
  inferInstanceAs (Decidable (_ ∧ _))

/-- The end of what is protected at the bottom of memory: the kernel image and
the modules that end below 2 GiB. -/
def protectedEnd (info : BootInfo) (kernelEndPhys : Nat) : Nat :=
  max kernelEndPhys
    (((info.modules.map (modEnd info.mem)).filter (· < 2 ^ 31)).foldl max 0)

/-- Block `k` is block 0, lies below the protected end, or meets the information
block. -/
def Reserved (info : BootInfo) (kernelEndPhys k : Nat) : Prop :=
  k = 0 ∨ k * 4096 < protectedEnd info kernelEndPhys ∨
    (info.addr / 4096 ≤ k ∧ k * 4096 < info.addr + totalSize info.mem info.addr)

instance (info : BootInfo) (kernelEndPhys k : Nat) : Decidable (Reserved info kernelEndPhys k) :=
  inferInstanceAs (Decidable (_ ∨ _ ∨ _))

/-- The bytes the available entries add up to. -/
def availableBytes (info : BootInfo) : Nat := (info.available.map Entry.length).sum

/-- The number of `mmap_set` calls that protect the bottom of memory and the
information block. -/
def protectCalls (info : BootInfo) (kernelEndPhys : Nat) : Nat :=
  divideUp (protectedEnd info kernelEndPhys) 4096 +
    divideUp (wrap (totalSize info.mem info.addr + info.addr % 4096)) 4096

/-- What holds when `init_pmm` returns. -/
structure Booted (info : BootInfo) (kernelEndPhys : Nat) (s : State) : Prop where
  maxBlocks : s.maxBlocks = wrap (availableBytes info) / 4096
  kernelEnd : s.kernelEnd = protectedEnd info kernelEndPhys
  used : wrap s.usedBlocks = wrap (s.maxBlocks + protectCalls info kernelEndPhys)
  clear_iff : ∀ k, k < 2 ^ 20 → (taken s k = false ↔
    (∃ e ∈ info.available, Clears e k) ∧ ¬ Reserved info kernelEndPhys k)
  strayed_iff : s.strayed = false ↔ ∀ e ∈ info.available, firstBlock e + numBlocks e ≤ 2 ^ 20

theorem firstBlock_lt (e : Entry) : firstBlock e < 2 ^ 20 := by
  have h := wrap_lt e.baseAddr
  unfold firstBlock
  omega

theorem divideUp_page {n : Nat} (hn : n < 2 ^ 32) : divideUp n 4096 = (n + 4095) / 4096 :=
  divideUp_eq (by decide) hn

theorem numBlocks_le (e : Entry) : numBlocks e ≤ 2 ^ 20 := by
  have h := wrap_lt (wrap e.length + wrap e.baseAddr % 4096)
  unfold numBlocks
  rw [divideUp_page h]
  omega

/-! ## Modules -/

/-- One round of the module loop. -/
def moduleStep (m : Mem) (kernelEnd tag : Nat) : Nat :=
  if tagType m tag = 3 then maxInt (modEnd m tag) kernelEnd else kernelEnd

theorem moduleLoop_chain {m : Mem} {limit : Nat} (hlimit : limit < 2 ^ 32) :
    ∀ {tags : List Nat} {a fuel ke : Nat}, TagChain m limit a tags → tags ≠ [] →
      tags.length ≤ fuel → moduleLoop m fuel a ke = .ok (tags.foldl (moduleStep m) ke)
  | t :: rest, a, fuel + 1, ke, h, _, hfuel => by
    obtain ⟨rfl, hne, hsize, hrest⟩ := h
    rw [moduleLoop, nextTag_eq hlimit.le hrest]
    cases rest with
    | nil =>
      rw [if_neg (by simpa using hrest.1)]
      rfl
    | cons t' rest' =>
      rw [if_pos (by simpa using hrest.2.1),
        moduleLoop_chain hlimit hrest (by simp) (by simpa using hfuel)]
      rfl

/-- The signed comparison lets a module raise the end only when the module ends
below 2 GiB. -/
theorem foldl_moduleStep (m : Mem) : ∀ (tags : List Nat) (ke : Nat), ke < 2 ^ 31 →
    tags.foldl (moduleStep m) ke =
      (((tags.filter fun t => tagType m t = 3).map (modEnd m)).filter (· < 2 ^ 31)).foldl max ke
  | [], _, _ => rfl
  | t :: rest, ke, hke => by
    have hword : modEnd m t < 2 ^ 32 := read32_lt _ _
    rw [List.foldl_cons]
    by_cases ht : tagType m t = 3
    · have hstep : moduleStep m ke t = maxInt (modEnd m t) ke := if_pos ht
      rw [hstep, List.filter_cons_of_pos (by simpa using ht), List.map_cons]
      rcases Nat.lt_or_ge (modEnd m t) (2 ^ 31) with hlow | hhigh
      · rw [List.filter_cons_of_pos (by simpa using hlow), List.foldl_cons,
          maxInt_of_lt hlow hke, Nat.max_comm]
        exact foldl_moduleStep m rest _ (by omega)
      · rw [List.filter_cons_of_neg (by simpa using hhigh), maxInt_of_ge hhigh hword hke]
        exact foldl_moduleStep m rest _ hke
    · have hstep : moduleStep m ke t = ke := if_neg ht
      rw [hstep, List.filter_cons_of_neg (by simpa using ht)]
      exact foldl_moduleStep m rest _ hke

/-! ## Memory map -/

/-- One round of the memory-map loop on the bitmap. -/
def entryStep (s : State) (e : Entry) : State :=
  if e.Avail then pmmInitRegion s (wrap e.baseAddr) (wrap e.length) else s

/-- One round of the memory-map loop on the byte count. -/
def bytesStep (available : Nat) (e : Entry) : Nat :=
  if e.Avail then (available + e.length) % 2 ^ 64 else available

theorem mmapLoop_entries (info : BootInfo) :
    ∀ (n i fuel : Nat) (s : State) (available : Nat), i + n = info.entryCount → n < fuel →
      mmapLoop info.mem info.mmap fuel (info.entryAddr i) s available =
        .ok (((List.range' i n).map fun j => readEntry info.mem (info.entryAddr j)).foldl entryStep s,
          ((List.range' i n).map fun j => readEntry info.mem (info.entryAddr j)).foldl bytesStep
            available)
  | n, i, fuel + 1, s, available, hi, hfuel => by
    have hbound := info.mmap_bound
    have hfits := info.fits
    have hcount := info.entryCount_mul
    have hsize := info.entry_size
    have hend : wrap (info.mmap + tagSize info.mem info.mmap) =
        info.mmap + tagSize info.mem info.mmap := wrap_of_lt (by omega)
    rw [mmapLoop, hend]
    cases n with
    | zero =>
      have hlast : info.entryAddr i = info.mmap + tagSize info.mem info.mmap := by
        unfold BootInfo.entryAddr
        rw [← hcount, show i = info.entryCount by omega]
        omega
      rw [if_neg (by omega)]
      rfl
    | succ n =>
      have hmul : (i + 1) * entrySize info.mem info.mmap ≤
          info.entryCount * entrySize info.mem info.mmap := Nat.mul_le_mul_right _ (by omega)
      have hnext : info.entryAddr i + entrySize info.mem info.mmap = info.entryAddr (i + 1) := by
        unfold BootInfo.entryAddr
        rw [Nat.add_mul]
        omega
      have hle : info.entryAddr (i + 1) ≤ info.mmap + tagSize info.mem info.mmap := by
        unfold BootInfo.entryAddr
        omega
      rw [if_pos (by omega), hnext, wrap_of_lt (by omega), List.range'_succ, List.map_cons,
        List.foldl_cons, List.foldl_cons]
      have ih := mmapLoop_entries info n (i + 1) fuel
      by_cases hav : (readEntry info.mem (info.entryAddr i)).Avail
      · simp only [hav, if_true, entryStep, bytesStep]
        exact ih _ _ (by omega) (by omega)
      · simp only [hav, if_false, entryStep, bytesStep]
        exact ih _ _ (by omega) (by omega)

/-- What clearing the regions of a memory map does to the state. -/
structure Cleared (entries : List Entry) (s t : State) : Prop where
  zero : taken s 0 = true → taken t 0 = true
  clear_iff : ∀ k, k ≠ 0 → (taken t k = false ↔
    taken s k = false ∨ ∃ e ∈ entries, e.Avail ∧ Clears e k)
  kernelEnd : t.kernelEnd = s.kernelEnd
  strayed_iff : t.strayed = false ↔
    s.strayed = false ∧ ∀ e ∈ entries, e.Avail → firstBlock e + numBlocks e ≤ 2 ^ 20

theorem cleared_entry (s : State) (e : Entry) : Cleared [e] s (entryStep s e) := by
  have hfirst := firstBlock_lt e
  have hnum := numBlocks_le e
  unfold entryStep
  by_cases hav : e.Avail
  · rw [if_pos hav]
    show Cleared [e] s (mmapSet (unsetBlocks s (firstBlock e) (numBlocks e)) 0)
    refine ⟨fun _ => ?_, fun k hk => ?_, ?_, ?_⟩
    · simp [taken_mmapSet]
    · rw [taken_mmapSet, taken_unsetBlocks _ (by omega), decide_eq_false hk, Bool.or_false,
        Bool.and_eq_false_iff]
      simp [hav, Clears]
    · exact (sameSizes_unsetBlocks s (by omega)).kernelEnd
    · show ((unsetBlocks s (firstBlock e) (numBlocks e)).strayed || decide (32768 ≤ 0 / 32))
        = false ↔ _
      rw [strayed_unsetBlocks _ (by omega)]
      simp [hav]
      omega
  · rw [if_neg hav]
    exact ⟨id, fun k _ => by simp [hav], rfl, by simp [hav]⟩

theorem Cleared.cons {e : Entry} {l : List Entry} {s t u : State} (h : Cleared [e] s t)
    (h' : Cleared l t u) : Cleared (e :: l) s u where
  zero := fun hz => h'.zero (h.zero hz)
  clear_iff := fun k hk => by
    rw [h'.clear_iff k hk, h.clear_iff k hk]
    simp [or_assoc]
  kernelEnd := h'.kernelEnd.trans h.kernelEnd
  strayed_iff := by
    rw [h'.strayed_iff, h.strayed_iff]
    simp [and_assoc]

theorem foldl_entryStep : ∀ (l : List Entry) (s : State), Cleared l s (l.foldl entryStep s)
  | [], s => ⟨id, fun k _ => by simp, rfl, by simp⟩
  | e :: rest, s => (cleared_entry s e).cons (foldl_entryStep rest (entryStep s e))

theorem foldl_bytesStep : ∀ (l : List Entry) (n : Nat),
    wrap (l.foldl bytesStep n) = wrap (n + ((l.filter fun e => e.Avail).map Entry.length).sum)
  | [], n => by simp
  | e :: rest, n => by
    rw [List.foldl_cons, foldl_bytesStep rest]
    by_cases hav : e.Avail
    · rw [List.filter_cons_of_pos (by simpa using hav), List.map_cons, List.sum_cons]
      simp only [bytesStep, hav, if_true]
      unfold wrap
      omega
    · rw [List.filter_cons_of_neg (by simpa using hav)]
      simp only [bytesStep, hav, if_false]

/-! ## The whole of `init_pmm` -/

theorem protectedEnd_lt (info : BootInfo) (kernelEndPhys : Nat) (h : kernelEndPhys < 2 ^ 32) :
    protectedEnd info kernelEndPhys < 2 ^ 32 := by
  have hfold : ∀ (l : List Nat) (a : Nat), a < 2 ^ 31 →
      (l.filter (· < 2 ^ 31)).foldl max a < 2 ^ 31 := by
    intro l
    induction l with
    | nil => exact fun a ha => ha
    | cons x l ih =>
      intro a ha
      by_cases hx : x < 2 ^ 31
      · rw [List.filter_cons_of_pos (by simpa using hx)]
        exact ih _ (by omega)
      · rw [List.filter_cons_of_neg (by simpa using hx)]
        exact ih _ ha
  have hmods := hfold (info.modules.map (modEnd info.mem)) 0 (by decide)
  unfold protectedEnd
  omega

theorem taken_fillBitmap (s : State) {k : Nat} (hk : k < 2 ^ 20) : taken (fillBitmap s) k = true := by
  unfold taken fillBitmap
  simp only [show k / 32 < 32768 by omega, if_true]
  exact (eq_full_iff _).mp rfl _ (by omega)

/-- The state just before the protected blocks are taken back. -/
def beforeProtect (info : BootInfo) (kernelEndPhys : Nat) : State :=
  let s := info.entries.foldl entryStep
    (fillBitmap { State.zero with kernelEnd := protectedEnd info kernelEndPhys })
  let memSize := wrap (info.entries.foldl bytesStep 0)
  { s with memSize := memSize, maxBlocks := memSize / 4096, usedBlocks := memSize / 4096 }

theorem initPmm_eq (info : BootInfo) (kernelEndPhys : Nat) (h : kernelEndPhys ≤ 0x400000) :
    initPmm info.mem kernelEndPhys info.addr State.zero =
      .ok (pmmDeinitRegion
        (pmmDeinitRegion (beforeProtect info kernelEndPhys) 0 (protectedEnd info kernelEndPhys))
        info.addr (totalSize info.mem info.addr)) := by
  have hrounds := info.rounds
  have hmods : moduleLoop info.mem (totalSize info.mem info.addr) (info.addr + 8) 0 = _ :=
    moduleLoop_chain info.fits info.chain info.tags_ne_nil (Nat.le_of_lt hrounds)
  have hentries := mmapLoop_entries info info.entryCount 0 (totalSize info.mem info.addr)
    (fillBitmap { State.zero with kernelEnd := protectedEnd info kernelEndPhys }) 0 (by omega)
    (by
      have hmul := info.entryCount_mul
      have hbound := info.chain.mem_bound info.mmap_mem
      have hle := Nat.mul_le_mul_left info.entryCount info.entry_size
      omega)
  have hend : (if info.tags.foldl (moduleStep info.mem) 0 < kernelEndPhys then kernelEndPhys
      else info.tags.foldl (moduleStep info.mem) 0) = protectedEnd info kernelEndPhys := by
    rw [foldl_moduleStep info.mem info.tags 0 (by decide)]
    unfold protectedEnd BootInfo.modules
    split <;> omega
  have hzero : info.entryAddr 0 = info.mmap + 16 := by simp [BootInfo.entryAddr]
  have hlist : ((List.range' 0 info.entryCount).map fun j =>
      readEntry info.mem (info.entryAddr j)) = info.entries := by
    rw [← List.range_eq_range']
    rfl
  rw [hzero, hlist] at hentries
  unfold initPmm
  simp only [State.zero] at hentries ⊢
  simp only [hmods, hend, info.mb2FindTag_mmap, hentries, bind, Except.bind, pure, Except.pure,
    if_neg (show ¬ 0xC0400000 < kernelEndPhys + 0xC0000000 by omega)]
  rfl

/-- The number of blocks that `[addr, addr + size)` meets. -/
def span (addr size : Nat) : Nat := (size + addr % 4096 + 4095) / 4096

theorem divideUp_span {addr size : Nat} (h : addr + size < 2 ^ 32) :
    divideUp (wrap (size + addr % 4096)) 4096 = span addr size := by
  rw [wrap_of_lt (by omega), divideUp_page (by omega)]
  rfl

theorem span_bound {addr size : Nat} (h : addr + size < 2 ^ 32) :
    addr / 4096 + span addr size ≤ 2 ^ 20 := by
  unfold span
  omega

/-- Protecting a region below 4 GiB takes exactly the blocks it meets. -/
theorem pmmDeinitRegion_spec (s : State) {addr size : Nat} (h : addr + size < 2 ^ 32) :
    (∀ k, taken (pmmDeinitRegion s addr size) k =
        (taken s k || decide (addr / 4096 ≤ k ∧ k < addr / 4096 + span addr size))) ∧
      wrap (pmmDeinitRegion s addr size).usedBlocks = wrap (s.usedBlocks + span addr size) ∧
      SameSizes s (pmmDeinitRegion s addr size) ∧
      (pmmDeinitRegion s addr size).strayed = s.strayed := by
  have hb := span_bound h
  unfold pmmDeinitRegion
  simp only [divideUp_span h]
  refine ⟨taken_setBlocks s (by omega), usedBlocks_setBlocks s (by omega),
    sameSizes_setBlocks s (by omega), ?_⟩
  rw [strayed_setBlocks s (by omega), decide_eq_false (by omega), Bool.or_false]

/-- What the memory map has cleared when protection starts. -/
theorem taken_beforeProtect (info : BootInfo) (kernelEndPhys : Nat) {k : Nat} (hk : k < 2 ^ 20) :
    taken (beforeProtect info kernelEndPhys) k = false ↔
      k ≠ 0 ∧ ∃ e ∈ info.available, Clears e k := by
  have hcleared := foldl_entryStep info.entries
    (fillBitmap { State.zero with kernelEnd := protectedEnd info kernelEndPhys })
  have hfull := taken_fillBitmap { State.zero with kernelEnd := protectedEnd info kernelEndPhys } hk
  show taken (info.entries.foldl entryStep _) k = false ↔ _
  by_cases hz : k = 0
  · rw [hz] at hfull ⊢
    simp [hcleared.zero hfull]
  · rw [hcleared.clear_iff k hz, hfull]
    simp [hz, BootInfo.mem_available, and_assoc]

/-- The blocks that a protected region meets. -/
theorem mem_span (base size k : Nat) :
    (base / 4096 ≤ k ∧ k < base / 4096 + span base size) ↔
      (base / 4096 ≤ k ∧ k * 4096 < base + size) := by
  unfold span
  omega

/-- `init_pmm` returns on every well-formed block, unless the kernel image is
too large for its first mapping. -/
theorem initPmm_booted (info : BootInfo) (kernelEndPhys : Nat) (h : kernelEndPhys ≤ 0x400000) :
    ∃ s, initPmm info.mem kernelEndPhys info.addr State.zero = .ok s ∧
      Booted info kernelEndPhys s := by
  refine ⟨_, initPmm_eq info kernelEndPhys h, ?_⟩
  have hlt := protectedEnd_lt info kernelEndPhys (by omega)
  have hcleared := foldl_entryStep info.entries
    (fillBitmap { State.zero with kernelEnd := protectedEnd info kernelEndPhys })
  have hsum : wrap (info.entries.foldl bytesStep 0) = wrap (availableBytes info) := by
    rw [foldl_bytesStep, Nat.zero_add]
    rfl
  have hcalls : protectCalls info kernelEndPhys =
      span 0 (protectedEnd info kernelEndPhys) +
        span info.addr (totalSize info.mem info.addr) := by
    unfold protectCalls
    rw [divideUp_span info.fits, divideUp_page hlt]
    rfl
  have hbelow : 0 + protectedEnd info kernelEndPhys < 2 ^ 32 := by omega
  obtain ⟨htaken₁, hused₁, hsame₁, hstray₁⟩ :=
    pmmDeinitRegion_spec (beforeProtect info kernelEndPhys) hbelow
  obtain ⟨htaken₂, hused₂, hsame₂, hstray₂⟩ :=
    pmmDeinitRegion_spec
      (pmmDeinitRegion (beforeProtect info kernelEndPhys) 0 (protectedEnd info kernelEndPhys))
      info.fits
  have hmax : (beforeProtect info kernelEndPhys).maxBlocks = wrap (availableBytes info) / 4096 := by
    rw [← hsum]
    rfl
  refine ⟨?_, ?_, ?_, ?_, ?_⟩
  · rw [hsame₂.maxBlocks, hsame₁.maxBlocks, hmax]
  · rw [hsame₂.kernelEnd, hsame₁.kernelEnd]
    exact hcleared.kernelEnd
  · rw [hused₂, ← wrap_add_wrap, hused₁, wrap_add_wrap, hsame₂.maxBlocks, hsame₁.maxBlocks,
      hcalls, Nat.add_assoc]
    rfl
  · intro k hk
    have hlow : (0 / 4096 ≤ k ∧ k * 4096 < 0 + protectedEnd info kernelEndPhys) ↔
        k * 4096 < protectedEnd info kernelEndPhys := by
      omega
    rw [htaken₂, htaken₁, Bool.or_eq_false_iff, Bool.or_eq_false_iff,
      taken_beforeProtect info kernelEndPhys hk, decide_eq_false_iff_not, decide_eq_false_iff_not,
      mem_span, mem_span, hlow]
    unfold Reserved
    constructor
    · rintro ⟨⟨⟨hz, he⟩, hl⟩, hi⟩
      exact ⟨he, not_or.mpr ⟨hz, not_or.mpr ⟨hl, hi⟩⟩⟩
    · rintro ⟨he, hn⟩
      obtain ⟨hz, hn⟩ := not_or.mp hn
      obtain ⟨hl, hi⟩ := not_or.mp hn
      exact ⟨⟨⟨hz, he⟩, hl⟩, hi⟩
  · rw [hstray₂, hstray₁]
    show (info.entries.foldl entryStep _).strayed = false ↔ _
    rw [hcleared.strayed_iff]
    simp [BootInfo.mem_available, fillBitmap, State.zero, and_imp]

end Pmm
end Medusa
