import Medusa.Heap.Session
import Medusa.Paging.Lookup

/-!
# The framebuffer window

`init_fb` reserves a heap block of the size of the framebuffer on a page boundary
and replaces the entries of its pages.  It counts whole pages only: the bytes of a
last, partial page stay the heap's.

The heap keeps its bytes in a memory of its own, as before; what its first use does
to the page tables is `mapHeap`.
-/

namespace Medusa
namespace Fb

open Machine Kernel Paging

/-- The fields of `multiboot_tag_framebuffer_common` that `init_fb` reads. -/
structure Tag where
  framebufferAddr : Nat
  framebufferPitch : Nat
  framebufferWidth : Nat
  framebufferHeight : Nat
  framebufferBpp : Nat

/-- `fb_t`. -/
structure FbInfo where
  address : Nat
  pitch : Nat
  width : Nat
  height : Nat
  bpp : Nat

structure State where
  paging : Paging.State
  heap : Heap.State

/-! ## The code -/

/-- The first allocation also gets and maps the pages of the heap. -/
def mapHeap (s : State) : Except Stop State :=
  if s.heap.top = 0 then do
    let (heapPhys, pmm) := Pmm.pmmAllocPages s.paging.pmm (Heap.heapSize / 0x1000)
    let p ← pagingMapPages { s.paging with pmm := pmm } Heap.heapBegin heapPhys
      (Heap.heapSize / 0x1000) pageRw
    return { s with paging := p }
  else return s

def kamalloc (s : State) (size align : Nat) : Except Stop (Nat × State) := do
  let s ← mapHeap s
  let (p, h) ← Heap.kamalloc s.heap size align
  return (p, { s with heap := h })

/-- A round of the loop of `init_fb`. -/
def remapPage (s : Paging.State) (buff address i : Nat) : Except Stop Paging.State := do
  let (p, s) ← pagingGetPage s (wrap (buff + 4096 * i)) false 0
  store s p (wrap (address + 4096 * i) ||| 1 ||| pageRw)

/-- The rounds from `i` on. -/
def remapLoop (s : Paging.State) (buff address i : Nat) : Nat → Except Stop Paging.State
  | 0 => .ok s
  | rounds + 1 => do
    let s ← remapPage s buff address i
    remapLoop s buff address (i + 1) rounds

/-- `fb` as `init_fb` leaves it. -/
def Tag.info (tag : Tag) (buff : Nat) : FbInfo where
  address := buff
  pitch := tag.framebufferPitch
  width := tag.framebufferWidth
  height := tag.framebufferHeight
  bpp := tag.framebufferBpp

def Tag.size (tag : Tag) : Nat := wrap (tag.framebufferHeight * tag.framebufferPitch)

/-- A depth other than 32 bits is only logged. -/
def initFb (s : State) (tag : Tag) : Except Stop (FbInfo × State) := do
  let address := wrap tag.framebufferAddr
  let (buff, s) ← kamalloc s tag.size 0x1000
  let p ← remapLoop s.paging buff address 0 (tag.size / 0x1000)
  return (tag.info buff, { s with paging := p })

/-! ## The loop -/

/-- Every address of the heap has a table. -/
def HeapTables (s : Paging.State) : Prop :=
  ∀ v, Heap.heapBegin ≤ v → v < Heap.heapLimit → present (s.pde (directoryIndex v)) = true ∧
    large (s.pde (directoryIndex v)) = false

/-- `t` is `s` with the first `n` pages from `buff` on replaced. -/
structure Remapped (s : Paging.State) (buff address n : Nat) (t : Paging.State) : Prop where
  edits : Edits s t (Set.Ico (buff / 4096) (buff / 4096 + n)) 0
  dirs : ∀ i, i < 1024 → t.pde i = s.pde i
  pages : ∀ k, k < n →
    t.pte (directoryIndex (buff + 4096 * k)) (tableIndex (buff + 4096 * k)) =
      rangeEntry address pageRw k

variable {s t : Paging.State} {buff address n i v : Nat}

theorem Remapped.zero (h : s.Ready) (buff address : Nat) : Remapped s buff address 0 s where
  edits := (Edits.refl h).mono (by simp)
  dirs := fun _ _ => rfl
  pages := fun k hk => absurd hk (Nat.not_lt_zero k)

/-- One store into the table of the page. -/
theorem remapPage_eq (h : s.Ready) (hv : (buff + 4096 * i) % 4096 = 0)
    (hlt : buff + 4096 * i < 0xFFC00000)
    (hp : present (s.pde (directoryIndex (buff + 4096 * i))) = true) (address : Nat) :
    remapPage s buff address i =
      .ok { s with mem := write32 s.mem (frame (s.pde (directoryIndex (buff + 4096 * i))) +
        4 * tableIndex (buff + 4096 * i)) (rangeEntry address pageRw i) } := by
  have hi := directoryIndex_lt hlt
  rw [remapPage, wrap_of_lt (show buff + 4096 * i < 2 ^ 32 by omega),
    getPage_present h.recursive hv (by omega) hp false]
  exact store_entry h.recursive (by omega) hp (tableIndex_lt _) _

section

variable (htables : HeapTables s) (hbuff : buff % 4096 = 0) (hlow : Heap.heapBegin ≤ buff)
  (haddr : address % 4096 = 0)
include htables hbuff hlow haddr

theorem Remapped.next (h : Remapped s buff address i t)
    (hhigh : buff + 4096 * (i + 1) ≤ Heap.heapLimit) :
    ∃ u, remapPage t buff address i = .ok u ∧ Remapped s buff address (i + 1) u := by
  have hlimit : Heap.heapLimit = 0xC2200000 := rfl
  have hi := directoryIndex_lt (show buff + 4096 * i < 0xFFC00000 by omega)
  have hj := tableIndex_lt (buff + 4096 * i)
  have hready := h.edits.ready
  have htable : ∀ k, k < i + 1 → present (t.pde (directoryIndex (buff + 4096 * k))) = true := by
    intro k hk
    have hk' := directoryIndex_lt (show buff + 4096 * k < 0xFFC00000 by omega)
    rw [h.dirs _ (by omega)]
    exact (htables _ (by omega) (by omega)).1
  have hpt := htable i (Nat.lt_succ_self i)
  refine ⟨_, remapPage_eq hready (by omega) (by omega) hpt address, ?_⟩
  have hstore := edits_store (p := t.pmm) hready hi hpt hj (rangeEntry address pageRw i) 0
  rw [index_page] at hstore
  have hself := hready.write_pte hi hpt hj (rangeEntry address pageRw i)
  rw [Nat.mod_eq_of_lt (rangeEntry_spec haddr pageRw i).1] at hself
  have hpde := fun {k : Nat} (hk : k < 1024) => pde_congr (hready.agree_outside hi hpt
    fun x hx => table_write_outside hj (rangeEntry address pageRw i) hx) hk
  refine ⟨(h.edits.trans hstore).mono fun p hp => ?_, fun k hk => (hpde hk).trans (h.dirs k hk),
    fun k hk => ?_⟩
  · rw [Set.mem_union, Set.mem_singleton_iff, Set.mem_Ico] at hp
    rw [Set.mem_Ico]
    omega
  · by_cases hki : k = i
    · rw [hki]
      exact hself
    · -- the pages before keep their entries
      rw [← h.pages k (by omega)]
      refine hstore.kept _ _ (directoryIndex_lt (by omega)) (tableIndex_lt _) ?_ (htable k hk)
      rw [index_page, Set.mem_singleton_iff]
      omega

theorem remapLoop_remapped (h : Remapped s buff address i t)
    (hhigh : buff + 4096 * (i + n) ≤ Heap.heapLimit) :
    ∃ u, remapLoop t buff address i n = .ok u ∧ Remapped s buff address (i + n) u := by
  induction n generalizing i t with
  | zero => exact ⟨t, rfl, h⟩
  | succ n ih =>
    have hsum : i + 1 + n = i + (n + 1) := by omega
    have hle : 4096 * (i + 1) ≤ 4096 * (i + (n + 1)) := Nat.mul_le_mul_left _ (by omega)
    obtain ⟨u, hrun, hnext⟩ := h.next htables hbuff hlow haddr
      (Nat.le_trans (Nat.add_le_add_left hle buff) hhigh)
    obtain ⟨w, hrest, hw⟩ := ih hnext (hsum ▸ hhigh)
    refine ⟨w, ?_, by rwa [Nat.add_right_comm] at hw⟩
    rw [remapLoop, hrun]
    exact hrest

end

/-! ## What is seen after it -/

/-- The rest of the address space translates as before: entries of the directory are
not touched, so the window shows what it showed. -/
theorem Remapped.translate_outside (h : Remapped s buff address n t) (hs : s.Ready)
    (hbuff : buff % 4096 = 0) (hout : v < buff ∨ buff + 4096 * n ≤ v) (hlt : v < 2 ^ 32) :
    t.translate v = s.translate v := by
  by_cases hwin : v < 0xFFC00000
  · refine h.edits.translate_outside (Or.inl (by decide)) hwin ?_
    rw [Set.mem_Ico]
    omega
  · have hlast : directoryIndex v = 1023 := by
      rw [directoryIndex_eq]
      omega
    have hs1 : s.pte 1023 (tableIndex v) = s.pde (tableIndex v) := hs.recursive.pte_eq _
    have ht1 : t.pte 1023 (tableIndex v) = t.pde (tableIndex v) :=
      h.edits.ready.recursive.pte_eq _
    rw [State.translate_eq, State.translate_eq, hlast, hs1, ht1, h.dirs _ (tableIndex_lt v),
      h.dirs 1023 (by decide)]

/-- What a lookup in page `k` of the block gives: the frame asked for, or behind the
pages that were replaced the entry there was. -/
theorem Remapped.lookup (h : Remapped s buff address n t) (htables : HeapTables s)
    (hbuff : buff % 4096 = 0) (hlow : Heap.heapBegin ≤ buff) (haddr : address % 4096 = 0)
    {o : Nat} (hhigh : buff + o < Heap.heapLimit) :
    pagingVirtToPhys t (buff + o) =
      .ok (wrap ((if o / 4096 < n then wrap (address + 4096 * (o / 4096))
        else frame (s.pte (directoryIndex (buff + 4096 * (o / 4096)))
          (tableIndex (buff + 4096 * (o / 4096))))) + o % 4096)) := by
  have hlimit : Heap.heapLimit = 0xC2200000 := rfl
  have hi := directoryIndex_lt (show buff + o < 0xFFC00000 by omega)
  have htable := (htables (buff + o) (by omega) hhigh).1
  have hdir : directoryIndex (buff + 4096 * (o / 4096)) = directoryIndex (buff + o) := by
    rw [directoryIndex_eq, directoryIndex_eq]
    omega
  have htab : tableIndex (buff + 4096 * (o / 4096)) = tableIndex (buff + o) := by
    rw [tableIndex_eq, tableIndex_eq]
    omega
  rw [virtToPhys_eq h.edits.ready.recursive (by omega)
    (by rw [h.dirs _ (by omega)]; exact htable), hdir, htab,
    show (buff + o) % 4096 = o % 4096 by omega]
  by_cases hk : o / 4096 < n
  · have hpage := h.pages _ hk
    rw [hdir, htab] at hpage
    rw [if_pos hk, hpage, (rangeEntry_spec haddr pageRw _).2.1]
  · have hkept := h.edits.kept (directoryIndex (buff + o)) (tableIndex (buff + o)) hi
      (tableIndex_lt _) (by rw [index_page, Set.mem_Ico]; omega) htable
    rw [if_neg hk, hkept]

/-! ## The block -/

/-- A kernel that can call `init_fb`: its page tables can be edited, its heap is the
work of sane calls, and the heap's range has tables if the heap is in use.  If it is
not, nothing is mapped there yet, and tables for it come from unused frames. -/
structure Hosted (s : State) : Prop where
  ready : s.paging.Ready
  heap : ∃ session, Heap.Reachable Heap.Sane session ∧ session.heap = s.heap
  tables : s.heap.top ≠ 0 → HeapTables s.paging
  clear : s.heap.top = 0 → ∀ v, Heap.heapBegin ≤ v → v < Heap.heapLimit →
    s.paging.translate v = none
  supplied : s.heap.top = 0 → ∀ heapPhys pmm,
    Pmm.pmmAllocPages s.paging.pmm (Heap.heapSize / 0x1000) = (heapPhys, pmm) →
      SuppliedRange { s.paging with pmm := pmm } Heap.heapBegin heapPhys
        (Heap.heapSize / 0x1000) pageRw

theorem pmmAllocPages_aligned {p q : Pmm.State} {num addr : Nat}
    (h : Pmm.pmmAllocPages p num = (addr, q)) : addr % 4096 = 0 ∧ addr < 2 ^ 32 := by
  have haddr : addr = (Pmm.pmmAllocPages p num).1 := by rw [h]
  rw [haddr, Pmm.pmmAllocPages]
  by_cases hfew : wsub p.maxBlocks p.usedBlocks < num
  · rw [if_pos hfew]
    exact ⟨rfl, Nat.two_pow_pos 32⟩
  · rw [if_neg hfew]
    by_cases hnone : Pmm.mmapFindFreeFrame p num = 0
    · simp only [if_pos hnone]
      exact ⟨trivial, Nat.two_pow_pos 32⟩
    · simp only [if_neg hnone]
      refine ⟨?_, wrap_lt _⟩
      rw [wrap]
      omega

/-- What the first use of the heap leaves of translation. -/
def SameOutside (s t : Paging.State) : Prop :=
  ∀ v, v < 0xFFC00000 → v < Heap.heapBegin ∨ Heap.heapLimit ≤ v → t.translate v = s.translate v

/-- Mapping the pages of the heap makes its tables; none is a 4 MiB page. -/
theorem mapPages_tables {heapPhys : Nat} (h : s.Ready) (hal : heapPhys % 4096 = 0)
    (hlt : heapPhys < 2 ^ 32)
    (hclear : ∀ v, Heap.heapBegin ≤ v → v < Heap.heapLimit → s.translate v = none)
    (hsup : SuppliedRange s Heap.heapBegin heapPhys (Heap.heapSize / 0x1000) pageRw)
    (hrun : pagingMapPages s Heap.heapBegin heapPhys (Heap.heapSize / 0x1000) pageRw = .ok t) :
    t.Ready ∧ HeapTables t ∧ SameOutside s t := by
  have hbegin : Heap.heapBegin = 0xC0400000 := rfl
  have hlimit : Heap.heapLimit = 0xC2200000 := rfl
  have hnum : Heap.heapSize / 0x1000 = 7680 := rfl
  rw [hnum] at hsup hrun
  have hfree : ∀ k, k < 7680 → ¬ Mapped s (Heap.heapBegin + 4096 * k) := fun k hk =>
    not_mapped_of_translate (hclear _ (by omega) (by omega))
  obtain ⟨t', hrun', hedits, hpages⟩ := mapPages_edits h (by decide) (by decide) hal hlt hsup hfree
  obtain rfl := Except.ok.inj (hrun.symm.trans hrun')
  refine ⟨hedits.ready, fun v hlo hhi => ?_, fun v hlt hout =>
    hedits.translate_outside (Or.inl (by decide)) hlt (by rw [Set.mem_Ico]; omega)⟩
  have hi := directoryIndex_lt (show v < 0xFFC00000 by omega)
  have hdir : directoryIndex (Heap.heapBegin + 4096 * ((v - Heap.heapBegin) / 4096)) =
      directoryIndex v := by
    rw [directoryIndex_eq, directoryIndex_eq]
    omega
  have hp : present (t.pde (directoryIndex v)) = true := by
    rw [← hdir]
    exact (hpages _ (by omega)).1
  refine ⟨hp, ?_⟩
  cases hps : present (s.pde (directoryIndex v)) with
  | true =>
    rw [hedits.dirs _ (by omega) hps]
    exact small_of_translate (hclear v hlo hhi) hps
  | false => exact hedits.created_small (Or.inl (by decide)) (by omega) hps hp

theorem mapHeap_tables {s s' : State} (h : Hosted s) (hrun : mapHeap s = .ok s') :
    s'.heap = s.heap ∧ s'.paging.Ready ∧ HeapTables s'.paging ∧
      SameOutside s.paging s'.paging ∧ (s.heap.top ≠ 0 → s'.paging = s.paging) := by
  by_cases htop : s.heap.top = 0
  · rw [mapHeap, if_pos htop] at hrun
    have hclear := h.clear htop
    have hsup := h.supplied htop
    generalize hpages : Pmm.pmmAllocPages s.paging.pmm (Heap.heapSize / 0x1000) = r at *
    obtain ⟨heapPhys, pmm⟩ := r
    obtain ⟨p, hmap, hrun⟩ := bind_eq_ok hrun
    rw [← Except.ok.inj hrun]
    obtain ⟨hal, hlt⟩ := pmmAllocPages_aligned hpages
    obtain ⟨hready, htables, hsame⟩ := mapPages_tables (s := { s.paging with pmm := pmm }) h.ready
      hal hlt hclear (hsup heapPhys pmm rfl) hmap
    exact ⟨rfl, hready, htables, hsame, fun hne => absurd htop hne⟩
  · rw [mapHeap, if_neg htop] at hrun
    rw [← Except.ok.inj hrun]
    exact ⟨rfl, h.ready, h.tables htop, fun _ _ _ => rfl, fun _ => rfl⟩

/-- What `init_fb` relies on in the block it gets. -/
structure Block (s s' : State) (size buff : Nat) : Prop where
  ready : s'.paging.Ready
  tables : HeapTables s'.paging
  outside : SameOutside s.paging s'.paging
  same : s.heap.top ≠ 0 → s'.paging = s.paging
  aligned : buff % 4096 = 0
  low : Heap.heapBegin ≤ buff
  high : buff + size ≤ Heap.heapLimit

theorem kamalloc_block {s s' : State} {size buff : Nat} (h : Hosted s)
    (hsize : size ≤ Heap.heapSize) (hrun : kamalloc s size 0x1000 = .ok (buff, s')) :
    Block s s' size buff := by
  have haligns : Heap.Aligns 0x1000 := ⟨by decide, by decide, by decide⟩
  obtain ⟨s₁, hmap, hrun⟩ := bind_eq_ok hrun
  obtain ⟨⟨p, heap⟩, halloc, hrun⟩ := bind_eq_ok hrun
  obtain ⟨rfl, rfl⟩ := Prod.mk.inj (Except.ok.inj hrun)
  obtain ⟨hheap, hready, htables, houtside, hsame⟩ := mapHeap_tables h hmap
  obtain ⟨session, hreach, hsession⟩ := h.heap
  obtain ⟨blocks, hinv⟩ := Heap.reachable_invariant hreach
  have hrep : Heap.Rep s₁.heap blocks := by
    rw [hheap, ← hsession]
    exact hinv.rep
  obtain ⟨b, blocks', -, hall, rfl, hroom, hrep', -⟩ := Heap.alignedAlloc_allocated hrep haligns
    (Or.inr (Heap.uncut_of_modest hrep haligns hsize)) halloc
  have hplaced := hrep'.laid.placed b hall.mem
  have hlow := hplaced.low
  have hhigh := hplaced.high
  refine ⟨hready, htables, houtside, hsame, hall.aligned, ?_, ?_⟩
  · simp only [Heap.Block.data]
    omega
  · simp only [Heap.Block.data]
    omega

/-! ## When the remapping is complete -/

/-- The framebuffer is behind its window, and nothing else has moved. -/
structure Complete (s t : Paging.State) (buff address size : Nat) : Prop where
  mapped : ∀ o, o < size → pagingVirtToPhys t (buff + o) = .ok (address + o)
  frame : ∀ v, v < 2 ^ 32 → v < buff ∨ buff + roundUp size 0x1000 ≤ v →
    t.translate v = s.translate v

/-- The framebuffer ends on a page boundary, or the heap's page at its end is by
chance the right one. -/
def TailServed (s : Paging.State) (buff address size : Nat) : Prop :=
  size % 0x1000 = 0 ∨
    frame (s.pte (directoryIndex (buff + 4096 * (size / 4096)))
      (tableIndex (buff + 4096 * (size / 4096)))) = address + 4096 * (size / 4096)

theorem Remapped.complete_iff {size : Nat} (h : Remapped s buff address (size / 4096) t)
    (hs : s.Ready) (htables : HeapTables s) (hbuff : buff % 4096 = 0)
    (hlow : Heap.heapBegin ≤ buff) (hhigh : buff + size ≤ Heap.heapLimit)
    (haddr : address % 4096 = 0) :
    Complete s t buff address size ↔
      (size = 0 ∨ address + size ≤ 2 ^ 32) ∧ TailServed s buff address size := by
  have hround := le_roundUp (n := size) (show 0 < 0x1000 by decide)
  have hlookup := fun {o : Nat} (ho : o < size) =>
    h.lookup htables hbuff hlow haddr (o := o) (by omega)
  constructor
  · intro hcomplete
    have hfit : size = 0 ∨ address + size ≤ 2 ^ 32 := by
      rcases Nat.eq_zero_or_pos size with hzero | hpos
      · exact Or.inl hzero
      · have hlast := hcomplete.mapped (size - 1) (by omega)
        rw [hlookup (by omega)] at hlast
        have hcut : address + (size - 1) < 2 ^ 32 := by
          rw [← Except.ok.inj hlast]
          exact wrap_lt _
        omega
    refine ⟨hfit, ?_⟩
    by_cases hmod : size % 0x1000 = 0
    · exact Or.inl hmod
    · have htail := hcomplete.mapped (4096 * (size / 4096)) (by omega)
      rw [hlookup (by omega), Nat.mul_div_cancel_left _ (by decide), if_neg (Nat.lt_irrefl _),
        Nat.mul_mod_right, Nat.add_zero, wrap_of_lt (frame_spec (s.pte_lt _ _)).2] at htail
      exact Or.inr (Except.ok.inj htail)
  · intro hgood
    obtain ⟨hfit, htail⟩ := hgood
    refine ⟨fun o ho => ?_, fun v hlt hout => ?_⟩
    · have hpage : (if o / 4096 < size / 4096 then wrap (address + 4096 * (o / 4096))
          else frame (s.pte (directoryIndex (buff + 4096 * (o / 4096)))
            (tableIndex (buff + 4096 * (o / 4096))))) = address + 4096 * (o / 4096) := by
        by_cases hk : o / 4096 < size / 4096
        · rw [if_pos hk, wrap_of_lt (by omega)]
        · have hlast : o / 4096 = size / 4096 := by omega
          rw [if_neg hk, hlast]
          exact htail.resolve_left (by omega)
      rw [hlookup ho, hpage, wrap_of_lt (by omega)]
      congr 1
      omega
    · refine h.translate_outside hs hbuff ?_ hlt
      omega

theorem initFb_remapped {s s' : State} {tag : Tag} {buff : Nat} (h : Hosted s)
    (hsize : tag.size ≤ Heap.heapSize) (haddr : tag.framebufferAddr % 0x1000 = 0)
    (hlt : tag.framebufferAddr < 2 ^ 32)
    (hblock : kamalloc s tag.size 0x1000 = .ok (buff, s')) :
    ∃ t, initFb s tag = .ok (tag.info buff, { s' with paging := t }) ∧
      Remapped s'.paging buff tag.framebufferAddr (tag.size / 4096) t := by
  have hb := kamalloc_block h hsize hblock
  have hhigh : buff + 4096 * (0 + tag.size / 0x1000) ≤ Heap.heapLimit := by
    have hfit := hb.high
    omega
  obtain ⟨t, hrun, hremap⟩ := remapLoop_remapped hb.tables hb.aligned hb.low haddr
    (.zero hb.ready buff tag.framebufferAddr) hhigh
  rw [Nat.zero_add] at hremap
  refine ⟨t, ?_, hremap⟩
  rw [initFb, wrap_of_lt hlt, hblock, ok_bind]
  simp only [hrun, ok_bind]
  rfl

/-- **When remapping is complete.**  For every framebuffer smaller than the heap and
every kernel in which `kamalloc` succeeds, `init_fb` returns, and its window shows the
framebuffer exactly if that lies below 4 GiB and ends on a page boundary, or the page
of the heap at its end is by chance the right one.  The first use of the heap has
mapped the heap itself before. -/
theorem initFb_complete_iff {s s' : State} {tag : Tag} {buff : Nat} (h : Hosted s)
    (hsize : tag.framebufferHeight * tag.framebufferPitch < Heap.heapSize)
    (haddr : tag.framebufferAddr % 0x1000 = 0) (hlt : tag.framebufferAddr < 2 ^ 32)
    (hblock : kamalloc s (tag.framebufferHeight * tag.framebufferPitch) 0x1000 = .ok (buff, s')) :
    SameOutside s.paging s'.paging ∧ (s.heap.top ≠ 0 → s'.paging = s.paging) ∧
      ∃ fb t, initFb s tag = .ok (fb, t) ∧ fb.address = buff ∧
        (Complete s'.paging t.paging buff tag.framebufferAddr
            (tag.framebufferHeight * tag.framebufferPitch) ↔
          (tag.framebufferHeight * tag.framebufferPitch = 0 ∨ tag.framebufferAddr +
              tag.framebufferHeight * tag.framebufferPitch ≤ 2 ^ 32) ∧
            TailServed s'.paging buff tag.framebufferAddr
              (tag.framebufferHeight * tag.framebufferPitch)) := by
  have hheap : Heap.heapSize = 0x1E00000 := rfl
  have htag : tag.size = tag.framebufferHeight * tag.framebufferPitch := wrap_of_lt (by omega)
  rw [← htag] at hblock hsize ⊢
  have hb := kamalloc_block h (Nat.le_of_lt hsize) hblock
  obtain ⟨t, hrun, hremap⟩ := initFb_remapped h (Nat.le_of_lt hsize) haddr hlt hblock
  exact ⟨hb.outside, hb.same, _, _, hrun, rfl,
    hremap.complete_iff hb.ready hb.tables hb.aligned hb.low hb.high haddr⟩

/-! ## A kernel with its heap in use -/

/-- The directory at 0x108000: blank tables for the heap, and the recursive entry. -/
def hostMem : Mem :=
  [(0x108C04, 0x200003), (0x108C08, 0x201003), (0x108C0C, 0x202003), (0x108C10, 0x203003),
    (0x108C14, 0x204003), (0x108C18, 0x205003), (0x108C1C, 0x206003), (0x108C20, 0x207003),
    (0x108FFC, 0x108003)].foldl (fun m w => write32 m w.1 w.2) fun _ => 0#8

theorem hostMem_pde : (∀ k, k < 8 → Machine.pde hostMem 0x108000 (769 + k) = 0x200003 + 4096 * k) ∧
    Machine.pde hostMem 0x108000 1023 = 0x108003 := by decide +kernel

theorem hostMem_clear {x : Nat} (h : x < 0x108C04 ∨ 0x108C24 ≤ x)
    (hslot : x < 0x108FFC ∨ 0x109000 ≤ x) : hostMem x = 0#8 := by
  simp only [hostMem, List.foldl_cons, List.foldl_nil]
  rw [write32_outside (by omega), write32_outside (by omega), write32_outside (by omega),
    write32_outside (by omega), write32_outside (by omega), write32_outside (by omega),
    write32_outside (by omega), write32_outside (by omega), write32_outside (by omega)]

theorem hostMem_read {a : Nat} (h : a + 4 ≤ 0x108C04 ∨ 0x108C24 ≤ a)
    (hslot : a + 4 ≤ 0x108FFC ∨ 0x109000 ≤ a) : read32 hostMem a = 0 := by
  have hzero : Agree (fun _ => 0#8) hostMem a (a + 4) := fun x hlo hhi =>
    hostMem_clear (by omega) (by omega)
  exact (read32_congr hzero).trans rfl

def hostPaging : Paging.State := { pmm := freeBlock 2048, mem := hostMem, cr3 := 0x108000 }

theorem hostPaging_tables : ∀ k, k < 8 → present (0x200003 + 4096 * k) = true ∧
    large (0x200003 + 4096 * k) = false ∧ frame (0x200003 + 4096 * k) = 0x200000 + 4096 * k := by
  decide

/-- The entries of its directory. -/
theorem hostPaging_cases (hi : i < 1024) (hp : present (hostPaging.pde i) = true) :
    (769 ≤ i ∧ frame (hostPaging.pde i) = 0x200000 + 4096 * (i - 769) ∧ i < 777) ∨
      (i = 1023 ∧ frame (hostPaging.pde i) = 0x108000) := by
  by_cases hlast : i = 1023
  · refine Or.inr ⟨hlast, ?_⟩
    rw [hlast, show hostPaging.pde 1023 = 0x108003 from hostMem_pde.2]
    decide
  · by_cases hrange : 769 ≤ i ∧ i < 777
    · have hpde := hostMem_pde.1 (i - 769) (by omega)
      rw [show 769 + (i - 769) = i by omega] at hpde
      refine Or.inl ⟨hrange.1, ?_, hrange.2⟩
      rw [show hostPaging.pde i = _ from hpde]
      exact (hostPaging_tables _ (by omega)).2.2
    · have hblank : read32 hostMem (0x108000 + 4 * i) = 0 := hostMem_read (by omega) (by omega)
      rw [show hostPaging.pde i = 0 from hblank] at hp
      cases hp

theorem hostPaging_ready : hostPaging.Ready := by
  have hslot : Machine.pde hostPaging.mem hostPaging.cr3 1023 = 0x108003 := hostMem_pde.2
  refine ⟨⟨rfl, by decide, by rw [hslot]; decide, by rw [hslot]; decide, by rw [hslot]; decide⟩, ?_⟩
  intro i j hi hj hne hpi hpj
  have hcases := hostPaging_cases hi hpi
  have hcases' := hostPaging_cases hj hpj
  show frame (hostPaging.pde i) ≠ frame (hostPaging.pde j)
  omega

theorem hostPaging_heapTables : HeapTables hostPaging := by
  have hbegin : Heap.heapBegin = 0xC0400000 := rfl
  have hlimit : Heap.heapLimit = 0xC2200000 := rfl
  intro v hlo hhi
  have hdir := directoryIndex_eq v
  have hpde : hostPaging.pde (directoryIndex v) = 0x200003 + 4096 * (directoryIndex v - 769) := by
    have hk := hostMem_pde.1 (directoryIndex v - 769) (by omega)
    rw [show 769 + (directoryIndex v - 769) = directoryIndex v by omega] at hk
    exact hk
  obtain ⟨hp, hl, -⟩ := hostPaging_tables (directoryIndex v - 769) (by omega)
  rw [hpde]
  exact ⟨hp, hl⟩

/-- No page of the heap has an entry. -/
theorem hostPaging_blank (hlo : Heap.heapBegin ≤ v) (hhi : v < Heap.heapLimit) :
    hostPaging.pte (directoryIndex v) (tableIndex v) = 0 := by
  have hbegin : Heap.heapBegin = 0xC0400000 := rfl
  have hlimit : Heap.heapLimit = 0xC2200000 := rfl
  have hdir := directoryIndex_eq v
  have hj := tableIndex_lt v
  have hp := (hostPaging_heapTables v hlo hhi).1
  have hcases := hostPaging_cases (by omega) hp
  show read32 hostMem (frame (hostPaging.pde (directoryIndex v)) + 4 * tableIndex v) = 0
  exact hostMem_read (by omega) (by omega)

/-- The heap after a first `kmalloc(64)`. -/
def usedHeap : Heap.State :=
  match Heap.kmalloc (Heap.start fun _ => 0#8).heap 64 with
  | .ok (_, h) => h
  | .error _ => (Heap.start fun _ => 0#8).heap

theorem usedHeap_run : ∃ p, Heap.kmalloc (Heap.start fun _ => 0#8).heap 64 = .ok (p, usedHeap) := by
  have hsome : (Heap.kmalloc (Heap.start fun _ => 0#8).heap 64).toOption.isSome = true := by
    decide +kernel
  cases hrun : Heap.kmalloc (Heap.start fun _ => 0#8).heap 64 with
  | error e =>
    rw [hrun] at hsome
    cases hsome
  | ok r => exact ⟨r.1, by rw [usedHeap, hrun]⟩

theorem usedHeap_reachable : ∃ session, Heap.Reachable Heap.Sane session ∧
    session.heap = usedHeap := by
  obtain ⟨p, hrun⟩ := usedHeap_run
  have hsane : Heap.Sane (Heap.start fun _ => 0#8) (.kmalloc 64) :=
    Or.inr (Heap.uncut_of_modest (Heap.invariant_start _).rep Heap.aligns_four (by decide))
  exact ⟨_, ⟨_, .single (.call (.kmalloc 64) hsane hrun)⟩, rfl⟩

def hosted : State := { paging := hostPaging, heap := usedHeap }

theorem hosted_top : hosted.heap.top ≠ 0 := by
  have htop : usedHeap.top = 0xC040000C := by decide +kernel
  show usedHeap.top ≠ 0
  rw [htop]
  decide

theorem hosted_hosted : Hosted hosted where
  ready := hostPaging_ready
  heap := usedHeap_reachable
  tables := fun _ => hostPaging_heapTables
  clear := fun h => absurd h hosted_top
  supplied := fun h => absurd h hosted_top

theorem hosted_kamalloc (size : Nat)
    (h : (Heap.kamalloc usedHeap size 0x1000).toOption.isSome = true) :
    ∃ buff s', kamalloc hosted size 0x1000 = .ok (buff, s') := by
  cases hrun : Heap.kamalloc usedHeap size 0x1000 with
  | error e =>
    rw [hrun] at h
    cases h
  | ok r =>
    refine ⟨r.1, { hosted with heap := r.2 }, ?_⟩
    rw [kamalloc, mapHeap, if_neg hosted_top]
    show (do
      let (p, h) ← Heap.kamalloc usedHeap size 0x1000
      return (p, { hosted with heap := h })) = _
    rw [hrun]
    rfl

/-- 1024 by 768 pixels of 32 bits are 768 pages. -/
def tag1024x768 : Tag where
  framebufferAddr := 0xFD000000
  framebufferPitch := 4096
  framebufferWidth := 1024
  framebufferHeight := 768
  framebufferBpp := 32

theorem initFb_complete_1024x768 : ∃ buff s' fb t,
    kamalloc hosted (768 * 4096) 0x1000 = .ok (buff, s') ∧ initFb hosted tag1024x768 = .ok (fb, t) ∧
      Complete s'.paging t.paging buff 0xFD000000 (768 * 4096) := by
  obtain ⟨buff, s', hblock⟩ := hosted_kamalloc (768 * 4096) (by decide +kernel)
  have hsize : tag1024x768.framebufferHeight * tag1024x768.framebufferPitch < Heap.heapSize := by
    decide
  obtain ⟨-, -, fb, t, hrun, -, hiff⟩ := initFb_complete_iff hosted_hosted hsize (by decide)
    (by decide) hblock
  exact ⟨buff, s', fb, t, hblock, hrun, hiff.mpr ⟨Or.inr (by decide), Or.inl (by decide)⟩⟩

/-- 800 by 600 pixels of 32 bits are 468 pages and three quarters. -/
def tag800x600 : Tag where
  framebufferAddr := 0xFD000000
  framebufferPitch := 3200
  framebufferWidth := 800
  framebufferHeight := 600
  framebufferBpp := 32

theorem initFb_800x600 : Hosted hosted ∧ ∃ buff s' fb t,
    kamalloc hosted (600 * 3200) 0x1000 = .ok (buff, s') ∧ initFb hosted tag800x600 = .ok (fb, t) ∧
      ¬ Complete s'.paging t.paging buff 0xFD000000 (600 * 3200) := by
  have hsize : tag800x600.size = 600 * 3200 := by decide
  obtain ⟨buff, s', hblock⟩ := hosted_kamalloc (600 * 3200) (by decide +kernel)
  have hb := kamalloc_block hosted_hosted (by decide) hblock
  rw [← hsize] at hblock
  obtain ⟨t, hrun, hremap⟩ := initFb_remapped hosted_hosted
    (show tag800x600.size ≤ Heap.heapSize by decide) (by decide) (by decide) hblock
  rw [hsize] at hblock hremap
  refine ⟨hosted_hosted, buff, s', _, _, hblock, hrun, fun hcomplete => ?_⟩
  obtain ⟨-, htail⟩ := (hremap.complete_iff hb.ready hb.tables hb.aligned hb.low hb.high
    (by decide)).mp hcomplete
  have hhigh := hb.high
  have hlow := hb.low
  have hpaging : s'.paging = hostPaging := hb.same hosted_top
  rcases htail with hmod | hframe
  · exact absurd hmod (by decide)
  · rw [hpaging, hostPaging_blank (by omega) (by omega)] at hframe
    exact absurd hframe (by decide)

end Fb
end Medusa
