import Medusa.Heap.Layout

/-!
# First fit on block lists

What an allocation does to the list of blocks, in exact arithmetic and with no
memory in sight.  The first call creates an empty used block, a free block that
fits is taken as it is, and otherwise the list grows by a block at the next
aligned place, with a filler before it when the gap can hold one.
-/

namespace Medusa
namespace Heap

open Machine Kernel Libc

/-- The empty used block the list starts with. -/
def sentinel : Block := { addr := heapBegin, cap := 0, used := true }

def ready : List Block → List Block
  | [] => [sentinel]
  | b :: rest => b :: rest

/-- A free block that can serve a request. -/
def Block.fits (size align : Nat) (b : Block) : Bool :=
  decide (size ≤ b.cap) && !b.used && decide (b.data % align = 0)

def firstFit (blocks : List Block) (size align : Nat) : Option Block :=
  blocks.find? (Block.fits size align)

/-- The first address past the last block, as `mem_block_size` counts it. -/
def frontier (blocks : List Block) : Nat :=
  match blocks.getLast? with
  | none => heapBegin
  | some b => b.addr + 12 + b.cap

/-- Where the data of an appended block starts. -/
def appendAt (blocks : List Block) (align : Nat) : Nat := roundUp (frontier blocks + 8) align

def appended (blocks : List Block) (size align : Nat) : Block :=
  { addr := appendAt blocks align - 8, cap := size, used := true }

def fillerBlock (start stop : Nat) : Block :=
  { addr := start, cap := stop - start - 12, used := false }

/-- The free block that takes the gap from `start` to `stop`, if it is worth it. -/
def filler (start stop : Nat) : List Block :=
  if start + 16 < stop then [fillerBlock start stop] else []

def newBlocks (blocks : List Block) (size align : Nat) : List Block :=
  filler (frontier blocks) (appendAt blocks align - 8) ++ [appended blocks size align]

def grow (blocks : List Block) (size align : Nat) : List Block :=
  blocks ++ newBlocks blocks size align

/-- The block an allocation hands out and the list it leaves. -/
def allocate (blocks : List Block) (size align : Nat) : Option (Block × List Block) :=
  match firstFit (ready blocks) size align with
  | some b => some ({ b with used := true }, (ready blocks).map (Block.mark b.addr true))
  | none =>
    if heapLimit < appendAt (ready blocks) align + size then none
    else some (appended (ready blocks) size align, grow (ready blocks) size align)

def release (blocks : List Block) (addr : Nat) : List Block := blocks.map (Block.mark addr false)

/-! ## The list before the search -/

theorem sentinel_placed : sentinel.Placed := ⟨Nat.le_refl _, by decide, by decide, by decide⟩

theorem ready_ne_nil (blocks : List Block) : ready blocks ≠ [] := by
  cases blocks with
  | nil => exact List.cons_ne_nil _ _
  | cons b rest => exact List.cons_ne_nil _ _

theorem Laid.ready {blocks : List Block} (h : Laid blocks) : Laid (ready blocks) := by
  cases blocks with
  | nil =>
    refine ⟨List.isChain_singleton _, fun b hb => ?_⟩
    rw [List.mem_singleton.mp hb]
    exact sentinel_placed
  | cons b rest => exact h

theorem mem_ready {blocks : List Block} {b : Block} (hb : b ∈ blocks) : b ∈ ready blocks := by
  cases blocks with
  | nil => exact absurd hb List.not_mem_nil
  | cons c rest => exact hb

/-! ## Appending -/

theorem frontier_append_singleton (l : List Block) (b : Block) :
    frontier (l ++ [b]) = b.addr + 12 + b.cap := by
  simp [frontier]

/-- What is known of the end of a list that has a block. -/
theorem Laid.frontier_spec {blocks : List Block} (h : Laid blocks) (hne : blocks ≠ []) :
    frontier blocks % 4 = 0 ∧ frontier blocks ≤ heapLimit + 4 ∧
      ∀ b ∈ blocks, b.addr + 12 + b.cap ≤ frontier blocks := by
  obtain ⟨l, last, rfl⟩ := (List.eq_nil_or_concat blocks).resolve_left hne
  rw [List.concat_eq_append] at h ⊢
  have hlast := h.placed last (List.mem_append_right l List.mem_cons_self)
  have haligned := hlast.aligned
  have hwords := hlast.words
  have hhigh := hlast.high
  rw [frontier_append_singleton]
  refine ⟨by omega, by omega, fun b hb => ?_⟩
  rcases List.mem_append.mp hb with hb | hb
  · have hlt := (List.pairwise_append.mp h.pairwise).2.2 b hb last List.mem_cons_self
    omega
  · rw [List.mem_singleton.mp hb]

variable {blocks : List Block} {size align : Nat}

/-- The place of an appended block, in terms of the end of the list. -/
theorem appendAt_spec (blocks : List Block) (ha : 0 < align) (ha4 : align % 4 = 0) :
    frontier blocks + 8 ≤ appendAt blocks align ∧
      appendAt blocks align < frontier blocks + 8 + align ∧
      appendAt blocks align % align = 0 ∧ appendAt blocks align % 4 = 0 := by
  have hmod : appendAt blocks align % align = 0 := roundUp_mod _ _
  refine ⟨le_roundUp ha, roundUp_lt _ ha, hmod, ?_⟩
  have hdvd : 4 ∣ appendAt blocks align :=
    (Nat.dvd_of_mod_eq_zero ha4).trans (Nat.dvd_of_mod_eq_zero hmod)
  exact Nat.mod_eq_zero_of_dvd hdvd

/-- The appended block, filler included, is laid out as the rest is. -/
theorem Laid.grow_laid (h : Laid blocks) (hne : blocks ≠ []) (ha : 0 < align) (ha4 : align % 4 = 0)
    (hsize : size % 4 = 0) (hroom : appendAt blocks align + size ≤ heapLimit) :
    Laid (grow blocks size align) := by
  obtain ⟨hf4, hflim, hfall⟩ := h.frontier_spec hne
  obtain ⟨hlo, hhi, hmod, hmod4⟩ := appendAt_spec blocks ha ha4
  have hbegin : heapBegin + 12 ≤ frontier blocks := by
    obtain ⟨b, hb⟩ := List.exists_mem_of_ne_nil blocks hne
    have hlow := (h.placed b hb).low
    have hb' := hfall b hb
    omega
  have hnew : (appended blocks size align).Placed := by
    refine ⟨?_, ?_, hsize, ?_⟩ <;> simp only [appended] <;> omega
  have hlast : ∀ (c : Block), frontier blocks ≤ c.addr → c.addr ≤ frontier blocks + 16 →
      ∀ b ∈ blocks.getLast?, b.Follows c := by
    intro c hc hc' b hb
    have hfb : frontier blocks = b.addr + 12 + b.cap := by
      rw [frontier, Option.mem_def.mp hb]
    exact ⟨by omega, by omega⟩
  rw [grow, newBlocks, filler]
  by_cases hgap : frontier blocks + 16 < appendAt blocks align - 8
  · rw [if_pos hgap]
    refine ⟨List.isChain_append.mpr ⟨h.follows, ?_, ?_⟩, ?_⟩
    · refine List.isChain_cons_cons.mpr ⟨⟨?_, ?_⟩, List.isChain_singleton _⟩ <;>
        simp only [appended, fillerBlock] <;> omega
    · intro b hb c hc
      rw [Option.mem_def, List.singleton_append, List.head?_cons, Option.some.injEq] at hc
      rw [← hc]
      exact hlast _ (Nat.le_refl _) (Nat.le_add_right _ 16) b hb
    · intro c hc
      rcases List.mem_append.mp hc with hc | hc
      · exact h.placed c hc
      · rcases List.mem_append.mp hc with hc | hc
        · rw [List.mem_singleton.mp hc]
          refine ⟨?_, ?_, ?_, ?_⟩ <;> simp only [fillerBlock] <;> omega
        · rw [List.mem_singleton.mp hc]
          exact hnew
  · rw [if_neg hgap, List.nil_append]
    refine ⟨List.isChain_append.mpr ⟨h.follows, List.isChain_singleton _, ?_⟩, ?_⟩
    · intro b hb c hc
      rw [Option.mem_def, List.head?_cons, Option.some.injEq] at hc
      rw [← hc]
      refine hlast _ ?_ ?_ b hb <;> simp only [appended] <;> omega
    · intro c hc
      rcases List.mem_append.mp hc with hc | hc
      · exact h.placed c hc
      · rw [List.mem_singleton.mp hc]
        exact hnew

/-! ## What an allocation promises -/

/-- `b` is handed out for a request and the list becomes `blocks'`. -/
structure Allocated (blocks : List Block) (size align : Nat) (b : Block)
    (blocks' : List Block) : Prop where
  laid : Laid blocks'
  mem : b ∈ blocks'
  used : b.used = true
  room : size ≤ b.cap
  aligned : b.data % align = 0
  fresh : ∀ c ∈ blocks, c.addr = b.addr → c.used = false
  grown : ∃ new, blocks' = (ready blocks).map (Block.mark b.addr true) ++ new

/-- A used block is not handed out and stays in the list. -/
theorem Allocated.keeps {b c : Block} {blocks' : List Block}
    (hall : Allocated blocks size align b blocks') (hc : c ∈ blocks) (hused : c.used = true) :
    c ∈ blocks' ∧ c.addr ≠ b.addr := by
  have hne : c.addr ≠ b.addr := by
    intro haddr
    have hfree := hall.fresh c hc haddr
    rw [hused] at hfree
    simp at hfree
  obtain ⟨new, hnew⟩ := hall.grown
  refine ⟨?_, hne⟩
  rw [hnew]
  exact List.mem_append_left _ (List.mem_map.mpr ⟨c, mem_ready hc, Block.mark_of_ne hne⟩)

theorem firstFit_fits {b : Block} (h : firstFit blocks size align = some b) :
    b ∈ blocks ∧ size ≤ b.cap ∧ b.used = false ∧ b.data % align = 0 := by
  have hb := List.find?_some h
  simp only [Block.fits, Bool.and_eq_true, decide_eq_true_eq, Bool.not_eq_true'] at hb
  exact ⟨List.mem_of_find?_eq_some h, hb.1.1, hb.1.2, hb.2⟩

theorem allocated_of_fit (h : Laid blocks) {b : Block}
    (hb : firstFit (ready blocks) size align = some b) :
    Allocated blocks size align { b with used := true }
      ((ready blocks).map (Block.mark b.addr true)) := by
  obtain ⟨hmem, hroom, hfree, hal⟩ := firstFit_fits hb
  refine ⟨h.ready.map_mark, ?_, rfl, hroom, hal, ?_, [], (List.append_nil _).symm⟩
  · exact List.mem_map.mpr ⟨b, hmem, Block.mark_of_eq rfl⟩
  · intro c hc hcb
    rw [h.ready.eq_of_addr (mem_ready hc) hmem hcb]
    exact hfree

theorem allocated_of_grow (h : Laid blocks) (ha : 0 < align) (ha4 : align % 4 = 0)
    (hsize : size % 4 = 0) (hroom : appendAt (ready blocks) align + size ≤ heapLimit) :
    Allocated blocks size align (appended (ready blocks) size align)
      (grow (ready blocks) size align) := by
  have hne := ready_ne_nil blocks
  obtain ⟨hlo, -, hmod, -⟩ := appendAt_spec (ready blocks) ha ha4
  -- every block of the list ends before the new one starts
  have hbefore : ∀ c ∈ ready blocks, c.addr ≠ (appended (ready blocks) size align).addr := by
    intro c hc
    have hend := (h.ready.frontier_spec hne).2.2 c hc
    simp only [appended]
    omega
  refine ⟨h.ready.grow_laid hne ha ha4 hsize hroom, ?_, rfl, Nat.le_refl _, ?_, ?_,
    newBlocks (ready blocks) size align, ?_⟩
  · simp [grow, newBlocks]
  · rw [Block.data, appended, Nat.sub_add_cancel (by omega)]
    exact hmod
  · intro c hc hca
    exact absurd hca (hbefore c (mem_ready hc))
  · rw [List.map_congr_left fun c hc => Block.mark_of_ne (hbefore c hc), List.map_id']
    rfl

theorem allocated_of_allocate (h : Laid blocks) (ha : 0 < align) (ha4 : align % 4 = 0)
    (hsize : size % 4 = 0) {b : Block} {blocks' : List Block}
    (halloc : allocate blocks size align = some (b, blocks')) :
    Allocated blocks size align b blocks' := by
  rw [allocate] at halloc
  cases hfit : firstFit (ready blocks) size align with
  | some c =>
    rw [hfit] at halloc
    obtain ⟨rfl, rfl⟩ := Prod.mk.inj (Option.some.inj halloc)
    exact allocated_of_fit h hfit
  | none =>
    rw [hfit] at halloc
    by_cases hlim : heapLimit < appendAt (ready blocks) align + size
    · simp [hlim] at halloc
    · simp only [if_neg hlim] at halloc
      obtain ⟨rfl, rfl⟩ := Prod.mk.inj (Option.some.inj halloc)
      exact allocated_of_grow h ha ha4 hsize (Nat.le_of_not_lt hlim)

end Heap
end Medusa
