import Medusa.Heap.Session

/-!
# The block list over a run

Clients that keep to `Modest` ask for no more than the heap's size and free only
what they hold.  The results are stated on memory: the list is the one found by
following `next` from `bottom`, and a payload is what the header behind a pointer
says.
-/

namespace Medusa
namespace Heap

open Machine Kernel Libc

/-- The contract of a client that uses `kmalloc`, `aligned_alloc` and `kfree`. -/
def Modest (s : Session) : Call → Prop
  | .kmalloc size => size ≤ heapSize
  | .alignedAlloc align size =>
    0 < align ∧ align % 4 = 0 ∧ align ≤ heapSize ∧ size ≤ heapSize
  | .kfree o => o ∈ s.live
  | .kfreeNull => True
  | .calloc _ _ => False
  | .krealloc _ _ => False

/-- `addrs` are the nodes met from `a` on, up to the null pointer. -/
def Follow (m : Mem) : Nat → List Nat → Prop
  | a, [] => a = 0
  | a, b :: rest => a = b ∧ b ≠ 0 ∧ Follow m (next m b) rest

theorem Follow.unique {m : Mem} {a : Nat} {l l' : List Nat} (h : Follow m a l)
    (h' : Follow m a l') : l = l' := by
  induction l generalizing a l' with
  | nil =>
    cases l' with
    | nil => rfl
    | cons b rest => exact absurd (h'.1.symm.trans h) h'.2.1
  | cons b rest ih =>
    cases l' with
    | nil => exact absurd (h.1.symm.trans h') h.2.1
    | cons c rest' =>
      obtain ⟨rfl, -, hrest⟩ := h
      obtain ⟨rfl, -, hrest'⟩ := h'
      rw [ih hrest hrest']

structure ListSound (h : State) (addrs : List Nat) : Prop where
  follow : Follow h.mem h.bottom addrs
  last : addrs.getLast?.getD 0 = h.top
  spaced : addrs.IsChain fun b n =>
    b < n ∧ b + 12 + capacity h.mem b ≤ n ∧ n ≤ b + 12 + capacity h.mem b + 16

structure ObjectSound (h : State) (addrs : List Nat) (o : Live) : Prop where
  aligned : o.ptr % o.align = 0
  block : ∃ a ∈ addrs, o.ptr = a + 8 ∧ size h.mem a &&& 1 = 1 ∧ o.size ≤ capacity h.mem a
  headers : ∀ a ∈ addrs, Disjoint (payload h.mem o.ptr) (Finset.Ico a (a + 8))
  low : heapBegin ≤ o.ptr
  high : o.ptr + capacity h.mem (memGetBlock o.ptr) ≤ heapLimit

/-! ## From blocks to memory -/

variable {s : Session} {blocks : List Block}

theorem Linked.follow {m : Mem} (hlink : Linked m 0 blocks) (hpos : ∀ b ∈ blocks, 0 < b.addr) :
    Follow m (headAddr 0 blocks) (blocks.map Block.addr) := by
  induction blocks with
  | nil => rfl
  | cons b rest ih =>
    obtain ⟨hnext, -, hrest⟩ := hlink
    have hb := hpos b List.mem_cons_self
    refine ⟨rfl, by omega, ?_⟩
    rw [hnext]
    exact ih hrest fun c hc => hpos c (List.mem_cons_of_mem b hc)

theorem Rep.capacity_addr {h : State} (hrep : Rep h blocks) {b : Block} (hb : b ∈ blocks) :
    capacity h.mem b.addr = b.cap := by
  rw [← memGetBlock_data (hrep.laid.placed b hb)]
  exact hrep.capacity_data hb

theorem Rep.listSound {h : State} (hrep : Rep h blocks) :
    ListSound h (blocks.map Block.addr) where
  follow := by
    rw [hrep.bottom]
    exact hrep.linked.follow fun b hb => (hrep.laid.placed b hb).addr_pos
  last := by
    rw [hrep.top, lastAddr, List.getLast?_map]
  spaced := by
    rw [List.isChain_map]
    refine hrep.laid.follows.imp_of_mem_imp fun b c hb _ hbc => ?_
    have hpast := hbc.past
    have hclose := hbc.close
    rw [hrep.capacity_addr hb]
    omega

theorem Invariant.payload_eq (hinv : Invariant s blocks) {o : Live} {b : Block} (hb : b ∈ blocks)
    (hback : b.Backs o) : Heap.payload s.heap.mem o.ptr = Finset.Ico b.data (b.data + b.cap) := by
  rw [Heap.payload, hback.ptr, hinv.rep.capacity_data hb]

theorem Invariant.objectSound (hinv : Invariant s blocks) {o : Live} (ho : o ∈ s.live) :
    ObjectSound s.heap (blocks.map Block.addr) o := by
  obtain ⟨b, hb, hback⟩ := hinv.backed o ho
  have hp := hinv.rep.laid.placed b hb
  have hcap := hinv.rep.capacity_addr hb
  refine ⟨hback.aligned, ⟨b.addr, List.mem_map_of_mem hb, hback.ptr, ?_, ?_⟩, ?_, ?_, ?_⟩
  · rw [hinv.rep.linked.size_eq hb, hp.word_and_one, hback.used]
    rfl
  · rw [hcap]
    exact hback.room
  · intro a ha
    obtain ⟨c, hc, rfl⟩ := List.mem_map.mp ha
    rw [hinv.payload_eq hb hback, Finset.disjoint_left]
    intro x hx hx'
    rw [Finset.mem_Ico] at hx hx'
    have hfar := hinv.rep.laid.header_apart hb hc hx.1 hx.2
    omega
  · have hlow := hp.low
    rw [hback.ptr, Block.data]
    omega
  · rw [hback.ptr, hinv.rep.capacity_data hb]
    exact hp.high

theorem Invariant.payloads_disjoint (hinv : Invariant s blocks) :
    s.live.Pairwise fun o o' =>
      Disjoint (Heap.payload s.heap.mem o.ptr) (Heap.payload s.heap.mem o'.ptr) := by
  refine hinv.distinct.imp_of_mem fun {o o'} ho ho' hne => ?_
  obtain ⟨b, hb, hback⟩ := hinv.backed o ho
  obtain ⟨c, hc, hback'⟩ := hinv.backed o' ho'
  rw [hinv.payload_eq hb hback, hinv.payload_eq hc hback', Finset.disjoint_left]
  intro x hx hx'
  simp only [Finset.mem_Ico, Block.data] at hx hx'
  rcases hinv.rep.laid.apart hb hc with rfl | hlt | hlt
  · exact hne (hback.ptr.trans hback'.ptr.symm)
  · omega
  · omega

/-! ## Modest runs -/

theorem sane_of_modest (hinv : Invariant s blocks) {c : Call} (hc : Modest s c) : Sane s c := by
  cases c with
  | kmalloc size => exact Or.inr (uncut_of_modest hinv.rep aligns_four hc)
  | alignedAlloc align size =>
    obtain ⟨hpos, hwords, hle, hsize⟩ := hc
    have ha : Aligns align := ⟨hpos, hwords, hle⟩
    exact ⟨ha, Or.inr (uncut_of_modest hinv.rep ha hsize)⟩
  | kfree o => exact hc
  | kfreeNull => trivial
  | calloc nmemb size => exact hc.elim
  | krealloc o size => exact hc.elim

theorem modest_invariant (h : Reachable Modest s) : ∃ blocks, Invariant s blocks := by
  obtain ⟨m, hrun⟩ := h
  induction hrun with
  | refl => exact ⟨[], invariant_start m⟩
  | tail _ hstep ih =>
    obtain ⟨blocks, hinv⟩ := ih
    exact step_invariant hinv (hstep.imp fun _ hc => sane_of_modest hinv hc)

/-- **The block list is sound in every state of a modest run.** -/
theorem modest_list_sound (h : Reachable Modest s) :
    ∃ addrs, ListSound s.heap addrs ∧ (∀ o ∈ s.live, ObjectSound s.heap addrs o) ∧
      s.live.Pairwise fun o o' =>
        Disjoint (payload s.heap.mem o.ptr) (payload s.heap.mem o'.ptr) := by
  obtain ⟨blocks, hinv⟩ := modest_invariant h
  exact ⟨blocks.map Block.addr, hinv.rep.listSound, fun o ho => hinv.objectSound ho,
    hinv.payloads_disjoint⟩

/-! ## Following a run on the list -/

/-- Modest calls lead from the unset heap to the list `blocks` with the objects
`live` held, and no byte outside the headers was written. -/
def Trail (m : Mem) (blocks : List Block) (live : List Live) : Prop :=
  ∃ h, Relation.ReflTransGen (Step Modest) (start m) { heap := h, live := live } ∧
    Rep h blocks ∧ OnlyHeaders blocks m h.mem

namespace Trail

variable {m : Mem} {live : List Live}

theorem empty (m : Mem) : Trail m [] [] := ⟨_, .refl, (invariant_start m).rep, fun _ _ => rfl⟩

theorem alloc {align size : Nat} {b : Block} {blocks' : List Block} (h : Trail m blocks live)
    (ha : Aligns align) (hsize : size ≤ heapSize)
    (halloc : allocate blocks (alignTo size 8) align = some (b, blocks')) :
    Trail m blocks' ({ ptr := b.data, align := align, size := size } :: live) := by
  obtain ⟨h₁, hrun, hrep, hhead⟩ := h
  obtain ⟨h₂, hcall, hrep', hhead'⟩ := alignedAlloc_of_allocate hrep ha halloc
  have hmod := alignTo_eight_mod size
  obtain ⟨new, hnew⟩ :=
    (allocated_of_allocate hrep.laid ha.pos ha.words (by omega) halloc).grown
  refine ⟨h₂, hrun.tail (.call (.alignedAlloc align size) ⟨ha.pos, ha.words, ha.le, hsize⟩ hcall),
    hrep', (hhead.of_map fun c hc => ?_).trans hhead'⟩
  rw [hnew]
  exact ⟨_, List.mem_append_left _ (List.mem_map_of_mem (mem_ready hc)), c.mark_addr _ _⟩

theorem free {o : Live} {b : Block} (h : Trail m blocks live) (ho : o ∈ live) (hb : b ∈ blocks)
    (hptr : o.ptr = b.data) : Trail m (release blocks b.addr) (live.erase o) := by
  obtain ⟨h₁, hrun, hrep, hhead⟩ := h
  refine ⟨kfree h₁ o.ptr, hrun.tail (.call (.kfree o) ho rfl), ?_, ?_⟩
  · rw [hptr]
    exact kfree_rep hrep hb
  · rw [hptr]
    exact (hhead.trans (kfree_onlyHeaders hrep hb)).of_map fun c hc =>
      ⟨_, List.mem_map_of_mem hc, c.mark_addr _ _⟩

end Trail

/-- A page-aligned object leaves a filler before it, which the next request takes. -/
theorem trail_filler : Trail (fun _ => 0#8)
    [sentinel, ⟨0xC040000C, 0xFE0, true⟩, ⟨0xC0400FF8, 24, true⟩]
    [⟨0xC0400014, 4, 16⟩, ⟨0xC0401000, 0x1000, 24⟩] := by
  have hbig : allocate [] (alignTo 24 8) 0x1000 = some (⟨0xC0400FF8, 24, true⟩,
      [sentinel, ⟨0xC040000C, 0xFE0, false⟩, ⟨0xC0400FF8, 24, true⟩]) := by decide
  have hsmall : allocate [sentinel, ⟨0xC040000C, 0xFE0, false⟩, ⟨0xC0400FF8, 24, true⟩]
      (alignTo 16 8) 4 = some (⟨0xC040000C, 0xFE0, true⟩,
      [sentinel, ⟨0xC040000C, 0xFE0, true⟩, ⟨0xC0400FF8, 24, true⟩]) := by decide
  exact ((Trail.empty fun _ => 0#8).alloc ⟨by decide, by decide, by decide⟩ (by decide)
    hbig).alloc aligns_four (by decide) hsmall

theorem modest_list_sound_filler :
    ∃ s, Reachable Modest s ∧
      s.live = [⟨0xC0400014, 4, 16⟩, ⟨0xC0401000, 0x1000, 24⟩] ∧
      ∃ addrs, ListSound s.heap addrs ∧ (∀ o ∈ s.live, ObjectSound s.heap addrs o) ∧
        s.live.Pairwise fun o o' =>
          Disjoint (payload s.heap.mem o.ptr) (payload s.heap.mem o'.ptr) := by
  obtain ⟨h, hrun, -, -⟩ := trail_filler
  have hreach : Reachable Modest _ := ⟨_, hrun⟩
  exact ⟨_, hreach, rfl, modest_list_sound hreach⟩

end Heap
end Medusa
