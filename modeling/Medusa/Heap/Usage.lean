import Mathlib.Algebra.BigOperators.Group.List.Basic
import Medusa.Heap.ListSound

/-!
# What the heap counts

`used_memory` is raised by a rounded request when a block is appended, by a block's
own size when one is found, and lowered by the size that `kfree` leaves in the
header.  All three are the capacity of the block, so the counter is the sum of the
capacities of the blocks behind the live pointers, modulo a word.

A run here is made of calls and of stores anywhere but in a block header.  What a
call needs is that the end address that decides about a new block is not cut:
a block past the end of the address space is laid over the list itself.
-/

namespace Medusa
namespace Heap

open Machine Kernel Libc

def memoryUsage (h : State) : Nat := h.usedMemory

/-- The size of the block an object occupies. -/
def occupied (m : Mem) (o : Live) : Nat := capacity m (memGetBlock o.ptr)

def occupiedSum (s : Session) : Nat := (s.live.map (occupied s.heap.mem)).sum

/-! ## Runs -/

/-- Where the data of a new block starts, in exact arithmetic. -/
def exactData (h : State) (align : Nat) : Nat :=
  roundUp (h.top + 12 + capacity h.mem h.top + 8) align

/-- There is a block to be found, or the end address of a new one is not cut. -/
def EndUncut (h : State) (align size : Nat) : Prop :=
  memFindBlock (setup h) (alignTo size 8) align ≠ .ok 0 ∨
    exactData (setup h) align + alignTo size 8 < 2 ^ 32

/-- `x` is in no header of the block list. -/
def OffHeaders (h : State) (x : Nat) : Prop :=
  ∀ addrs, Follow h.mem h.bottom addrs → ∀ a ∈ addrs, x < a ∨ a + 8 ≤ x

/-- The copy that `krealloc(ptr, size)` makes touches no header. -/
def CopySpares (h : State) (ptr size : Nat) : Prop :=
  ∀ p h₁, kmalloc h size = .ok (p, h₁) → ∀ x, p ≤ x →
    x < p + capacity h₁.mem (memGetBlock ptr) → OffHeaders h₁ x

/-- What a call needs for its count to be right.  `calloc` fills its block, so the
rounded size must not be cut there. -/
def Counts (s : Session) : Call → Prop
  | .kmalloc size => Refuses s.heap 4 size ∨ EndUncut s.heap 4 size
  | .alignedAlloc align size =>
    (0 < align ∧ align % 4 = 0) ∧ (Refuses s.heap align size ∨ EndUncut s.heap align size)
  | .calloc nmemb size =>
    Refuses s.heap 4 (wrap (nmemb * size)) ∨
      wrap (nmemb * size) + 7 < 2 ^ 32 ∧ EndUncut s.heap 4 (wrap (nmemb * size))
  | .krealloc o size =>
    o ∈ s.live ∧ (size = 0 ∨
      (Refuses s.heap 4 size ∨ EndUncut s.heap 4 size) ∧ CopySpares s.heap o.ptr size)
  | .kfree o => o ∈ s.live
  | .kfreeNull => True

/-- What the interface asks of a call: 32-bit arguments, an alignment in words, live
pointers, and a copy off the headers. -/
def Proper (s : Session) : Call → Prop
  | .kmalloc size => size < 2 ^ 32
  | .alignedAlloc align size => (0 < align ∧ align % 4 = 0) ∧ align < 2 ^ 32 ∧ size < 2 ^ 32
  | .calloc nmemb size => nmemb < 2 ^ 32 ∧ size < 2 ^ 32
  | .krealloc o size => o ∈ s.live ∧ size < 2 ^ 32 ∧ CopySpares s.heap o.ptr size
  | .kfree o => o ∈ s.live
  | .kfreeNull => True

inductive UsageStep (allowed : Session → Call → Prop) : Session → Session → Prop
  | call {s : Session} (c : Call) {p : Nat} {h : State} (hc : allowed s c)
      (hrun : c.run s.heap = .ok (p, h)) :
      UsageStep allowed s { heap := h, live := c.held p s.live }
  | write {s : Session} {x : Nat} (v : BitVec 8) (hx : OffHeaders s.heap x) :
      UsageStep allowed s
        { heap := { s.heap with mem := Function.update s.heap.mem x v }, live := s.live }

/-! ## The invariant -/

/-- Every object stands in a used block of its own, and the counter is the sum. -/
structure Tallied (s : Session) (blocks : List Block) : Prop where
  rep : Rep s.heap blocks
  backed : ∀ o ∈ s.live, ∃ b ∈ blocks, o.ptr = b.data ∧ b.used = true
  distinct : s.live.Pairwise fun o o' => o.ptr ≠ o'.ptr
  used : s.heap.usedMemory = wrap (occupiedSum s)

theorem tallied_start (m : Mem) : Tallied (start m) [] where
  rep := (invariant_start m).rep
  backed := by simp [start]
  distinct := List.Pairwise.nil
  used := rfl

variable {s : Session} {blocks : List Block}

theorem Rep.occupied_eq {h : State} (hrep : Rep h blocks) {o : Live} {b : Block} (hb : b ∈ blocks)
    (hptr : o.ptr = b.data) : occupied h.mem o = b.cap := by
  rw [occupied, hptr]
  exact hrep.capacity_data hb

/-- An object occupies as much as before when its block keeps its place and size. -/
theorem Tallied.occupied_congr {h' : State} {blocks' : List Block} (hs : Tallied s blocks)
    (hrep : Rep h' blocks')
    (hkeep : ∀ b ∈ blocks, b.used = true → ∃ c ∈ blocks', c.addr = b.addr ∧ c.cap = b.cap) :
    ∀ o ∈ s.live, occupied h'.mem o = occupied s.heap.mem o := by
  intro o ho
  obtain ⟨b, hb, hptr, hused⟩ := hs.backed o ho
  obtain ⟨c, hc, haddr, hcap⟩ := hkeep b hb hused
  rw [hs.rep.occupied_eq hb hptr, ← hcap]
  refine hrep.occupied_eq hc ?_
  rw [hptr, Block.data, Block.data, haddr]

/-! ## One call -/

theorem setup_usedMemory (h : State) : (setup h).usedMemory = h.usedMemory := by
  unfold setup
  split <;> rfl

theorem insertFiller_usedMemory (h : State) (next nextAligned : Nat) :
    (insertFiller h next nextAligned).usedMemory = h.usedMemory := by
  unfold insertFiller
  split <;> rfl

theorem memNewBlock_usedMemory (h : State) (size align : Nat) :
    (memNewBlock h size align).2.usedMemory = h.usedMemory := by
  simp only [memNewBlock, pushBlock, insertFiller_usedMemory, newHeader]

theorem exactData_eq {h : State} (align : Nat) (hrep : Rep h blocks) (hne : blocks ≠ []) :
    exactData h align = appendAt blocks align := by
  obtain ⟨l, last, rfl⟩ := (List.eq_nil_or_concat blocks).resolve_left hne
  rw [List.concat_eq_append] at hrep ⊢
  have hmem : last ∈ l ++ [last] := List.mem_append_right l List.mem_cons_self
  have hp := hrep.laid.placed last hmem
  rw [exactData, hrep.top, lastAddr_append_singleton, capacity, hrep.linked.size_eq hmem,
    hp.clearFlag_word, appendAt, frontier_append_singleton]

/-- A block that is found is counted with its own size, a new one with the rounded
request: in both cases with the capacity of the block. -/
theorem alignedAlloc_usedMemory {h h' : State} {align size p : Nat} {b : Block}
    {blocks' : List Block} (hrep : Rep h blocks)
    (halloc : allocate blocks (alignTo size 8) align = some (b, blocks'))
    (hrun : alignedAlloc h align size = .ok (p, h')) :
    h'.usedMemory = wrap (h.usedMemory + b.cap) := by
  have hfind := setup_find hrep size align
  rw [alignedAlloc_eq hfind] at hrun
  rw [allocate] at halloc
  cases hfit : firstFit (ready blocks) (alignTo size 8) align with
  | some c =>
    rw [hfit] at halloc hrun
    obtain ⟨rfl, -⟩ := Prod.mk.inj (Option.some.inj halloc)
    obtain ⟨hc, -, hfree, -⟩ := firstFit_fits hfit
    have hpos := ((setup_rep hrep).laid.placed c hc).addr_pos
    have hword : Heap.size (setup h).mem c.addr = c.cap := by
      rw [(setup_rep hrep).linked.size_eq hc, Block.word, hfree]
      rfl
    rw [Option.elim_some, if_pos (show c.addr ≠ 0 by omega)] at hrun
    obtain ⟨-, rfl⟩ := Prod.mk.inj (Except.ok.inj hrun)
    rw [takeBlock, hword, setup_usedMemory]
  | none =>
    rw [hfit] at halloc hrun
    rw [Option.elim_none, if_neg (fun hne => hne rfl)] at hrun
    by_cases hlim : heapLimit < wrap (newData (setup h) align + alignTo size 8)
    · rw [if_pos hlim] at hrun
      simp at hrun
    · rw [if_neg hlim] at hrun
      obtain ⟨-, rfl⟩ := Prod.mk.inj (Except.ok.inj hrun)
      by_cases hroom : heapLimit < appendAt (ready blocks) align + alignTo size 8
      · simp only [if_pos hroom] at halloc
        simp at halloc
      · simp only [if_neg hroom] at halloc
        obtain ⟨rfl, -⟩ := Prod.mk.inj (Option.some.inj halloc)
        rw [memNewBlock_usedMemory, setup_usedMemory]
        rfl

/-- What an allocation that is not cut does to list and counter. -/
theorem alignedAlloc_counted {h h' : State} {align size p : Nat} (hrep : Rep h blocks)
    (ha : 0 < align) (ha4 : align % 4 = 0)
    (hok : Refuses h align size ∨ EndUncut h align size)
    (hrun : alignedAlloc h align size = .ok (p, h')) :
    ∃ b blocks', Allocated blocks (alignTo size 8) align b blocks' ∧ p = b.data ∧ Rep h' blocks' ∧
      h'.usedMemory = wrap (h.usedMemory + b.cap) := by
  have hdata := exactData_eq align (setup_rep hrep) (ready_ne_nil blocks)
  have hlisted : Refuses h align size ∨
      (firstFit (ready blocks) (alignTo size 8) align).isSome ∨
        appendAt (ready blocks) align + alignTo size 8 < 2 ^ 32 := by
    refine hok.imp_right fun huncut => ?_
    rw [← hdata]
    refine huncut.imp_left fun hne => ?_
    rw [setup_find hrep] at hne
    cases hfit : firstFit (ready blocks) (alignTo size 8) align with
    | some b => rfl
    | none =>
      rw [hfit] at hne
      exact absurd rfl hne
  obtain ⟨b, blocks', halloc, hall, hp, hrep', -⟩ := alignedAlloc_listed hrep ha ha4 hlisted hrun
  exact ⟨b, blocks', hall, hp, hrep', alignedAlloc_usedMemory hrep halloc hrun⟩

theorem Tallied.alloc {h : State} {size align : Nat} {b : Block} {blocks' : List Block}
    (hs : Tallied s blocks) (n : Nat) (hall : Allocated blocks size align b blocks') (hrep : Rep h blocks')
    (hused : h.usedMemory = wrap (s.heap.usedMemory + b.cap)) :
    Tallied { heap := h, live := { ptr := b.data, align := align, size := n } :: s.live }
      blocks' where
  rep := hrep
  backed := by
    intro o ho
    rcases List.mem_cons.mp ho with rfl | ho
    · exact ⟨b, hall.mem, rfl, hall.used⟩
    · obtain ⟨c, hc, hback⟩ := hs.backed o ho
      exact ⟨c, (hall.keeps hc hback.2).1, hback⟩
  distinct := by
    refine List.pairwise_cons.mpr ⟨fun o ho => ?_, hs.distinct⟩
    obtain ⟨c, hc, hptr, hcused⟩ := hs.backed o ho
    have hne := (hall.keeps hc hcused).2
    simp only [Block.data] at hptr ⊢
    omega
  used := by
    have hlive := hs.occupied_congr hrep fun c hc hcused =>
      ⟨c, (hall.keeps hc hcused).1, rfl, rfl⟩
    have hnew : occupied h.mem { ptr := b.data, align := align, size := n } = b.cap :=
      hrep.occupied_eq hall.mem rfl
    rw [hused, hs.used]
    unfold occupiedSum
    rw [List.map_cons, List.sum_cons, hnew, List.map_congr_left hlive, wrap_add_wrap, Nat.add_comm]

theorem Tallied.nodup (hs : Tallied s blocks) : s.live.Nodup :=
  hs.distinct.imp fun hne he => hne (congrArg Live.ptr he)

/-- `kfree` takes the capacity that was counted. -/
theorem kfree_usedMemory {h : State} (hrep : Rep h blocks) {b : Block} (hb : b ∈ blocks) :
    (kfree h b.data).usedMemory = wsub h.usedMemory b.cap := by
  have hp := hrep.laid.placed b hb
  have hlt := hp.word_lt
  have hcap : b.cap % 2 ^ 32 = b.cap := by
    rw [Block.word] at hlt
    exact Nat.mod_eq_of_lt (by omega)
  rw [kfree, if_neg (show b.data ≠ 0 from Nat.succ_ne_zero _), memGetBlock_data hp]
  simp only [hrep.linked.size_eq hb, hp.clearFlag_word]
  rw [Heap.size, setSize, read32_write32_self, hcap]

theorem wsub_wrap_add (a c : Nat) : wsub (wrap (c + a)) c = wrap a := by
  unfold wsub wrap
  omega

theorem Tallied.free (hs : Tallied s blocks) {o : Live} (ho : o ∈ s.live) :
    ∃ b ∈ blocks, Tallied { heap := kfree s.heap o.ptr, live := s.live.erase o }
      (release blocks b.addr) := by
  obtain ⟨b, hb, hptr, hused⟩ := hs.backed o ho
  have hrep : Rep (kfree s.heap o.ptr) (release blocks b.addr) := by
    rw [hptr]
    exact kfree_rep hs.rep hb
  refine ⟨b, hb, hrep, ?_, hs.distinct.sublist List.erase_sublist, ?_⟩
  · intro o' ho'
    have hmem := List.mem_of_mem_erase ho'
    have hne : o' ≠ o := (hs.nodup.mem_erase_iff.mp ho').1
    obtain ⟨c, hc, hptr', hused'⟩ := hs.backed o' hmem
    refine ⟨c, List.mem_map.mpr ⟨c, hc, Block.mark_of_ne fun haddr => ?_⟩, hptr', hused'⟩
    have hsymm : Std.Symm fun o o' : Live => o.ptr ≠ o'.ptr := ⟨fun _ _ h => h.symm⟩
    refine hs.distinct.forall hmem ho hne ?_
    rw [hptr', hptr, hs.rep.laid.eq_of_addr hc hb haddr]
  · have hlive := hs.occupied_congr hrep fun c hc _ =>
      ⟨c.mark b.addr false, List.mem_map_of_mem hc, c.mark_addr _ _, c.mark_cap _ _⟩
    have hfree : (kfree s.heap o.ptr).usedMemory = wsub s.heap.usedMemory b.cap := by
      rw [hptr]
      exact kfree_usedMemory hs.rep hb
    have hsum := List.sum_map_erase (occupied s.heap.mem) ho
    rw [hs.rep.occupied_eq hb hptr] at hsum
    have hrest := List.map_congr_left (l := s.live.erase o)
      fun o' ho' => hlive o' (List.mem_of_mem_erase ho')
    rw [hfree, hs.used]
    unfold occupiedSum
    rw [← hsum, wsub_wrap_add, hrest]

/-! ## Stores -/

/-- Stores off the headers leave the list alone. -/
theorem Rep.offHeaders {h : State} {m : Mem} (hrep : Rep h blocks)
    (hm : ∀ x, OffHeaders h x ∨ m x = h.mem x) : Rep { h with mem := m } blocks := by
  have hfollow := hrep.linked.follow fun b hb => (hrep.laid.placed b hb).addr_pos
  rw [← hrep.bottom] at hfollow
  refine ⟨hrep.bottom, hrep.top, hrep.linked.congr fun c hc x hlo hhi => ?_, hrep.laid⟩
  refine (hm x).resolve_left fun hoff => ?_
  have hout := hoff _ hfollow c.addr (List.mem_map_of_mem hc)
  omega

theorem Tallied.store {m : Mem} (hs : Tallied s blocks)
    (hm : ∀ x, OffHeaders s.heap x ∨ m x = s.heap.mem x) :
    Tallied { heap := { s.heap with mem := m }, live := s.live } blocks := by
  have hrep := hs.rep.offHeaders hm
  have hlive := hs.occupied_congr hrep fun c hc _ => ⟨c, hc, rfl, rfl⟩
  refine ⟨hrep, hs.backed, hs.distinct, ?_⟩
  unfold occupiedSum
  rw [List.map_congr_left hlive]
  exact hs.used

/-- The data of a block is off the headers. -/
theorem Rep.data_offHeaders {h : State} (hrep : Rep h blocks) {b : Block} (hb : b ∈ blocks) {x : Nat}
    (hlo : b.data ≤ x) (hhi : x < b.data + b.cap) : OffHeaders h x := by
  have hfollow := hrep.linked.follow fun b hb => (hrep.laid.placed b hb).addr_pos
  rw [← hrep.bottom] at hfollow
  intro addrs haddrs a ha
  rw [haddrs.unique hfollow] at ha
  obtain ⟨c, hc, rfl⟩ := List.mem_map.mp ha
  simp only [Block.data] at hlo hhi
  rcases hrep.laid.apart hb hc with rfl | hlt | hlt
  · omega
  · omega
  · omega

/-! ## Each call -/

theorem Tallied.alignedAlloc {align size p : Nat} {h : State} (n : Nat) (hs : Tallied s blocks)
    (ha : 0 < align) (ha4 : align % 4 = 0)
    (hok : Refuses s.heap align size ∨ EndUncut s.heap align size)
    (hrun : alignedAlloc s.heap align size = .ok (p, h)) :
    ∃ blocks', Tallied { heap := h, live := { ptr := p, align := align, size := n } :: s.live }
      blocks' := by
  obtain ⟨b, blocks', hall, rfl, hrep, hused⟩ := alignedAlloc_counted hs.rep ha ha4 hok hrun
  exact ⟨blocks', hs.alloc n hall hrep hused⟩

/-- `calloc` clears the data of the block it was given, and no header. -/
theorem Tallied.calloc {nmemb size p : Nat} {h : State} (hs : Tallied s blocks)
    (hc : Counts s (.calloc nmemb size)) (hrun : calloc s.heap nmemb size = .ok (p, h)) :
    ∃ blocks', Tallied { heap := h, live := { ptr := p, align := 4, size := nmemb * size } :: s.live }
      blocks' := by
  obtain ⟨h₁, hk, rfl⟩ := calloc_eq hrun
  rcases hc with hrefuse | ⟨hcut, huncut⟩
  · exact absurd hrefuse (not_refuses hk)
  · obtain ⟨b, blocks', hall, rfl, hrep, hused⟩ :=
      alignedAlloc_counted hs.rep (by decide) (by decide) (Or.inr huncut) hk
    have hround := roundUp_lt (wrap (nmemb * size)) (show 0 < 8 by decide)
    have hroom := hall.room
    rw [alignTo_eq (by decide) (by omega)] at hroom
    have hfits := (le_roundUp (n := wrap (nmemb * size)) (show 0 < 8 by decide)).trans hroom
    have hgrant := hs.alloc (nmemb * size) hall hrep hused
    refine ⟨blocks', hgrant.store fun x => ?_⟩
    by_cases hx : x < b.data ∨ b.data + wrap (nmemb * size) ≤ x
    · exact Or.inr (memset_outside hx)
    · exact Or.inl (hrep.data_offHeaders hall.mem (by omega) (by omega))

/-- `krealloc` takes a new block, copies, and gives the old one back. -/
theorem Tallied.krealloc {o : Live} {size p : Nat} {h : State} (hs : Tallied s blocks)
    (hc : Counts s (.krealloc o size)) (hrun : krealloc s.heap o.ptr size = .ok (p, h)) :
    ∃ blocks', Tallied { heap := h, live := Call.held p s.live (.krealloc o size) } blocks' := by
  obtain ⟨ho, hc⟩ := hc
  obtain ⟨old, hold, hptr, -⟩ := hs.backed o ho
  have hne : o.ptr ≠ 0 := by
    rw [hptr]
    exact Nat.succ_ne_zero _
  by_cases hsize : size = 0
  · rw [Heap.krealloc, if_neg hne, if_pos hsize] at hrun
    obtain ⟨-, rfl⟩ := Prod.mk.inj (Except.ok.inj hrun)
    obtain ⟨b, -, hfree⟩ := hs.free ho
    rw [Call.held, if_pos hsize]
    exact ⟨_, hfree⟩
  · obtain ⟨hok, hspare⟩ := hc.resolve_left hsize
    obtain ⟨h₁, hk, rfl⟩ := krealloc_eq hne hsize hrun
    obtain ⟨taken, hgrant⟩ := hs.alignedAlloc size (by decide) (by decide) hok hk
    have hcopied := hgrant.store (m := memcpy h₁.mem p o.ptr
      (capacity h₁.mem (memGetBlock o.ptr))) fun x => by
        by_cases hx : x < p ∨ p + capacity h₁.mem (memGetBlock o.ptr) ≤ x
        · exact Or.inr (memcpy_outside hx)
        · exact Or.inl (hspare p h₁ hk x (by omega) (by omega))
    obtain ⟨c, -, hfree⟩ := hcopied.free (List.mem_cons_of_mem _ ho)
    have hnew : ({ ptr := p, align := 4, size := size } : Live) ≠ o := by
      intro he
      have hapart := (List.pairwise_cons.mp hgrant.distinct).1 o ho
      exact hapart (congrArg Live.ptr he)
    rw [List.erase_cons_tail (by simpa using hnew)] at hfree
    rw [Call.held, if_neg hsize]
    exact ⟨_, hfree⟩

/-! ## Whole runs -/

theorem Tallied.step {s' : Session} (hs : Tallied s blocks) (hstep : UsageStep Counts s s') :
    ∃ blocks', Tallied s' blocks' := by
  cases hstep with
  | @call c p h hc hrun =>
    cases c with
    | kmalloc size => exact hs.alignedAlloc size (by decide) (by decide) hc hrun
    | alignedAlloc align size => exact hs.alignedAlloc size hc.1.1 hc.1.2 hc.2 hrun
    | calloc nmemb size => exact hs.calloc hc hrun
    | krealloc o size => exact hs.krealloc hc hrun
    | kfree o =>
      obtain ⟨-, rfl⟩ := Prod.mk.inj (Except.ok.inj hrun)
      obtain ⟨b, -, hfree⟩ := hs.free hc
      exact ⟨_, hfree⟩
    | kfreeNull =>
      obtain ⟨-, rfl⟩ := Prod.mk.inj (Except.ok.inj hrun)
      exact ⟨blocks, hs⟩
  | @write x v hx =>
    refine ⟨blocks, hs.store fun y => ?_⟩
    by_cases hy : y = x
    · rw [hy]
      exact Or.inl hx
    · exact Or.inr (Function.update_of_ne hy _ _)

theorem tallied_of_run {m : Mem} (hrun : Relation.ReflTransGen (UsageStep Counts) (start m) s) :
    ∃ blocks, Tallied s blocks := by
  induction hrun with
  | refl => exact ⟨[], tallied_start m⟩
  | tail _ hstep ih =>
    obtain ⟨blocks, hs⟩ := ih
    exact hs.step hstep

/-- **The counter is the sum of what is live.**  In every state of a run whose end
addresses are not cut, `memory_usage` is the sum of the sizes of the blocks that the
live pointers occupy, modulo a word, and zero when nothing is live. -/
theorem memoryUsage_eq_sum {m : Mem} (hrun : Relation.ReflTransGen (UsageStep Counts) (start m) s) :
    memoryUsage s.heap = wrap (occupiedSum s) ∧ (s.live = [] → memoryUsage s.heap = 0) := by
  obtain ⟨blocks, hs⟩ := tallied_of_run hrun
  refine ⟨hs.used, fun hnil => ?_⟩
  rw [memoryUsage, hs.used, occupiedSum, hnil]
  rfl

/-! ## Modest calls -/

theorem endUncut_of_modest {h : State} {align size : Nat} (hrep : Rep h blocks) (ha : Aligns align)
    (hsize : size ≤ heapSize) : EndUncut h align size := by
  have hlt := hrep.laid.ready.appendAt_lt (ready_ne_nil blocks) ha
  refine (uncut_of_modest hrep ha hsize).2.imp_right fun hdata => ?_
  rwa [newData_eq (setup_rep hrep) (ready_ne_nil blocks) ha.pos hlt,
    ← exactData_eq align (setup_rep hrep) (ready_ne_nil blocks)] at hdata

/-- A modest call counts, and a store into a payload is off the headers. -/
theorem usageStep_of_modest {s' : Session} (hinv : Invariant s blocks)
    (hstep : Step Modest s s') : UsageStep Counts s s' := by
  cases hstep with
  | call c hc hrun =>
    refine .call c ?_ hrun
    cases c with
    | kmalloc size => exact Or.inr (endUncut_of_modest hinv.rep aligns_four hc)
    | alignedAlloc align size =>
      obtain ⟨hpos, hwords, hle, hsize⟩ := hc
      exact ⟨⟨hpos, hwords⟩, Or.inr (endUncut_of_modest hinv.rep ⟨hpos, hwords, hle⟩ hsize)⟩
    | kfree o => exact hc
    | kfreeNull => trivial
    | calloc nmemb size => exact hc.elim
    | krealloc o size => exact hc.elim
  | @write o x v ho hx =>
    obtain ⟨b, hb, hback⟩ := hinv.backed o ho
    rw [hinv.payload_eq hb hback, Finset.mem_Ico] at hx
    exact .write v (hinv.rep.data_offHeaders hb hx.1 hx.2)

theorem usage_of_modest {m : Mem} (hrun : Relation.ReflTransGen (Step Modest) (start m) s) :
    Relation.ReflTransGen (UsageStep Counts) (start m) s := by
  induction hrun with
  | refl => exact .refl
  | tail hprev hstep ih =>
    obtain ⟨blocks, hinv⟩ := modest_invariant ⟨m, hprev⟩
    exact ih.tail (usageStep_of_modest hinv hstep)

/-- The second request takes the filler before the aligned object and is counted with
its size. -/
theorem memoryUsage_eq_sum_filler :
    ∃ s, Relation.ReflTransGen (UsageStep Counts) (start fun _ => 0#8) s ∧
      s.live = [⟨0xC0400014, 4, 16⟩, ⟨0xC0401000, 0x1000, 24⟩] ∧
      memoryUsage s.heap = 0xFE0 + 24 := by
  obtain ⟨h, hrun, hrep, -⟩ := trail_filler
  have husage := usage_of_modest hrun
  refine ⟨_, husage, rfl, ?_⟩
  rw [(memoryUsage_eq_sum husage).1]
  simp only [occupiedSum, List.map_cons, List.map_nil, List.sum_cons, List.sum_nil]
  rw [hrep.occupied_eq (b := ⟨0xC040000C, 0xFE0, true⟩) (by simp) rfl,
    hrep.occupied_eq (b := ⟨0xC0400FF8, 24, true⟩) (by simp) rfl]
  rfl

/-- Two calls whose first takes nearly the whole address space: the second block is
laid over the header of the first. -/
def overlaidCalls : Except Stop (Nat × Nat × State) := do
  let (p, h) ← kmalloc (start fun _ => 0#8).heap 0xFFFFFFF0
  let (q, h) ← kmalloc h 8
  return (p, q, h)

theorem memoryUsage_overlaid :
    ∃ s, Relation.ReflTransGen (UsageStep Proper) (start fun _ => 0#8) s ∧
      memoryUsage s.heap ≠ wrap (occupiedSum s) := by
  have heval : overlaidCalls.map (fun r => (memoryUsage r.2.2,
      capacity r.2.2.mem (memGetBlock r.1), capacity r.2.2.mem (memGetBlock r.2.1))) =
      .ok (0xFFFFFFF8, 0xFFFFFFF0, 0xC0400008) := by decide +kernel
  unfold overlaidCalls at heval
  cases hfirst : kmalloc (start fun _ => 0#8).heap 0xFFFFFFF0 with
  | error e =>
    rw [hfirst] at heval
    simp [bind, Except.bind, Except.map] at heval
  | ok r =>
    obtain ⟨p, h⟩ := r
    rw [hfirst] at heval
    cases hsecond : kmalloc h 8 with
    | error e =>
      simp [ok_bind, hsecond, Except.map] at heval
    | ok r =>
      obtain ⟨q, h'⟩ := r
      simp [ok_bind, hsecond, Except.map, pure, Except.pure] at heval
      have hhuge : Proper (start fun _ => 0#8) (.kmalloc 0xFFFFFFF0) := by
        show 0xFFFFFFF0 < 2 ^ 32
        decide
      have hsmall : Proper { heap := h, live := [⟨p, 4, 0xFFFFFFF0⟩] } (.kmalloc 8) := by
        show 8 < 2 ^ 32
        decide
      have hone : UsageStep Proper (start fun _ => 0#8)
          { heap := h, live := [⟨p, 4, 0xFFFFFFF0⟩] } := .call _ hhuge hfirst
      have htwo : UsageStep Proper { heap := h, live := [⟨p, 4, 0xFFFFFFF0⟩] }
          { heap := h', live := [⟨q, 4, 8⟩, ⟨p, 4, 0xFFFFFFF0⟩] } := .call _ hsmall hsecond
      refine ⟨_, (Relation.ReflTransGen.single hone).tail htwo, ?_⟩
      simp only [occupiedSum, List.map_cons, List.map_nil, List.sum_cons, List.sum_nil, occupied]
      rw [heval.1, heval.2.1, heval.2.2]
      decide

end Heap
end Medusa
