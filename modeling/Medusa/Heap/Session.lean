import Mathlib.Logic.Relation
import Mathlib.Order.Interval.Finset.Nat
import Medusa.Heap.Refine

/-!
# Clients of the heap

A `Session` is the heap with the objects its clients hold.  A run is made of
calls and of stores by clients into their own payloads; an abort ends it.  Which
calls a client may make is a parameter of `Step`, so that one invariant serves
several contracts.  `Sane` is the weakest contract under which the invariant is
kept: no sum that decides an allocation is cut, and `krealloc` copies no more
than the new block holds.
-/

namespace Medusa
namespace Heap

open Machine Kernel Libc

/-- An object a client holds: its address and what was asked for. -/
structure Live where
  ptr : Nat
  align : Nat
  size : Nat
deriving DecidableEq, Repr

structure Session where
  heap : State
  live : List Live

/-- The calls of the interface.  `zalloc` is `calloc` with one element,
`kamalloc` is `aligned_alloc`, and `krealloc` of a null pointer is `kmalloc`. -/
inductive Call where
  | kmalloc (size : Nat)
  | alignedAlloc (align size : Nat)
  | calloc (nmemb size : Nat)
  | krealloc (o : Live) (size : Nat)
  | kfree (o : Live)
  | kfreeNull

def Call.run (h : State) : Call → Except Stop (Nat × State)
  | .kmalloc size => Heap.kmalloc h size
  | .alignedAlloc align size => Heap.alignedAlloc h align size
  | .calloc nmemb size => Heap.calloc h nmemb size
  | .krealloc o size => Heap.krealloc h o.ptr size
  | .kfree o => .ok (0, Heap.kfree h o.ptr)
  | .kfreeNull => .ok (0, Heap.kfree h 0)

/-- The objects held after a call that returned `p`. -/
def Call.held (p : Nat) (live : List Live) : Call → List Live
  | .kmalloc size => { ptr := p, align := 4, size := size } :: live
  | .alignedAlloc align size => { ptr := p, align := align, size := size } :: live
  | .calloc nmemb size => { ptr := p, align := 4, size := nmemb * size } :: live
  | .krealloc o size =>
    if size = 0 then live.erase o
    else { ptr := p, align := 4, size := size } :: live.erase o
  | .kfree o => live.erase o
  | .kfreeNull => live

/-- The bytes a client may use: the capacity of the block behind `ptr`. -/
def payload (m : Mem) (ptr : Nat) : Finset Nat :=
  Finset.Ico ptr (ptr + capacity m (memGetBlock ptr))

inductive Step (allowed : Session → Call → Prop) : Session → Session → Prop
  | call {s : Session} (c : Call) {p : Nat} {h : State} (hc : allowed s c)
      (hrun : c.run s.heap = .ok (p, h)) : Step allowed s { heap := h, live := c.held p s.live }
  | write {s : Session} {o : Live} {x : Nat} (v : BitVec 8) (ho : o ∈ s.live)
      (hx : x ∈ payload s.heap.mem o.ptr) :
      Step allowed s
        { heap := { s.heap with mem := Function.update s.heap.mem x v }, live := s.live }

/-- A step under one contract is a step under every contract that allows its
call. -/
theorem Step.imp {P Q : Session → Call → Prop} {s s' : Session} (h : Step P s s')
    (hPQ : ∀ c, P s c → Q s c) : Step Q s s' := by
  cases h with
  | call c hc hrun => exact .call c (hPQ c hc) hrun
  | write v ho hx => exact .write v ho hx

/-- The heap before its first use, with any memory. -/
def start (m : Mem) : Session :=
  { heap := { mem := m, bottom := 0, top := 0, usedMemory := 0 }, live := [] }

def Reachable (allowed : Session → Call → Prop) (s : Session) : Prop :=
  ∃ m, Relation.ReflTransGen (Step allowed) (start m) s

/-! ## When a call is sane -/

/-- `aligned_alloc` finds no block and its comparison with the limit fails. -/
def Refuses (h : State) (align size : Nat) : Prop :=
  memFindBlock (setup h) (alignTo size 8) align = .ok 0 ∧
    heapLimit < wrap (newData (setup h) align + alignTo size 8)

/-- Neither the rounded size nor the end address of a new block is cut. -/
def Uncut (h : State) (align size : Nat) : Prop :=
  size + 7 < 2 ^ 32 ∧
    (memFindBlock (setup h) (alignTo size 8) align ≠ .ok 0 ∨
      newData (setup h) align + alignTo size 8 < 2 ^ 32)

/-- The capacity of the block that `kmalloc(size)` hands out. -/
def kmallocRoom (h : State) (size : Nat) : Except Stop Nat := do
  let block ← memFindBlock (setup h) (alignTo size 8) 4
  return if block = 0 then alignTo size 8 else capacity (setup h).mem block

/-- `krealloc(ptr, size)` copies no more than the new block holds. -/
def CopyFits (h : State) (ptr size : Nat) : Prop :=
  ∀ room, kmallocRoom h size = .ok room → capacity h.mem (memGetBlock ptr) ≤ room

def Sane (s : Session) : Call → Prop
  | .kmalloc size => Refuses s.heap 4 size ∨ Uncut s.heap 4 size
  | .alignedAlloc align size =>
    Aligns align ∧ (Refuses s.heap align size ∨ Uncut s.heap align size)
  | .calloc nmemb size =>
    Refuses s.heap 4 (wrap (nmemb * size)) ∨
      nmemb * size < 2 ^ 32 ∧ Uncut s.heap 4 (nmemb * size)
  | .krealloc o size =>
    o ∈ s.live ∧ (size = 0 ∨
      (Refuses s.heap 4 size ∨ Uncut s.heap 4 size) ∧ CopyFits s.heap o.ptr size)
  | .kfree o => o ∈ s.live
  | .kfreeNull => True

/-! ## The invariant -/

/-- `b` is the block behind the object `o`. -/
structure Block.Backs (b : Block) (o : Live) : Prop where
  ptr : o.ptr = b.data
  used : b.used = true
  room : o.size ≤ b.cap
  aligned : o.ptr % o.align = 0

theorem Block.Backs.ptr_ne {b : Block} {o : Live} (h : b.Backs o) : o.ptr ≠ 0 := by
  rw [h.ptr]
  exact Nat.succ_ne_zero _

structure Invariant (s : Session) (blocks : List Block) : Prop where
  rep : Rep s.heap blocks
  backed : ∀ o ∈ s.live, ∃ b ∈ blocks, b.Backs o
  distinct : s.live.Pairwise fun o o' => o.ptr ≠ o'.ptr

theorem invariant_start (m : Mem) : Invariant (start m) [] where
  rep := ⟨rfl, rfl, trivial, ⟨List.isChain_nil, by simp⟩⟩
  backed := by simp [start]
  distinct := List.Pairwise.nil

/-- A heap that is sound, for a caller that holds nothing. -/
theorem invariant_of_rep {h : State} {blocks : List Block} (hrep : Rep h blocks) :
    Invariant { heap := h, live := [] } blocks :=
  ⟨hrep, fun _ ho => absurd ho List.not_mem_nil, List.Pairwise.nil⟩

variable {s : Session} {blocks : List Block}

/-! ## One call -/

theorem aligns_four : Aligns 4 := ⟨by decide, by decide, by decide⟩

/-- No sum is cut for a request of at most twice the heap's size. -/
theorem uncut_of_le_double {h : State} {align size : Nat} (hrep : Rep h blocks)
    (ha : Aligns align) (hsize : size ≤ 2 * heapSize) : Uncut h align size := by
  have hheap : heapSize = 0x1E00000 := rfl
  have hlimit : heapLimit = 0xC2200000 := rfl
  have hle := ha.le
  have hround := roundUp_lt size (show 0 < 8 by decide)
  have hfront := ((hrep.laid.ready).frontier_spec (ready_ne_nil blocks)).2.1
  have hat := (appendAt_spec (ready blocks) ha.pos ha.words).2.1
  refine ⟨by omega, Or.inr ?_⟩
  rw [newData_eq (setup_rep hrep) (ready_ne_nil blocks) ha.pos
      (hrep.laid.ready.appendAt_lt (ready_ne_nil blocks) ha), alignTo_eq (by decide) (by omega)]
  omega

theorem uncut_of_modest {h : State} {align size : Nat} (hrep : Rep h blocks) (ha : Aligns align)
    (hsize : size ≤ heapSize) : Uncut h align size :=
  uncut_of_le_double hrep ha (by omega)

theorem alignedAlloc_of_refuses {h : State} {align size : Nat} (hr : Refuses h align size) :
    alignedAlloc h align size = .error .abort := by
  rw [alignedAlloc_eq hr.1, if_neg (fun h => h rfl), if_pos hr.2]

/-- On a list that memory represents, refusing is a matter of the list alone. -/
theorem Rep.refuses_iff {h : State} {align size : Nat} (hrep : Rep h blocks) (ha : Aligns align) :
    Refuses h align size ↔ firstFit (ready blocks) (alignTo size 8) align = none ∧
      heapLimit < wrap (appendAt (ready blocks) align + alignTo size 8) := by
  have hdata := newData_eq (setup_rep hrep) (ready_ne_nil blocks) ha.pos
    (hrep.laid.ready.appendAt_lt (ready_ne_nil blocks) ha)
  rw [Refuses, setup_find hrep, hdata]
  refine and_congr_left fun _ => ?_
  cases hfit : firstFit (ready blocks) (alignTo size 8) align with
  | none => exact iff_of_true rfl rfl
  | some b =>
    have hpos := ((setup_rep hrep).laid.placed b (firstFit_fits hfit).1).addr_pos
    refine iff_of_false (fun heq => ?_) (by simp)
    rw [Option.elim_some] at heq
    have hzero := Except.ok.inj heq
    omega

theorem not_refuses {h h' : State} {align size p : Nat}
    (hrun : alignedAlloc h align size = .ok (p, h')) : ¬ Refuses h align size := by
  intro hrefuse
  rw [alignedAlloc_of_refuses hrefuse] at hrun
  simp at hrun

/-- An allocation whose end address is not cut is an allocation on the list. -/
theorem alignedAlloc_listed {h h' : State} {align size p : Nat} (hrep : Rep h blocks)
    (ha : 0 < align) (ha4 : align % 4 = 0)
    (hok : Refuses h align size ∨ (firstFit (ready blocks) (alignTo size 8) align).isSome ∨
      appendAt (ready blocks) align + alignTo size 8 < 2 ^ 32)
    (hrun : alignedAlloc h align size = .ok (p, h')) :
    ∃ b blocks', allocate blocks (alignTo size 8) align = some (b, blocks') ∧
      Allocated blocks (alignTo size 8) align b blocks' ∧ p = b.data ∧
      Rep h' blocks' ∧ OnlyHeaders blocks' h.mem h'.mem := by
  rcases hok with hrefuse | hwrap
  · exact absurd hrefuse (not_refuses hrun)
  · rcases alignedAlloc_refines hrep ha ha4 hwrap with
      ⟨-, habort⟩ | ⟨b, blocks', h₁, halloc, hok, hrep', hhead⟩
    · rw [habort] at hrun
      simp at hrun
    · rw [hok] at hrun
      obtain ⟨rfl, rfl⟩ := Prod.mk.inj (Except.ok.inj hrun)
      have hmod := alignTo_eight_mod size
      have hall := allocated_of_allocate hrep.laid ha ha4 (by omega) halloc
      exact ⟨b, blocks', halloc, hall, rfl, hrep', hhead⟩

/-- With the rounded size not cut either, the block holds the request. -/
theorem alignedAlloc_allocated {h h' : State} {align size p : Nat} (hrep : Rep h blocks)
    (ha : Aligns align) (hok : Refuses h align size ∨ Uncut h align size)
    (hrun : alignedAlloc h align size = .ok (p, h')) :
    ∃ b blocks', allocate blocks (alignTo size 8) align = some (b, blocks') ∧
      Allocated blocks (alignTo size 8) align b blocks' ∧ p = b.data ∧ size ≤ b.cap ∧
      Rep h' blocks' ∧ OnlyHeaders blocks' h.mem h'.mem := by
  have hfind := setup_find hrep size align
  have hdata := newData_eq (setup_rep hrep) (ready_ne_nil blocks) ha.pos
    (hrep.laid.ready.appendAt_lt (ready_ne_nil blocks) ha)
  rcases hok with hrefuse | ⟨hsize, huncut⟩
  · exact absurd hrefuse (not_refuses hrun)
  · have hwrap : (firstFit (ready blocks) (alignTo size 8) align).isSome ∨
        appendAt (ready blocks) align + alignTo size 8 < 2 ^ 32 := by
      rw [← hdata]
      refine huncut.imp_left fun hne => ?_
      cases hfit : firstFit (ready blocks) (alignTo size 8) align with
      | some b => rfl
      | none =>
        rw [hfind, hfit] at hne
        exact absurd rfl hne
    obtain ⟨b, blocks', halloc, hall, hp, hrep', hhead⟩ :=
      alignedAlloc_listed hrep ha.pos ha.words (Or.inr hwrap) hrun
    refine ⟨b, blocks', halloc, hall, hp, ?_, hrep', hhead⟩
    have hlt := roundUp_lt size (show 0 < 8 by decide)
    have hroom := hall.room
    rw [alignTo_eq (by decide) (by omega)] at hroom
    exact (le_roundUp (by decide)).trans hroom

theorem Invariant.alloc {h : State} {size align n : Nat} {b : Block} {blocks' : List Block}
    (hinv : Invariant s blocks) (hall : Allocated blocks size align b blocks') (hn : n ≤ b.cap)
    (hrep : Rep h blocks') :
    Invariant { heap := h, live := { ptr := b.data, align := align, size := n } :: s.live }
      blocks' where
  rep := hrep
  backed := by
    intro o ho
    rcases List.mem_cons.mp ho with rfl | ho
    · exact ⟨b, hall.mem, rfl, hall.used, hn, hall.aligned⟩
    · obtain ⟨c, hc, hback⟩ := hinv.backed o ho
      exact ⟨c, (hall.keeps hc hback.used).1, hback⟩
  distinct := by
    refine List.pairwise_cons.mpr ⟨fun o ho => ?_, hinv.distinct⟩
    obtain ⟨c, hc, hback⟩ := hinv.backed o ho
    have hne := (hall.keeps hc hback.used).2
    have hptr := hback.ptr
    simp only [Block.data] at hptr ⊢
    omega

theorem Invariant.nodup (hinv : Invariant s blocks) : s.live.Nodup :=
  hinv.distinct.imp fun hne he => hne (congrArg Live.ptr he)

theorem Invariant.ptr_ne (hinv : Invariant s blocks) {o o' : Live} (ho : o ∈ s.live)
    (ho' : o' ∈ s.live) (hne : o ≠ o') : o.ptr ≠ o'.ptr := by
  have hsymm : Std.Symm fun o o' : Live => o.ptr ≠ o'.ptr := ⟨fun _ _ h => h.symm⟩
  exact hinv.distinct.forall ho ho' hne

theorem Invariant.free (hinv : Invariant s blocks) {o : Live} (ho : o ∈ s.live) {b : Block}
    (hb : b ∈ blocks) (hback : b.Backs o) :
    Invariant { heap := kfree s.heap o.ptr, live := s.live.erase o } (release blocks b.addr) where
  rep := by
    rw [hback.ptr]
    exact kfree_rep hinv.rep hb
  backed := by
    intro o' ho'
    have hmem := List.mem_of_mem_erase ho'
    have hne : o' ≠ o := (hinv.nodup.mem_erase_iff.mp ho').1
    obtain ⟨c, hc, hback'⟩ := hinv.backed o' hmem
    refine ⟨c, List.mem_map.mpr ⟨c, hc, Block.mark_of_ne fun haddr => ?_⟩, hback'⟩
    have hptr := hinv.ptr_ne hmem ho hne
    rw [hinv.rep.laid.eq_of_addr hc hb haddr] at hback'
    exact hptr (hback'.ptr.trans hback.ptr.symm)
  distinct := hinv.distinct.sublist List.erase_sublist

theorem Rep.capacity_data {h : State} (hrep : Rep h blocks) {b : Block} (hb : b ∈ blocks) :
    capacity h.mem (memGetBlock b.data) = b.cap := by
  have hp := hrep.laid.placed b hb
  rw [memGetBlock_data hp, capacity, hrep.linked.size_eq hb, hp.clearFlag_word]

/-- Stores into one payload leave the list alone. -/
theorem Rep.payload {h : State} {m : Mem} (hrep : Rep h blocks) {b : Block} (hb : b ∈ blocks)
    (hm : ∀ x, x < b.data ∨ b.data + b.cap ≤ x → m x = h.mem x) :
    Rep { h with mem := m } blocks := by
  refine ⟨hrep.bottom, hrep.top, hrep.linked.congr fun c hc x hlo hhi => hm x ?_, hrep.laid⟩
  simp only [Block.data]
  rcases hrep.laid.apart hc hb with rfl | hlt | hlt
  · omega
  · omega
  · omega

theorem calloc_eq {h h' : State} {nmemb size p : Nat} (hrun : calloc h nmemb size = .ok (p, h')) :
    ∃ h₁, kmalloc h (wrap (nmemb * size)) = .ok (p, h₁) ∧
      h' = { h₁ with mem := memset h₁.mem p 0#8 (wrap (nmemb * size)) } := by
  rw [calloc] at hrun
  cases hk : kmalloc h (wrap (nmemb * size)) with
  | error e =>
    rw [hk] at hrun
    simp at hrun
  | ok r =>
    obtain ⟨q, h₁⟩ := r
    rw [hk] at hrun
    obtain ⟨rfl, rfl⟩ := Prod.mk.inj (Except.ok.inj hrun)
    exact ⟨h₁, rfl, rfl⟩

theorem krealloc_of_kmalloc {h h₁ : State} {ptr size p : Nat} (hptr : ptr ≠ 0) (hsize : size ≠ 0)
    (hk : kmalloc h size = .ok (p, h₁)) :
    krealloc h ptr size = .ok (p, kfree { h₁ with
      mem := memcpy h₁.mem p ptr (capacity h₁.mem (memGetBlock ptr)) } ptr) := by
  rw [krealloc, if_neg hptr, if_neg hsize, hk]
  rfl

theorem krealloc_eq {h h' : State} {ptr size p : Nat} (hptr : ptr ≠ 0) (hsize : size ≠ 0)
    (hrun : krealloc h ptr size = .ok (p, h')) :
    ∃ h₁, kmalloc h size = .ok (p, h₁) ∧
      h' = kfree { h₁ with
        mem := memcpy h₁.mem p ptr (capacity h₁.mem (memGetBlock ptr)) } ptr := by
  cases hk : kmalloc h size with
  | error e =>
    rw [krealloc, if_neg hptr, if_neg hsize, hk] at hrun
    simp at hrun
  | ok r =>
    obtain ⟨q, h₁⟩ := r
    rw [krealloc_of_kmalloc hptr hsize hk] at hrun
    obtain ⟨rfl, rfl⟩ := Prod.mk.inj (Except.ok.inj hrun)
    exact ⟨h₁, rfl, rfl⟩

theorem Invariant.payload {m : Mem} (hinv : Invariant s blocks) {b : Block} (hb : b ∈ blocks)
    (hm : ∀ x, x < b.data ∨ b.data + b.cap ≤ x → m x = s.heap.mem x) :
    Invariant { heap := { s.heap with mem := m }, live := s.live } blocks :=
  ⟨hinv.rep.payload hb hm, hinv.backed, hinv.distinct⟩

theorem kmallocRoom_eq {h : State} {size : Nat} {b : Block} {blocks' : List Block}
    (hrep : Rep h blocks) (halloc : allocate blocks (alignTo size 8) 4 = some (b, blocks')) :
    kmallocRoom h size = .ok b.cap := by
  have hfind := setup_find hrep size 4
  rw [kmallocRoom, hfind]
  rw [allocate] at halloc
  cases hfit : firstFit (ready blocks) (alignTo size 8) 4 with
  | some c =>
    rw [hfit] at halloc
    obtain ⟨rfl, -⟩ := Prod.mk.inj (Option.some.inj halloc)
    have hc := (firstFit_fits hfit).1
    have hp := (setup_rep hrep).laid.placed c hc
    have hpos := hp.addr_pos
    have hcap := (setup_rep hrep).capacity_data hc
    rw [memGetBlock_data hp] at hcap
    change Except.ok (if c.addr = 0 then _ else _) = _
    rw [if_neg (show c.addr ≠ 0 by omega)]
    exact congrArg Except.ok hcap
  | none =>
    rw [hfit] at halloc
    by_cases hlim : heapLimit < appendAt (ready blocks) 4 + alignTo size 8
    · simp only [if_pos hlim] at halloc
      simp at halloc
    · simp only [if_neg hlim] at halloc
      obtain ⟨rfl, -⟩ := Prod.mk.inj (Option.some.inj halloc)
      rfl

/-- What `krealloc` did when it returned: an allocation, a copy of the old
capacity that stays in the new payload, and a free. -/
structure Reallocated (s : Session) (blocks : List Block) (o : Live) (size p : Nat) (h' : State)
    (old b : Block) (blocks' : List Block) (h₁ : State) : Prop where
  backs : old.Backs o
  mem : old ∈ blocks
  allocated : Allocated blocks (alignTo size 8) 4 b blocks'
  ptr : p = b.data
  room : size ≤ b.cap
  rep : Rep h₁ blocks'
  headers : OnlyHeaders blocks' s.heap.mem h₁.mem
  fits : old.cap ≤ b.cap
  result : h' = kfree { h₁ with mem := memcpy h₁.mem b.data old.data old.cap } old.data

theorem krealloc_reallocated (hinv : Invariant s blocks) {o : Live} (ho : o ∈ s.live)
    {size p : Nat} {h' : State} (hsize : size ≠ 0)
    (hok : Refuses s.heap 4 size ∨ Uncut s.heap 4 size) (hcopy : CopyFits s.heap o.ptr size)
    (hrun : krealloc s.heap o.ptr size = .ok (p, h')) :
    ∃ old b blocks' h₁, Reallocated s blocks o size p h' old b blocks' h₁ := by
  obtain ⟨old, hold, hback⟩ := hinv.backed o ho
  obtain ⟨h₁, hk, hres⟩ := krealloc_eq hback.ptr_ne hsize hrun
  obtain ⟨b, blocks', halloc, hall, hp, hroom, hrep, hhead⟩ :=
    alignedAlloc_allocated hinv.rep aligns_four hok hk
  have hold' := (hall.keeps hold hback.used).1
  have hfits := hcopy b.cap (kmallocRoom_eq hinv.rep halloc)
  rw [hback.ptr, hinv.rep.capacity_data hold] at hfits
  rw [hback.ptr, hrep.capacity_data hold', hp] at hres
  exact ⟨old, b, blocks', h₁, hback, hold, hall, hp, hroom, hrep, hhead, hfits, hres⟩

theorem Invariant.realloc (hinv : Invariant s blocks) {o : Live} (ho : o ∈ s.live) {size p : Nat}
    {h' h₁ : State} {old b : Block} {blocks' : List Block}
    (hre : Reallocated s blocks o size p h' old b blocks' h₁) :
    Invariant { heap := h', live := { ptr := p, align := 4, size := size } :: s.live.erase o }
      (release blocks' old.addr) := by
  obtain ⟨hold, hne⟩ := hre.allocated.keeps hre.mem hre.backs.used
  have hgrant := hinv.alloc hre.allocated hre.room hre.rep
  have hcopied := hgrant.payload hre.allocated.mem
    (m := memcpy h₁.mem b.data old.data old.cap) fun x hx => memcpy_outside (by
      have hfits := hre.fits
      omega)
  have hfreed := hcopied.free (List.mem_cons_of_mem _ ho) hold hre.backs
  rw [hre.backs.ptr, List.erase_cons_tail] at hfreed
  · rw [hre.result, hre.ptr]
    exact hfreed
  · -- the new object is not the old one
    simp only [beq_iff_eq]
    intro he
    have hptr : b.data = o.ptr := congrArg Live.ptr he
    rw [hre.backs.ptr] at hptr
    simp only [Block.data] at hptr
    omega

/-! ## Runs -/

theorem step_invariant {s' : Session} (hinv : Invariant s blocks) (hstep : Step Sane s s') :
    ∃ blocks', Invariant s' blocks' := by
  cases hstep with
  | @call c p h hc hrun =>
    cases c with
    | kmalloc size =>
      obtain ⟨b, blocks', -, hall, rfl, hroom, hrep, -⟩ :=
        alignedAlloc_allocated hinv.rep aligns_four hc hrun
      exact ⟨blocks', hinv.alloc hall hroom hrep⟩
    | alignedAlloc align size =>
      obtain ⟨b, blocks', -, hall, rfl, hroom, hrep, -⟩ :=
        alignedAlloc_allocated hinv.rep hc.1 hc.2 hrun
      exact ⟨blocks', hinv.alloc hall hroom hrep⟩
    | calloc nmemb size =>
      obtain ⟨h₁, hk, rfl⟩ := calloc_eq hrun
      rcases hc with hrefuse | ⟨hlt, huncut⟩
      · exact absurd hrefuse (not_refuses hk)
      · rw [wrap_of_lt hlt] at hk ⊢
        obtain ⟨b, blocks', -, hall, rfl, hroom, hrep, -⟩ :=
          alignedAlloc_allocated hinv.rep aligns_four (Or.inr huncut) hk
        have hgrant := hinv.alloc hall hroom hrep
        exact ⟨blocks', hgrant.payload hall.mem fun x hx => memset_outside (by omega)⟩
    | krealloc o size =>
      obtain ⟨ho, hc⟩ := hc
      by_cases hsize : size = 0
      · obtain ⟨b, hb, hback⟩ := hinv.backed o ho
        rw [Call.run, krealloc, if_neg hback.ptr_ne, if_pos hsize] at hrun
        obtain ⟨-, rfl⟩ := Prod.mk.inj (Except.ok.inj hrun)
        rw [Call.held, if_pos hsize]
        exact ⟨_, hinv.free ho hb hback⟩
      · obtain ⟨hok, hcopy⟩ := hc.resolve_left hsize
        obtain ⟨old, b, blocks', h₁, hre⟩ := krealloc_reallocated hinv ho hsize hok hcopy hrun
        rw [Call.held, if_neg hsize]
        exact ⟨_, hinv.realloc ho hre⟩
    | kfree o =>
      obtain ⟨b, hb, hback⟩ := hinv.backed o hc
      obtain ⟨-, rfl⟩ := Prod.mk.inj (Except.ok.inj hrun)
      exact ⟨_, hinv.free hc hb hback⟩
    | kfreeNull =>
      obtain ⟨-, rfl⟩ := Prod.mk.inj (Except.ok.inj hrun)
      exact ⟨blocks, hinv⟩
  | @write o x v ho hx =>
    obtain ⟨b, hb, hback⟩ := hinv.backed o ho
    rw [Heap.payload, hback.ptr, hinv.rep.capacity_data hb, Finset.mem_Ico] at hx
    exact ⟨blocks, hinv.payload hb fun y hy => Function.update_of_ne (by omega) _ _⟩

theorem reachable_invariant (h : Reachable Sane s) : ∃ blocks, Invariant s blocks := by
  obtain ⟨m, hrun⟩ := h
  induction hrun with
  | refl => exact ⟨[], invariant_start m⟩
  | tail _ hstep ih =>
    obtain ⟨blocks, hinv⟩ := ih
    exact step_invariant hinv hstep

end Heap
end Medusa
