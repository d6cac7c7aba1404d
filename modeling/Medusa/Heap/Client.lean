import Medusa.Heap.Session

/-!
# What a client of the heap relies on

A client holds objects and writes into them and outside the heap.  No call of the
heap changes a byte of what it holds, and its own stores leave the heap sound.
-/

namespace Medusa
namespace Heap

open Machine Kernel Libc

variable {blocks : List Block} {lo hi : Nat}

/-! ## Memory that the heap leaves alone -/

/-- `[lo, hi)` lies outside the heap or in the data of a used block. -/
def Aside (blocks : List Block) (lo hi : Nat) : Prop :=
  hi ≤ heapBegin ∨ heapLimit ≤ lo ∨
    ∃ b ∈ blocks, b.used = true ∧ b.data ≤ lo ∧ hi ≤ b.data + b.cap

/-- The list after requests of these sizes to `kmalloc`, if it serves them all. -/
def serveAll (blocks : List Block) (sizes : List Nat) : Option (List Block) :=
  sizes.foldlM (fun blocks size => (allocate blocks (alignTo size 8) 4).map Prod.snd) blocks

theorem serveAll_cons {size : Nat} {sizes : List Nat} {blocks' : List Block}
    (h : serveAll blocks (size :: sizes) = some blocks') :
    ∃ r, allocate blocks (alignTo size 8) 4 = some r ∧ serveAll r.2 sizes = some blocks' := by
  rw [serveAll, List.foldlM_cons] at h
  cases hone : allocate blocks (alignTo size 8) 4 with
  | none =>
    rw [hone] at h
    cases h
  | some r =>
    rw [hone] at h
    exact ⟨r, rfl, h⟩

theorem Aside.header (h : Aside blocks lo hi) (hlaid : Laid blocks) {c : Block} (hc : c ∈ blocks)
    {x : Nat} (hlo : lo ≤ x) (hhi : x < hi) : x < c.addr ∨ c.addr + 8 ≤ x := by
  have hp := hlaid.placed c hc
  have hlow := hp.low
  have hhigh := hp.high
  rcases h with hbelow | habove | ⟨b, hb, -, hb', hb''⟩
  · omega
  · omega
  · exact hlaid.header_apart hb hc (by omega) (by omega)

theorem Aside.mono {lo' hi' : Nat} (h : Aside blocks lo hi) (hlo : lo ≤ lo') (hhi : hi' ≤ hi) :
    Aside blocks lo' hi' := by
  rcases h with hbelow | habove | ⟨b, hb, hused, hlo', hhi'⟩
  · exact Or.inl (hhi.trans hbelow)
  · exact Or.inr (Or.inl (habove.trans hlo))
  · exact Or.inr (Or.inr ⟨b, hb, hused, hlo'.trans hlo, hhi.trans hhi'⟩)

/-- Stores into bytes that the heap does not hand out leave the list alone. -/
theorem Rep.bytes {h : State} {m : Mem} (hrep : Rep h blocks)
    (hm : ∀ x, m x = h.mem x ∨ Aside blocks x (x + 1)) : Rep { h with mem := m } blocks := by
  refine ⟨hrep.bottom, hrep.top, hrep.linked.congr fun c hc x hlo hhi => ?_, hrep.laid⟩
  refine (hm x).resolve_right fun haside => ?_
  have hout := haside.header hrep.laid hc (Nat.le_refl x) (Nat.lt_succ_self x)
  omega

theorem Rep.aside {h : State} {m : Mem} (hrep : Rep h blocks) (haside : Aside blocks lo hi)
    (hm : ∀ x, x < lo ∨ hi ≤ x → m x = h.mem x) : Rep { h with mem := m } blocks := by
  refine hrep.bytes fun x => ?_
  by_cases hin : lo ≤ x ∧ x < hi
  · exact Or.inr (haside.mono hin.1 hin.2)
  · exact Or.inl (hm x (by omega))

theorem Aside.ready (h : Aside blocks lo hi) : Aside (ready blocks) lo hi :=
  h.imp_right fun h => h.imp_right fun ⟨c, hc, hrest⟩ => ⟨c, mem_ready hc, hrest⟩

section Allocated

variable {size align : Nat} {b : Block} {blocks' : List Block}
  (h : Aside blocks lo hi) (hall : Allocated blocks size align b blocks')

include h hall

theorem Aside.allocated : Aside blocks' lo hi :=
  h.imp_right fun h => h.imp_right fun ⟨c, hc, hused, hrest⟩ =>
    ⟨c, (hall.keeps hc hused).1, hused, hrest⟩

/-- The block that is handed out lies elsewhere, its header included. -/
theorem Aside.apart {x : Nat} (hlo : lo ≤ x) (hhi : x < hi) :
    x < b.addr ∨ b.data + b.cap ≤ x := by
  have hplaced := hall.laid.placed b hall.mem
  have hlow := hplaced.low
  have hhigh := hplaced.high
  rw [Block.data]
  rcases h with hbelow | habove | ⟨c, hc, hused, hlo', hhi'⟩
  · omega
  · omega
  · obtain ⟨hmem, hne⟩ := hall.keeps hc hused
    rw [Block.data] at hlo' hhi'
    rcases hall.laid.apart hmem hall.mem with rfl | hlt | hlt
    · exact absurd rfl hne
    · omega
    · omega

end Allocated

/-- What `kmalloc` hands out when the list has room lies elsewhere. -/
theorem kmalloc_aside {h : State} {size : Nat} {b : Block} {blocks' : List Block}
    (hrep : Rep h blocks) (haside : Aside blocks lo hi) (hsize : size + 7 < 2 ^ 32)
    (halloc : allocate blocks (alignTo size 8) 4 = some (b, blocks')) :
    ∃ h', kmalloc h size = .ok (b.data, h') ∧ Rep h' blocks' ∧ Aside blocks' lo hi ∧
      Agree h.mem h'.mem lo hi ∧ b ∈ blocks' ∧ size ≤ b.cap ∧
      ∀ x, lo ≤ x → x < hi → x < b.data ∨ b.data + b.cap ≤ x := by
  obtain ⟨h', hrun, hrep', hheaders⟩ := alignedAlloc_of_allocate hrep aligns_four halloc
  have hmod := alignTo_eight_mod size
  have hall := allocated_of_allocate hrep.laid (by decide) (by decide) (by omega) halloc
  have haside' := haside.allocated hall
  refine ⟨h', hrun, hrep', haside', ?_, hall.mem, ?_, ?_⟩
  · intro x hlo hhi
    exact hheaders x fun c hc => haside'.header hall.laid hc hlo hhi
  · have hroom := hall.room
    have hlt := roundUp_lt size (show 0 < 8 by decide)
    rw [alignTo_eq (by decide) (by omega)] at hroom
    exact (le_roundUp (by decide)).trans hroom
  · intro x hlo hhi
    refine (haside.apart hall hlo hhi).imp_left fun hlt => hlt.trans_le ?_
    exact Nat.le_add_right b.addr 8

/-- Bytes below the heap's limit that the heap does not hand out lie before the end
of the list. -/
theorem Aside.lt_frontier (h : Aside blocks lo hi) (hlaid : Laid blocks) (hne : blocks ≠ [])
    (hhi : hi ≤ heapLimit) {x : Nat} (hlo : lo ≤ x) (hx : x < hi) : x < frontier blocks := by
  have hend := (hlaid.frontier_spec hne).2.2
  rcases h with hbelow | habove | ⟨b, hb, -, -, hb'⟩
  · obtain ⟨b, hb⟩ := List.exists_mem_of_ne_nil blocks hne
    have hb' := hend b hb
    have hlow := (hlaid.placed b hb).low
    omega
  · omega
  · have hb'' := hend b hb
    rw [Block.data] at hb'
    omega

/-- **An allocation that returns spares them**, whatever was asked for: even where a
sum was cut, only headers at the end of the list are written. -/
theorem alignedAlloc_spares {h h' : State} {align size p : Nat} (hrep : Rep h blocks)
    (ha : Aligns align) (hrun : alignedAlloc h align size = .ok (p, h'))
    (haside : Aside blocks lo hi) (hhi : hi ≤ heapLimit) : Agree h.mem h'.mem lo hi := by
  intro x hlo hx
  have hlaid := hrep.laid.ready
  have hne := ready_ne_nil blocks
  have hout : ∀ c ∈ Heap.ready blocks, x < c.addr ∨ c.addr + 8 ≤ x :=
    fun c hc => haside.ready.header hlaid hc hlo hx
  cases hfit : firstFit (Heap.ready blocks) (alignTo size 8) align with
  | some b =>
    obtain ⟨h₁, hok, -, hheaders⟩ := alignedAlloc_of_fit hrep hfit
    rw [hok] at hrun
    obtain ⟨-, rfl⟩ := Prod.mk.inj (Except.ok.inj hrun)
    refine hheaders x fun c hc => ?_
    obtain ⟨d, hd, rfl⟩ := List.mem_map.mp hc
    rw [Block.mark_addr]
    exact hout d hd
  | none =>
    have hlt := hlaid.appendAt_lt hne ha
    have hat := (appendAt_spec (Heap.ready blocks) ha.pos ha.words).1
    have hbefore := haside.ready.lt_frontier hlaid hne hhi hlo hx
    have hsetup := setup_rep hrep
    rw [alignedAlloc_of_no_fit hrep ha.pos hlt hfit] at hrun
    split at hrun
    · simp at hrun
    · obtain ⟨-, rfl⟩ := Prod.mk.inj (Except.ok.inj hrun)
      rw [memNewBlock_eq hsetup hne ha.pos ha.words hlt]
      generalize hb : (appended (Heap.ready blocks) (alignTo size 8) align).addr = block
      have hblock : frontier (Heap.ready blocks) ≤ block := by
        rw [← hb]
        simp only [appended]
        omega
      have hblock' : block < 2 ^ 32 := by
        rw [← hb]
        simp only [appended]
        omega
      -- the last block before and after the filler
      obtain ⟨c, hc, hcaddr⟩ := lastAddr_mem hne
      have htop : x < (setup h).top ∨ (setup h).top + 8 ≤ x := by
        rw [hsetup.top, ← hcaddr]
        exact hout c hc
      have htop' : x < (insertFiller (newHeader (setup h) block (alignTo size 8))
          (frontier (Heap.ready blocks)) block).top ∨
          (insertFiller (newHeader (setup h) block (alignTo size 8))
          (frontier (Heap.ready blocks)) block).top + 8 ≤ x := by
        rw [insertFiller]
        split
        · exact Or.inl hbefore
        · exact htop
      calc (pushBlock (insertFiller (newHeader (setup h) block (alignTo size 8))
              (frontier (Heap.ready blocks)) block) block).mem x
          = (insertFiller (newHeader (setup h) block (alignTo size 8))
              (frontier (Heap.ready blocks)) block).mem x := write32_outside (by omega)
        _ = (newHeader (setup h) block (alignTo size 8)).mem x := by
          refine insertFiller_outside htop hblock hblock' fun d hd => Or.inl ?_
          rw [filler] at hd
          split at hd
          · rw [List.mem_singleton.mp hd]
            exact hbefore
          · exact absurd hd List.not_mem_nil
        _ = (setup h).mem x :=
          (write32_outside (by omega)).trans (write32_outside (by omega))
        _ = h.mem x := setup_onlyHeaders hrep x hout

/-! ## Clients -/

/-- The heap is sound, and its used blocks hold the objects `live`. -/
def Client (h : State) (live : List Live) : Prop :=
  ∃ blocks, Invariant { heap := h, live := live } blocks

/-- `[lo, hi)` lies outside the heap or in an object. -/
def Held (live : List Live) (lo hi : Nat) : Prop :=
  hi ≤ heapBegin ∨ heapLimit ≤ lo ∨ ∃ o ∈ live, o.ptr ≤ lo ∧ hi ≤ o.ptr + o.size

variable {h : State} {live live' : List Live}

theorem Held.mono {lo' hi' : Nat} (hheld : Held live lo hi) (hlo : lo ≤ lo') (hhi : hi' ≤ hi) :
    Held live lo' hi' := by
  rcases hheld with hbelow | habove | ⟨o, ho, hlo', hhi'⟩
  · exact .inl (hhi.trans hbelow)
  · exact .inr (.inl (habove.trans hlo))
  · exact .inr (.inr ⟨o, ho, hlo'.trans hlo, hhi.trans hhi'⟩)

theorem Held.subset (hheld : Held live lo hi) (hsub : ∀ o ∈ live, o ∈ live') : Held live' lo hi :=
  hheld.imp_right fun h => h.imp_right fun ⟨o, ho, hrest⟩ => ⟨o, hsub o ho, hrest⟩

theorem held_object {o : Live} (ho : o ∈ live) : Held live o.ptr (o.ptr + o.size) :=
  .inr (.inr ⟨o, ho, Nat.le_refl _, Nat.le_refl _⟩)

theorem Held.aside {blocks : List Block} (hinv : Invariant { heap := h, live := live } blocks)
    (hheld : Held live lo hi) : Aside blocks lo hi := by
  rcases hheld with hbelow | habove | ⟨o, ho, hlo, hhi⟩
  · exact .inl hbelow
  · exact .inr (.inl habove)
  · obtain ⟨b, hb, hback⟩ := hinv.backed o ho
    have hptr := hback.ptr
    have hroom := hback.room
    exact .inr (.inr ⟨b, hb, hback.used, by omega, by omega⟩)

/-- A client may forget objects and name them in another order. -/
theorem Client.forget (hclient : Client h live) (hsub : live'.Subperm live) : Client h live' := by
  obtain ⟨blocks, hinv⟩ := hclient
  obtain ⟨live'', hperm, hsublist⟩ := hsub
  have hsymm : Std.Symm fun o o' : Live => o.ptr ≠ o'.ptr := ⟨fun _ _ h => h.symm⟩
  refine ⟨blocks, hinv.rep, fun o ho => ?_, ?_⟩
  · exact hinv.backed o (hsublist.subset (hperm.mem_iff.mpr ho))
  · exact (hinv.distinct.sublist hsublist).perm hperm fun h => h.symm

/-- Stores into what is held leave the heap sound. -/
theorem Invariant.store {m : Mem} {blocks : List Block}
    (hinv : Invariant { heap := h, live := live } blocks)
    (hm : ∀ x, m x = h.mem x ∨ Held live x (x + 1)) :
    Invariant { heap := { h with mem := m }, live := live } blocks :=
  ⟨hinv.rep.bytes fun x => (hm x).imp_right (Held.aside hinv), hinv.backed, hinv.distinct⟩

/-- Nor do stores that leave the words of the headers what they were. -/
theorem Invariant.words {m : Mem} {blocks : List Block}
    (hinv : Invariant { heap := h, live := live } blocks)
    (hm : ∀ b ∈ blocks, next m b.addr = next h.mem b.addr ∧ size m b.addr = size h.mem b.addr) :
    Invariant { heap := { h with mem := m }, live := live } blocks :=
  ⟨⟨hinv.rep.bottom, hinv.rep.top, hinv.rep.linked.of_words hm, hinv.rep.laid⟩, hinv.backed,
    hinv.distinct⟩

theorem Client.store {m : Mem} (hclient : Client h live)
    (hm : ∀ x, m x = h.mem x ∨ Held live x (x + 1)) : Client { h with mem := m } live := by
  obtain ⟨blocks, hinv⟩ := hclient
  exact ⟨blocks, hinv.store hm⟩

/-- What a client gets from an allocation that the list serves with `b`: any part of
`b`, and nothing that it holds has changed. -/
structure Obtained (h : State) (live : List Live) (blocks : List Block) (align size : Nat)
    (b : Block) (blocks' : List Block) (h' : State) : Prop where
  allocated : Allocated blocks (alignTo size 8) align b blocks'
  rep : Rep h' blocks'
  room : size ≤ b.cap
  invariant : ∀ n ≤ b.cap,
    Invariant { heap := h', live := { ptr := b.data, align := align, size := n } :: live } blocks'
  headers : OnlyHeaders blocks' h.mem h'.mem
  keeps : ∀ lo hi, Held live lo hi → Agree h.mem h'.mem lo hi

/-- An allocation of a modest size goes as the list says. -/
theorem Invariant.serve {align size : Nat} {blocks : List Block}
    (hinv : Invariant { heap := h, live := live } blocks) (ha : Aligns align)
    (hsize : size ≤ heapSize) :
    (allocate blocks (alignTo size 8) align = none ∧
      alignedAlloc h align size = .error .abort) ∨
    ∃ b blocks' h', allocate blocks (alignTo size 8) align = some (b, blocks') ∧
      alignedAlloc h align size = .ok (b.data, h') ∧
      Obtained h live blocks align size b blocks' h' := by
  have hheap : heapSize = 0x1E00000 := rfl
  have hlimit : heapLimit = 0xC2200000 := rfl
  have hle := ha.le
  have hround := roundUp_lt size (show 0 < 8 by decide)
  have hfront := ((hinv.rep.laid.ready).frontier_spec (ready_ne_nil blocks)).2.1
  have hat := (appendAt_spec (ready blocks) ha.pos ha.words).2.1
  have halign : alignTo size 8 = roundUp size 8 := alignTo_eq (by decide) (by omega)
  rcases alignedAlloc_refines hinv.rep ha.pos ha.words (.inr (by rw [halign]; omega)) with
    hnone | ⟨b, blocks', h', halloc, hrun, hrep, hheaders⟩
  · exact .inl hnone
  · have hall := allocated_of_allocate hinv.rep.laid ha.pos ha.words
      (by have hmod := alignTo_eight_mod size; omega) halloc
    have hroom := hall.room
    rw [halign] at hroom
    refine .inr ⟨b, blocks', h', halloc, hrun, hall, hrep, (le_roundUp (by decide)).trans hroom,
      fun n hn => hinv.alloc hall hn hrep, hheaders, ?_⟩
    intro lo hi hheld x hlo hhi
    have haside := (hheld.aside hinv).allocated hall
    exact hheaders x fun c hc => haside.header hall.laid hc hlo hhi

/-- The answer of the block list decides which of the two outcomes it is. -/
theorem of_served {o : Option (Block × List Block)} {aborts : Prop}
    {goes : Block → List Block → State → Prop} {b : Block} {blocks' : List Block}
    (h : (o = none ∧ aborts) ∨ ∃ b blocks' h', o = some (b, blocks') ∧ goes b blocks' h')
    (hserved : o = some (b, blocks')) : ∃ h', goes b blocks' h' := by
  rcases h with ⟨hnone, -⟩ | ⟨b₁, blocks₁, h', hsome, hgoes⟩
  · exact absurd (hserved.symm.trans hnone) (Option.some_ne_none _)
  · obtain ⟨rfl, rfl⟩ := Prod.mk.inj (Option.some.inj (hserved.symm.trans hsome))
    exact ⟨h', hgoes⟩

/-- An allocation of a modest size stops the kernel or hands out an object, and
changes nothing that is held. -/
theorem Client.alloc {align size : Nat} (hclient : Client h live) (ha : Aligns align)
    (hsize : size ≤ heapSize) :
    alignedAlloc h align size = .error .abort ∨
      ∃ p h', alignedAlloc h align size = .ok (p, h') ∧
        Client h' ({ ptr := p, align := align, size := size } :: live) ∧
        ∀ lo hi, Held live lo hi → Agree h.mem h'.mem lo hi := by
  obtain ⟨blocks, hinv⟩ := hclient
  rcases hinv.serve ha hsize with ⟨-, habort⟩ | ⟨b, blocks', h', -, hrun, hgot⟩
  · exact .inl habort
  · exact .inr ⟨b.data, h', hrun, ⟨blocks', hgot.invariant size hgot.room⟩, hgot.keeps⟩

/-- Giving an object back changes nothing that is held. -/
theorem Client.free {o : Live} (hclient : Client h live) (ho : o ∈ live) :
    Client (kfree h o.ptr) (live.erase o) ∧
      ∀ lo hi, Held live lo hi → Agree h.mem (kfree h o.ptr).mem lo hi := by
  obtain ⟨blocks, hinv⟩ := hclient
  obtain ⟨b, hb, hback⟩ := hinv.backed o ho
  refine ⟨⟨_, hinv.free ho hb hback⟩, fun lo hi hheld x hlo hhi => ?_⟩
  have haside := hheld.aside hinv
  have hheaders := kfree_onlyHeaders hinv.rep hb
  rw [← hback.ptr] at hheaders
  exact hheaders x fun c hc => haside.header hinv.rep.laid hc hlo hhi

theorem Client.nodup (hclient : Client h live) : live.Nodup := by
  obtain ⟨blocks, hinv⟩ := hclient
  exact hinv.nodup

/-- Where an object lies. -/
theorem Client.within {o : Live} (hclient : Client h live) (ho : o ∈ live) :
    heapBegin ≤ o.ptr ∧ o.ptr + o.size ≤ heapLimit ∧ o.ptr % o.align = 0 := by
  obtain ⟨blocks, hinv⟩ := hclient
  obtain ⟨b, hb, hback⟩ := hinv.backed o ho
  have hp := hinv.rep.laid.placed b hb
  have hlow := hp.low
  have hhigh := hp.high
  have hroom := hback.room
  have hptr := hback.ptr
  rw [Block.data] at hptr
  exact ⟨by omega, by omega, hback.aligned⟩

/-- What is held besides an object shares no byte with its block. -/
theorem Held.apart_block {o : Live} {b : Block} {blocks : List Block}
    (hinv : Invariant { heap := h, live := o :: live } blocks) (hb : b ∈ blocks)
    (hback : b.Backs o) (hheld : Held live lo hi) : hi ≤ b.data ∨ b.data + b.cap ≤ lo := by
  have hp := hinv.rep.laid.placed b hb
  have hlow := hp.low
  have hhigh := hp.high
  rw [Block.data]
  rcases hheld with hbelow | habove | ⟨o', ho', hlo, hhi⟩
  · omega
  · omega
  · obtain ⟨b', hb', hback'⟩ := hinv.backed o' (List.mem_cons_of_mem o ho')
    have hroom := hback'.room
    have hptr := (List.pairwise_cons.mp hinv.distinct).1 o' ho'
    rw [hback.ptr, hback'.ptr] at hptr
    rw [hback'.ptr] at hlo hhi
    simp only [Block.data] at hlo hhi hptr
    rcases hinv.rep.laid.apart hb hb' with rfl | hlt | hlt
    · exact absurd rfl hptr
    · omega
    · omega

/-- What is held besides an object shares no byte with it. -/
theorem Held.apart {o : Live} (hclient : Client h (o :: live)) (hheld : Held live lo hi) :
    hi ≤ o.ptr ∨ o.ptr + o.size ≤ lo := by
  obtain ⟨blocks, hinv⟩ := hclient
  obtain ⟨b, hb, hback⟩ := hinv.backed o List.mem_cons_self
  have hptr := hback.ptr
  have hroom := hback.room
  have hout := hheld.apart_block hinv hb hback
  omega

/-- A word stored into what is held. -/
theorem Client.write32 {a v : Nat} (hclient : Client h live) (hheld : Held live a (a + 4)) :
    Client { h with mem := Machine.write32 h.mem a v } live := by
  refine hclient.store fun x => ?_
  by_cases hx : x < a ∨ a + 4 ≤ x
  · exact .inl (write32_outside hx)
  · exact .inr (hheld.mono (by omega) (by omega))

/-- A block was handed out and its first `n` bytes were written. -/
structure Filled (h : State) (live : List Live) (b : Block) (blocks' : List Block) (n : Nat)
    (h' : State) : Prop where
  invariant : Invariant { heap := h', live := { ptr := b.data, align := 4, size := n } :: live }
    blocks'
  mem : b ∈ blocks'
  backs : b.Backs { ptr := b.data, align := 4, size := n }
  keeps : ∀ lo hi, Held live lo hi → Agree h.mem h'.mem lo hi
  frame : ∀ x, (∀ c ∈ blocks', x < c.addr ∨ c.addr + 8 ≤ x) → (x < b.data ∨ b.data + n ≤ x) →
    h'.mem x = h.mem x

theorem Filled.store {b : Block} {blocks' : List Block} {n : Nat} {h' : State} {m : Mem}
    (hfilled : Filled h live b blocks' n h')
    (hm : ∀ x, x < b.data ∨ b.data + n ≤ x → m x = h'.mem x) :
    Filled h live b blocks' n { h' with mem := m } where
  invariant := hfilled.invariant.store fun x => by
    by_cases hx : x < b.data ∨ b.data + n ≤ x
    · exact .inl (hm x hx)
    · refine .inr ((held_object List.mem_cons_self).mono ?_ ?_)
      · dsimp only
        omega
      · dsimp only
        omega
  mem := hfilled.mem
  backs := hfilled.backs
  keeps := fun lo hi hheld x hlo hhi => by
    have hapart := hheld.apart ⟨blocks', hfilled.invariant⟩
    dsimp only at hapart
    exact (hm x (by omega)).trans (hfilled.keeps lo hi hheld x hlo hhi)
  frame := fun x hheaders hout => (hm x hout).trans (hfilled.frame x hheaders hout)

theorem Obtained.filled {blocks blocks' : List Block} {size n : Nat} {b : Block} {h' : State}
    (hgot : Obtained h live blocks 4 size b blocks' h') (hn : n ≤ b.cap) :
    Filled h live b blocks' n h' where
  invariant := hgot.invariant n hn
  mem := hgot.allocated.mem
  backs := ⟨rfl, hgot.allocated.used, hn, hgot.allocated.aligned⟩
  keeps := hgot.keeps
  frame := fun x hheaders _ => hgot.headers x hheaders

end Heap
end Medusa
