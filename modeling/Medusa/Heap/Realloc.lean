import Medusa.Heap.Client
import Medusa.Heap.ListSound

/-!
# What `krealloc` changes

The copy is as long as the old block's capacity, whatever the new block can
hold.  As long as it fits, `krealloc` writes the new payload, two flags and the
headers of what it appends, and nothing else; when it does not fit, the copy
runs over the header that follows.
-/

namespace Medusa
namespace Heap

open Machine Kernel Libc

/-- What the caller of `krealloc(o.ptr, n)` may rely on when `q` came back; the
list had the nodes `addrs` and `new` was appended to it. -/
structure ReallocSound (s : Session) (o : Live) (n q : Nat) (h' : State)
    (addrs new : List Nat) : Prop where
  listed : Follow s.heap.mem s.heap.bottom addrs
  listed' : Follow h'.mem h'.bottom (addrs ++ new)
  copied : ∀ i, i < min (capacity s.heap.mem (memGetBlock o.ptr)) n →
    h'.mem (q + i) = s.heap.mem (o.ptr + i)
  frame : ∀ x, x ∉ payload h'.mem q → (∀ a ∈ addrs ++ new, x ∉ Finset.Ico a (a + 8)) →
    h'.mem x = s.heap.mem x
  links : ∀ a ∈ addrs, new = [] ∨ a ≠ s.heap.top → next h'.mem a = next s.heap.mem a
  sizes : ∀ a ∈ addrs, a ≠ memGetBlock o.ptr → a ≠ memGetBlock q →
    size h'.mem a = size s.heap.mem a
  capacities : ∀ a ∈ addrs, capacity h'.mem a = capacity s.heap.mem a
  others : ∀ o' ∈ s.live, o' ≠ o → ∀ x ∈ payload s.heap.mem o'.ptr, h'.mem x = s.heap.mem x

/-! ## Links of a list that grew -/

theorem Follow.head {m : Mem} {a : Nat} {addrs : List Nat} (h : Follow m a addrs) :
    a = addrs.head?.getD 0 := by
  cases addrs with
  | nil => exact h
  | cons b rest => exact h.1

/-- Only the link of the last node changes when a list grows at its end. -/
theorem Follow.links {m m' : Mem} {a a' : Nat} {addrs new : List Nat} (h : Follow m a addrs)
    (h' : Follow m' a' (addrs ++ new)) {b : Nat} (hb : b ∈ addrs)
    (hlast : new = [] ∨ b ≠ addrs.getLast?.getD 0) : next m' b = next m b := by
  induction addrs generalizing a a' with
  | nil => exact absurd hb List.not_mem_nil
  | cons c rest ih =>
    obtain ⟨-, -, hrest⟩ := h
    obtain ⟨-, -, hrest'⟩ := h'
    cases rest with
    | nil =>
      rw [List.mem_singleton.mp hb] at hlast ⊢
      have hnew : new = [] := hlast.resolve_right fun hne => hne rfl
      rw [hrest.head, hrest'.head, hnew]
      rfl
    | cons d rest =>
      rcases List.mem_cons.mp hb with rfl | hb
      · rw [hrest.head, hrest'.head]
        rfl
      · refine ih hrest hrest' hb ?_
        rwa [List.getLast?_cons_cons] at hlast

/-! ## The effect of one call -/

section Effect

variable {s : Session} {blocks blocks' : List Block} {o : Live} {n q : Nat} {h' h₁ : State}
  {old b : Block} (hinv : Invariant s blocks)
  (hre : Reallocated s blocks o n q h' old b blocks' h₁)

theorem release_addrs (l : List Block) (a : Nat) :
    (release l a).map Block.addr = l.map Block.addr := by
  rw [release, List.map_map]
  exact List.map_congr_left fun c _ => c.mark_addr a false

include hre

/-- The list after the copy and before the free. -/
theorem Reallocated.copy_rep :
    Rep { h₁ with mem := memcpy h₁.mem b.data old.data old.cap } blocks' := by
  have hfits := hre.fits
  exact hre.rep.payload hre.allocated.mem fun x hx => memcpy_outside (by omega)

theorem Reallocated.rep' : Rep h' (release blocks' old.addr) := by
  rw [hre.result]
  exact kfree_rep hre.copy_rep (hre.allocated.keeps hre.mem hre.backs.used).1

/-- The new list is the old one and what was appended. -/
theorem Reallocated.addrs : ∃ new, blocks'.map Block.addr = blocks.map Block.addr ++ new := by
  obtain ⟨new, hnew⟩ := hre.allocated.grown
  refine ⟨new.map Block.addr, ?_⟩
  have hready : ready blocks = blocks := by
    obtain ⟨c, rest, rfl⟩ := List.exists_cons_of_ne_nil (List.ne_nil_of_mem hre.mem)
    rfl
  rw [hnew, hready, List.map_append, List.map_map]
  congr 1
  exact List.map_congr_left fun c _ => c.mark_addr b.addr true

/-- Outside the headers the call leaves what the copy left. -/
theorem Reallocated.mem_eq {x : Nat} (hhead : ∀ c ∈ blocks', x < c.addr ∨ c.addr + 8 ≤ x) :
    h'.mem x = memcpy h₁.mem b.data old.data old.cap x := by
  rw [hre.result]
  exact kfree_onlyHeaders hre.copy_rep (hre.allocated.keeps hre.mem hre.backs.used).1 x hhead

/-- Outside the new payload and the headers no byte changes. -/
theorem Reallocated.frame {x : Nat} (hx : x < b.data ∨ b.data + b.cap ≤ x)
    (hhead : ∀ c ∈ blocks', x < c.addr ∨ c.addr + 8 ≤ x) : h'.mem x = s.heap.mem x := by
  have hfits := hre.fits
  calc h'.mem x = memcpy h₁.mem b.data old.data old.cap x := hre.mem_eq hhead
    _ = h₁.mem x := memcpy_outside (by omega)
    _ = s.heap.mem x := hre.headers x hhead

theorem Reallocated.copied {i : Nat} (hi : i < old.cap) :
    h'.mem (b.data + i) = s.heap.mem (old.data + i) := by
  have hfits := hre.fits
  have hlaid := hre.rep.laid
  obtain ⟨hold, hne⟩ := hre.allocated.keeps hre.mem hre.backs.used
  -- the two payloads lie apart, so the copy reads what was there before it
  have hov : b.data ≤ old.data ∨ old.data + old.cap ≤ b.data := by
    simp only [Block.data]
    rcases hlaid.apart hre.allocated.mem hold with he | hlt | hlt
    · exact absurd (congrArg Block.addr he).symm hne
    · omega
    · omega
  calc h'.mem (b.data + i) = memcpy h₁.mem b.data old.data old.cap (b.data + i) :=
        hre.mem_eq fun c hc =>
          hlaid.header_apart hre.allocated.mem hc (Nat.le_add_right _ i) (by omega)
    _ = h₁.mem (old.data + i) := memcpy_apply hov hi
    _ = s.heap.mem (old.data + i) := hre.headers _ fun c hc =>
        hlaid.header_apart hold hc (Nat.le_add_right _ i) (by omega)

/-- An existing block keeps its header but for the flags of the two blocks. -/
theorem Reallocated.block {c : Block} (hc : c ∈ blocks) :
    (c.mark b.addr true).mark old.addr false ∈ release blocks' old.addr := by
  obtain ⟨new, hnew⟩ := hre.allocated.grown
  refine List.mem_map_of_mem ?_
  rw [hnew]
  exact List.mem_append_left _ (List.mem_map_of_mem (mem_ready hc))

include hinv in
theorem Reallocated.sound : ∃ addrs new, ReallocSound s o n q h' addrs new := by
  obtain ⟨new, hnew⟩ := hre.addrs
  have hold := (hre.allocated.keeps hre.mem hre.backs.used).1
  have hmem := hre.allocated.mem
  have hsound := hinv.rep.listSound
  have hsound' := hre.rep'.listSound
  rw [release_addrs, hnew] at hsound'
  have hheap : memGetBlock o.ptr = old.addr := by
    rw [hre.backs.ptr, memGetBlock_data (hinv.rep.laid.placed old hre.mem)]
  have hq : memGetBlock q = b.addr := by
    rw [hre.ptr, memGetBlock_data (hre.rep.laid.placed b hmem)]
  have hcap' : capacity h'.mem b.addr = b.cap := by
    have hb' : b.mark old.addr false ∈ release blocks' old.addr := List.mem_map_of_mem hmem
    have h := hre.rep'.capacity_addr hb'
    rwa [Block.mark_addr, Block.mark_cap] at h
  refine ⟨blocks.map Block.addr, new, hsound.follow, hsound'.follow, ?_, ?_, ?_, ?_, ?_, ?_⟩
  · intro i hi
    rw [hheap, hinv.rep.capacity_addr hre.mem] at hi
    rw [hre.ptr, hre.backs.ptr]
    exact hre.copied (by omega)
  · intro x hx hhead
    rw [payload, hq, hcap', hre.ptr, Finset.mem_Ico] at hx
    refine hre.frame (by omega) fun c hc => ?_
    have hc' := hhead c.addr (hnew ▸ List.mem_map_of_mem hc)
    rw [Finset.mem_Ico] at hc'
    omega
  · intro a ha hlast
    rw [← hsound.last] at hlast
    exact hsound.follow.links hsound'.follow ha hlast
  · intro a ha hne hne'
    obtain ⟨c, hc, rfl⟩ := List.mem_map.mp ha
    rw [hheap] at hne
    rw [hq] at hne'
    have hc' := hre.block hc
    rw [Block.mark_of_ne hne', Block.mark_of_ne hne] at hc'
    rw [hre.rep'.linked.size_eq hc', hinv.rep.linked.size_eq hc]
  · intro a ha
    obtain ⟨c, hc, rfl⟩ := List.mem_map.mp ha
    have hc' := hre.rep'.capacity_addr (hre.block hc)
    rw [Block.mark_addr, Block.mark_addr, Block.mark_cap, Block.mark_cap] at hc'
    rw [hc', hinv.rep.capacity_addr hc]
  · intro o' ho' _ x hx
    obtain ⟨c, hc, hback⟩ := hinv.backed o' ho'
    obtain ⟨hc', hcb⟩ := hre.allocated.keeps hc hback.used
    rw [hinv.payload_eq hc hback, Finset.mem_Ico] at hx
    refine hre.frame ?_ fun d hd => hre.rep.laid.header_apart hc' hd hx.1 hx.2
    simp only [Block.data] at hx ⊢
    rcases hre.rep.laid.apart hc' hmem with he | hlt | hlt
    · exact absurd (congrArg Block.addr he) hcb
    · omega
    · omega

end Effect

/-- What a client gets from a `krealloc` that leaves the headers alone. -/
structure Regrown (h : State) (live : List Live) (size : Nat) (old b : Block)
    (blocks' : List Block) (h' : State) : Prop where
  invariant : Invariant { heap := h', live := { ptr := b.data, align := 4, size := size } :: live }
    (release blocks' old.addr)
  mem : b ∈ release blocks' old.addr
  backs : b.Backs { ptr := b.data, align := 4, size := size }
  copied : ∀ i < old.cap, h'.mem (b.data + i) = h.mem (old.data + i)
  keeps : ∀ lo hi, Held live lo hi → hi ≤ b.data ∨ b.data + old.cap ≤ lo → Agree h.mem h'.mem lo hi

section Regrown

variable {h h₁ : State} {live : List Live} {o : Live} {blocks blocks' : List Block} {old b : Block}
  {size : Nat}

/-- The copy may run past the new block, if it writes to each header what was there. -/
theorem Obtained.regrown (hgot : Obtained h (o :: live) blocks 4 size b blocks' h₁)
    (hold : old ∈ blocks) (hback : old.Backs o)
    (hwords : ∀ c ∈ blocks',
      next (memcpy h₁.mem b.data old.data old.cap) c.addr = next h₁.mem c.addr ∧
      Heap.size (memcpy h₁.mem b.data old.data old.cap) c.addr = Heap.size h₁.mem c.addr)
    (hapart : old.data + old.cap ≤ b.addr ∨ b.data + old.cap ≤ old.addr) :
    Regrown h live size old b blocks'
      (kfree { h₁ with mem := memcpy h₁.mem b.data old.data old.cap } old.data) := by
  have hall := hgot.allocated
  obtain ⟨hold', hne⟩ := hall.keeps hold hback.used
  have hinv := hgot.invariant size hgot.room
  have hcopy := hinv.words hwords
  have hptr : b.data ≠ o.ptr :=
    (List.pairwise_cons.mp hinv.distinct).1 o List.mem_cons_self
  have hfree := hcopy.free (List.mem_cons_of_mem _ List.mem_cons_self) hold' hback
  dsimp only at hfree
  rw [List.erase_cons_tail (by
      rw [beq_iff_eq]
      exact fun he => hptr (congrArg Live.ptr he)), List.erase_cons_head, hback.ptr] at hfree
  have hheader : ∀ x, x < old.addr ∨ old.addr + 8 ≤ x → _ = _ :=
    fun _ => kfree_outside (h := { h₁ with mem := memcpy h₁.mem b.data old.data old.cap })
      (hcopy.rep.laid.placed old hold')
  simp only [Block.data] at hapart
  refine ⟨hfree, ?_, ⟨rfl, hall.used, hgot.room, hall.aligned⟩, fun i hi => ?_, ?_⟩
  · exact List.mem_map.mpr ⟨b, hall.mem, Block.mark_of_ne (Ne.symm hne)⟩
  · calc _ = memcpy h₁.mem b.data old.data old.cap (b.data + i) :=
          hheader _ (by rw [Block.data]; omega)
      _ = h₁.mem (old.data + i) := memcpy_apply (by simp only [Block.data]; omega) hi
      _ = h.mem (old.data + i) := hgot.headers _ fun c hc =>
          hgot.rep.laid.header_apart hold' hc (Nat.le_add_right _ i) (by omega)
  · intro lo hi hheld hout x hlo hhi
    have hold := hheld.subset fun o' ho' => List.mem_cons_of_mem o ho'
    have haside := (hold.subset fun o' ho' => List.mem_cons_of_mem _ ho').aside hcopy
    calc _ = memcpy h₁.mem b.data old.data old.cap x :=
          hheader x (haside.header hcopy.rep.laid hold' hlo hhi)
      _ = h₁.mem x := memcpy_outside (by omega)
      _ = h.mem x := hgot.keeps lo hi hold x hlo hhi

/-- A `krealloc` to a modest size goes as the list says. -/
theorem Invariant.regrow (hinv : Invariant { heap := h, live := o :: live } blocks)
    (hold : old ∈ blocks) (hback : old.Backs o) (hpos : size ≠ 0) (hsize : size ≤ heapSize) :
    (allocate blocks (alignTo size 8) 4 = none ∧ krealloc h o.ptr size = .error .abort) ∨
    ∃ b blocks' h₁, allocate blocks (alignTo size 8) 4 = some (b, blocks') ∧
      Obtained h (o :: live) blocks 4 size b blocks' h₁ ∧
      krealloc h o.ptr size = .ok (b.data,
        kfree { h₁ with mem := memcpy h₁.mem b.data old.data old.cap } old.data) := by
  rcases hinv.serve aligns_four hsize with ⟨hnone, habort⟩ | ⟨b, blocks', h₁, halloc, hrun, hgot⟩
  · refine .inl ⟨hnone, ?_⟩
    rw [krealloc, if_neg hback.ptr_ne, if_neg hpos, kmalloc, habort]
    rfl
  · obtain ⟨hold', -⟩ := hgot.allocated.keeps hold hback.used
    refine .inr ⟨b, blocks', h₁, halloc, hgot, ?_⟩
    rw [krealloc_of_kmalloc hback.ptr_ne hpos hrun, hback.ptr, hgot.rep.capacity_data hold']

/-- A copy that fits. -/
theorem Obtained.regrown_of_fits (hgot : Obtained h (o :: live) blocks 4 size b blocks' h₁)
    (hold : old ∈ blocks) (hback : old.Backs o) (hfits : old.cap ≤ b.cap) :
    Regrown h live size old b blocks'
      (kfree { h₁ with mem := memcpy h₁.mem b.data old.data old.cap } old.data) := by
  have hall := hgot.allocated
  obtain ⟨hold', hne⟩ := hall.keeps hold hback.used
  have hout : ∀ c ∈ blocks',
      Agree h₁.mem (memcpy h₁.mem b.data old.data old.cap) c.addr (c.addr + 8) := by
    intro c hc x hlo hhi
    refine memcpy_outside ?_
    simp only [Block.data]
    rcases hgot.rep.laid.apart hc hall.mem with rfl | hlt | hlt
    · omega
    · omega
    · omega
  refine hgot.regrown hold hback (fun c hc => ⟨?_, ?_⟩) ?_
  · exact read32_congr ((hout c hc).mono (by omega) (by omega))
  · exact read32_congr ((hout c hc).mono (by omega) (by omega))
  · simp only [Block.data]
    rcases hgot.rep.laid.apart hold' hall.mem with rfl | hlt | hlt
    · exact absurd rfl hne
    · omega
    · omega

end Regrown

theorem krealloc_ends {h : State} {blocks : List Block} (hrep : Rep h blocks) (ptr size : Nat)
    (hptr : ptr ≠ 0) (hsize : size ≠ 0) :
    krealloc h ptr size = .error .abort ∨ ∃ q h', krealloc h ptr size = .ok (q, h') := by
  rcases alignedAlloc_ends hrep aligns_four size with habort | ⟨q, h₁, hrun⟩
  · rw [krealloc, if_neg hptr, if_neg hsize, kmalloc, habort]
    exact Or.inl rfl
  · exact Or.inr ⟨_, _, krealloc_of_kmalloc hptr hsize hrun⟩

/-- **`krealloc` along sane runs.**  When the copy fits the new block, the call
gives up or does what its caller may rely on. -/
theorem krealloc_sound {s : Session} (hs : Reachable Sane s) {o : Live} (ho : o ∈ s.live)
    {n : Nat} (hpos : 0 < n) (hn : n ≤ heapSize) (hcopy : CopyFits s.heap o.ptr n) :
    krealloc s.heap o.ptr n = .error .abort ∨
      ∃ q h', krealloc s.heap o.ptr n = .ok (q, h') ∧
        ∃ addrs new, ReallocSound s o n q h' addrs new := by
  obtain ⟨blocks, hinv⟩ := reachable_invariant hs
  obtain ⟨old, -, hback⟩ := hinv.backed o ho
  have huncut := uncut_of_modest hinv.rep aligns_four hn
  rcases krealloc_ends hinv.rep o.ptr n hback.ptr_ne (by omega) with habort | ⟨q, h', hrun⟩
  · exact Or.inl habort
  · obtain ⟨old, b, blocks', h₁, hre⟩ :=
      krealloc_reallocated hinv ho (by omega) (Or.inr huncut) hcopy hrun
    exact Or.inr ⟨q, h', hrun, hre.sound hinv⟩

/-- Growing an object of sixteen bytes to thirty-two. -/
theorem krealloc_sound_grow :
    ∃ s o, Reachable Sane s ∧ o ∈ s.live ∧ CopyFits s.heap o.ptr 32 ∧
      (krealloc s.heap o.ptr 32 = .error .abort ∨
        ∃ q h', krealloc s.heap o.ptr 32 = .ok (q, h') ∧
          ∃ addrs new, ReallocSound s o 32 q h' addrs new) := by
  have hfirst : allocate [] (alignTo 16 8) 4 = some (⟨0xC040000C, 16, true⟩,
      [sentinel, ⟨0xC040000C, 16, true⟩]) := by decide
  have hsecond : allocate [sentinel, ⟨0xC040000C, 16, true⟩] (alignTo 32 8) 4 =
      some (⟨0xC0400028, 32, true⟩,
        [sentinel, ⟨0xC040000C, 16, true⟩, ⟨0xC0400028, 32, true⟩]) := by decide
  have hinit := (invariant_start fun _ => 0#8).rep
  obtain ⟨h, hrun, hrep, -⟩ := alignedAlloc_of_allocate hinit aligns_four hfirst
  have hreach : Reachable Sane { heap := h, live := [⟨0xC0400014, 4, 16⟩] } :=
    ⟨_, .single (.call (.kmalloc 16)
      (Or.inr (uncut_of_modest hinit aligns_four (by decide))) hrun)⟩
  have hcopy : CopyFits h 0xC0400014 32 := by
    intro room hroom
    rw [kmallocRoom_eq hrep hsecond] at hroom
    have hcap := hrep.capacity_data (b := ⟨0xC040000C, 16, true⟩) (by simp)
    rw [Block.data] at hcap
    rw [← Except.ok.inj hroom, hcap]
    decide
  exact ⟨_, _, hreach, List.mem_cons_self, hcopy,
    krealloc_sound hreach List.mem_cons_self (by decide) (by decide) hcopy⟩

/-! ## A copy that does not fit -/

/-- The list after four requests of 16, 8, 8 and 8 bytes and the release of the
second. -/
def holed : List Block :=
  [sentinel, ⟨0xC040000C, 16, true⟩, ⟨0xC0400028, 8, false⟩, ⟨0xC040003C, 8, true⟩,
    ⟨0xC0400050, 8, true⟩]

theorem holed_trail :
    Trail (fun _ => 1#8) holed [⟨0xC0400058, 4, 8⟩, ⟨0xC0400044, 4, 8⟩, ⟨0xC0400014, 4, 16⟩] := by
  have hrun₁ : allocate [] (alignTo 16 8) 4 = some (⟨0xC040000C, 16, true⟩,
      [sentinel, ⟨0xC040000C, 16, true⟩]) := by decide
  have hrun₂ : allocate [sentinel, ⟨0xC040000C, 16, true⟩] (alignTo 8 8) 4 =
      some (⟨0xC0400028, 8, true⟩,
        [sentinel, ⟨0xC040000C, 16, true⟩, ⟨0xC0400028, 8, true⟩]) := by decide
  have hrun₃ : allocate [sentinel, ⟨0xC040000C, 16, true⟩, ⟨0xC0400028, 8, true⟩]
      (alignTo 8 8) 4 = some (⟨0xC040003C, 8, true⟩, [sentinel, ⟨0xC040000C, 16, true⟩,
        ⟨0xC0400028, 8, true⟩, ⟨0xC040003C, 8, true⟩]) := by decide
  have hrun₄ : allocate [sentinel, ⟨0xC040000C, 16, true⟩, ⟨0xC0400028, 8, true⟩,
      ⟨0xC040003C, 8, true⟩] (alignTo 8 8) 4 = some (⟨0xC0400050, 8, true⟩, [sentinel,
        ⟨0xC040000C, 16, true⟩, ⟨0xC0400028, 8, true⟩, ⟨0xC040003C, 8, true⟩,
        ⟨0xC0400050, 8, true⟩]) := by decide
  have hfour := ((((Trail.empty fun _ => 1#8).alloc aligns_four (by decide) hrun₁).alloc
    aligns_four (by decide) hrun₂).alloc aligns_four (by decide) hrun₃).alloc
    aligns_four (by decide) hrun₄
  exact hfour.free (o := ⟨0xC0400030, 4, 8⟩) (b := ⟨0xC0400028, 8, true⟩) (by decide) (by decide)
    rfl

/-- Shrinking the first object of `holed` to eight bytes copies sixteen into the
hole, over the link of the block behind it. -/
theorem krealloc_shrink_overruns :
    ∃ s o q h', Reachable Modest s ∧ o ∈ s.live ∧ krealloc s.heap o.ptr 8 = .ok (q, h') ∧
      next s.heap.mem 0xC040003C = 0xC0400050 ∧ next h'.mem 0xC040003C = 0x01010101 ∧
      ¬ ∃ addrs new, ReallocSound s o 8 q h' addrs new := by
  obtain ⟨h, hrun, hrep, hhead⟩ := holed_trail
  have hfill : allocate holed (alignTo 8 8) 4 = some (⟨0xC0400028, 8, true⟩,
      [sentinel, ⟨0xC040000C, 16, true⟩, ⟨0xC0400028, 8, true⟩, ⟨0xC040003C, 8, true⟩,
        ⟨0xC0400050, 8, true⟩]) := by decide
  obtain ⟨h₁, hk, hrep₁, hhead₁⟩ := alignedAlloc_of_allocate hrep aligns_four hfill
  have hcap : capacity h₁.mem (memGetBlock 0xC0400014) = 16 :=
    hrep₁.capacity_data (b := ⟨0xC040000C, 16, true⟩) (by decide)
  have hcall : krealloc h 0xC0400014 8 = .ok (0xC0400030,
      kfree { h₁ with mem := memcpy h₁.mem 0xC0400030 0xC0400014 16 } 0xC0400014) := by
    rw [krealloc_of_kmalloc (by decide) (by decide) hk, hcap, Block.data]
  have hlink : next h.mem 0xC040003C = 0xC0400050 := hrep.linked.2.2.2.2.2.2.1
  have hbytes : Agree (fun _ => 1#8)
      (kfree { h₁ with mem := memcpy h₁.mem 0xC0400030 0xC0400014 16 } 0xC0400014).mem
      0xC040003C (0xC040003C + 4) := by
    intro x hlo hhi
    calc setSize (memcpy h₁.mem 0xC0400030 0xC0400014 16) 0xC040000C _ x
        = memcpy h₁.mem 0xC0400030 0xC0400014 16 (0xC0400030 + (x - 0xC0400030)) := by
          rw [Nat.add_sub_cancel' (by omega)]
          exact write32_outside (by omega)
      _ = h₁.mem (0xC0400014 + (x - 0xC0400030)) := memcpy_apply (by omega) (by omega)
      _ = h.mem (0xC0400014 + (x - 0xC0400030)) := hhead₁ _ fun c hc =>
          hrep₁.laid.header_apart (b := ⟨0xC040000C, 16, true⟩) (by decide) hc
            (Nat.le_add_right _ _) (by simp only [Block.data]; omega)
      _ = 1#8 := hhead _ fun c hc =>
          hrep.laid.header_apart (b := ⟨0xC040000C, 16, true⟩) (by decide) hc
            (Nat.le_add_right _ _) (by simp only [Block.data]; omega)
  have hover : next (kfree { h₁ with mem := memcpy h₁.mem 0xC0400030 0xC0400014 16 }
      0xC0400014).mem 0xC040003C = 0x01010101 :=
    (read32_congr hbytes).trans (by decide)
  refine ⟨{ heap := h, live := _ }, ⟨0xC0400014, 4, 16⟩, _, _, ⟨_, hrun⟩, by simp, hcall, hlink,
    hover, ?_⟩
  rintro ⟨addrs, new, hsound⟩
  have haddrs := hsound.listed.unique hrep.listSound.follow
  have hkeep := hsound.links 0xC040003C (by rw [haddrs]; decide)
    (Or.inr (by rw [hrep.top]; decide))
  rw [hover, hlink] at hkeep
  exact absurd hkeep (by decide)

end Heap
end Medusa
