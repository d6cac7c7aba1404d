import Medusa.Heap.FirstFit

/-!
# The code refines first fit

The functions of `kmalloc.c` on memory do to a heap that represents a list what
`allocate` and `release` do to the list.  They write headers only, so every
payload keeps its bytes.
-/

namespace Medusa
namespace Heap

open Machine Kernel Libc

/-- The bytes outside the headers of `blocks` are the same in both memories. -/
def OnlyHeaders (blocks : List Block) (m m' : Mem) : Prop :=
  ∀ x, (∀ b ∈ blocks, x < b.addr ∨ b.addr + 8 ≤ x) → m' x = m x

/-- An alignment the callers may ask for. -/
structure Aligns (align : Nat) : Prop where
  pos : 0 < align
  words : align % 4 = 0
  le : align ≤ heapSize

variable {h : State} {blocks : List Block} {align size : Nat}

/-! ## Memory for a list -/

/-- Every list that is laid out properly has a memory. -/
theorem exists_linked (hlaid : Laid blocks) (m : Mem) :
    ∃ m', Linked m' 0 blocks ∧ OnlyHeaders blocks m m' := by
  induction blocks with
  | nil => exact ⟨m, trivial, fun _ _ => rfl⟩
  | cons b rest ih =>
    obtain ⟨m', hlink, honly⟩ := ih hlaid.tail
    have hplaced := hlaid.placed b List.mem_cons_self
    have hhead : headAddr 0 rest < 2 ^ 32 := by
      cases rest with
      | nil => exact Nat.two_pow_pos 32
      | cons c rest => exact (hlaid.placed c (List.mem_cons_of_mem b List.mem_cons_self)).addr_lt
    refine ⟨setSize (setNext m' b.addr (headAddr 0 rest)) b.addr b.word, ⟨?_, ?_, ?_⟩, ?_⟩
    · rw [next, setSize, read32_write32_of_disjoint (by omega), setNext, read32_write32_self,
        Nat.mod_eq_of_lt hhead]
    · rw [size, setSize, read32_write32_self, Nat.mod_eq_of_lt hplaced.word_lt]
    · refine hlink.congr fun c hc x hlo hhi => ?_
      have hpast := (List.pairwise_cons.mp hlaid.pairwise).1 c hc
      exact (write32_outside (by omega)).trans (write32_outside (by omega))
    · intro x hx
      have hout := hx b List.mem_cons_self
      calc setSize (setNext m' b.addr (headAddr 0 rest)) b.addr b.word x
          = setNext m' b.addr (headAddr 0 rest) x := write32_outside (by omega)
        _ = m' x := write32_outside (by omega)
        _ = m x := honly x fun c hc => hx c (List.mem_cons_of_mem b hc)

theorem exists_rep (hlaid : Laid blocks) (m : Mem) :
    ∃ h, Rep h blocks ∧ OnlyHeaders blocks m h.mem := by
  obtain ⟨m', hlink, honly⟩ := exists_linked hlaid m
  exact ⟨⟨m', headAddr 0 blocks, lastAddr blocks, 0⟩, ⟨rfl, rfl, hlink, hlaid⟩, honly⟩

/-! ## The search -/

theorem serves_eq {m : Mem} {b : Block} (hb : b.Placed) (hsize : Heap.size m b.addr = b.word) :
    serves m size align b.addr = b.fits size align := by
  rw [serves, capacity, hsize, hb.clearFlag_word, hb.word_and_one, memIsAligned, Block.fits,
    Block.data, Bool.eq_iff_iff]
  cases hu : b.used <;> simp

/-- The loop stops at the first block that fits, or at the end of the list. -/
theorem findLoop_eq {m : Mem} {fuel : Nat} (hlink : Linked m 0 blocks)
    (hplaced : ∀ b ∈ blocks, b.Placed) (hne : blocks ≠ []) (hfuel : blocks.length ≤ fuel) :
    findLoop m size align fuel (headAddr 0 blocks) =
      .ok ((firstFit blocks size align).elim 0 Block.addr) := by
  induction blocks generalizing fuel with
  | nil => exact absurd rfl hne
  | cons b rest ih =>
    obtain ⟨hnext, hsize, hrest⟩ := hlink
    have hb := hplaced b List.mem_cons_self
    have hplaced' : ∀ c ∈ rest, c.Placed := fun c hc => hplaced c (List.mem_cons_of_mem b hc)
    cases fuel with
    | zero => exact absurd hfuel (by simp)
    | succ fuel =>
      rw [headAddr, findLoop, serves_eq hb hsize, firstFit, hnext]
      cases hfit : b.fits size align with
      | true => simp [hfit]
      | false =>
        simp only [hfit, List.find?_cons, Bool.false_eq_true, ↓reduceIte]
        cases hr : rest with
        | nil => simp [headAddr]
        | cons c rest' =>
          have hc : c.addr ≠ 0 := by
            have hpos := (hplaced' c (hr ▸ List.mem_cons_self)).addr_pos
            omega
          rw [if_neg (show headAddr 0 (c :: rest') ≠ 0 from hc), ← hr]
          exact ih hrest hplaced' (hr ▸ List.cons_ne_nil _ _) (Nat.le_of_succ_le_succ hfuel)

theorem memFindBlock_eq (hrep : Rep h blocks) (hne : blocks ≠ []) :
    memFindBlock h size align = .ok ((firstFit blocks size align).elim 0 Block.addr) := by
  have hlen := hrep.laid.length_le
  have hheap : heapSize = 0x1E00000 := rfl
  have hbottom : h.bottom ≠ 0 := by
    obtain ⟨b, rest, rfl⟩ := List.exists_cons_of_ne_nil hne
    have hpos := (hrep.laid.placed b List.mem_cons_self).addr_pos
    have hb : h.bottom = b.addr := hrep.bottom
    omega
  rw [memFindBlock, if_neg hbottom, hrep.bottom]
  exact findLoop_eq hrep.linked hrep.laid.placed hne (by omega)

/-! ## The first call -/

theorem setup_rep (hrep : Rep h blocks) : Rep (setup h) (ready blocks) := by
  cases blocks with
  | nil =>
    have htop : h.top = 0 := hrep.top
    rw [setup, if_pos htop]
    refine ⟨rfl, rfl, ⟨?_, ?_, trivial⟩, hrep.laid.ready⟩
    · exact read32_write32_self _ heapBegin 0
    · exact (read32_write32_of_disjoint (by simp only [sentinel]; omega)).trans
        (read32_write32_self _ (heapBegin + 4) 1)
  | cons b rest =>
    have htop : h.top ≠ 0 := by
      rw [hrep.top]
      obtain ⟨l, c, hlast⟩ := (List.eq_nil_or_concat (b :: rest)).resolve_left (List.cons_ne_nil _ _)
      rw [List.concat_eq_append] at hlast
      have hc : c ∈ b :: rest := by rw [hlast]; simp
      have hpos := (hrep.laid.placed c hc).addr_pos
      rw [hlast, lastAddr_append_singleton]
      omega
    rw [setup, if_neg htop]
    exact hrep

theorem setup_onlyHeaders (hrep : Rep h blocks) :
    OnlyHeaders (ready blocks) h.mem (setup h).mem := by
  intro x hx
  rw [setup]
  by_cases htop : h.top = 0
  · rw [if_pos htop]
    have hmem : ∃ b ∈ ready blocks, b.addr = heapBegin := by
      cases blocks with
      | nil => exact ⟨sentinel, List.mem_cons_self, rfl⟩
      | cons b rest =>
        have hr := (setup_rep hrep).bottom
        rw [setup, if_pos htop] at hr
        exact ⟨b, List.mem_cons_self, hr.symm⟩
    obtain ⟨b, hb, haddr⟩ := hmem
    have hout := hx b hb
    exact (write32_outside (by omega)).trans (write32_outside (by omega))
  · rw [if_neg htop]

/-! ## Taking and freeing a block -/

theorem setSize_onlyHeaders {m : Mem} {b : Block} {v : Nat} (hb : b ∈ blocks) :
    OnlyHeaders blocks m (setSize m b.addr v) := by
  intro x hx
  have hout := hx b hb
  exact write32_outside (by omega)

/-- A store of the flag `u` into a header of the list. -/
theorem Rep.setFlag (hrep : Rep h blocks) {b : Block} (hb : b ∈ blocks) {u : Bool} {v n : Nat}
    (hv : v = b.cap + if u then 1 else 0) :
    Rep { h with mem := setSize h.mem b.addr v, usedMemory := n }
      (blocks.map (Block.mark b.addr u)) := by
  refine ⟨?_, ?_, ?_, hrep.laid.map_mark⟩
  · rw [headAddr_map_mark]
    exact hrep.bottom
  · rw [lastAddr_map_mark]
    exact hrep.top
  · refine hrep.linked.setSize (fun c hc hca => ?_) fun c hc hca => ?_
    · have hword : (c.mark b.addr u).word = v := by
        rw [hrep.laid.eq_of_addr hc hb hca, Block.mark_of_eq rfl, Block.word, hv]
      have hlt := ((hrep.laid.placed c hc).mark (a := b.addr) (u := u)).word_lt
      rw [hword] at hlt ⊢
      exact (Nat.mod_eq_of_lt hlt).symm
    · rcases hrep.laid.apart hc hb with he | hlt | hlt
      · exact absurd (congrArg Block.addr he) hca
      · omega
      · omega

theorem memGetBlock_data {b : Block} (hb : b.Placed) : memGetBlock b.data = b.addr := by
  have hhigh := hb.high
  have hlimit : heapLimit = 0xC2200000 := rfl
  rw [memGetBlock, Block.data, wsub, wrap, wrap, wrap]
  omega

theorem kfree_rep (hrep : Rep h blocks) {b : Block} (hb : b ∈ blocks) :
    Rep (kfree h b.data) (release blocks b.addr) := by
  have hp := hrep.laid.placed b hb
  rw [kfree, if_neg (show b.data ≠ 0 from Nat.succ_ne_zero _), memGetBlock_data hp]
  refine hrep.setFlag hb ?_
  rw [hrep.linked.size_eq hb, hp.clearFlag_word]
  rfl

theorem kfree_outside {b : Block} (hp : b.Placed) {x : Nat} (hx : x < b.addr ∨ b.addr + 8 ≤ x) :
    (kfree h b.data).mem x = h.mem x := by
  rw [kfree, if_neg (show b.data ≠ 0 from Nat.succ_ne_zero _), memGetBlock_data hp]
  exact write32_outside (by omega)

theorem kfree_onlyHeaders (hrep : Rep h blocks) {b : Block} (hb : b ∈ blocks) :
    OnlyHeaders blocks h.mem (kfree h b.data).mem :=
  fun _ hx => kfree_outside (hrep.laid.placed b hb) (hx b hb)

/-! ## Appending a block -/

/-- The end of the list as the code computes it from `top`. -/
theorem top_end (hrep : Rep h blocks) (hne : blocks ≠ []) :
    wrap (h.top + memBlockSize h.mem h.top) = frontier blocks := by
  obtain ⟨l, last, rfl⟩ := (List.eq_nil_or_concat blocks).resolve_left hne
  rw [List.concat_eq_append] at hrep ⊢
  have hmem : last ∈ l ++ [last] := List.mem_append_right l List.mem_cons_self
  have hp := hrep.laid.placed last hmem
  have hhigh := hp.high
  have hlimit : heapLimit = 0xC2200000 := rfl
  rw [hrep.top, lastAddr_append_singleton, frontier_append_singleton, memBlockSize, capacity,
    hrep.linked.size_eq hmem, hp.clearFlag_word, wrap_of_lt (n := 12 + last.cap) (by omega),
    wrap_of_lt (by omega)]
  omega

theorem newData_eq (hrep : Rep h blocks) (hne : blocks ≠ []) (ha : 0 < align)
    (hlt : appendAt blocks align < 2 ^ 32) : newData h align = appendAt blocks align := by
  have hf := (hrep.laid.frontier_spec hne).2.1
  have hlimit : heapLimit = 0xC2200000 := rfl
  rw [newData, top_end hrep hne, wrap_of_lt (by omega), alignTo_eq ha hlt, appendAt]

/-- An alignment of at most the heap's size cuts no address. -/
theorem Laid.appendAt_lt (hlaid : Laid blocks) (hne : blocks ≠ []) (ha : Aligns align) :
    appendAt blocks align < 2 ^ 32 := by
  have hf := (hlaid.frontier_spec hne).2.1
  have hlt := roundUp_lt (frontier blocks + 8) ha.pos
  have hle := ha.le
  have hlimit : heapLimit = 0xC2200000 := rfl
  have hheap : heapSize = 0x1E00000 := rfl
  rw [appendAt]
  omega

/-- Where the new block and the filler before it stand. -/
theorem append_addresses (hrep : Rep h blocks) (hne : blocks ≠ []) (ha : 0 < align)
    (ha4 : align % 4 = 0) (hlt : appendAt blocks align < 2 ^ 32) (size : Nat) :
    wsub (alignTo (wrap (frontier blocks + 8)) align) 8 = (appended blocks size align).addr ∧
      wsub (alignTo (wrap (frontier blocks + 8)) 4) 8 = frontier blocks := by
  obtain ⟨hf4, hflim, -⟩ := hrep.laid.frontier_spec hne
  obtain ⟨hlo, hhi, -, -⟩ := appendAt_spec blocks ha ha4
  have hlimit : heapLimit = 0xC2200000 := rfl
  constructor
  · rw [← top_end hrep hne]
    change wsub (newData h align) 8 = _
    rw [newData_eq hrep hne ha hlt]
    exact wsub_of_le (by omega) hlt
  · rw [wrap_of_lt (by omega), alignTo_of_mod (by omega), wsub_of_le (by omega) (by omega)]
    omega

/-- `mem_new_block` with its addresses computed. -/
theorem memNewBlock_eq (hrep : Rep h blocks) (hne : blocks ≠ []) (ha : 0 < align)
    (ha4 : align % 4 = 0) (hlt : appendAt blocks align < 2 ^ 32) :
    memNewBlock h size align =
      ((appended blocks size align).addr, pushBlock (insertFiller
        (newHeader h (appended blocks size align).addr size) (frontier blocks)
        (appended blocks size align).addr) (appended blocks size align).addr) := by
  obtain ⟨hblock, hround⟩ := append_addresses hrep hne ha ha4 hlt size
  rw [memNewBlock, top_end hrep hne, hblock, hround]

/-- Linking a header past the end of the list to the last block appends it,
whatever its own link holds. -/
theorem Linked.push {m : Mem} {stop : Nat} {b : Block} (hlink : Linked m stop blocks)
    (hlaid : Laid blocks) (hne : blocks ≠ []) (hp : b.Placed) (hb : frontier blocks ≤ b.addr)
    (hsize : Heap.size m b.addr = b.word) :
    Linked (setNext m (lastAddr blocks) b.addr) (next m b.addr) (blocks ++ [b]) := by
  obtain ⟨l, last, rfl⟩ := (List.eq_nil_or_concat blocks).resolve_left hne
  rw [List.concat_eq_append] at *
  rw [frontier_append_singleton] at hb
  rw [lastAddr_append_singleton]
  rw [linked_append] at hlink
  obtain ⟨hl, -, hword, -⟩ := hlink
  refine linked_append.mpr ⟨linked_append.mpr ⟨?_, ?_, ?_, trivial⟩, ?_, ?_, trivial⟩
  · refine hl.congr fun c hc => agree_write32 (Or.inl ?_)
    have hlt := (List.pairwise_append.mp hlaid.pairwise).2.2 c hc last List.mem_cons_self
    omega
  · exact (read32_write32_self m last.addr b.addr).trans (Nat.mod_eq_of_lt hp.addr_lt)
  · exact (read32_write32_of_disjoint (by omega)).trans hword
  · exact read32_write32_of_disjoint (by omega)
  · exact (read32_write32_of_disjoint (by omega)).trans hsize

/-- `insertFiller` appends the filler; the new last block's link is still to be
set. -/
theorem insertFiller_linked {stop block : Nat} (hlink : Linked h.mem stop blocks)
    (htop : h.top = lastAddr blocks) (hlaid : Laid (blocks ++ filler (frontier blocks) block))
    (hne : blocks ≠ []) (hle : frontier blocks ≤ block) (hlt : block < 2 ^ 32) :
    ∃ stop', Linked (insertFiller h (frontier blocks) block).mem stop'
      (blocks ++ filler (frontier blocks) block) := by
  rw [insertFiller, wsub_of_le hle hlt]
  by_cases hgap : frontier blocks + 16 < block
  · have hfill : filler (frontier blocks) block = [fillerBlock (frontier blocks) block] :=
      if_pos hgap
    rw [if_pos (show block - frontier blocks > 12 + 4 by omega),
      wsub_of_le (by omega) (by omega)]
    rw [hfill] at hlaid ⊢
    have hp := hlaid.placed _ (List.mem_append_right blocks List.mem_cons_self)
    have hfall := (hlaid.left.frontier_spec hne).2.2
    have hkeep : Linked (setSize h.mem (frontier blocks) (block - frontier blocks - 12)) stop
        blocks := by
      refine hlink.congr fun b hb => agree_write32 (Or.inl ?_)
      have hend := hfall b hb
      omega
    have hpush := hkeep.push hlaid.left hne hp (Nat.le_refl _)
      ((read32_write32_self _ _ _).trans (Nat.mod_eq_of_lt hp.word_lt))
    rw [← htop] at hpush
    exact ⟨_, hpush⟩
  · rw [if_neg (show ¬ block - frontier blocks > 12 + 4 by omega), filler, if_neg hgap,
      List.append_nil]
    exact ⟨stop, hlink⟩

theorem insertFiller_top {block : Nat} (htop : h.top = lastAddr blocks)
    (hle : frontier blocks ≤ block) (hlt : block < 2 ^ 32) :
    (insertFiller h (frontier blocks) block).top =
      lastAddr (blocks ++ filler (frontier blocks) block) := by
  rw [insertFiller, wsub_of_le hle hlt, filler]
  by_cases hgap : frontier blocks + 16 < block
  · rw [if_pos hgap, if_pos (show block - frontier blocks > 12 + 4 by omega),
      lastAddr_append_singleton]
    rfl
  · rw [if_neg hgap, if_neg (show ¬ block - frontier blocks > 12 + 4 by omega), List.append_nil]
    exact htop

theorem insertFiller_outside {start block x : Nat} (htop : x < h.top ∨ h.top + 8 ≤ x)
    (hstart : start ≤ block) (hlt : block < 2 ^ 32)
    (hx : ∀ b ∈ filler start block, x < b.addr ∨ b.addr + 8 ≤ x) :
    (insertFiller h start block).mem x = h.mem x := by
  rw [insertFiller, wsub_of_le (by omega) hlt]
  by_cases hgap : start + 16 < block
  · have hfar : x < start ∨ start + 8 ≤ x := by
      rw [filler, if_pos hgap] at hx
      exact hx _ List.mem_cons_self
    rw [if_pos (show block - start > 12 + 4 by omega)]
    exact (write32_outside (by omega)).trans (write32_outside (by omega))
  · rw [if_neg (show ¬ block - start > 12 + 4 by omega)]

theorem frontier_filler_le {block : Nat} (hle : frontier blocks ≤ block) :
    frontier (blocks ++ filler (frontier blocks) block) ≤ block := by
  rw [filler]
  split
  · rw [frontier_append_singleton]
    simp only [fillerBlock]
    omega
  · rw [List.append_nil]
    exact hle

theorem lastAddr_mem (hne : blocks ≠ []) : ∃ b ∈ blocks, b.addr = lastAddr blocks := by
  obtain ⟨l, b, rfl⟩ := (List.eq_nil_or_concat blocks).resolve_left hne
  rw [List.concat_eq_append, lastAddr_append_singleton]
  exact ⟨b, List.mem_append_right l List.mem_cons_self, rfl⟩

theorem insertFiller_bottom (start block : Nat) :
    (insertFiller h start block).bottom = h.bottom := by
  rw [insertFiller]
  split <;> rfl

theorem pushBlock_rep {stop : Nat} {b : Block} (hlink : Linked h.mem stop blocks)
    (hbottom : h.bottom = headAddr 0 blocks) (htop : h.top = lastAddr blocks) (hne : blocks ≠ [])
    (hlaid : Laid (blocks ++ [b])) (hb : frontier blocks ≤ b.addr)
    (hnext : next h.mem b.addr = 0) (hsize : Heap.size h.mem b.addr = b.word) :
    Rep (pushBlock h b.addr) (blocks ++ [b]) := by
  have hp := hlaid.placed b (List.mem_append_right blocks List.mem_cons_self)
  have hpush := hlink.push hlaid.left hne hp hb hsize
  rw [hnext, ← htop] at hpush
  refine ⟨?_, (lastAddr_append_singleton blocks b).symm, hpush, hlaid⟩
  obtain ⟨c, rest, rfl⟩ := List.exists_cons_of_ne_nil hne
  exact hbottom

section Append

variable {h₁ : State} {b : Block}

/-- The stores of `mem_new_block` after the header of the new block: the state
`h₁` is `h` with that header written. -/
theorem appendBlock_rep (hrep : Rep h blocks) (hne : blocks ≠ [])
    (hlaid : Laid (blocks ++ filler (frontier blocks) b.addr ++ [b]))
    (hle : frontier blocks ≤ b.addr) (hbottom : h₁.bottom = h.bottom) (htop : h₁.top = h.top)
    (hout : ∀ x, x < b.addr ∨ b.addr + 8 ≤ x → h₁.mem x = h.mem x)
    (hnext : next h₁.mem b.addr = 0) (hsize : Heap.size h₁.mem b.addr = b.word) :
    Rep (pushBlock (insertFiller h₁ (frontier blocks) b.addr) b.addr)
      (blocks ++ filler (frontier blocks) b.addr ++ [b]) := by
  have hp := hlaid.placed b (List.mem_append_right _ List.mem_cons_self)
  have hend := (hrep.laid.frontier_spec hne).2.2
  have hlink : Linked h₁.mem 0 blocks := by
    refine hrep.linked.congr fun c hc x _ hx => hout x (Or.inl ?_)
    have hc' := hend c hc
    omega
  have htop' := insertFiller_top (htop.trans hrep.top) hle hp.addr_lt
  obtain ⟨stop, hlink'⟩ :=
    insertFiller_linked hlink (htop.trans hrep.top) hlaid.left hne hle hp.addr_lt
  -- the header of the new block survives the filler
  have hkeep : Agree h₁.mem (insertFiller h₁ (frontier blocks) b.addr).mem b.addr
      (b.addr + 8) := by
    intro x hx _
    refine insertFiller_outside (Or.inr ?_) hle hp.addr_lt fun c hc => Or.inr ?_
    · obtain ⟨last, hlast, hlastAddr⟩ := lastAddr_mem hne
      have hlast' := hend last hlast
      rw [htop, hrep.top, ← hlastAddr]
      omega
    · have hpast := (List.pairwise_append.mp hlaid.pairwise).2.2 c (List.mem_append_right _ hc) b
        List.mem_cons_self
      omega
  refine pushBlock_rep hlink' ?_ htop' (by simp [hne]) hlaid (frontier_filler_le hle) ?_ ?_
  · obtain ⟨c, rest, rfl⟩ := List.exists_cons_of_ne_nil hne
    rw [insertFiller_bottom, hbottom, hrep.bottom]
    rfl
  · exact (read32_congr (hkeep.mono (Nat.le_refl _) (by omega))).trans hnext
  · exact (read32_congr (hkeep.mono (by omega) (by omega))).trans hsize

theorem appendBlock_onlyHeaders (hrep : Rep h blocks) (hne : blocks ≠ [])
    (hlaid : Laid (blocks ++ filler (frontier blocks) b.addr ++ [b]))
    (hle : frontier blocks ≤ b.addr) (htop : h₁.top = h.top)
    (hout : ∀ x, x < b.addr ∨ b.addr + 8 ≤ x → h₁.mem x = h.mem x) :
    OnlyHeaders (blocks ++ filler (frontier blocks) b.addr ++ [b]) h.mem
      (pushBlock (insertFiller h₁ (frontier blocks) b.addr) b.addr).mem := by
  have hp := hlaid.placed b (List.mem_append_right _ List.mem_cons_self)
  intro x hx
  obtain ⟨c, hc, hcAddr⟩ := lastAddr_mem hne
  have hne' : blocks ++ filler (frontier blocks) b.addr ≠ [] := by simp [hne]
  obtain ⟨d, hd, hdAddr⟩ := lastAddr_mem hne'
  have htop' := insertFiller_top (htop.trans hrep.top) hle hp.addr_lt
  have hcx := hx c (List.mem_append_left _ (List.mem_append_left _ hc))
  have hdx := hx d (List.mem_append_left _ hd)
  have hbx := hx b (List.mem_append_right _ List.mem_cons_self)
  rw [hcAddr, ← hrep.top, ← htop] at hcx
  rw [hdAddr, ← htop'] at hdx
  calc (pushBlock (insertFiller h₁ (frontier blocks) b.addr) b.addr).mem x
      = (insertFiller h₁ (frontier blocks) b.addr).mem x := write32_outside (by omega)
    _ = h₁.mem x := insertFiller_outside hcx hle hp.addr_lt fun e he =>
        hx e (List.mem_append_left _ (List.mem_append_right _ he))
    _ = h.mem x := hout x hbx

end Append

theorem memNewBlock_rep (hrep : Rep h blocks) (hne : blocks ≠ []) (ha : 0 < align)
    (ha4 : align % 4 = 0) (hsize : size % 4 = 0) (hroom : appendAt blocks align + size ≤ heapLimit) :
    (memNewBlock h size align).1 = (appended blocks size align).addr ∧
      Rep (memNewBlock h size align).2 (grow blocks size align) ∧
      OnlyHeaders (grow blocks size align) h.mem (memNewBlock h size align).2.mem := by
  have hgrow : grow blocks size align = blocks ++
      filler (frontier blocks) (appended blocks size align).addr ++ [appended blocks size align] := by
    rw [grow, newBlocks, List.append_assoc]
    rfl
  have hlaid := hrep.laid.grow_laid hne ha ha4 hsize hroom
  have hle : frontier blocks ≤ (appended blocks size align).addr := by
    have hlo := (appendAt_spec blocks ha ha4).1
    simp only [appended]
    omega
  rw [hgrow] at hlaid ⊢
  have hp := hlaid.placed _ (List.mem_append_right _ List.mem_cons_self)
  have hodd : (size ||| 1) % 2 ^ 32 = (appended blocks size align).word := by
    rw [or_one_of_even (by omega)]
    exact Nat.mod_eq_of_lt hp.word_lt
  have hlimit : heapLimit = 0xC2200000 := rfl
  rw [memNewBlock_eq hrep hne ha ha4 (by omega)]
  generalize appended blocks size align = b at *
  have hout : ∀ x, x < b.addr ∨ b.addr + 8 ≤ x → (newHeader h b.addr size).mem x = h.mem x :=
    fun x hx => (write32_outside (by omega)).trans (write32_outside (by omega))
  refine ⟨rfl, appendBlock_rep hrep hne hlaid hle rfl rfl hout ?_ ?_,
    appendBlock_onlyHeaders hrep hne hlaid hle rfl hout⟩
  · exact read32_write32_self _ b.addr 0
  · exact (read32_write32_of_disjoint (by omega)).trans
      ((read32_write32_self _ (b.addr + 4) _).trans hodd)

/-! ## An allocation -/

theorem OnlyHeaders.trans {m m' m'' : Mem} (h : OnlyHeaders blocks m m')
    (h' : OnlyHeaders blocks m' m'') : OnlyHeaders blocks m m'' :=
  fun x hx => (h' x hx).trans (h x hx)

theorem OnlyHeaders.of_map {m m' : Mem} {l : List Block} (h : OnlyHeaders blocks m m')
    (hsub : ∀ b ∈ blocks, ∃ c ∈ l, c.addr = b.addr) : OnlyHeaders l m m' := by
  refine fun x hx => h x fun b hb => ?_
  obtain ⟨c, hc, haddr⟩ := hsub b hb
  rw [← haddr]
  exact hx c hc

theorem alignTo_eight_mod (n : Nat) : alignTo n 8 % 8 = 0 := by
  rw [alignTo]
  split
  · assumption
  · rw [wrap]
    omega

theorem Rep.withUsed (hrep : Rep h blocks) (n : Nat) : Rep { h with usedMemory := n } blocks :=
  ⟨hrep.bottom, hrep.top, hrep.linked, hrep.laid⟩

/-- `aligned_alloc` after its search. -/
theorem alignedAlloc_eq {block : Nat}
    (hfind : memFindBlock (setup h) (alignTo size 8) align = .ok block) :
    alignedAlloc h align size =
      if block ≠ 0 then .ok (block + 8, takeBlock (setup h) block)
      else if heapLimit < wrap (newData (setup h) align + alignTo size 8) then .error .abort
      else .ok ((memNewBlock (setup h) (alignTo size 8) align).1 + 8,
        { (memNewBlock (setup h) (alignTo size 8) align).2 with
          usedMemory := wrap ((memNewBlock (setup h) (alignTo size 8) align).2.usedMemory +
            alignTo size 8) }) := by
  rw [alignedAlloc, hfind]
  by_cases hb : block ≠ 0
  · rw [if_pos hb]
    exact if_pos hb
  · rw [if_neg hb]
    by_cases hlim : heapLimit < wrap (newData (setup h) align + alignTo size 8)
    · rw [if_pos hlim]
      simp only [bind, Except.bind, if_neg hb, if_pos hlim]
      rfl
    · rw [if_neg hlim]
      simp only [bind, Except.bind, if_neg hb, if_neg hlim]
      rfl

section Allocation

variable (hrep : Rep h blocks)
include hrep

/-- The search of an allocation, on the list. -/
theorem setup_find (size align : Nat) :
    memFindBlock (setup h) (alignTo size 8) align =
      .ok ((firstFit (ready blocks) (alignTo size 8) align).elim 0 Block.addr) :=
  memFindBlock_eq (setup_rep hrep) (ready_ne_nil blocks)

theorem alignedAlloc_of_fit {b : Block}
    (hfit : firstFit (ready blocks) (alignTo size 8) align = some b) :
    ∃ h', alignedAlloc h align size = .ok (b.data, h') ∧
      Rep h' ((ready blocks).map (Block.mark b.addr true)) ∧
      OnlyHeaders ((ready blocks).map (Block.mark b.addr true)) h.mem h'.mem := by
  have hrep' := setup_rep hrep
  obtain ⟨hb, -, hfree, -⟩ := firstFit_fits hfit
  have hp := hrep'.laid.placed b hb
  have hwords := hp.words
  have hpos := hp.addr_pos
  have hfind := setup_find hrep size align
  rw [hfit, Option.elim_some] at hfind
  have hword : Heap.size (setup h).mem b.addr ||| 1 = b.cap + if true then 1 else 0 := by
    rw [hrep'.linked.size_eq hb, Block.word, hfree]
    exact or_one_of_even (show (b.cap + 0) % 2 = 0 by omega)
  refine ⟨takeBlock (setup h) b.addr, ?_, hrep'.setFlag hb hword, ?_⟩
  · rw [alignedAlloc_eq hfind, if_pos (by omega)]
    rfl
  · exact ((setup_onlyHeaders hrep).trans (setSize_onlyHeaders hb)).of_map fun c hc =>
      ⟨_, List.mem_map_of_mem hc, c.mark_addr b.addr true⟩

/-- With no block that fits, the outcome is decided by the wrapped end address. -/
theorem alignedAlloc_of_no_fit (ha : 0 < align) (hlt : appendAt (ready blocks) align < 2 ^ 32)
    (hfit : firstFit (ready blocks) (alignTo size 8) align = none) :
    alignedAlloc h align size =
      if heapLimit < wrap (appendAt (ready blocks) align + alignTo size 8) then .error .abort
      else .ok ((memNewBlock (setup h) (alignTo size 8) align).1 + 8,
        { (memNewBlock (setup h) (alignTo size 8) align).2 with
          usedMemory := wrap ((memNewBlock (setup h) (alignTo size 8) align).2.usedMemory +
            alignTo size 8) }) := by
  have hfind := setup_find hrep size align
  rw [hfit, Option.elim_none] at hfind
  rw [alignedAlloc_eq hfind, if_neg (fun h => h rfl),
    newData_eq (setup_rep hrep) (ready_ne_nil blocks) ha hlt]

theorem alignedAlloc_of_grow (ha : 0 < align) (ha4 : align % 4 = 0)
    (hfit : firstFit (ready blocks) (alignTo size 8) align = none)
    (hroom : appendAt (ready blocks) align + alignTo size 8 ≤ heapLimit) :
    ∃ h', alignedAlloc h align size = .ok ((appended (ready blocks) (alignTo size 8) align).data, h') ∧
      Rep h' (grow (ready blocks) (alignTo size 8) align) ∧
      OnlyHeaders (grow (ready blocks) (alignTo size 8) align) h.mem h'.mem := by
  have hlimit : heapLimit = 0xC2200000 := rfl
  have hmod := alignTo_eight_mod size
  obtain ⟨haddr, hnew, hheaders⟩ := memNewBlock_rep (setup_rep hrep) (ready_ne_nil blocks) ha
    ha4 (show alignTo size 8 % 4 = 0 by omega) hroom
  rw [alignedAlloc_of_no_fit hrep ha (by omega) hfit,
    if_neg (by rw [wrap_of_lt (by omega)]; omega), haddr,
    ← Block.data]
  refine ⟨_, rfl, hnew.withUsed _, ?_⟩
  refine ((setup_onlyHeaders hrep).of_map fun b hb => ?_).trans hheaders
  exact ⟨b, List.mem_append_left _ hb, rfl⟩

/-- **Refinement**: as long as the end address does not wrap, `aligned_alloc` on
memory is `allocate` on the list, and it writes headers only. -/
theorem alignedAlloc_refines (ha : 0 < align) (ha4 : align % 4 = 0)
    (hwrap : (firstFit (ready blocks) (alignTo size 8) align).isSome ∨
      appendAt (ready blocks) align + alignTo size 8 < 2 ^ 32) :
    (allocate blocks (alignTo size 8) align = none ∧
      alignedAlloc h align size = .error .abort) ∨
    ∃ b blocks' h', allocate blocks (alignTo size 8) align = some (b, blocks') ∧
      alignedAlloc h align size = .ok (b.data, h') ∧ Rep h' blocks' ∧
      OnlyHeaders blocks' h.mem h'.mem := by
  rw [allocate]
  cases hfit : firstFit (ready blocks) (alignTo size 8) align with
  | some b =>
    obtain ⟨h', hrun, hrep', hheaders⟩ := alignedAlloc_of_fit hrep hfit
    exact Or.inr ⟨_, _, h', rfl, hrun, hrep', hheaders⟩
  | none =>
    have hlt := hwrap.resolve_left (by rw [hfit]; exact Bool.false_ne_true)
    by_cases hlim : heapLimit < appendAt (ready blocks) align + alignTo size 8
    · refine Or.inl ⟨if_pos hlim, ?_⟩
      rw [alignedAlloc_of_no_fit hrep ha (by omega) hfit, wrap_of_lt hlt, if_pos hlim]
    · obtain ⟨h', hrun, hrep', hheaders⟩ :=
        alignedAlloc_of_grow hrep ha ha4 hfit (Nat.le_of_not_lt hlim)
      exact Or.inr ⟨_, _, h', if_neg hlim, hrun, hrep', hheaders⟩

/-- An allocation on the list can be followed by the code. -/
theorem alignedAlloc_of_allocate (ha : Aligns align) {b : Block} {blocks' : List Block}
    (halloc : allocate blocks (alignTo size 8) align = some (b, blocks')) :
    ∃ h', alignedAlloc h align size = .ok (b.data, h') ∧ Rep h' blocks' ∧
      OnlyHeaders blocks' h.mem h'.mem := by
  have hlimit : heapLimit = 0xC2200000 := rfl
  have hwrap : (firstFit (ready blocks) (alignTo size 8) align).isSome ∨
      appendAt (ready blocks) align + alignTo size 8 < 2 ^ 32 := by
    cases hfit : firstFit (ready blocks) (alignTo size 8) align with
    | some c => exact Or.inl rfl
    | none =>
      by_cases hlim : heapLimit < appendAt (ready blocks) align + alignTo size 8
      · rw [allocate, hfit] at halloc
        simp only [if_pos hlim] at halloc
        simp at halloc
      · exact Or.inr (by omega)
  rcases alignedAlloc_refines hrep ha.pos ha.words hwrap with ⟨hnone, -⟩ | ⟨c, l, h', hsome, hrest⟩
  · rw [halloc] at hnone
    simp at hnone
  · rw [halloc] at hsome
    obtain ⟨rfl, rfl⟩ := Prod.mk.inj (Option.some.inj hsome)
    exact ⟨h', hrest⟩

theorem alignedAlloc_ends (ha : Aligns align) (size : Nat) :
    alignedAlloc h align size = .error .abort ∨ ∃ p h', alignedAlloc h align size = .ok (p, h') := by
  cases hfit : firstFit (ready blocks) (alignTo size 8) align with
  | some b =>
    obtain ⟨h', hrun, -⟩ := alignedAlloc_of_fit hrep hfit
    exact Or.inr ⟨_, h', hrun⟩
  | none =>
    rw [alignedAlloc_of_no_fit hrep ha.pos (hrep.laid.ready.appendAt_lt (ready_ne_nil blocks) ha)
      hfit]
    split
    · exact Or.inl rfl
    · exact Or.inr ⟨_, _, rfl⟩

end Allocation

end Heap
end Medusa
