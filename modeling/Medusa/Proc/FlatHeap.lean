import Medusa.Heap.Session
import Medusa.Paging.Data
import Medusa.Proc.RunCode

/-!
# The heap through the page tables

`kmalloc.c` reaches its blocks through the page tables.  Where these map the heap to
data, each address to a byte of its own, every access is the one on flat memory, and
the functions do what those of `Heap` do; translation is not affected.
-/

namespace Medusa
namespace Proc

open Machine Kernel Paging

/-- The heap as the code sees it. -/
def World.heap (w : World) : Heap.State :=
  { mem := view w.paging, bottom := w.bottom, top := w.top, usedMemory := w.usedMemory }

/-- The addresses `R`, the heap among them, are flat memory in `w`. -/
structure Flat (R : Set Nat) (w : World) : Prop where
  own : OwnData w.paging R
  ready : w.paging.Ready
  heap : Set.Ico Heap.heapBegin Heap.heapLimit ⊆ R

/-- `w` has the tables of `w₀`, and shows `h` at the addresses `R`. -/
structure Carries (R : Set Nat) (w₀ w : World) (h : Heap.State) : Prop where
  tables : SameTables w₀.paging w.paging
  bottom : w.bottom = h.bottom
  top : w.top = h.top
  used : w.usedMemory = h.usedMemory
  bytes : ∀ v ∈ R, view w.paging v = h.mem v

/-- An aligned word of the heap. -/
structure Word (a : Nat) : Prop where
  low : Heap.heapBegin ≤ a
  high : a + 4 ≤ Heap.heapLimit
  aligned : a % 4 = 0

variable {R : Set Nat} {w₀ w : World} {h : Heap.State} {blocks : List Heap.Block}
  {a align size : Nat}

theorem Word.lt (ha : Word a) : a + 4 < 2 ^ 32 := by
  have hhigh := ha.high
  have hlimit : Heap.heapLimit = 0xC2200000 := rfl
  omega

/-- The two words of a header. -/
theorem Word.header {b : Heap.Block} (hb : b.Placed) : Word b.addr ∧ Word (b.addr + 4) := by
  have hlow := hb.low
  have hhigh := hb.high
  have hal := hb.aligned
  exact ⟨⟨hlow, by omega, hal⟩, ⟨by omega, by omega, by omega⟩⟩

/-- The header of the last block. -/
theorem Word.top (hrep : Heap.Rep h blocks) (hne : blocks ≠ []) : Word h.top ∧ Word (h.top + 4) := by
  obtain ⟨last, hlast, hlastAddr⟩ := Heap.lastAddr_mem hne
  rw [hrep.top, ← hlastAddr]
  exact Word.header (hrep.laid.placed last hlast)

/-- At the start the world shows its own heap. -/
theorem Carries.start (R : Set Nat) (w₀ : World) : Carries R w₀ w₀ w₀.heap :=
  ⟨.refl _, rfl, rfl, rfl, fun _ _ => rfl⟩

/-- `used_memory` grows. -/
theorem Carries.count (hc : Carries R w₀ w h) (n : Nat) :
    Carries R w₀ { w with usedMemory := wrap (w.usedMemory + n) }
      { h with usedMemory := wrap (h.usedMemory + n) } :=
  ⟨hc.tables, hc.bottom, hc.top, by rw [hc.used], hc.bytes⟩

namespace Flat

variable (hf : Flat R w₀)
include hf

theorem word_mem (ha : Word a) {o : Nat} (ho : o < 4) : a + o ∈ R := by
  have hlow := ha.low
  have hhigh := ha.high
  exact hf.heap (Set.mem_Ico.mpr ⟨by omega, by omega⟩)

theorem load_run (hc : Carries R w₀ w h) (ha : Word a) :
    (load a).run w = (.ok (read32 h.mem a), w) := by
  obtain ⟨-, p, htrans, -⟩ := (hf.own.congr hc.tables).mapped a (hf.word_mem ha (o := 0) (by decide))
  have hword : read32 (view w.paging) a = read32 h.mem a := by
    rw [read32, read32, hc.bytes a (hf.word_mem ha (o := 0) (by decide)),
      hc.bytes _ (hf.word_mem ha (show 1 < 4 by decide)),
      hc.bytes _ (hf.word_mem ha (show 2 < 4 by decide)),
      hc.bytes _ (hf.word_mem ha (show 3 < 4 by decide))]
  rw [← hword]
  exact congrArg (·, w) (load_view ha.aligned htrans)

theorem store_run (hc : Carries R w₀ w h) (ha : Word a) (n : Nat) :
    ∃ w', (store a n).run w = (.ok (), w') ∧
      Carries R w₀ w' { h with mem := write32 h.mem a n } := by
  have hready := hc.tables.ready hf.ready
  obtain ⟨s, hrun, hsame, hbytes⟩ := (hf.own.congr hc.tables).store hready.recursive ha.aligned
    (fun o ho => hf.word_mem ha ho) n
  refine ⟨_, access_run hrun, hc.tables.trans hsame, hc.bottom, hc.top, hc.used, fun v hv => ?_⟩
  rw [hbytes v hv]
  exact write32_apply_congr (hc.bytes v hv).symm a n |>.symm

theorem storeByte_run (hc : Carries R w₀ w h) (ha : a ∈ R) (b : BitVec 8) :
    ∃ w', (storeByte a b).run w = (.ok (), w') ∧
      Carries R w₀ w' { h with mem := Function.update h.mem a b } := by
  have hready := hc.tables.ready hf.ready
  obtain ⟨s, hrun, hsame, hbytes⟩ := (hf.own.congr hc.tables).storeByte hready.recursive ha b
  refine ⟨_, access_run hrun, hc.tables.trans hsame, hc.bottom, hc.top, hc.used, fun v hv => ?_⟩
  rw [hbytes v hv]
  dsimp only
  by_cases hva : v = a
  · rw [hva, Function.update_self, Function.update_self]
  · rw [Function.update_of_ne hva, Function.update_of_ne hva, hc.bytes v hv]

/-! ## The search -/

theorem memBlockSize_run (hc : Carries R w₀ w h) (ha : Word (a + 4)) :
    (memBlockSize a).run w = (.ok (Heap.memBlockSize h.mem a), w) := by
  have hlt := ha.lt
  rw [memBlockSize, wrap_of_lt (by omega), Action.bind_ok (hf.load_run hc ha)]
  rfl

omit hf in
/-- The test of the loop, on a block of the list. -/
theorem skips_iff {b : Heap.Block} (hb : b.Placed) :
    (Heap.clearFlag b.word < size ∨ b.word &&& 1 ≠ 0 ∨ wrap (b.addr + 8) % align ≠ 0) ↔
      b.fits size align = false := by
  have hhigh := hb.high
  have hlimit : Heap.heapLimit = 0xC2200000 := rfl
  rw [hb.clearFlag_word, hb.word_and_one, wrap_of_lt (by omega), Heap.Block.fits, Heap.Block.data]
  cases b.used with
  | true => simp
  | false =>
    simp only [Bool.false_eq_true, if_false, ne_eq, not_true_eq_false, false_or, Bool.not_false,
      Bool.and_true, Bool.and_eq_false_iff, decide_eq_false_iff_not, Nat.not_le]

theorem findLoop_run (hc : Carries R w₀ w h) {fuel : Nat} (hlink : Heap.Linked h.mem 0 blocks)
    (hplaced : ∀ b ∈ blocks, b.Placed) (hne : blocks ≠ []) (hfuel : blocks.length ≤ fuel) :
    (findLoop size align fuel (Heap.headAddr 0 blocks)).run w =
      (.ok ((Heap.firstFit blocks size align).elim 0 Heap.Block.addr), w) := by
  induction blocks generalizing fuel with
  | nil => exact absurd rfl hne
  | cons b rest ih =>
    obtain ⟨hnext, hsize, hrest⟩ := hlink
    have hb := hplaced b List.mem_cons_self
    have hplaced' : ∀ c ∈ rest, c.Placed := fun c hc => hplaced c (List.mem_cons_of_mem b hc)
    obtain ⟨hword, hword'⟩ := Word.header hb
    have hlt := hword'.lt
    have hload := hf.load_run hc hword'
    change (load (b.addr + 4)).run w = (.ok (Heap.size h.mem b.addr), w) at hload
    rw [hsize] at hload
    cases fuel with
    | zero => exact absurd hfuel (by simp)
    | succ fuel =>
      rw [Heap.headAddr, findLoop, wrap_of_lt (by omega), Action.bind_ok hload, Heap.firstFit]
      cases hfit : b.fits size align with
      | true =>
        have hnot : ¬ (Heap.clearFlag b.word < size ∨ b.word &&& 1 ≠ 0 ∨
            wrap (b.addr + 8) % align ≠ 0) := by
          rw [skips_iff hb, hfit]
          exact Bool.noConfusion
        rw [if_neg hnot, List.find?_cons_of_pos hfit]
        rfl
      | false =>
        rw [if_pos ((skips_iff hb).mpr hfit), Action.bind_ok (hf.load_run hc hword),
          List.find?_cons_of_neg (by rw [hfit]; exact Bool.noConfusion)]
        change ((if Heap.next h.mem b.addr = 0 then pure 0
          else findLoop size align fuel (Heap.next h.mem b.addr)) : Code Nat).run w = _
        rw [hnext]
        cases rest with
        | nil => rfl
        | cons c rest =>
          have hpos := (hplaced' c List.mem_cons_self).addr_pos
          rw [if_neg (show Heap.headAddr 0 (c :: rest) ≠ 0 from Nat.ne_of_gt hpos)]
          exact ih hrest hplaced' (List.cons_ne_nil _ _) (Nat.le_of_succ_le_succ hfuel)

theorem memFindBlock_run (hc : Carries R w₀ w h) (hrep : Heap.Rep h blocks) (hne : blocks ≠ []) :
    (memFindBlock size align).run w =
      (.ok ((Heap.firstFit blocks size align).elim 0 Heap.Block.addr), w) := by
  have hlen := hrep.laid.length_le
  have hheap : Heap.heapSize = 0x1E00000 := rfl
  have hhead : w.bottom = Heap.headAddr 0 blocks := hc.bottom.trans hrep.bottom
  have hbottom : w.bottom ≠ 0 := by
    obtain ⟨b, rest, rfl⟩ := List.exists_cons_of_ne_nil hne
    have hpos := (hrep.laid.placed b List.mem_cons_self).addr_pos
    have hb : w.bottom = b.addr := hhead
    omega
  have hread : (Action.read World.bottom : Code Nat).run w = (.ok w.bottom, w) := rfl
  rw [memFindBlock, Action.bind_ok hread, if_neg hbottom, hhead]
  exact hf.findLoop_run hc hrep.linked hrep.laid.placed hne (by omega)

/-! ## Taking a block -/

theorem takeBlock_run (hc : Carries R w₀ w h) {b : Heap.Block} (hb : b.Placed) :
    ∃ w', (takeBlock b.addr).run w = (.ok b.data, w') ∧
      Carries R w₀ w' (Heap.takeBlock h b.addr) := by
  obtain ⟨-, hword⟩ := Word.header hb
  have hlt := hword.lt
  have hhigh := hb.high
  have hlimit : Heap.heapLimit = 0xC2200000 := rfl
  have hload : (load (b.addr + 4)).run w = (.ok (Heap.size h.mem b.addr), w) :=
    hf.load_run hc hword
  obtain ⟨w', hstore, hc'⟩ := hf.store_run (hc.count (Heap.size h.mem b.addr)) hword
    (Heap.size h.mem b.addr ||| 1)
  refine ⟨w', ?_, hc'⟩
  rw [takeBlock, wrap_of_lt (by omega), wrap_of_lt (show b.addr + 8 < 2 ^ 32 by omega),
    Action.bind_ok hload]
  rw [Action.bind_ok (t := { w with usedMemory := wrap (w.usedMemory + Heap.size h.mem b.addr) })
    (a := ()) rfl, Action.bind_ok hstore]
  rfl

/-! ## Appending a block -/

/-- Linking a block behind the last one, as `mem_new_block` does twice. -/
theorem pushBlock_run (hc : Carries R w₀ w h) (htop : Word h.top) (block : Nat) :
    ∃ w', (store w.top block).run w = (.ok (), w') ∧
      Carries R w₀ { w' with top := block } (Heap.pushBlock h block) := by
  obtain ⟨w', hstore, hc'⟩ := hf.store_run hc htop block
  rw [hc.top]
  exact ⟨w', hstore, ⟨hc'.tables, hc'.bottom, rfl, hc'.used, hc'.bytes⟩⟩

theorem insertFiller_run (hc : Carries R w₀ w h) {next nextAligned : Nat} (htop : Word h.top)
    (hnext : wsub nextAligned next > 12 + 4 → Word (next + 4)) :
    ∃ w', (insertFiller next nextAligned).run w = (.ok (), w') ∧
      Carries R w₀ w' (Heap.insertFiller h next nextAligned) := by
  rw [insertFiller, Heap.insertFiller]
  by_cases hgap : wsub nextAligned next > 12 + 4
  · have hword := hnext hgap
    have hlt := hword.lt
    rw [if_pos hgap, if_pos hgap, wrap_of_lt (by omega)]
    obtain ⟨w', hstore, hc'⟩ := hf.store_run hc hword (wsub (wsub nextAligned next) 12)
    obtain ⟨w'', hpush, hc''⟩ := hf.pushBlock_run hc' htop next
    refine ⟨{ w'' with top := next }, ?_, hc''⟩
    rw [Action.bind_ok hstore, Action.bind_ok (a := w'.top) (t := w') rfl, Action.bind_ok hpush]
    rfl
  · rw [if_neg hgap, if_neg hgap]
    exact ⟨w, rfl, hc⟩

theorem memNewBlock_run (hc : Carries R w₀ w h) (hrep : Heap.Rep h blocks) (hne : blocks ≠ [])
    (ha : 0 < align) (ha4 : align % 4 = 0) (hsize : size % 4 = 0)
    (hroom : Heap.appendAt blocks align + size ≤ Heap.heapLimit) :
    ∃ w', (memNewBlock size align).run w = (.ok (Heap.memNewBlock h size align).1, w') ∧
      Carries R w₀ w' (Heap.memNewBlock h size align).2 := by
  have hlimit : Heap.heapLimit = 0xC2200000 := rfl
  have hlaid := hrep.laid.grow_laid hne ha ha4 hsize hroom
  have hlo := (Heap.appendAt_spec blocks ha ha4).1
  obtain ⟨hblock, hround⟩ := Heap.append_addresses hrep hne ha ha4
    (show Heap.appendAt blocks align < 2 ^ 32 by omega) size
  have hp := hlaid.placed _ (List.mem_append_right _ (List.mem_append_right _ List.mem_cons_self))
  obtain ⟨hword, hword'⟩ := Word.header hp
  have htop := Word.top hrep hne
  -- the filler, where there is one, is a block of the list that is made
  have hfiller : wsub (Heap.appended blocks size align).addr (Heap.frontier blocks) > 12 + 4 →
      Word (Heap.frontier blocks) ∧ Word (Heap.frontier blocks + 4) := by
    intro hgap
    have haddr : (Heap.appended blocks size align).addr = Heap.appendAt blocks align - 8 := rfl
    rw [wsub_of_le (by omega) (by omega)] at hgap
    have hmem : Heap.fillerBlock (Heap.frontier blocks) (Heap.appendAt blocks align - 8) ∈
        Heap.grow blocks size align := by
      refine List.mem_append_right _ (List.mem_append_left _ ?_)
      rw [Heap.filler, if_pos (by omega)]
      exact List.mem_cons_self
    exact Word.header (hlaid.placed _ hmem)
  rw [Heap.memNewBlock_eq hrep hne ha ha4 (by omega)]
  generalize hb : (Heap.appended blocks size align).addr = block at *
  have hlt := hword'.lt
  have hread : (Action.read World.top : Code Nat).run w = (.ok h.top, w) := by
    rw [← hc.top]
    rfl
  obtain ⟨w₁, hstore₁, hc₁⟩ := hf.store_run hc hword' (size ||| 1)
  obtain ⟨w₂, hstore₂, hc₂⟩ := hf.store_run hc₁ hword 0
  have hc₂' : Carries R w₀ w₂ (Heap.newHeader h block size) := hc₂
  obtain ⟨w₃, hfill, hc₃⟩ := hf.insertFiller_run hc₂' htop.1 fun hgap => (hfiller hgap).2
  have htop₃ : Word (Heap.insertFiller (Heap.newHeader h block size) (Heap.frontier blocks)
      block).top := by
    rw [Heap.insertFiller]
    by_cases hgap : wsub block (Heap.frontier blocks) > 12 + 4
    · rw [if_pos hgap]
      exact (hfiller hgap).1
    · rw [if_neg hgap]
      exact htop.1
  obtain ⟨w₄, hpush, hc₄⟩ := hf.pushBlock_run hc₃ htop₃ block
  refine ⟨{ w₄ with top := block }, ?_, hc₄⟩
  rw [memNewBlock, Action.bind_ok hread, Action.bind_ok (hf.memBlockSize_run hc htop.2)]
  dsimp only
  rw [Heap.top_end hrep hne, hblock, hround, wrap_of_lt (by omega), Action.bind_ok hstore₁,
    Action.bind_ok hstore₂, Action.bind_ok hfill, Action.bind_ok (a := w₃.top) (t := w₃) rfl,
    Action.bind_ok hpush]
  rfl

/-- The test of `aligned_alloc` before the list grows. -/
theorem growHeap_eq (hc : Carries R w₀ w h) (hrep : Heap.Rep h blocks) (hne : blocks ≠ []) :
    (growHeap size align).run w =
      if Heap.heapLimit < wrap (Heap.newData h align + size) then (.error .abort, w)
      else ((do
        let block ← memNewBlock size align
        Action.modify fun w => { w with usedMemory := wrap (w.usedMemory + size) }
        return wrap (block + 8)) : Code Nat).run w := by
  have hread : (Action.read World.top : Code Nat).run w = (.ok h.top, w) := by
    rw [← hc.top]
    rfl
  rw [growHeap, Action.bind_ok hread,
    Action.bind_ok (hf.memBlockSize_run hc (Word.top hrep hne).2)]
  change ((if Heap.heapLimit < wrap (Heap.newData h align + size) then Action.stop .abort
    else _ : Code Nat)).run w = _
  split
  · rfl
  · rfl

/-- **The heap through the page tables is the heap on flat memory.** -/
theorem alignedAlloc_run (hc : Carries R w₀ w h) (hrep : Heap.Rep h blocks) (hne : blocks ≠ [])
    (ha : Heap.Aligns align) (huncut : Heap.Uncut h align size) :
    (Heap.alignedAlloc h align size = .error .abort ∧
        (alignedAlloc align size).run w = (.error .abort, w)) ∨
      ∃ p h' w', Heap.alignedAlloc h align size = .ok (p, h') ∧
        (alignedAlloc align size).run w = (.ok p, w') ∧ Carries R w₀ w' h' := by
  have hlimit : Heap.heapLimit = 0xC2200000 := rfl
  have hready : Heap.ready blocks = blocks := by
    obtain ⟨b, rest, rfl⟩ := List.exists_cons_of_ne_nil hne
    rfl
  have htop : w.top ≠ 0 := by
    have hlow := (Word.top hrep hne).1.low
    have hbegin : Heap.heapBegin = 0xC0400000 := rfl
    rw [hc.top]
    omega
  have hsetup : Heap.setup h = h := if_neg (by rw [← hc.top]; exact htop)
  have hfind := Heap.setup_find hrep size align
  rw [hready] at hfind
  -- the search is the same
  have hsearch : (alignedAlloc align size).run w =
      (if (Heap.firstFit blocks (alignTo size 8) align).elim 0 Heap.Block.addr ≠ 0 then
        takeBlock ((Heap.firstFit blocks (alignTo size 8) align).elim 0 Heap.Block.addr)
      else growHeap (alignTo size 8) align).run w := by
    rw [alignedAlloc, Action.bind_ok (a := w.top) (t := w) rfl, ensureHeap, if_neg htop,
      Action.bind_ok (a := ()) (t := w) rfl, Action.bind_ok (hf.memFindBlock_run hc hrep hne)]
  rw [hsearch, Heap.alignedAlloc_eq hfind, hsetup]
  cases hfit : Heap.firstFit blocks (alignTo size 8) align with
  | some b =>
    have hp := hrep.laid.placed b (Heap.firstFit_fits hfit).1
    have hpos := hp.addr_pos
    obtain ⟨w', htake, hc'⟩ := hf.takeBlock_run hc hp
    rw [Option.elim_some, if_pos (show b.addr ≠ 0 by omega), if_pos (show b.addr ≠ 0 by omega)]
    exact Or.inr ⟨_, _, w', rfl, htake, hc'⟩
  | none =>
    rw [Option.elim_none, if_neg (not_not_intro rfl), if_neg (not_not_intro rfl),
      hf.growHeap_eq hc hrep hne]
    by_cases hfull : Heap.heapLimit < wrap (Heap.newData h align + alignTo size 8)
    · rw [if_pos hfull, if_pos hfull]
      exact Or.inl ⟨rfl, rfl⟩
    · rw [if_neg hfull, if_neg hfull]
      have hsum : Heap.newData h align + alignTo size 8 < 2 ^ 32 := by
        have hend := huncut.2
        rw [hsetup] at hend
        rw [hsetup, hfit] at hfind
        exact hend.resolve_left (not_not_intro hfind)
      have hlt : Heap.appendAt blocks align < 2 ^ 32 := hrep.laid.appendAt_lt hne ha
      rw [Heap.newData_eq hrep hne ha.pos hlt] at hsum hfull
      rw [wrap_of_lt hsum] at hfull
      have hmod := Heap.alignTo_eight_mod size
      obtain ⟨w', hnew, hc'⟩ := hf.memNewBlock_run hc hrep hne ha.pos ha.words
        (show alignTo size 8 % 4 = 0 by omega) (Nat.le_of_not_lt hfull)
      have haddr : (Heap.memNewBlock h (alignTo size 8) align).1 + 8 < 2 ^ 32 := by
        have hlo := (Heap.appendAt_spec blocks ha.pos ha.words).1
        rw [Heap.memNewBlock_eq hrep hne ha.pos ha.words hlt]
        simp only [Heap.appended]
        omega
      refine Or.inr ⟨_, _, { w' with usedMemory := wrap (w'.usedMemory + alignTo size 8) }, rfl, ?_,
        hc'.count _⟩
      rw [Action.bind_ok hnew, Action.bind_ok (a := ())
        (t := { w' with usedMemory := wrap (w'.usedMemory + alignTo size 8) }) rfl,
        wrap_of_lt haddr]
      rfl

end Flat

end Proc
end Medusa
