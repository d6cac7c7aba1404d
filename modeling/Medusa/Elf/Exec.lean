import Medusa.Elf.Trace
import Medusa.Heap.Client
import Medusa.Heap.Limit
import Medusa.Paging.Staging
import Medusa.Proc.FlatHeap

/-!
# The check in front of a program

The beginning of `elf_exec`: the file is read into pages that are allocated for it, the
program's name is kept, and a header that is no ELF header sends the pages back.  The
file is one of the initrd, given by its bytes, and so is the path.

The first part of the test compares the address of `e_ident` with the first magic byte.
They differ, so the test says no to every file.
-/

namespace Medusa
namespace Elf

open Machine Proc

/-! ## The code -/

/-- Where a program is staged. -/
def stagingBase : Nat := 0x30000000

/-- What the beginning of `elf_exec` comes to.  With `valid` the sections are loaded
next. -/
inductive Verdict where
  | notFound
  | notValid
  | valid
deriving DecidableEq

/-- `for (; x < limit; x += 0x1000)`. -/
def pageLoop (f : Nat → Code Unit) (limit : Nat) : Nat → Nat → Code Unit
  | 0, _ => Action.stop .fuel
  | fuel + 1, x =>
    if x < limit then do
      f x
      pageLoop f limit fuel (wrap (x + 0x1000))
    else pure ()

/-- The loop over the staging pages.  There are 2^20 pages, so that many rounds are
enough. -/
def forPages (length : Nat) (f : Nat → Code Unit) : Code Unit :=
  pageLoop f (wrap (stagingBase + length)) (2 ^ 20 + 1) stagingBase

/-- The result of `paging_alloc_pages` is not looked at. -/
def stagePage (x : Nat) : Code Unit :=
  access fun s => (Paging.pagingAllocPages s x 1).map Prod.snd

def unstagePage (x : Nat) : Code Unit := access fun s => Paging.pagingUnmapPage s x

def storeBytes (dst : Nat) (bytes : List (BitVec 8)) : Code Unit :=
  Action.rounds (fun i _ => storeByte (wrap (dst + i)) (bytes.getD i 0#8)) 0 bytes.length ()

/-- `read_fs` of a whole file: `initrd_read` copies it and adds a terminator. -/
def readFile (content : List (BitVec 8)) (buffer : Nat) : Code Unit := do
  storeBytes buffer content
  storeByte (wrap (buffer + content.length)) 0#8

/-- `current_process_name` is a copy of the path. -/
def keepName (path : List (BitVec 8)) : Code Unit := do
  let name ← kmalloc (wrap (path.length + 1))
  storeBytes name (path ++ [0#8])

/-- The test in `elf_exec`.  `header->e_ident` is an array, which is its address here. -/
def rejectsHeader (header : Nat) : Code Bool :=
  if header ≠ 0x7F then return true
  else do
    let mag1 ← loadByte (wrap (header + 1))
    if mag1.toNat ≠ 0x45 then return true
    else do
      let mag2 ← loadByte (wrap (header + 2))
      if mag2.toNat ≠ 0x4C then return true
      else do
        let mag3 ← loadByte (wrap (header + 3))
        return mag3.toNat ≠ 0x46

/-- What `elf_exec` does before the test. -/
def stageFile (content path : List (BitVec 8)) : Code Unit := do
  forPages content.length stagePage
  readFile content stagingBase
  keepName path

/-- `elf_exec` with the file that `vfs_open` has found, up to where sections are loaded.
`close_fs` changes the file's node only. -/
def elfExec (file : Option (List (BitVec 8))) (path : List (BitVec 8)) : Code Verdict :=
  match file with
  | none => return .notFound
  | some content => do
    stageFile content path
    let rejected ← rejectsHeader stagingBase
    if rejected then do
      forPages content.length unstagePage
      return .notValid
    else return .valid

/-! ## When the validators agree -/

def pages (length : Nat) : Nat := (length + 4095) / 4096

/-- A file that begins with these bytes, at the place where it is staged. -/
def stagedFile (content : List (BitVec 8)) : Mem := fun a => content.getD (a - stagingBase) 0#8

/-- Every staging page of `w`'s run has been mapped, is not mapped in `t`, and its frame
is free there. -/
def Undone (w : World) (length : Nat) (t : World) : Prop :=
  ∃ u, (forPages length stagePage).run w = (.ok (), u) ∧
    ∀ v, stagingBase ≤ v → v < stagingBase + length →
      ∃ p, u.paging.translate v = some p ∧ Pmm.taken u.pmm (p / 4096) = true ∧
        t.paging.translate v = none ∧ Pmm.taken t.pmm (p / 4096) = false

/-- The two validators agree on the file, and the exit leaves no staging page behind. -/
def Agrees (w : World) (content path : List (BitVec 8)) : Prop :=
  ((∃ t, (elfExec (some content) path).run w = (.ok .notValid, t)) ↔
      elfCheckFile (stagedFile content) stagingBase = false) ∧
    ∀ t, (elfExec (some content) path).run w = (.ok .notValid, t) → Undone w content.length t

/-- The byte behind a file that fills its last page, if it is mapped. -/
def behind (w : World) (length : Nat) : Set Nat :=
  {v | v = stagingBase + length ∧ length % 4096 = 0 ∧ (w.paging.translate v).isSome = true}

/-- A kernel with a heap in use that can stage the file: memory that is mapped where the
heap and the file's terminator go is data, there is no 4 MiB page among the staging
pages, and the frames are enough. -/
structure Prepared (w : World) (length : Nat) : Prop where
  kept : Paging.Kept w.paging
  heap : ∃ blocks, blocks ≠ [] ∧ Heap.Rep w.heap blocks
  own : Paging.OwnData w.paging (Set.Ico Heap.heapBegin Heap.heapLimit ∪ behind w length)
  small : Paging.Small w.paging stagingBase (pages length)
  enough : Paging.Enough w.paging stagingBase (pages length)
  fits : stagingBase + length ≤ Paging.kernelBaseVirt

/-- The test is reached: the terminator that `read_fs` adds does not fault, and the heap
has a block for the name. -/
def Reaches (w : World) (length : Nat) (path : List (BitVec 8)) : Prop :=
  (length % 4096 ≠ 0 ∨ (w.paging.translate (stagingBase + length)).isSome = true) ∧
    ¬ Heap.Refuses w.heap 4 (path.length + 1)

/-! ## The loops -/

variable {w w₀ : World} {R : Set Nat} {h : Heap.State} {length : Nat}
  {content path : List (BitVec 8)}

theorem pageLoop_run {f : Nat → Code Unit} {I : Nat → World → Prop} {x limit n : Nat}
    (hlimit : ∀ k, k ≤ n → (x + 4096 * k < limit ↔ k < n)) (hx : x + 4096 * n < 2 ^ 32)
    (hstep : ∀ k w, k < n → I k w → ∃ w', (f (x + 4096 * k)).run w = (.ok (), w') ∧ I (k + 1) w')
    {k fuel : Nat} (hk : k ≤ n) (hfuel : n < k + fuel) (h : I k w) :
    ∃ w', (pageLoop f limit fuel (x + 4096 * k)).run w = (.ok (), w') ∧ I n w' := by
  induction fuel generalizing k w with
  | zero => omega
  | succ fuel ih =>
    rw [pageLoop]
    by_cases hlast : k = n
    · have hend : ¬ x + 4096 * k < limit := by
        rw [hlimit k hk]
        omega
      rw [if_neg hend]
      exact ⟨w, rfl, hlast ▸ h⟩
    · have hmore : x + 4096 * k < limit := (hlimit k hk).mpr (by omega)
      obtain ⟨w', hrun, hnext⟩ := hstep k w (by omega) h
      obtain ⟨w'', hrest, hend⟩ := ih (show k + 1 ≤ n by omega) (by omega) hnext
      refine ⟨w'', ?_, hend⟩
      rw [if_pos hmore, Action.bind_ok hrun, wrap_of_lt (by omega),
        show x + 4096 * k + 0x1000 = x + 4096 * (k + 1) by omega]
      exact hrest

/-- The rule for the loops over the staging pages. -/
theorem forPages_run {f : Nat → Code Unit} {I : Nat → World → Prop}
    (hfits : stagingBase + length ≤ Paging.kernelBaseVirt) (h : I 0 w)
    (hstep : ∀ k w, k < pages length → I k w →
      ∃ w', (f (stagingBase + 4096 * k)).run w = (.ok (), w') ∧ I (k + 1) w') :
    ∃ w', (forPages length f).run w = (.ok (), w') ∧ I (pages length) w' := by
  have hbase : stagingBase = 0x30000000 := rfl
  have hkernel : Paging.kernelBaseVirt = 0xC0000000 := rfl
  have hpages : pages length = (length + 4095) / 4096 := rfl
  rw [forPages, wrap_of_lt (by omega)]
  exact pageLoop_run (x := stagingBase) (k := 0) (fun k _ => by omega) (by omega) hstep
    (Nat.zero_le _) (by omega) h

/-! ## Copying -/

/-- `bytes` at `dst`, as far as round `k`. -/
def place (m : Mem) (dst : Nat) (bytes : List (BitVec 8)) (k : Nat) : Mem := fun v =>
  if dst ≤ v ∧ v < dst + k then bytes.getD (v - dst) 0#8 else m v

theorem place_succ (m : Mem) (dst : Nat) (bytes : List (BitVec 8)) (k : Nat) :
    Function.update (place m dst bytes k) (dst + k) (bytes.getD k 0#8) =
      place m dst bytes (k + 1) := by
  funext v
  by_cases hv : v = dst + k
  · rw [hv, Function.update_self, place, if_pos (by omega), Nat.add_sub_cancel_left]
  · rw [Function.update_of_ne hv, place, place]
    exact if_congr (by omega) rfl rfl

theorem storeBytes_run (hf : Flat R w₀) (hc : Carries R w₀ w h) {dst : Nat}
    {bytes : List (BitVec 8)} (hin : ∀ i, i < bytes.length → dst + i ∈ R) :
    ∃ w', (storeBytes dst bytes).run w = (.ok (), w') ∧
      Carries R w₀ w' { h with mem := place h.mem dst bytes bytes.length } := by
  have hstart : Carries R w₀ w { h with mem := place h.mem dst bytes 0 } := by
    have hzero : place h.mem dst bytes 0 = h.mem := by
      funext v
      exact if_neg (by omega)
    rw [hzero]
    exact hc
  obtain ⟨⟨⟩, w', hrun, hc'⟩ := Action.rounds_run
    (f := fun i _ => storeByte (wrap (dst + i)) (bytes.getD i 0#8)) (i := 0) (n := bytes.length)
    (b := ()) (I := fun k _ w => Carries R w₀ w { h with mem := place h.mem dst bytes k }) hstart
    fun k _ w _ hk hc => by
      have hmem := hin k (by omega)
      have hlt := (hf.own.mapped _ hmem).1
      obtain ⟨w', hrun, hc'⟩ := hf.storeByte_run hc hmem (bytes.getD k 0#8)
      rw [place_succ] at hc'
      rw [wrap_of_lt hlt]
      exact ⟨(), w', hrun, hc'⟩
  rw [Nat.zero_add] at hc'
  exact ⟨w', hrun, hc'⟩

/-! ## Staging -/

/-- The addresses that matter: the heap, the staging pages and the byte behind them. -/
def region (w : World) (length : Nat) : Set Nat :=
  (Set.Ico Heap.heapBegin Heap.heapLimit ∪ behind w length) ∪
    Set.Ico stagingBase (stagingBase + 4096 * pages length)

/-- After the first loop. -/
structure StagedWorld (w : World) (length : Nat) (f : Nat → Nat) (u : World) : Prop where
  staged : Paging.Staged w.paging stagingBase (pages length) f u.paging
  bottom : u.bottom = w.bottom
  top : u.top = w.top
  used : u.usedMemory = w.usedMemory

theorem stage_run (hp : Prepared w length) :
    ∃ f u, (forPages length stagePage).run w = (.ok (), u) ∧ StagedWorld w length f u := by
  have hbase : stagingBase = 0x30000000 := rfl
  have hkernel : Paging.kernelBaseVirt = 0xC0000000 := rfl
  have hpages : pages length = (length + 4095) / 4096 := rfl
  have hfits := hp.fits
  obtain ⟨u, hrun, f, hstaged, hbottom, htop, hused⟩ := forPages_run (f := stagePage)
    (I := fun k u => ∃ f, Paging.Staged w.paging stagingBase k f u.paging ∧ u.bottom = w.bottom ∧
      u.top = w.top ∧ u.usedMemory = w.usedMemory) hfits
    ⟨fun _ => 0, .zero hp.kept stagingBase _, rfl, rfl, rfl⟩ fun k u hk h => by
      obtain ⟨f, hstaged, hbottom, htop, hused⟩ := h
      obtain ⟨g, s, halloc, hnext⟩ := hstaged.allocPages hp.kept (by decide) (by omega) hp.small
        hp.enough hk
      have hpage : (Paging.pagingAllocPages u.paging (stagingBase + 4096 * k) 1).map Prod.snd =
          .ok s := by
        rw [halloc]
        rfl
      exact ⟨_, access_run hpage, _, hnext, hbottom, htop, hused⟩
  exact ⟨f, u, hrun, hstaged, hbottom, htop, hused⟩

/-- Where the staging pages end. -/
theorem staging_end (hp : Prepared w length) :
    stagingBase + length ≤ stagingBase + 4096 * pages length ∧
      stagingBase + 4096 * pages length ≤ 0xC0000000 := by
  have hbase : stagingBase = 0x30000000 := rfl
  have hkernel : Paging.kernelBaseVirt = 0xC0000000 := rfl
  have hpages : pages length = (length + 4095) / 4096 := rfl
  have hfits := hp.fits
  omega

theorem byte_mem (hp : Prepared w length) {i : Nat} (hi : i < length) :
    stagingBase + i ∈ region w length := by
  obtain ⟨hend, -⟩ := staging_end hp
  exact Or.inr (Set.mem_Ico.mpr ⟨by omega, by omega⟩)

/-- The terminator goes to a page of the file, or to the byte behind it. -/
theorem terminator_mem (hreach : length % 4096 ≠ 0 ∨
    (w.paging.translate (stagingBase + length)).isSome = true) :
    stagingBase + length ∈ region w length := by
  have hpages : pages length = (length + 4095) / 4096 := rfl
  by_cases hmod : length % 4096 = 0
  · exact Or.inl (Or.inr ⟨rfl, hmod, hreach.resolve_left (not_not_intro hmod)⟩)
  · exact Or.inr (Set.mem_Ico.mpr ⟨by omega, by omega⟩)

namespace StagedWorld

variable {f : Nat → Nat} {u : World} (hs : StagedWorld w length f u) (hp : Prepared w length)
include hs hp

theorem flat : Flat (region w length) u ∧
    ∀ v ∈ Set.Ico Heap.heapBegin Heap.heapLimit, Paging.view u.paging v = Paging.view w.paging v := by
  have hbase : stagingBase = 0x30000000 := rfl
  have hbegin : Heap.heapBegin = 0xC0400000 := rfl
  have hlimit : Heap.heapLimit = 0xC2200000 := rfl
  have hpages : pages length = (length + 4095) / 4096 := rfl
  obtain ⟨hend, hkernel⟩ := staging_end hp
  obtain ⟨hown, hview⟩ := hs.staged.ownData (by decide) (by omega) hp.own fun v hv => by
    rcases hv with hheap | hbehind
    · rw [Set.mem_Ico] at hheap
      omega
    · have heq := hbehind.1
      have hmod := hbehind.2.1
      omega
  exact ⟨⟨hown, hs.staged.kept.ready, fun v hv => Or.inl (Or.inl hv)⟩,
    fun v hv => hview v (Or.inl hv)⟩

/-- With nothing mapped behind the file the terminator faults. -/
theorem terminator_none (hmod : length % 4096 = 0)
    (hnone : (w.paging.translate (stagingBase + length)).isSome = false) :
    u.paging.translate (stagingBase + length) = none := by
  have hpages : pages length = (length + 4095) / 4096 := rfl
  obtain ⟨hend, hkernel⟩ := staging_end hp
  rw [hs.staged.translate_outside (by decide) (by omega) (by omega)]
  exact Option.isNone_iff_eq_none.mp (by rw [← Option.not_isSome, hnone]; rfl)

/-- The heap is as it was. -/
theorem rep {blocks : List Heap.Block} (hrep : Heap.Rep w.heap blocks) {m : Mem}
    (hm : ∀ v ∈ Set.Ico Heap.heapBegin Heap.heapLimit, m v = Paging.view u.paging v) :
    Heap.Rep { u.heap with mem := m } blocks := by
  have hsame : Heap.Rep { w.heap with mem := m } blocks := by
    refine hrep.bytes fun x => ?_
    by_cases hx : x ∈ Set.Ico Heap.heapBegin Heap.heapLimit
    · exact Or.inl ((hm x hx).trans ((hs.flat hp).2 x hx))
    · rw [Set.mem_Ico] at hx
      exact Or.inr ((show x + 1 ≤ Heap.heapBegin ∨ Heap.heapLimit ≤ x by omega).imp_right Or.inl)
  exact ⟨hs.bottom.trans hsame.bottom, hs.top.trans hsame.top, hsame.linked, hsame.laid⟩

end StagedWorld

/-! ## Reading the file and keeping the name -/

/-- The file and its terminator in the staging pages. -/
def filled (m : Mem) (content : List (BitVec 8)) : Mem :=
  Function.update (place m stagingBase content content.length) (stagingBase + content.length) 0#8

section

variable {f : Nat → Nat} {u : World} (hs : StagedWorld w content.length f u)
  (hp : Prepared w content.length)
include hs hp

theorem readFile_run (hreach : content.length % 4096 ≠ 0 ∨
    (w.paging.translate (stagingBase + content.length)).isSome = true) :
    ∃ u', (readFile content stagingBase).run u = (.ok (), u') ∧
      Carries (region w content.length) u u'
        { u.heap with mem := filled u.heap.mem content } := by
  obtain ⟨hf, -⟩ := hs.flat hp
  have hmem := terminator_mem hreach
  have hlt := (hf.own.mapped _ hmem).1
  obtain ⟨u₁, hcopy, hc⟩ := storeBytes_run hf (.start _ u) fun i hi => byte_mem hp hi
  obtain ⟨u₂, hlast, hc'⟩ := hf.storeByte_run hc hmem 0#8
  refine ⟨u₂, ?_, hc'⟩
  rw [readFile, Action.bind_ok hcopy, wrap_of_lt hlt]
  exact hlast

theorem readFile_fault (hmod : content.length % 4096 = 0)
    (hnone : (w.paging.translate (stagingBase + content.length)).isSome = false) :
    ∃ u', (readFile content stagingBase).run u = (.error .fault, u') := by
  have hbase : stagingBase = 0x30000000 := rfl
  obtain ⟨hend, hkernel⟩ := staging_end hp
  obtain ⟨hf, -⟩ := hs.flat hp
  obtain ⟨u₁, hcopy, hc⟩ := storeBytes_run hf (.start _ u) fun i hi => byte_mem hp hi
  have htrans := hc.tables.translate (show stagingBase + content.length < 2 ^ 32 by omega)
  rw [hs.terminator_none hp hmod hnone] at htrans
  change Machine.translate u₁.paging.mem u₁.paging.cr3 _ = none at htrans
  refine ⟨u₁, ?_⟩
  rw [readFile, Action.bind_ok hcopy, wrap_of_lt (by omega)]
  unfold storeByte access Paging.storeByte
  dsimp only
  rw [htrans]

omit hs in
/-- Where the heap is, nothing of the file is. -/
theorem filled_heap {v : Nat} (hv : v ∈ Set.Ico Heap.heapBegin Heap.heapLimit) :
    filled u.heap.mem content v = Paging.view u.paging v := by
  have hbase : stagingBase = 0x30000000 := rfl
  have hbegin : Heap.heapBegin = 0xC0400000 := rfl
  obtain ⟨hend, hkernel⟩ := staging_end hp
  rw [Set.mem_Ico] at hv
  rw [filled, Function.update_of_ne (by omega), place, if_neg (by omega)]
  rfl

omit hs hp in
theorem filled_byte (m : Mem) {i : Nat} (hi : i < content.length) :
    filled m content (stagingBase + i) = content.getD i 0#8 := by
  rw [filled, Function.update_of_ne (by omega), place, if_pos (by omega), Nat.add_sub_cancel_left]

/-- The name is kept if the heap has a block for it; the kernel stops otherwise. -/
theorem keepName_run (hpath : path.length < Heap.heapSize) {u₁ : World}
    (hc : Carries (region w content.length) u u₁
      { u.heap with mem := filled u.heap.mem content }) :
    (Heap.Refuses w.heap 4 (path.length + 1) ∧
        ∃ u₂, (keepName path).run u₁ = (.error .abort, u₂)) ∨
      (¬ Heap.Refuses w.heap 4 (path.length + 1) ∧
        ∃ u₂, (keepName path).run u₁ = (.ok (), u₂) ∧ Paging.SameTables u.paging u₂.paging ∧
          ∀ i, i < content.length →
            Paging.view u₂.paging (stagingBase + i) = content.getD i 0#8) := by
  have hbase : stagingBase = 0x30000000 := rfl
  have hbegin : Heap.heapBegin = 0xC0400000 := rfl
  have hheap : Heap.heapSize = 0x1E00000 := rfl
  obtain ⟨hend, hkernel⟩ := staging_end hp
  obtain ⟨hf, -⟩ := hs.flat hp
  obtain ⟨blocks, hne, hrep⟩ := hp.heap
  have hrep₁ := hs.rep hp hrep fun v hv => filled_heap hp hv
  generalize hm : filled u.heap.mem content = m at *
  have hrefuses : Heap.Refuses { u.heap with mem := m } 4 (path.length + 1) ↔
      Heap.Refuses w.heap 4 (path.length + 1) := by
    rw [hrep₁.refuses_iff Heap.aligns_four, hrep.refuses_iff Heap.aligns_four]
  have huncut := Heap.uncut_of_modest hrep₁ Heap.aligns_four
    (show path.length + 1 ≤ Heap.heapSize from hpath)
  rw [keepName, wrap_of_lt (by omega), kmalloc]
  rcases hf.alignedAlloc_run hc hrep₁ hne Heap.aligns_four huncut with
    ⟨hflat, hrun⟩ | ⟨p, h', u₂, hflat, hrun, hc₂⟩
  · exact Or.inl ⟨hrefuses.mp (Heap.refuses_of_error hrep₁ Heap.aligns_four hflat), u₁,
      Action.bind_error hrun⟩
  · obtain ⟨b, blocks', -, hall, rfl, hroom, hrep₂, hheaders⟩ :=
      Heap.alignedAlloc_allocated hrep₁ Heap.aligns_four (Or.inr huncut) hflat
    have hplaced := hrep₂.laid.placed b hall.mem
    have hlow := hplaced.low
    have hhigh := hplaced.high
    have hdata : b.data = b.addr + 8 := rfl
    have hlen : (path ++ [0#8]).length = path.length + 1 := by
      rw [List.length_append, List.length_singleton]
    have hin : ∀ i, i < (path ++ [0#8]).length → b.data + i ∈ region w content.length :=
      fun i hi => hf.heap (Set.mem_Ico.mpr ⟨by omega, by omega⟩)
    obtain ⟨u₃, hcopy, hc₃⟩ := storeBytes_run hf hc₂ hin
    refine Or.inr ⟨fun hno => Heap.not_refuses hflat (hrefuses.mpr hno), u₃, ?_, hc₃.tables,
      fun i hi => ?_⟩
    · rw [Action.bind_ok hrun]
      exact hcopy
    · -- the heap writes above its beginning only
      have hold : h'.mem (stagingBase + i) = m (stagingBase + i) := by
        refine hheaders _ fun c hc => Or.inl ?_
        have hclow := (hrep₂.laid.placed c hc).low
        omega
      rw [hc₃.bytes _ (byte_mem hp hi)]
      dsimp only
      rw [place, if_neg (by omega), hold, ← hm]
      exact filled_byte _ hi

end

/-! ## The test and its exit -/

section

variable {f : Nat → Nat} {u : World} (hs : StagedWorld w content.length f u)
  (hp : Prepared w content.length)
include hs hp

/-- The exit takes the staging pages away. -/
theorem unstage_run {u₂ : World} (hsame : Paging.SameTables u.paging u₂.paging) :
    ∃ t, (forPages content.length unstagePage).run u₂ = (.ok (), t) ∧
      ∀ v, stagingBase ≤ v → v < stagingBase + content.length →
        ∃ p, u.paging.translate v = some p ∧ Pmm.taken u.pmm (p / 4096) = true ∧
          t.paging.translate v = none ∧ Pmm.taken t.pmm (p / 4096) = false := by
  have hbase : stagingBase = 0x30000000 := rfl
  obtain ⟨hend, hkernel⟩ := staging_end hp
  have hframes := hs.staged.frames.congr (by omega) hsame
  obtain ⟨t, hrun, hgone⟩ := forPages_run (f := unstagePage)
    (I := fun k t => Paging.Unstaged u₂.paging stagingBase k f t.paging) hp.fits
    (.zero hframes.ready stagingBase f) fun k t hk h => by
      obtain ⟨s, hpage, hnext⟩ := h.unmapPage hframes (by decide) (by omega) hk
      exact ⟨_, access_run hpage, hnext⟩
  refine ⟨t, hrun, fun v hlo hhi => ?_⟩
  have hm : (v - stagingBase) / 4096 < pages content.length := by omega
  have hal := (hframes.aligned _ hm).1
  have hblock : (f ((v - stagingBase) / 4096) + v % 4096) / 4096 =
      f ((v - stagingBase) / 4096) / 4096 := by omega
  refine ⟨_, hs.staged.frames.translate (by decide) hlo (by omega), ?_,
    hgone.translate hframes (by decide) (by omega) hlo (by omega), ?_⟩
  · rw [hblock]
    exact (hs.staged.frames.data _ hm).taken
  · rw [hblock]
    exact hgone.freed _ hm

end

/-- Where it is reached, the test is made of the file's own first bytes. -/
theorem stageFile_run (hp : Prepared w content.length) (hpath : path.length < Heap.heapSize)
    (hreach : Reaches w content.length path) :
    ∃ f u u₂, (forPages content.length stagePage).run w = (.ok (), u) ∧
      StagedWorld w content.length f u ∧ (stageFile content path).run w = (.ok (), u₂) ∧
      Paging.SameTables u.paging u₂.paging ∧
      ∀ i, i < content.length → Paging.view u₂.paging (stagingBase + i) = content.getD i 0#8 := by
  obtain ⟨f, u, hstage, hs⟩ := stage_run hp
  obtain ⟨u₁, hread, hc⟩ := readFile_run hs hp hreach.1
  obtain ⟨-, u₂, hkeep, hsame, hbytes⟩ := (keepName_run hs hp hpath hc).resolve_left
    fun hno => hreach.2 hno.1
  refine ⟨f, u, u₂, hstage, hs, ?_, hsame, hbytes⟩
  rw [stageFile, Action.bind_ok hstage, Action.bind_ok hread]
  exact hkeep

theorem stageFile_error (hp : Prepared w content.length) (hpath : path.length < Heap.heapSize)
    (hreach : ¬ Reaches w content.length path) :
    ∃ e u, (stageFile content path).run w = (.error e, u) := by
  obtain ⟨f, u, hstage, hs⟩ := stage_run hp
  rw [stageFile, Action.bind_ok hstage]
  by_cases hlast : content.length % 4096 ≠ 0 ∨
      (w.paging.translate (stagingBase + content.length)).isSome = true
  · obtain ⟨u₁, hread, hc⟩ := readFile_run hs hp hlast
    rcases keepName_run hs hp hpath hc with ⟨-, u₂, hkeep⟩ | ⟨hserves, -⟩
    · refine ⟨.abort, u₂, ?_⟩
      rw [Action.bind_ok hread]
      exact hkeep
    · exact absurd ⟨hlast, hserves⟩ hreach
  · obtain ⟨hmod, hnone⟩ := not_or.mp hlast
    obtain ⟨u₁, hread⟩ := readFile_fault hs hp (not_not.mp hmod) (Bool.not_eq_true _ ▸ hnone)
    exact ⟨.fault, u₁, Action.bind_error hread⟩

/-- The test rejects every header. -/
theorem rejectsHeader_staging : rejectsHeader stagingBase = pure true := if_pos (by decide)

/-- **The exit of `elf_exec`** is taken exactly if the test is reached, whatever the
header says, and it takes all staging pages away. -/
theorem elfExec_exit (hp : Prepared w content.length) (hpath : path.length < Heap.heapSize) :
    ((∃ t, (elfExec (some content) path).run w = (.ok .notValid, t)) ↔
        Reaches w content.length path) ∧
      ∀ t, (elfExec (some content) path).run w = (.ok .notValid, t) →
        Undone w content.length t := by
  by_cases hreach : Reaches w content.length path
  · obtain ⟨f, u, u₂, hstage, hs, hfile, hsame, -⟩ := stageFile_run hp hpath hreach
    obtain ⟨t, hunstage, hundone⟩ := unstage_run hs hp hsame
    have hrun : (elfExec (some content) path).run w = (.ok .notValid, t) := by
      rw [elfExec, Action.bind_ok hfile, rejectsHeader_staging,
        Action.bind_ok (a := true) (t := u₂) rfl, if_pos rfl, Action.bind_ok hunstage]
      rfl
    refine ⟨iff_of_true ⟨t, hrun⟩ hreach, fun t' hrun' => ?_⟩
    rw [hrun] at hrun'
    obtain rfl := (Prod.mk.inj hrun').2
    exact ⟨u, hstage, hundone⟩
  · obtain ⟨e, u, hfile⟩ := stageFile_error hp hpath hreach
    have hrun : (elfExec (some content) path).run w = (.error e, u) := by
      rw [elfExec, Action.bind_error hfile]
    refine ⟨iff_of_false (fun hexit => ?_) hreach, fun t hexit => ?_⟩
    · obtain ⟨t, hexit⟩ := hexit
      rw [hrun] at hexit
      simp at hexit
    · rw [hrun] at hexit
      simp at hexit

/-- **The two validators** agree exactly on the files that `elf_check_file` rejects where
the test is reached, and on those that it accepts where the test is not. -/
theorem elfExec_agrees_iff (hp : Prepared w content.length) (hpath : path.length < Heap.heapSize) :
    Agrees w content path ↔
      (elfCheckFile (stagedFile content) stagingBase = false ↔ Reaches w content.length path) := by
  obtain ⟨hexit, hundone⟩ := elfExec_exit hp hpath
  rw [Agrees, hexit]
  constructor
  · exact fun h => h.1.symm
  · exact fun h => ⟨h.symm, hundone⟩

/-- Where it is reached, the test sees the file's own header. -/
theorem stageFile_header (hp : Prepared w content.length) (hpath : path.length < Heap.heapSize)
    (hreach : Reaches w content.length path) (hlen : 4 ≤ content.length) :
    ∃ u, (stageFile content path).run w = (.ok (), u) ∧
      elfCheckFile (Paging.view u.paging) stagingBase =
        elfCheckFile (stagedFile content) stagingBase := by
  obtain ⟨-, -, u, -, -, hrun, -, hbytes⟩ := stageFile_run hp hpath hreach
  have hident : ∀ k, k < 4 → eIdent (Paging.view u.paging) stagingBase k =
      eIdent (stagedFile content) stagingBase k := by
    intro k hk
    rw [eIdent, eIdent, hbytes k (by omega), stagedFile, Nat.add_sub_cancel_left]
  refine ⟨u, hrun, ?_⟩
  rw [elfCheckFile, elfCheckFile, hident 0 (by decide), hident 1 (by decide),
    hident 2 (by decide), hident 3 (by decide)]

/-! ## A machine with 64 MiB -/

/-- Blocks 9600 to 9631 are free. -/
def smallPmm : Pmm.State where
  bitmap := fun i => if i = 300 then 0#32 else 0xFFFFFFFF#32
  memSize := 0x4000000
  usedBlocks := 16352
  maxBlocks := 16384
  kernelEnd := 0x200000
  strayed := false

/-- The directory at 0x100000, the heap's tables behind it, and the heap from 0x400000 on
with one used block. -/
def smallWord (k : Nat) : Nat :=
  if k = 0x403FF then 0x100003
  else if 0x40301 ≤ k ∧ k < 0x40309 then 0x101003 + 0x1000 * (k - 0x40301)
  else if 0x40400 ≤ k ∧ k < 0x40400 + 7680 then 0x400003 + 0x1000 * (k - 0x40400)
  else if k = 0x100001 then 1
  else 0

/-- A kernel with nothing in its heap. -/
def smallWorld : World where
  paging := { pmm := smallPmm, mem := ofWords smallWord, cr3 := 0x100000 }
  bottom := Heap.heapBegin
  top := Heap.heapBegin
  usedMemory := 0
  tempPage := 0
  journal := []

theorem smallWorld_taken {k : Nat} (hk : k / 32 ≠ 300) : Pmm.taken smallPmm k = true := by
  have hbit : k % 32 < 32 := Nat.mod_lt k (by decide)
  show (if k / 32 = 300 then 0#32 else 0xFFFFFFFF#32).getLsbD (k % 32) = true
  rw [if_neg hk, show (0xFFFFFFFF#32) = BitVec.allOnes 32 from rfl, BitVec.getLsbD_allOnes]
  exact decide_eq_true hbit

theorem smallWorld_pde (i : Nat) : smallWorld.paging.pde i = smallWord (0x40000 + i) % 2 ^ 32 := by
  rw [← read32_ofWords smallWord (0x40000 + i)]
  show read32 (ofWords smallWord) (0x100000 + 4 * i) = _
  rw [show 0x100000 + 4 * i = 4 * (0x40000 + i) by omega]

/-- The window, and the tables of the heap. -/
theorem smallWorld_cases {i : Nat} (hi : i < 1024) :
    (i = 1023 ∧ smallWorld.paging.pde i = 0x100003) ∨
      (769 ≤ i ∧ i < 777 ∧ smallWorld.paging.pde i = 0x101003 + 0x1000 * (i - 769)) ∨
      smallWorld.paging.pde i = 0 := by
  rw [smallWorld_pde, smallWord]
  by_cases hlast : i = 1023
  · exact Or.inl ⟨hlast, by rw [if_pos (by omega)]; rfl⟩
  · rw [if_neg (by omega)]
    by_cases htable : 769 ≤ i ∧ i < 777
    · rw [if_pos (by omega)]
      exact Or.inr (Or.inl ⟨htable.1, htable.2, by omega⟩)
    · rw [if_neg (by omega), if_neg (by omega), if_neg (by omega)]
      exact Or.inr (Or.inr rfl)

/-- The entries are frames with the flags 3. -/
theorem smallEntry {f : Nat} (hf : f % 4096 = 0) (hlt : f < 2 ^ 32) :
    frame (f + 3) = f ∧ present (f + 3) = true ∧ large (f + 3) = false := by
  have hlow : (f + 3) % 4096 = 3 := by omega
  refine ⟨?_, ?_, ?_⟩
  · rw [frame_eq (by omega)]
    omega
  · rw [← present_mod, hlow]
    decide
  · rw [← large_mod, hlow]
    decide

/-- Which frames the directory names. -/
theorem smallWorld_frame {i : Nat} (hi : i < 1024)
    (hp : present (smallWorld.paging.pde i) = true) :
    large (smallWorld.paging.pde i) = false ∧
      ((i = 1023 ∧ frame (smallWorld.paging.pde i) = 0x100000) ∨
        (769 ≤ i ∧ i < 777 ∧
          frame (smallWorld.paging.pde i) = 0x101000 + 0x1000 * (i - 769))) := by
  rcases smallWorld_cases hi with ⟨hlast, hpde⟩ | ⟨hlo, hhi, hpde⟩ | hpde
  · obtain ⟨hframe, -, hsmall⟩ := smallEntry (f := 0x100000) (by decide) (by decide)
    rw [hpde]
    exact ⟨hsmall, Or.inl ⟨hlast, hframe⟩⟩
  · obtain ⟨hframe, -, hsmall⟩ := smallEntry (f := 0x101000 + 0x1000 * (i - 769)) (by omega)
      (by omega)
    rw [hpde, show 0x101003 + 0x1000 * (i - 769) = 0x101000 + 0x1000 * (i - 769) + 3 by omega]
    exact ⟨hsmall, Or.inr ⟨hlo, hhi, hframe⟩⟩
  · rw [hpde] at hp
    simp [present] at hp

theorem smallWorld_kept : Paging.Kept smallWorld.paging := by
  have hlast : smallWorld.paging.pde 1023 = 0x100003 := by
    rw [smallWorld_pde]
    rfl
  refine ⟨⟨⟨by decide, by decide, ?_, ?_, ?_⟩, ?_⟩, by decide, ?_, by decide⟩
  · exact (congrArg present hlast).trans (by decide)
  · exact (congrArg large hlast).trans (by decide)
  · exact (congrArg frame hlast).trans (by decide)
  · intro i j hi hj hne hpi hpj
    obtain ⟨-, hi'⟩ := smallWorld_frame hi hpi
    obtain ⟨-, hj'⟩ := smallWorld_frame hj hpj
    change frame (smallWorld.paging.pde i) ≠ frame (smallWorld.paging.pde j)
    omega
  · intro i hi hp _
    obtain ⟨-, hframe⟩ := smallWorld_frame hi hp
    exact smallWorld_taken (by omega)

/-- The heap is mapped to the memory from 4 MiB on. -/
theorem smallWorld_heap {v : Nat} (hv : v ∈ Set.Ico Heap.heapBegin Heap.heapLimit) :
    smallWorld.paging.translate v = some (v - 0xC0000000) ∧
      Paging.IsData smallWorld.paging (v - 0xC0000000) := by
  have hbegin : Heap.heapBegin = 0xC0400000 := rfl
  have hlimit : Heap.heapLimit = 0xC2200000 := rfl
  rw [Set.mem_Ico] at hv
  have hpde : smallWorld.paging.pde (v / 2 ^ 22) = 0x101000 + 0x1000 * (v / 2 ^ 22 - 769) + 3 := by
    rcases smallWorld_cases (show v / 2 ^ 22 < 1024 by omega) with ⟨hlast, -⟩ | ⟨-, -, hpde⟩ | hzero
    · omega
    · omega
    · rw [smallWorld_pde, smallWord, if_neg (by omega), if_pos (by omega)] at hzero
      omega
  obtain ⟨hframe, hp, hsmall⟩ := smallEntry (f := 0x101000 + 0x1000 * (v / 2 ^ 22 - 769)) (by omega)
    (by omega)
  have hpte : smallWorld.paging.pte (v / 2 ^ 22) (v / 2 ^ 12 % 2 ^ 10) =
      v / 2 ^ 12 * 2 ^ 12 - 0xC0000000 + 3 := by
    have hpde' : Machine.pde smallWorld.paging.mem smallWorld.paging.cr3 (v / 2 ^ 22) = _ := hpde
    rw [Paging.State.pte, Machine.pte, hpde', hframe]
    have hword := read32_ofWords smallWord
      (0x40400 + 1024 * (v / 2 ^ 22 - 769) + v / 2 ^ 12 % 2 ^ 10)
    rw [show 4 * (0x40400 + 1024 * (v / 2 ^ 22 - 769) + v / 2 ^ 12 % 2 ^ 10) =
      0x101000 + 0x1000 * (v / 2 ^ 22 - 769) + 4 * (v / 2 ^ 12 % 2 ^ 10) by omega] at hword
    refine hword.trans ?_
    rw [smallWord, if_neg (by omega), if_neg (by omega), if_pos (by omega)]
    omega
  obtain ⟨hframe', hp', -⟩ := smallEntry (f := v / 2 ^ 12 * 2 ^ 12 - 0xC0000000) (by omega)
    (by omega)
  refine ⟨?_, ?_, ?_, ?_⟩
  · rw [Paging.State.translate_eq, Paging.directoryIndex_eq, Paging.tableIndex_eq, hpde, hp, hsmall,
      hpte, hp', hframe', if_pos rfl, if_neg Bool.false_ne_true, if_pos rfl]
    exact congrArg some (by omega)
  · omega
  · exact smallWorld_taken (by omega)
  · intro i hi hp
    obtain ⟨-, hframe⟩ := smallWorld_frame hi hp
    change frame (smallWorld.paging.pde i) ≠ _
    omega

theorem smallWorld_byte {o : Nat} (ho : o < 8) :
    smallWorld.heap.mem (Heap.heapBegin + o) = ofWords smallWord (4 * 0x100000 + o) := by
  have hbegin : Heap.heapBegin = 0xC0400000 := rfl
  have hlimit : Heap.heapLimit = 0xC2200000 := rfl
  obtain ⟨htrans, -⟩ := smallWorld_heap (v := Heap.heapBegin + o)
    (Set.mem_Ico.mpr ⟨by omega, by omega⟩)
  have hplace : Heap.heapBegin + o - 0xC0000000 = 4 * 0x100000 + o := by omega
  rw [hplace] at htrans
  exact Paging.view_eq htrans

theorem smallWorld_rep : Heap.Rep smallWorld.heap [Heap.sentinel] := by
  have hword : ∀ k, k < 2 →
      read32 smallWorld.heap.mem (Heap.heapBegin + 4 * k) = smallWord (0x100000 + k) % 2 ^ 32 := by
    intro k hk
    rw [← read32_ofWords smallWord (0x100000 + k), Nat.mul_add, read32, read32,
      smallWorld_byte (by omega), Nat.add_assoc _ (4 * k) 1, Nat.add_assoc _ (4 * k) 2,
      Nat.add_assoc _ (4 * k) 3, smallWorld_byte (by omega), smallWorld_byte (by omega),
      smallWorld_byte (by omega)]
    rfl
  refine ⟨rfl, rfl, ⟨hword 0 (by decide), hword 1 (by decide), trivial⟩, ?_⟩
  exact ⟨List.isChain_singleton _, fun b hb => by
    rw [List.mem_singleton.mp hb]
    exact Heap.sentinel_placed⟩

theorem smallPmm_room : 2 ≤ Pmm.available smallPmm ∧ Pmm.pmmGetFreeBlocks smallPmm = 32 := by
  have hfree : ({9600, 9601} : Finset Nat) ⊆ Pmm.clearWindow smallPmm := by
    intro k hk
    rw [Finset.mem_insert, Finset.mem_singleton] at hk
    refine Finset.mem_filter.mpr ⟨Finset.mem_range.mpr ?_, ?_⟩
    · show k < 16384
      omega
    · rcases hk with rfl | rfl <;> decide
  rw [Pmm.available, if_pos (smallWorld_taken (by decide))]
  exact ⟨Finset.card_le_card hfree, by decide⟩

/-- The heap is flat memory, and nothing else has to be mapped. -/
theorem smallWorld_own {length : Nat} (hpos : 0 < length) (hlt : length < 4096) :
    Paging.OwnData smallWorld.paging
      (Set.Ico Heap.heapBegin Heap.heapLimit ∪ behind smallWorld length) := by
  have hbegin : Heap.heapBegin = 0xC0400000 := rfl
  have hlimit : Heap.heapLimit = 0xC2200000 := rfl
  have hheap : ∀ v ∈ Set.Ico Heap.heapBegin Heap.heapLimit ∪ behind smallWorld length,
      v ∈ Set.Ico Heap.heapBegin Heap.heapLimit := by
    intro v hv
    refine hv.resolve_right fun hbehind => ?_
    have hmod := hbehind.2.1
    omega
  constructor
  · intro v hv
    have hin := hheap v hv
    obtain ⟨htrans, hdata⟩ := smallWorld_heap hin
    rw [Set.mem_Ico] at hin
    exact ⟨by omega, _, htrans, hdata⟩
  · intro v hv v' hv' hne heq
    have hin := hheap v hv
    have hin' := hheap v' hv'
    rw [(smallWorld_heap hin).1, (smallWorld_heap hin').1] at heq
    rw [Set.mem_Ico] at hin hin'
    have hsum := Option.some.inj heq
    omega

/-- A file of one page can be staged. -/
theorem smallWorld_prepared {length : Nat} (hpos : 0 < length) (hlt : length < 4096) :
    Prepared smallWorld length := by
  have hone : pages length = 1 := by
    rw [pages]
    omega
  have habsent : present (smallWorld.paging.pde 192) = false := by
    rw [smallWorld_pde]
    rfl
  obtain ⟨hroom, hfree⟩ := smallPmm_room
  have hdemand : Paging.demand smallWorld.paging stagingBase 1 ≤ 2 := by
    have hmore := Paging.demand_succ_le smallWorld.paging stagingBase 0
    rw [Paging.demand_zero] at hmore
    exact hmore
  have hcounter : 2 ≤ Pmm.pmmGetFreeBlocks smallWorld.paging.pmm := by
    change 2 ≤ Pmm.pmmGetFreeBlocks smallPmm
    rw [hfree]
    decide
  refine ⟨smallWorld_kept, ⟨_, List.cons_ne_nil _ _, smallWorld_rep⟩, smallWorld_own hpos hlt,
    ?_, ?_, ?_⟩
  · intro m hm hp
    rw [hone] at hm
    obtain rfl : m = 0 := by omega
    change present (smallWorld.paging.pde 192) = true at hp
    rw [habsent] at hp
    simp at hp
  · rw [hone]
    exact ⟨hdemand.trans hroom, hdemand.trans hcounter⟩
  · have hbase : stagingBase = 0x30000000 := rfl
    have hkernel : Paging.kernelBaseVirt = 0xC0000000 := rfl
    omega

/-- The path "sh". -/
def shPath : List (BitVec 8) := [0x73#8, 0x68#8]

/-- A file that begins with the magic bytes. -/
def elfFile : List (BitVec 8) := [0x7F#8, 0x45#8, 0x4C#8, 0x46#8] ++ List.replicate 48 0#8

/-- A file of 52 spaces. -/
def textFile : List (BitVec 8) := List.replicate 52 0x20#8

theorem smallWorld_reaches : Reaches smallWorld 52 shPath := by
  refine ⟨Or.inl (by decide), fun hrefuses => ?_⟩
  have hlimit := ((smallWorld_rep.refuses_iff Heap.aligns_four).mp hrefuses).2
  exact absurd hlimit (by decide)

theorem elfExec_agrees_text :
    elfCheckFile (stagedFile textFile) stagingBase = false ∧ Agrees smallWorld textFile shPath := by
  have hrejected : elfCheckFile (stagedFile textFile) stagingBase = false := by decide
  exact ⟨hrejected, (elfExec_agrees_iff (show Prepared smallWorld textFile.length from
    smallWorld_prepared (by decide) (by decide)) (by decide)).mpr
    (iff_of_true hrejected smallWorld_reaches)⟩

/-- An ELF header is rejected too. -/
theorem elfExec_rejects_elf :
    Prepared smallWorld elfFile.length ∧ elfCheckFile (stagedFile elfFile) stagingBase = true ∧
      (∃ t, (elfExec (some elfFile) shPath).run smallWorld = (.ok .notValid, t)) ∧
      ¬ Agrees smallWorld elfFile shPath := by
  have hp : Prepared smallWorld elfFile.length := smallWorld_prepared (by decide) (by decide)
  have haccepted : elfCheckFile (stagedFile elfFile) stagingBase = true := by decide
  have hexit := (elfExec_exit hp (show shPath.length < Heap.heapSize by decide)).1.mpr
    smallWorld_reaches
  refine ⟨hp, haccepted, hexit, fun hagrees => ?_⟩
  have hrejected := hagrees.1.mp hexit
  rw [haccepted] at hrejected
  simp at hrejected

end Elf
end Medusa
