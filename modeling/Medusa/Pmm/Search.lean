import Mathlib.Order.Bounds.Defs
import Medusa.Pmm.Bitmap

/-!
# Searching the bitmap

Both searches walk the first `max_blocks / 32` words and skip a word whose bits
are all set.  `mmap_find_free` leaves with the first clear bit.
`mmap_find_free_frame` carries the start and the length of the run of clear
bits that ends at the current position, and zero stands for "no run": with
block 0 taken a run never starts there, so the two readings do not meet.

`Run s f n` says that blocks `f` to `f + n - 1` are clear, and the two
specifications say that each search returns the least answer inside the window.
-/

namespace Medusa
namespace Pmm

open Machine Kernel

/-- One word of `mmap_find_free`. -/
def findFreeWord (w : BitVec 32) (i : Nat) : Except Nat Unit :=
  if w ≠ 0xFFFFFFFF#32 then
    (List.range 32).foldlM
      (fun _ j => if w &&& nthBit j = 0#32 then .error (wrap (i * 32 + j)) else .ok ()) ()
  else .ok ()

def mmapFindFree (s : State) : Nat :=
  match (List.range (s.maxBlocks / 32)).foldlM (fun _ i => findFreeWord (s.bitmap i) i) () with
  | .error block => block
  | .ok _ => 0

/-- The locals of `mmap_find_free_frame`. -/
structure Scan where
  first : Nat
  count : Nat

/-- One bit of `mmap_find_free_frame`; leaving the loop is the `return`. -/
def scanBit (w : BitVec 32) (i frameSize : Nat) (sc : Scan) (j : Nat) : Except Nat Scan :=
  let sc' : Scan :=
    if w &&& nthBit j = 0#32 then
      { first := if sc.first = 0 then wrap (i * 32 + j) else sc.first
        count := wrap (sc.count + 1) }
    else { first := 0, count := 0 }
  if sc'.count = frameSize then .error sc'.first else .ok sc'

/-- One word of `mmap_find_free_frame`. -/
def scanWord (w : BitVec 32) (i frameSize : Nat) (sc : Scan) : Except Nat Scan :=
  if w ≠ 0xFFFFFFFF#32 then (List.range 32).foldlM (scanBit w i frameSize) sc
  else .ok { first := 0, count := 0 }

def mmapFindFreeFrame (s : State) (frameSize : Nat) : Nat :=
  match (List.range (s.maxBlocks / 32)).foldlM
      (fun sc i => scanWord (s.bitmap i) i frameSize sc) { first := 0, count := 0 } with
  | .error first => first
  | .ok _ => 0

/-- The number of blocks both searches look at. -/
def window (s : State) : Nat := s.maxBlocks / 32 * 32

/-- Blocks `f` to `f + n - 1` are all clear. -/
def Run (s : State) (f n : Nat) : Prop := ∀ k, f ≤ k → k < f + n → taken s k = false

theorem Run.mono {s : State} {f n g m : Nat} (h : Run s f n) (hf : f ≤ g) (hm : g + m ≤ f + n) :
    Run s g m :=
  fun k hk hk' => h k (by omega) (by omega)

theorem taken_word (s : State) {i j : Nat} (hj : j < 32) :
    taken s (i * 32 + j) = (s.bitmap i).getLsbD j := by
  unfold taken
  rw [show (i * 32 + j) / 32 = i by omega, show (i * 32 + j) % 32 = j by omega]

theorem taken_of_full {s : State} {i : Nat} (hw : s.bitmap i = 0xFFFFFFFF#32) {k : Nat}
    (hlo : i * 32 ≤ k) (hhi : k < (i + 1) * 32) : taken s k = true := by
  have hk := taken_word s (i := i) (j := k - i * 32) (by omega)
  rw [show i * 32 + (k - i * 32) = k by omega] at hk
  rw [hk]
  exact (eq_full_iff _).mp hw _ (by omega)

/-! ## The first clear bit -/

theorem findFreeWord_spec {s : State} {i : Nat} (hi : (i + 1) * 32 ≤ 2 ^ 32)
    (hbelow : ∀ k, k < i * 32 → taken s k = true) :
    Exits (fun _ => ∀ k, k < (i + 1) * 32 → taken s k = true)
      (fun f => f < (i + 1) * 32 ∧ taken s f = false ∧ ∀ k, k < f → taken s k = true)
      (findFreeWord (s.bitmap i) i) := by
  unfold findFreeWord
  by_cases hw : s.bitmap i = 0xFFFFFFFF#32
  · rw [if_neg (by simpa using hw)]
    intro k hk
    rcases Nat.lt_or_ge k (i * 32) with hlt | hge
    · exact hbelow k hlt
    · exact taken_of_full hw hge hk
  · rw [if_pos hw]
    have hloop := foldlM_range_induction (n := 32) (s := ())
      (f := fun _ j => if s.bitmap i &&& nthBit j = 0#32 then .error (wrap (i * 32 + j))
        else .ok ())
      (fun j (_ : Unit) => ∀ k, k < i * 32 + j → taken s k = true)
      (fun f => f < (i + 1) * 32 ∧ taken s f = false ∧ ∀ k, k < f → taken s k = true)
      (by simpa using hbelow)
      (by
        intro j _ hj hprev
        by_cases hz : s.bitmap i &&& nthBit j = 0#32
        · have hclear : taken s (i * 32 + j) = false := by
            rw [taken_word s hj]
            exact (and_nthBit_eq_zero _ hj).mp hz
          rw [if_pos hz, wrap_of_lt (by omega)]
          exact ⟨by omega, hclear, hprev⟩
        · rw [if_neg hz]
          intro k hk
          rcases (by omega : k < i * 32 + j ∨ k = i * 32 + j) with hlt | rfl
          · exact hprev k hlt
          · rw [and_nthBit_eq_zero _ hj] at hz
            rw [taken_word s hj]
            simpa using hz)
    rw [show (i + 1) * 32 = i * 32 + 32 by omega] at *
    exact hloop

/-- `mmap_find_free` returns the least clear block of the window, and zero when
the window has none. -/
theorem mmapFindFree_spec {s : State} (hmax : s.maxBlocks < 2 ^ 32) :
    (mmapFindFree s < window s ∧ taken s (mmapFindFree s) = false ∧
        ∀ k, k < mmapFindFree s → taken s k = true) ∨
      (mmapFindFree s = 0 ∧ ∀ k, k < window s → taken s k = true) := by
  have hloop := foldlM_range_induction (n := s.maxBlocks / 32) (s := ())
    (f := fun _ i => findFreeWord (s.bitmap i) i)
    (fun i (_ : Unit) => ∀ k, k < i * 32 → taken s k = true)
    (fun f => f < window s ∧ taken s f = false ∧ ∀ k, k < f → taken s k = true)
    (by simp)
    (by
      intro i _ hi hprev
      have hword := findFreeWord_spec (by omega) hprev
      cases hrun : findFreeWord (s.bitmap i) i with
      | ok u =>
        rw [hrun] at hword
        exact hword
      | error f =>
        rw [hrun] at hword
        exact ⟨Nat.lt_of_lt_of_le hword.1 (Nat.mul_le_mul_right 32 hi), hword.2⟩)
  unfold mmapFindFree
  cases hrun : (List.range (s.maxBlocks / 32)).foldlM
      (fun _ i => findFreeWord (s.bitmap i) i) () with
  | ok u =>
    rw [hrun] at hloop
    exact Or.inr ⟨rfl, hloop⟩
  | error f =>
    rw [hrun] at hloop
    exact Or.inl hloop

/-! ## The first long run -/

/-- What `mmap_find_free_frame` knows before looking at block `pos`: `count`
clear blocks end there, the block before them is taken, `first` is where they
start, and no run of the wanted length has been passed. -/
structure ScanInv (s : State) (n pos : Nat) (sc : Scan) : Prop where
  short : sc.count < n
  fits : sc.count ≤ pos
  run : Run s (pos - sc.count) sc.count
  first : sc.first = if sc.count = 0 then 0 else pos - sc.count
  maximal : sc.count < pos → taken s (pos - sc.count - 1) = true
  missed : ∀ g, g + n ≤ pos → ¬ Run s g n

/-- What the search has found when it returns from inside the loop. -/
structure FrameAt (s : State) (n bound f : Nat) : Prop where
  pos : 0 < f
  fits : f + n ≤ bound
  run : Run s f n
  least : ∀ g, g < f → ¬ Run s g n

theorem FrameAt.mono {s : State} {n b c f : Nat} (h : FrameAt s n b f) (hbc : b ≤ c) :
    FrameAt s n c f :=
  ⟨h.pos, Nat.le_trans h.fits hbc, h.run, h.least⟩

/-- A taken block resets the scan. -/
theorem ScanInv.reset {s : State} {n pos : Nat} (hn : 0 < n) (hset : taken s pos = true)
    (hmissed : ∀ g, g + n ≤ pos → ¬ Run s g n) :
    ScanInv s n (pos + 1) { first := 0, count := 0 } where
  short := hn
  fits := Nat.zero_le _
  run := fun k hk hk' => by simp only at hk hk'; omega
  first := rfl
  maximal := fun _ => by simpa using hset
  missed := by
    intro g hg hrun
    rcases Nat.lt_or_ge pos (g + n) with hlt | hge
    · have hclear := hrun pos (by omega) hlt
      rw [hset] at hclear
      exact Bool.noConfusion hclear
    · exact hmissed g hge hrun

/-- A run cannot reach down to block 0, so `first = 0` still means that no run
is open. -/
theorem ScanInv.start_pos {s : State} {n pos : Nat} {sc : Scan} (h0 : taken s 0 = true)
    (h : ScanInv s n pos sc) (hclear : taken s pos = false) : sc.count < pos := by
  refine Nat.lt_of_le_of_ne h.fits fun he => ?_
  have hzero : taken s 0 = false := by
    rcases Nat.eq_zero_or_pos pos with hp | hp
    · rw [hp] at hclear
      exact hclear
    · exact h.run 0 (by omega) (by omega)
  rw [h0] at hzero
  exact Bool.noConfusion hzero

/-- A clear block lengthens the open run. -/
theorem ScanInv.lengthen {s : State} {n pos : Nat} {sc : Scan} (h : ScanInv s n pos sc)
    (hclear : taken s pos = false) : Run s (pos - sc.count) (sc.count + 1) := by
  have hfits := h.fits
  intro k hk hk'
  rcases (by omega : k < pos ∨ k = pos) with hlt | rfl
  · exact h.run k hk (by omega)
  · exact hclear

/-- The scan goes on with a run that is still too short. -/
theorem ScanInv.extend {s : State} {n pos : Nat} {sc : Scan} (h : ScanInv s n pos sc)
    (hclear : taken s pos = false) (hlt : sc.count < pos) (hshort : sc.count + 1 < n) :
    ScanInv s n (pos + 1) { first := pos - sc.count, count := sc.count + 1 } where
  short := hshort
  fits := Nat.succ_le_succ h.fits
  run := by
    rw [show pos + 1 - (sc.count + 1) = pos - sc.count by omega]
    exact h.lengthen hclear
  first := by
    rw [if_neg (by simp)]
    simp only
    omega
  maximal := by
    intro _
    rw [show pos + 1 - (sc.count + 1) - 1 = pos - sc.count - 1 by omega]
    exact h.maximal hlt
  missed := by
    intro g hg hrun
    rcases Nat.lt_or_ge pos (g + n) with hover | hge
    · -- a run of length `n` ending here would cover the taken block before ours
      have hbefore := hrun (pos - sc.count - 1) (by omega) (by omega)
      rw [h.maximal hlt] at hbefore
      exact Bool.noConfusion hbefore
    · exact h.missed g hge hrun

/-- `first` once a clear block is seen: zero stands for no open run. -/
theorem ScanInv.first_eq {s : State} {n pos : Nat} {sc : Scan} (h : ScanInv s n pos sc)
    (hlt : sc.count < pos) (hpos : pos < 2 ^ 32) :
    (if sc.first = 0 then wrap pos else sc.first) = pos - sc.count := by
  rw [h.first, wrap_of_lt hpos]
  by_cases hc : sc.count = 0
  · simp [hc]
  · rw [if_neg hc, if_neg (by omega)]

theorem scanBit_spec {s : State} {n i j : Nat} {sc : Scan} (h0 : taken s 0 = true) (hn : 0 < n)
    (hj : j < 32) (hpos : i * 32 + j + 1 < 2 ^ 32) (h : ScanInv s n (i * 32 + j) sc) :
    Exits (ScanInv s n (i * 32 + j + 1)) (FrameAt s n (i * 32 + j + 1))
      (scanBit (s.bitmap i) i n sc j) := by
  have hword := taken_word s (i := i) hj
  unfold scanBit
  generalize hp : i * 32 + j = pos at *
  by_cases hz : s.bitmap i &&& nthBit j = 0#32
  · have hclear : taken s pos = false := by
      rw [hword]
      exact (and_nthBit_eq_zero _ hj).mp hz
    have hlt := h.start_pos h0 hclear
    have hshort := h.short
    have hstart := h.first_eq hlt (by omega)
    simp only [hz, if_true, hstart, wrap_of_lt (show sc.count + 1 < 2 ^ 32 by omega)]
    by_cases hdone : sc.count + 1 = n
    · rw [if_pos hdone]
      exact ⟨by omega, by omega, hdone ▸ h.lengthen hclear, fun g hg => h.missed g (by omega)⟩
    · rw [if_neg hdone]
      exact h.extend hclear hlt (by omega)
  · have hset : taken s pos = true := by
      rw [and_nthBit_eq_zero _ hj] at hz
      rw [hword]
      simpa using hz
    simp only [hz, if_false]
    rw [if_neg (by omega)]
    exact ScanInv.reset hn hset h.missed

theorem scanWord_spec {s : State} {n i : Nat} {sc : Scan} (h0 : taken s 0 = true) (hn : 0 < n)
    (hpos : (i + 1) * 32 < 2 ^ 32) (h : ScanInv s n (i * 32) sc) :
    Exits (ScanInv s n ((i + 1) * 32)) (FrameAt s n ((i + 1) * 32))
      (scanWord (s.bitmap i) i n sc) := by
  unfold scanWord
  by_cases hw : s.bitmap i = 0xFFFFFFFF#32
  · rw [if_neg (by simpa using hw)]
    rw [show (i + 1) * 32 = i * 32 + 31 + 1 by omega]
    refine ScanInv.reset hn (taken_of_full hw (by omega) (by omega)) fun g hg hrun => ?_
    rcases Nat.lt_or_ge (i * 32) (g + n) with hlt | hge
    · have hclear := hrun (g + n - 1) (by omega) (by omega)
      rw [taken_of_full hw (by omega) (by omega)] at hclear
      exact Bool.noConfusion hclear
    · exact h.missed g hge hrun
  · rw [if_pos hw, show (i + 1) * 32 = i * 32 + 32 by omega]
    refine foldlM_range_induction (fun j t => ScanInv s n (i * 32 + j) t)
      (FrameAt s n (i * 32 + 32)) h ?_
    intro j t hj ht
    have hbit := scanBit_spec h0 hn hj (by omega) ht
    cases hrun : scanBit (s.bitmap i) i n t j with
    | ok t' =>
      rw [hrun] at hbit
      exact hbit
    | error f =>
      rw [hrun] at hbit
      exact FrameAt.mono hbit (by omega)

/-- `mmap_find_free_frame` returns the start of the least run of `n` clear
blocks that fits the window, and zero when there is none. -/
theorem mmapFindFreeFrame_spec {s : State} {n : Nat} (h0 : taken s 0 = true) (hn : 0 < n)
    (hmax : s.maxBlocks < 2 ^ 32) :
    FrameAt s n (window s) (mmapFindFreeFrame s n) ∨
      (mmapFindFreeFrame s n = 0 ∧ ∀ g, g + n ≤ window s → ¬ Run s g n) := by
  have hloop := foldlM_range_induction (n := s.maxBlocks / 32)
    (f := fun sc i => scanWord (s.bitmap i) i n sc)
    (fun i sc => ScanInv s n (i * 32) sc) (FrameAt s n (window s))
    (s := { first := 0, count := 0 })
    ⟨hn, Nat.le_refl _, fun k hk hk' => by simp only at hk'; omega, rfl,
      fun hlt => absurd hlt (by simp), fun g hg => absurd hg (by omega)⟩
    (by
      intro i sc hi hsc
      have hword := scanWord_spec h0 hn (by omega) hsc
      cases hrun : scanWord (s.bitmap i) i n sc with
      | ok t =>
        rw [hrun] at hword
        exact hword
      | error f =>
        rw [hrun] at hword
        exact FrameAt.mono hword (Nat.mul_le_mul_right 32 hi))
  unfold mmapFindFreeFrame
  cases hrun : (List.range (s.maxBlocks / 32)).foldlM
      (fun sc i => scanWord (s.bitmap i) i n sc) { first := 0, count := 0 } with
  | ok t =>
    rw [hrun] at hloop
    exact Or.inr ⟨rfl, hloop.missed⟩
  | error f =>
    rw [hrun] at hloop
    exact Or.inl hloop

/-- `x` is the least element of `S`, and zero when there is none. -/
def LeastOrZero (S : Set Nat) (x : Nat) : Prop := IsLeast S x ∨ (x = 0 ∧ ∀ f, f ∉ S)

theorem LeastOrZero.unique {S : Set Nat} {x y : Nat} (hx : LeastOrZero S x)
    (hy : LeastOrZero S y) : x = y := by
  rcases hx with hx | ⟨hx, hnone⟩
  · rcases hy with hy | ⟨-, hnone⟩
    · exact hx.unique hy
    · exact absurd hx.1 (hnone x)
  · rcases hy with hy | ⟨hy, -⟩
    · exact absurd hy.1 (hnone y)
    · rw [hx, hy]

theorem mmapFindFreeFrame_leastOrZero {s : State} {n : Nat} (h0 : taken s 0 = true) (hn : 0 < n)
    (hmax : s.maxBlocks < 2 ^ 32) :
    LeastOrZero {f | f + n ≤ window s ∧ Run s f n} (mmapFindFreeFrame s n) := by
  rcases mmapFindFreeFrame_spec h0 hn hmax with h | ⟨hzero, hnone⟩
  · refine Or.inl ⟨⟨h.fits, h.run⟩, fun g hg => ?_⟩
    by_contra hlt
    exact h.least g (Nat.lt_of_not_le hlt) hg.2
  · exact Or.inr ⟨hzero, fun f hf => hnone f hf.1 hf.2⟩

theorem mmapFindFree_leastOrZero {s : State} (hmax : s.maxBlocks < 2 ^ 32) :
    LeastOrZero {f | f < window s ∧ taken s f = false} (mmapFindFree s) := by
  rcases mmapFindFree_spec hmax with ⟨hlt, hclear, hbelow⟩ | ⟨hzero, hnone⟩
  · refine Or.inl ⟨⟨hlt, hclear⟩, fun f hf => ?_⟩
    by_contra hless
    have htaken := hbelow f (Nat.lt_of_not_le hless)
    rw [hf.2] at htaken
    simp at htaken
  · refine Or.inr ⟨hzero, fun f hf => ?_⟩
    have htaken := hnone f hf.1
    rw [hf.2] at htaken
    simp at htaken

/-- A run of one block is a clear block. -/
theorem run_one_iff {s : State} {f : Nat} : Run s f 1 ↔ taken s f = false := by
  constructor
  · intro h
    exact h f (Nat.le_refl f) (Nat.lt_succ_self f)
  · intro h k hlo hhi
    rw [show k = f by omega]
    exact h

/-- **The searches that skip full words answer as a scan of every bit does**: with
the least run, or the least clear block, of the window, and with zero when there is
none. -/
theorem searches_eq_bit_scan {s : State} {frameSize : Nat} (h0 : taken s 0 = true)
    (hmax : s.maxBlocks ≤ 2 ^ 20) (hsize : 0 < frameSize) :
    LeastOrZero {f | f + frameSize ≤ s.maxBlocks / 32 * 32 ∧
        ∀ k, f ≤ k → k < f + frameSize → taken s k = false} (mmapFindFreeFrame s frameSize) ∧
      LeastOrZero {f | f < s.maxBlocks / 32 * 32 ∧ taken s f = false} (mmapFindFree s) ∧
      mmapFindFreeFrame s 1 = mmapFindFree s := by
  have hfree := mmapFindFree_leastOrZero (s := s) (by omega)
  refine ⟨mmapFindFreeFrame_leastOrZero h0 hsize (by omega), hfree, ?_⟩
  have hone := mmapFindFreeFrame_leastOrZero (n := 1) h0 (by decide) (by omega)
  simp only [run_one_iff] at hone
  exact hone.unique hfree

/-- Blocks 4 to 67 are free, across two word borders. -/
def twoBorders : State where
  bitmap := fun i => if i = 0 then 0x0000000F#32 else if i = 1 then 0#32 else 0xFFFFFFF0#32
  memSize := 96 * 4096
  usedBlocks := 32
  maxBlocks := 96
  kernelEnd := 0
  strayed := false

theorem searches_eq_bit_scan_twoBorders :
    taken twoBorders 0 = true ∧ mmapFindFreeFrame twoBorders 40 = 4 ∧
      LeastOrZero {f | f + 40 ≤ 96 / 32 * 32 ∧
        ∀ k, f ≤ k → k < f + 40 → taken twoBorders k = false} 4 := by
  have hfour : mmapFindFreeFrame twoBorders 40 = 4 := by decide
  have hsize : 0 < 40 := by decide
  have hleast := (searches_eq_bit_scan (s := twoBorders) (by decide) (by decide) hsize).1
  rw [hfour] at hleast
  exact ⟨by decide, hfour, hleast⟩

end Pmm
end Medusa
