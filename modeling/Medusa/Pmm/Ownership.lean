import Mathlib.Algebra.BigOperators.Group.List.Basic
import Mathlib.Data.Finset.Card
import Mathlib.Logic.Relation
import Medusa.Pmm.Alloc

/-!
# Who owns which block

A `Book` is the allocator together with the ranges its callers hold.  A caller
may free only a range it holds, and an abort ends the run, so `Step` has no
transition for it.  `Sound` ties the bitmap to the ranges held: a block is taken
exactly when it was taken at the start or lies in a range held now.
-/

namespace Medusa
namespace Pmm

open Machine Kernel

structure Book where
  pmm : State
  held : List Grant

/-- One call of the allocator's interface by a caller that keeps the rules. -/
inductive Step : Book → Book → Prop
  | grant {b : Book} (req : Request) {addr : Nat} {t : State} (hreq : req.Valid)
      (hrun : req.run b.pmm = .ok (addr, t)) (haddr : addr ≠ 0) :
      Step b { pmm := t, held := { addr := addr, num := req.blocks } :: b.held }
  | refuse {b : Book} (req : Request) {t : State} (hreq : req.Valid)
      (hrun : req.run b.pmm = .ok (0, t)) : Step b { pmm := t, held := b.held }
  | freePage {b : Book} {g : Grant} (hg : g ∈ b.held) (hnum : g.num = 1) :
      Step b { pmm := pmmFreePage b.pmm g.addr, held := b.held.erase g }
  | freePages {b : Book} {g : Grant} (hg : g ∈ b.held) :
      Step b { pmm := pmmFreePages b.pmm g.addr g.num, held := b.held.erase g }

/-- The books that calls can lead to when the allocator starts in `s₀`. -/
def Reachable (s₀ : State) : Book → Prop := Relation.ReflTransGen Step { pmm := s₀, held := [] }

/-- The clear bits of the 32768-word array. -/
def clearBlocks (s : State) : Finset Nat := (Finset.range (2 ^ 20)).filter (taken s · = false)

theorem mem_clearBlocks {s : State} {k : Nat} :
    k ∈ clearBlocks s ↔ k < 2 ^ 20 ∧ taken s k = false := by
  simp [clearBlocks]

theorem Grant.card_blocks (g : Grant) : g.blocks.card = g.num := by
  simp [Grant.blocks]

/-- Marking a clear range takes its blocks from the clear ones. -/
theorem card_clearBlocks_set {s t : State} {g : Grant} (hsub : g.blocks ⊆ clearBlocks s)
    (htaken : ∀ k, taken t k = (taken s k || decide (k ∈ g.blocks))) :
    (clearBlocks t).card + g.num = (clearBlocks s).card := by
  have hdiff : clearBlocks t = clearBlocks s \ g.blocks := by
    ext k
    rw [Finset.mem_sdiff, mem_clearBlocks, mem_clearBlocks, htaken k]
    simp [and_assoc]
  rw [hdiff, ← g.card_blocks]
  exact Finset.card_sdiff_add_card_eq_card hsub

/-- Freeing a marked range gives its blocks back. -/
theorem card_clearBlocks_unset {s t : State} {g : Grant} (hfits : g.first + g.num ≤ 2 ^ 20)
    (hheld : ∀ k ∈ g.blocks, taken s k = true)
    (htaken : ∀ k, taken t k = (taken s k && !decide (k ∈ g.blocks))) :
    (clearBlocks t).card = (clearBlocks s).card + g.num := by
  have hunion : clearBlocks t = clearBlocks s ∪ g.blocks := by
    ext k
    rw [Finset.mem_union, mem_clearBlocks, mem_clearBlocks, htaken k]
    simp only [Bool.and_eq_false_iff, Bool.not_eq_false', decide_eq_true_eq]
    constructor
    · rintro ⟨hlt, hk | hk⟩
      · exact Or.inl ⟨hlt, hk⟩
      · exact Or.inr hk
    · rintro (⟨hlt, hk⟩ | hk)
      · exact ⟨hlt, Or.inl hk⟩
      · have hm := Grant.mem_blocks.mp hk
        exact ⟨by omega, Or.inr hk⟩
  have hdisj : Disjoint (clearBlocks s) g.blocks := by
    refine Finset.disjoint_left.mpr fun k hk hk' => ?_
    have hf := (mem_clearBlocks.mp hk).2
    rw [hheld k hk'] at hf
    exact Bool.noConfusion hf
  rw [hunion, Finset.card_union_of_disjoint hdisj, g.card_blocks]

/-- The number of blocks in the hands of callers. -/
def heldBlocks (held : List Grant) : Nat := (held.map Grant.num).sum

structure Sound (s₀ : State) (b : Book) : Prop where
  zero : taken b.pmm 0 = true
  sizes : SameSizes s₀ b.pmm
  bound : ∀ g ∈ b.held, 0 < g.first ∧ 0 < g.num ∧ g.first + g.num ≤ window s₀
  disjoint : b.held.Pairwise fun g g' => Disjoint g.blocks g'.blocks
  fresh : ∀ g ∈ b.held, ∀ k ∈ g.blocks, taken s₀ k = false
  marked : ∀ k, taken b.pmm k = true ↔ taken s₀ k = true ∨ ∃ g ∈ b.held, k ∈ g.blocks
  used : wrap b.pmm.usedBlocks = wrap (s₀.usedBlocks + heldBlocks b.held)
  count : (clearBlocks b.pmm).card + heldBlocks b.held = (clearBlocks s₀).card

namespace Sound

variable {s₀ : State} {b : Book}

theorem start (h0 : taken s₀ 0 = true) : Sound s₀ { pmm := s₀, held := [] } where
  zero := h0
  sizes := ⟨rfl, rfl, rfl⟩
  bound := by simp
  disjoint := List.Pairwise.nil
  fresh := by simp
  marked := by simp
  used := rfl
  count := by simp [heldBlocks]

theorem maxBlocks_le (h : Sound s₀ b) (hmax : s₀.maxBlocks ≤ 2 ^ 20) :
    b.pmm.maxBlocks ≤ 2 ^ 20 := by
  rw [h.sizes.maxBlocks]
  exact hmax

theorem taken_held (h : Sound s₀ b) {g : Grant} (hg : g ∈ b.held) {k : Nat}
    (hk : k ∈ g.blocks) : taken b.pmm k = true :=
  (h.marked k).mpr (Or.inr ⟨g, hg, hk⟩)

theorem window_eq (h : Sound s₀ b) : window b.pmm = window s₀ := by
  unfold window
  rw [h.sizes.maxBlocks]

/-- Held ranges are disjoint and not empty, so no range is held twice. -/
theorem nodup (h : Sound s₀ b) : b.held.Nodup := by
  refine h.disjoint.imp_of_mem fun {g g'} hg _ hdisj he => ?_
  have hnum := h.bound g hg
  have hfirst : g.first ∈ g.blocks := Grant.mem_blocks.mpr ⟨Nat.le_refl _, by omega⟩
  exact Finset.disjoint_left.mp hdisj hfirst (he ▸ hfirst)

theorem grant {t : State} {g : Grant} (h : Sound s₀ b) (hmax : s₀.maxBlocks ≤ 2 ^ 20)
    (hnum : 0 < g.num) (hg : Grants b.pmm t g) : Sound s₀ { pmm := t, held := g :: b.held } := by
  have hwin : g.first + g.num ≤ window s₀ := h.window_eq ▸ hg.fits
  have hfits : g.first + g.num ≤ 2 ^ 20 := hwin.trans ((window_le s₀).trans hmax)
  have hpos := hg.pos
  have hcons : heldBlocks (g :: b.held) = g.num + heldBlocks b.held := by simp [heldBlocks]
  have htaken : ∀ k, taken t k = (taken b.pmm k || decide (k ∈ g.blocks)) := by
    intro k
    rw [hg.marked, taken_setBlocks _ (by omega)]
    simp only [Grant.mem_blocks]
  have hclear : ∀ k ∈ g.blocks, taken b.pmm k = false := by
    intro k hk
    obtain ⟨hlo, hhi⟩ := Grant.mem_blocks.mp hk
    exact hg.run k hlo hhi
  have hnot : ∀ k ∈ g.blocks, ¬ (taken s₀ k = true ∨ ∃ g' ∈ b.held, k ∈ g'.blocks) := by
    intro k hk hor
    rw [← h.marked k, hclear k hk] at hor
    exact Bool.noConfusion hor
  have hsub : g.blocks ⊆ clearBlocks b.pmm := by
    intro k hk
    have hm := Grant.mem_blocks.mp hk
    exact mem_clearBlocks.mpr ⟨by omega, hclear k hk⟩
  have hsame := sameSizes_setBlocks b.pmm (show g.first + g.num ≤ 2 ^ 32 by omega)
  refine ⟨?_, ?_, ?_, ?_, ?_, ?_, ?_, ?_⟩
  · rw [htaken, h.zero]
    rfl
  · rw [hg.marked]
    exact ⟨hsame.1.trans h.sizes.1, hsame.2.trans h.sizes.2, hsame.3.trans h.sizes.3⟩
  · intro g' hg'
    rcases List.mem_cons.mp hg' with rfl | hmem
    · exact ⟨hpos, hnum, hwin⟩
    · exact h.bound g' hmem
  · refine List.pairwise_cons.mpr ⟨fun g' hg' => ?_, h.disjoint⟩
    exact Finset.disjoint_left.mpr fun k hk hk' => hnot k hk (Or.inr ⟨g', hg', hk'⟩)
  · intro g' hg' k hk
    rcases List.mem_cons.mp hg' with rfl | hmem
    · have hn := hnot k hk
      simp only [not_or, Bool.not_eq_true] at hn
      exact hn.1
    · exact h.fresh g' hmem k hk
  · intro k
    rw [htaken, Bool.or_eq_true, h.marked k]
    simp only [decide_eq_true_eq, List.mem_cons, exists_eq_or_imp]
    exact or_assoc.trans (or_congr_right or_comm)
  · rw [hcons, hg.marked, usedBlocks_setBlocks _ (by omega), ← wrap_add_wrap, h.used,
      wrap_add_wrap, Nat.add_assoc, Nat.add_comm (heldBlocks b.held)]
  · rw [hcons, ← h.count, ← card_clearBlocks_set hsub htaken, Nat.add_assoc]

/-- Freeing a held range gives back exactly its blocks. -/
theorem release {t : State} {g : Grant} (h : Sound s₀ b) (hmax : s₀.maxBlocks ≤ 2 ^ 20)
    (hg : g ∈ b.held) (ht : t = unsetBlocks b.pmm g.first g.num) :
    Sound s₀ { pmm := t, held := b.held.erase g } := by
  obtain ⟨hpos, hnum, hwin⟩ := h.bound g hg
  have hfits : g.first + g.num ≤ 2 ^ 20 := hwin.trans ((window_le s₀).trans hmax)
  have hsum : g.num + heldBlocks (b.held.erase g) = heldBlocks b.held :=
    List.sum_map_erase Grant.num hg
  have htaken : ∀ k, taken t k = (taken b.pmm k && !decide (k ∈ g.blocks)) := by
    intro k
    rw [ht, taken_unsetBlocks _ (by omega)]
    simp only [Grant.mem_blocks]
  have hmem : ∀ g', g' ∈ b.held.erase g ↔ g' ≠ g ∧ g' ∈ b.held := fun g' => h.nodup.mem_erase_iff
  have hapart : ∀ g' ∈ b.held.erase g, ∀ k ∈ g'.blocks, k ∉ g.blocks := by
    intro g' hg' k hk hk'
    obtain ⟨hne, hin⟩ := (hmem g').mp hg'
    have hsymm : Std.Symm fun (x y : Grant) => Disjoint x.blocks y.blocks :=
      ⟨fun _ _ hxy => hxy.symm⟩
    exact Finset.disjoint_left.mp (h.disjoint.forall hin hg hne) hk hk'
  have hsame := sameSizes_unsetBlocks b.pmm (show g.first + g.num ≤ 2 ^ 32 by omega)
  refine ⟨?_, ?_, ?_, ?_, ?_, ?_, ?_, ?_⟩
  · have h0 : 0 ∉ g.blocks := fun hm => by
      have := (Grant.mem_blocks.mp hm).1
      omega
    rw [htaken, h.zero, decide_eq_false h0]
    rfl
  · rw [ht]
    exact ⟨hsame.1.trans h.sizes.1, hsame.2.trans h.sizes.2, hsame.3.trans h.sizes.3⟩
  · exact fun g' hg' => h.bound g' (List.mem_of_mem_erase hg')
  · exact h.disjoint.sublist List.erase_sublist
  · exact fun g' hg' => h.fresh g' (List.mem_of_mem_erase hg')
  · intro k
    rw [htaken, Bool.and_eq_true, h.marked k]
    simp only [Bool.not_eq_true', decide_eq_false_iff_not]
    constructor
    · rintro ⟨hk | ⟨g', hg', hk⟩, hnot⟩
      · exact Or.inl hk
      · exact Or.inr ⟨g', (hmem g').mpr ⟨fun he => hnot (he ▸ hk), hg'⟩, hk⟩
    · rintro (hk | ⟨g', hg', hk⟩)
      · refine ⟨Or.inl hk, fun hin => ?_⟩
        rw [h.fresh g hg k hin] at hk
        exact Bool.noConfusion hk
      · exact ⟨Or.inr ⟨g', List.mem_of_mem_erase hg', hk⟩, hapart g' hg' k hk⟩
  · have hu := usedBlocks_unsetBlocks b.pmm (show g.first + g.num ≤ 2 ^ 32 by omega)
    rw [← ht, h.used, ← hsum] at hu
    show wrap t.usedBlocks = wrap (s₀.usedBlocks + heldBlocks (b.held.erase g))
    unfold wrap at hu ⊢
    omega
  · have hcard := card_clearBlocks_unset hfits (fun k hk => h.taken_held hg hk) htaken
    show (clearBlocks t).card + heldBlocks (b.held.erase g) = _
    rw [← h.count, hcard, ← hsum, Nat.add_assoc]

theorem step {b' : Book} (h : Sound s₀ b) (hmax : s₀.maxBlocks ≤ 2 ^ 20) (hs : Step b b') :
    Sound s₀ b' := by
  have hm := h.maxBlocks_le hmax
  cases hs with
  | grant req hreq hrun haddr =>
    rcases Request.run_spec h.zero hm hreq hrun with ⟨hz, -⟩ | hg
    · exact absurd hz haddr
    · exact h.grant hmax hreq hg
  | refuse req hreq hrun =>
    rcases Request.run_spec h.zero hm hreq hrun with ⟨-, rfl⟩ | hg
    · exact h
    · have hpos := hg.pos
      exact absurd hpos (by simp [Grant.first])
  | @freePage g hg hnum =>
    obtain ⟨hpos, -, hwin⟩ := h.bound g hg
    have hw := window_le s₀
    have hone : pmmFreePage b.pmm g.addr = unsetBlocks b.pmm g.first g.num := by
      rw [hnum]
      show _ = mmapUnset b.pmm (wrap (g.first + 0))
      rw [Nat.add_zero, wrap_of_lt (by omega)]
      rfl
    exact h.release hmax hg hone
  | freePages hg => exact h.release hmax hg rfl

end Sound

theorem Reachable.sound {s₀ : State} {b : Book} (h0 : taken s₀ 0 = true)
    (hmax : s₀.maxBlocks ≤ 2 ^ 20) (h : Reachable s₀ b) : Sound s₀ b := by
  induction h with
  | refl => exact Sound.start h0
  | tail _ hs ih => exact ih.step hmax hs

/-- In every run, the ranges held are pairwise disjoint, avoid block 0 and
consist of taken blocks.  Whatever call is made next, a range handed out was
clear just before and is all the call changes, a refusal changes no bit, and a
large page starts on a 4 MiB boundary. -/
theorem held_blocks_owned {s₀ : State} {b : Book} (h0 : taken s₀ 0 = true)
    (hmax : s₀.maxBlocks ≤ 2 ^ 20) (hrun : Reachable s₀ b) :
    b.held.Pairwise (fun g g' => Disjoint g.blocks g'.blocks) ∧
      (∀ g ∈ b.held, 0 ∉ g.blocks ∧ ∀ k ∈ g.blocks, taken b.pmm k = true) ∧
      ∀ req : Request, req.Valid → ∀ addr t, req.run b.pmm = .ok (addr, t) →
        (addr = 0 → ∀ k, taken t k = taken b.pmm k) ∧
        (addr ≠ 0 →
          (∀ k ∈ (Grant.mk addr req.blocks).blocks, taken b.pmm k = false) ∧
          (∀ k, k ∉ (Grant.mk addr req.blocks).blocks → taken t k = taken b.pmm k) ∧
          (req = .largePage → addr % (4 * 1024 * 1024) = 0)) := by
  have hsound := hrun.sound h0 hmax
  have hm := hsound.maxBlocks_le hmax
  refine ⟨hsound.disjoint, fun g hg => ⟨fun hz => ?_, fun k hk => hsound.taken_held hg hk⟩, ?_⟩
  · have hpos := (hsound.bound g hg).1
    have hlow := (Grant.mem_blocks.mp hz).1
    omega
  · intro req hreq addr t hcall
    rcases Request.run_spec hsound.zero hm hreq hcall with ⟨hz, rfl⟩ | hg
    · exact ⟨fun _ _ => rfl, fun hne => absurd hz hne⟩
    · refine ⟨fun hz => ?_, fun hne => ⟨?_, ?_, ?_⟩⟩
      · have hpos := hg.pos
        rw [hz] at hpos
        exact absurd hpos (by simp [Grant.first])
      · intro k hk
        obtain ⟨hlo, hhi⟩ := Grant.mem_blocks.mp hk
        exact hg.run k hlo hhi
      · intro k hk
        have hfits := hg.fits
        have hw := window_le b.pmm
        rw [hg.marked, taken_setBlocks _ (by omega)]
        rw [Grant.mem_blocks] at hk
        rw [decide_eq_false hk, Bool.or_false]
      · rintro rfl
        have hres : pmmAllocAlignedLargePage b.pmm = (addr, t) := Except.ok.inj hcall
        rcases pmmAllocAlignedLargePage_spec hsound.zero hm with ⟨hz, -⟩ | ⟨-, hmul⟩
        · rw [hres] at hz
          exact absurd hz hne
        · rw [hres] at hmul
          exact hmul

/-- Thirty-two blocks of which only block 1 is free. -/
def oneFree : State where
  bitmap := fun _ => 0xFFFFFFFD#32
  memSize := 32 * 4096
  usedBlocks := 31
  maxBlocks := 32
  kernelEnd := 0
  strayed := false

theorem held_blocks_owned_oneFree :
    ∃ b, Reachable oneFree b ∧ b.held = [Grant.mk 4096 1] ∧
      ∀ g ∈ b.held, 0 ∉ g.blocks ∧ ∀ k ∈ g.blocks, taken b.pmm k = true := by
  have hstep : Step { pmm := oneFree, held := [] }
      { pmm := mmapSet oneFree 1, held := [Grant.mk 4096 1] } :=
    Step.grant .page (by decide) rfl (by decide)
  have hreach : Reachable oneFree { pmm := mmapSet oneFree 1, held := [Grant.mk 4096 1] } :=
    Relation.ReflTransGen.single hstep
  exact ⟨_, hreach, rfl, (held_blocks_owned (by decide) (by decide) hreach).2.1⟩

end Pmm
end Medusa
