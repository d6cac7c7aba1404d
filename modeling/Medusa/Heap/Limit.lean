import Medusa.Heap.Session

/-!
# Requests near the arithmetic limit

Three sums and a product decide an allocation, all cut at 32 bits before the
comparison with the heap's limit.  A request is served as asked exactly when none
of them is cut, or when the cut end address is still above the limit.
-/

namespace Medusa
namespace Heap

open Machine Kernel Libc

/-- `p` is a block of at least `n` bytes, all of them in the heap. -/
def Served (h : State) (p n : Nat) : Prop :=
  n ≤ capacity h.mem (memGetBlock p) ∧ heapBegin ≤ p ∧ p + n ≤ heapLimit

/-- What a request of `n` bytes may end in. -/
def Outcome (n : Nat) : Except Stop (Nat × State) → Prop
  | .error e => e = .abort
  | .ok (p, h) => Served h p n

variable {h h' : State} {blocks : List Block} {align size p : Nat}

theorem Rep.served {b : Block} (hrep : Rep h blocks) (hb : b ∈ blocks) (hsize : size ≤ b.cap) :
    Served h b.data size := by
  have hp := hrep.laid.placed b hb
  have hlow := hp.low
  have hhigh := hp.high
  refine ⟨?_, ?_, ?_⟩
  · rw [hrep.capacity_data hb]
    exact hsize
  · rw [Block.data]
    omega
  · rw [Block.data]
    omega

theorem served_of_uncut (hrep : Rep h blocks) (ha : Aligns align) (huncut : Uncut h align size)
    (hrun : alignedAlloc h align size = .ok (p, h')) : Served h' p size := by
  obtain ⟨b, blocks', -, hall, rfl, hroom, hrep', -⟩ :=
    alignedAlloc_allocated hrep ha (Or.inr huncut) hrun
  exact hrep'.served hall.mem hroom

/-- Nobody gets a block larger than the heap, unless the request is so large that a sum is
cut. -/
theorem kmalloc_of_outgrown (hrep : Rep h blocks) (hlarge : heapSize < size)
    (hsize : size ≤ 2 * heapSize) : kmalloc h size = .error .abort := by
  rcases alignedAlloc_ends hrep aligns_four size with habort | ⟨p, h', hrun⟩
  · exact habort
  · obtain ⟨-, hlow, hhigh⟩ := served_of_uncut hrep aligns_four
      (uncut_of_le_double hrep aligns_four hsize) hrun
    have hlimit : heapLimit = heapBegin + heapSize := rfl
    omega

theorem refuses_of_error (hrep : Rep h blocks) (ha : Aligns align) {e : Stop}
    (hrun : alignedAlloc h align size = .error e) : Refuses h align size := by
  have hlt := hrep.laid.ready.appendAt_lt (ready_ne_nil blocks) ha
  have hfind := setup_find hrep size align
  cases hfit : firstFit (ready blocks) (alignTo size 8) align with
  | some b =>
    obtain ⟨h', hok, -⟩ := alignedAlloc_of_fit hrep hfit
    rw [hok] at hrun
    simp at hrun
  | none =>
    rw [hfit] at hfind
    rw [alignedAlloc_of_no_fit hrep ha.pos hlt hfit] at hrun
    refine ⟨hfind, ?_⟩
    rw [newData_eq (setup_rep hrep) (ready_ne_nil blocks) ha.pos hlt]
    by_cases hlim : heapLimit < wrap (appendAt (ready blocks) align + alignTo size 8)
    · exact hlim
    · rw [if_neg hlim] at hrun
      simp at hrun

/-- Past the comparison with the limit, a new block is handed out at the end of
the list, cut or not. -/
theorem alignedAlloc_of_pass (hrep : Rep h blocks) (ha : Aligns align)
    (hfit : firstFit (ready blocks) (alignTo size 8) align = none)
    (hpass : ¬ heapLimit < wrap (appendAt (ready blocks) align + alignTo size 8)) :
    ∃ h', alignedAlloc h align size = .ok (appendAt (ready blocks) align, h') := by
  have hlt := hrep.laid.ready.appendAt_lt (ready_ne_nil blocks) ha
  have hlo := (appendAt_spec (ready blocks) ha.pos ha.words).1
  have haddr : (memNewBlock (setup h) (alignTo size 8) align).1 + 8 =
      appendAt (ready blocks) align := by
    rw [memNewBlock_eq (setup_rep hrep) (ready_ne_nil blocks) ha.pos ha.words hlt]
    simp only [appended]
    omega
  rw [alignedAlloc_of_no_fit hrep ha.pos hlt hfit, if_neg hpass, haddr]
  exact ⟨_, rfl⟩

/-- A request that ends inside the heap was not cut. -/
theorem uncut_of_inside (hrep : Rep h blocks) (ha : Aligns align)
    (hrun : alignedAlloc h align size = .ok (p, h')) (hp : p + size ≤ heapLimit) :
    Uncut h align size := by
  have hlimit : heapLimit = 0xC2200000 := rfl
  have hsize : size + 7 < 2 ^ 32 := by omega
  have hlt := hrep.laid.ready.appendAt_lt (ready_ne_nil blocks) ha
  refine ⟨hsize, ?_⟩
  have hfind := setup_find hrep size align
  cases hfit : firstFit (ready blocks) (alignTo size 8) align with
  | some b =>
    left
    have hpos := ((setup_rep hrep).laid.placed b (firstFit_fits hfit).1).addr_pos
    rw [hfind, hfit, Option.elim_some]
    intro he
    have hzero := Except.ok.inj he
    omega
  | none =>
    right
    have hround := roundUp_lt size (show 0 < 8 by decide)
    by_cases hlim : heapLimit < wrap (appendAt (ready blocks) align + alignTo size 8)
    · rw [alignedAlloc_of_no_fit hrep ha.pos hlt hfit, if_pos hlim] at hrun
      simp at hrun
    · obtain ⟨h₁, hpass⟩ := alignedAlloc_of_pass hrep ha hfit hlim
      rw [hpass] at hrun
      have hat := (Prod.mk.inj (Except.ok.inj hrun)).1
      rw [newData_eq (setup_rep hrep) (ready_ne_nil blocks) ha.pos hlt,
        alignTo_eq (by decide) (by omega)]
      omega

theorem alignedAlloc_outcome (hrep : Rep h blocks) (ha : Aligns align) :
    Outcome size (alignedAlloc h align size) ↔ Refuses h align size ∨ Uncut h align size := by
  constructor
  · intro hout
    cases hrun : alignedAlloc h align size with
    | error e => exact Or.inl (refuses_of_error hrep ha hrun)
    | ok r =>
      obtain ⟨p, h'⟩ := r
      rw [hrun] at hout
      exact Or.inr (uncut_of_inside hrep ha hrun hout.2.2)
  · rintro (hrefuse | huncut)
    · rw [alignedAlloc_of_refuses hrefuse]
      rfl
    · rcases alignedAlloc_ends hrep ha size with habort | ⟨p, h', hrun⟩
      · rw [habort]
        rfl
      · rw [hrun]
        exact served_of_uncut hrep ha huncut hrun

theorem calloc_outcome (hrep : Rep h blocks) (nmemb size : Nat) :
    Outcome (nmemb * size) (calloc h nmemb size) ↔
      Refuses h 4 (wrap (nmemb * size)) ∨
        nmemb * size < 2 ^ 32 ∧ Uncut h 4 (nmemb * size) := by
  have hlimit : heapLimit = 0xC2200000 := rfl
  have herror : ∀ e, kmalloc h (wrap (nmemb * size)) = .error e →
      calloc h nmemb size = .error e := by
    intro e he
    rw [calloc, he]
    rfl
  have hok : ∀ p h₁, kmalloc h (wrap (nmemb * size)) = .ok (p, h₁) → calloc h nmemb size =
      .ok (p, { h₁ with mem := memset h₁.mem p 0#8 (wrap (nmemb * size)) }) := by
    intro p h₁ he
    rw [calloc, he]
    rfl
  constructor
  · intro hout
    cases hrun : kmalloc h (wrap (nmemb * size)) with
    | error e => exact Or.inl (refuses_of_error hrep aligns_four hrun)
    | ok r =>
      obtain ⟨p, h₁⟩ := r
      rw [hok p h₁ hrun] at hout
      have hinside : p + nmemb * size ≤ heapLimit := hout.2.2
      have hlt : nmemb * size < 2 ^ 32 := by omega
      rw [wrap_of_lt hlt] at hrun
      exact Or.inr ⟨hlt, uncut_of_inside hrep aligns_four hrun hinside⟩
  · rintro (hrefuse | ⟨hlt, huncut⟩)
    · rw [herror .abort (alignedAlloc_of_refuses hrefuse)]
      rfl
    · rw [wrap_of_lt hlt] at herror hok
      rcases alignedAlloc_ends hrep aligns_four (nmemb * size) with habort | ⟨p, h₁, hrun⟩
      · rw [herror .abort habort]
        rfl
      · rw [hok p h₁ hrun]
        obtain ⟨b, blocks', -, hall, rfl, hroom, hrep', -⟩ :=
          alignedAlloc_allocated hrep aligns_four (Or.inr huncut) hrun
        have hset : Rep { h₁ with mem := memset h₁.mem b.data 0#8 (nmemb * size) } blocks' :=
          hrep'.payload hall.mem fun x hx => memset_outside (by omega)
        exact hset.served hall.mem hroom

/-- **Large requests.**  In every state that sane calls lead to, a request is
refused or served as asked exactly when no sum on its way is cut or the cut end
address is above the limit. -/
theorem request_outcome_iff {s : Session} (hs : Reachable Sane s) :
    (∀ align size, Aligns align → size < 2 ^ 32 →
      (Outcome size (alignedAlloc s.heap align size) ↔
        Refuses s.heap align size ∨ Uncut s.heap align size)) ∧
    ∀ nmemb size, nmemb < 2 ^ 32 → size < 2 ^ 32 →
      (Outcome (nmemb * size) (calloc s.heap nmemb size) ↔
        Refuses s.heap 4 (wrap (nmemb * size)) ∨
          nmemb * size < 2 ^ 32 ∧ Uncut s.heap 4 (nmemb * size)) := by
  obtain ⟨blocks, hinv⟩ := reachable_invariant hs
  exact ⟨fun align size ha _ => alignedAlloc_outcome hinv.rep ha,
    fun nmemb size _ _ => calloc_outcome hinv.rep nmemb size⟩

theorem request_outcome_page :
    Outcome 24 (alignedAlloc (start fun _ => 0#8).heap 0x1000 24) ∧
      Outcome (3 * 8) (calloc (start fun _ => 0#8).heap 3 8) := by
  have hreach : Reachable Sane (start fun _ => 0#8) := ⟨_, .refl⟩
  have hrep := (invariant_start fun _ => 0#8).rep
  have hpage : Aligns 0x1000 := ⟨by decide, by decide, by decide⟩
  obtain ⟨halloc, hcalloc⟩ := request_outcome_iff hreach
  exact ⟨(halloc 0x1000 24 hpage (by decide)).mpr
      (Or.inr (uncut_of_modest hrep hpage (by decide))),
    (hcalloc 3 8 (by decide) (by decide)).mpr
      (Or.inr ⟨by decide, uncut_of_modest hrep aligns_four (by decide)⟩)⟩

/-- Asked for half the address space, the unset heap answers with the first
block behind its sentinel. -/
theorem kmalloc_half_space :
    Reachable Sane (start fun _ => 0#8) ∧
      ∃ h, kmalloc (start fun _ => 0#8).heap 0x80000000 = .ok (0xC0400014, h) ∧
        ¬ Served h 0xC0400014 0x80000000 := by
  have hrep := (invariant_start fun _ => 0#8).rep
  have hfit : firstFit (ready []) (alignTo 0x80000000 8) 4 = none := by decide
  have hlim : ¬ heapLimit < wrap (appendAt (ready []) 4 + alignTo 0x80000000 8) := by decide
  have haddr : appendAt (ready []) 4 = 0xC0400014 := by decide
  obtain ⟨h, hrun⟩ := alignedAlloc_of_pass hrep aligns_four hfit hlim
  rw [haddr] at hrun
  refine ⟨⟨_, .refl⟩, h, hrun, fun hserved => ?_⟩
  exact absurd hserved.2.2 (by decide)

end Heap
end Medusa
