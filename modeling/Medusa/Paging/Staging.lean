import Medusa.Paging.Data

/-!
# Pages for a while

A range that is allocated page by page and unmapped page by page later.  While it is
there, each of its pages has a frame of its own that was free before, and data that was
there before is as it was.  Afterwards no page of it is mapped, and the frames are free
again.
-/

namespace Medusa
namespace Paging

open Machine Kernel Pmm

variable {s t u : State} {virt v k n x : Nat} {f : Nat → Nat}

/-- The page at `v` was entered with the frame `g`. -/
structure Shows (t : State) (v g : Nat) : Prop where
  table : present (t.pde (directoryIndex v)) = true
  entry : t.pte (directoryIndex v) (tableIndex v) = allocEntry g

/-- The first `n` pages from `virt` on have the frames `f`, and nothing else has. -/
structure Frames (t : State) (virt n : Nat) (f : Nat → Nat) : Prop where
  ready : t.Ready
  shown : ∀ m, m < n → Shows t (virt + 4096 * m) (f m)
  small : ∀ m, m < n → large (t.pde (directoryIndex (virt + 4096 * m))) = false
  data : ∀ m, m < n → IsData t (f m)
  aligned : ∀ m, m < n → f m % 4096 = 0 ∧ f m < 2 ^ 32
  apart : ∀ m l, m < n → l < n → m ≠ l → f m ≠ f l

/-- The frames and the counter are enough for `n` pages and their tables. -/
def Enough (s : State) (virt n : Nat) : Prop :=
  demand s virt n ≤ available s.pmm ∧ demand s virt n ≤ pmmGetFreeBlocks s.pmm

/-- No page of the range lies in a 4 MiB page. -/
def Small (s : State) (virt n : Nat) : Prop :=
  ∀ m, m < n → present (s.pde (directoryIndex (virt + 4096 * m))) = true →
    large (s.pde (directoryIndex (virt + 4096 * m))) = false

/-- `t` is `s` after the first `k` pages of the range were allocated. -/
structure Staged (s : State) (virt k : Nat) (f : Nat → Nat) (t : State) : Prop where
  rounds : Rounds s virt k t
  kept : Kept t
  edits : Edits s t (Set.Ico (virt / 4096) (virt / 4096 + k)) (pageRw ||| pageUser)
  frames : Frames t virt k f
  clear : ∀ m, m < k → taken s.pmm (f m / 4096) = false
  data : ∀ x, IsData s x → t.mem x = s.mem x ∧ IsData t x

/-! ## One page -/

/-- A frame whose block is clear is no table. -/
theorem Held.unused (hheld : Held s) {g : Nat} (hne : g ≠ 0)
    (hclear : taken s.pmm (g / 4096) = false) : s.Unused g := by
  intro i hi hp heq
  change frame (s.pde i) = g at heq
  have htaken := hheld i hi hp (heq ▸ hne)
  rw [heq, hclear] at htaken
  simp at htaken

/-- With two pages to be had the table is made of an unused frame. -/
theorem allocSupplied_of_room (hs : Kept s)
    (hroom : present (s.pde (directoryIndex virt)) = false →
      2 ≤ available s.pmm ∧ 2 ≤ pmmGetFreeBlocks s.pmm) : AllocSupplied s virt := by
  intro page p halloc hpage habsent
  obtain ⟨havail, hfree⟩ := hroom habsent
  obtain ⟨page', p', halloc', hserved⟩ := pmmAllocPage_served hs.maxBlocks
    (show pmmGetFreeBlocks s.pmm ≠ 0 by omega) (show available s.pmm ≠ 0 by omega)
  obtain ⟨rfl, rfl⟩ := Prod.mk.inj (Except.ok.inj (halloc.symm.trans halloc'))
  have hone := hserved.available
  have hone' := hserved.free
  obtain ⟨g, q, htable, hserved'⟩ := pmmAllocPage_served
    (hserved.maxBlocks.trans_le hs.maxBlocks) (show pmmGetFreeBlocks p ≠ 0 by omega)
    (show available p ≠ 0 by omega)
  obtain ⟨-, hheld⟩ := held_congr (t := { s with pmm := p }) hs.sane hs.held rfl (fun _ _ => rfl)
    (.served hserved)
  exact ⟨g, q, htable, Held.unused (s := { s with pmm := p }) hheld hserved'.pos hserved'.clear⟩

/-- What a round with pages to be had does. -/
structure StageRound (s t : State) (virt g : Nat) : Prop where
  round : AllocRound s t virt g
  entered : Entered s t virt g
  served : ∃ p, Served s.pmm p g
  kept : Kept t
  data : ∀ x, IsData s x → t.mem x = s.mem x

theorem stage_round (hs : Kept s) (hv : virt % 0x1000 = 0) (hlt : virt < 0xFFC00000)
    (havail : available s.pmm ≠ 0) (hfree : pmmGetFreeBlocks s.pmm ≠ 0)
    (hroom : present (s.pde (directoryIndex virt)) = false →
      2 ≤ available s.pmm ∧ 2 ≤ pmmGetFreeBlocks s.pmm) :
    ∃ g t, pagingAllocPage s virt = .ok (some g, t) ∧ StageRound s t virt g := by
  obtain ⟨g, p, halloc, hserved⟩ := pmmAllocPage_served hs.maxBlocks hfree havail
  have hentered : ∃ t, pagingAllocPage s virt = .ok (some g, t) ∧ Entered s t virt g := by
    cases hp : present (s.pde (directoryIndex virt)) with
    | true =>
      obtain ⟨t, hrun, -, hround⟩ := allocPage_hit hs.sane hv (by omega) hp halloc hserved
      exact ⟨t, hrun, hround⟩
    | false =>
      obtain ⟨havail', hfree'⟩ := hroom hp
      have hone := hserved.available
      have hone' := hserved.free
      obtain ⟨g', q, htable, hserved'⟩ := pmmAllocPage_served
        (hserved.maxBlocks.trans_le hs.maxBlocks) (show pmmGetFreeBlocks p ≠ 0 by omega)
        (show available p ≠ 0 by omega)
      obtain ⟨t, hrun, -, hround⟩ := allocPage_miss hs.sane hv (by omega) hp halloc hserved htable
        (Or.inr hserved')
      exact ⟨t, hrun, hround⟩
  obtain ⟨t, hrun, hround⟩ := hentered
  have halloced := allocPage_round hs.ready hlt (allocSupplied_of_room hs hroom) hrun
  obtain ⟨hsane, hheld⟩ := allocPage_held hs.sane hs.held hlt hrun
  exact ⟨g, t, hrun, halloced, hround, ⟨p, hserved⟩, .of_sane halloced.edits.ready hsane hheld,
    fun x hx => allocPage_data hs.sane hs.held hlt hrun hx⟩

namespace StageRound

variable {g : Nat} (h : StageRound s t virt g)
include h

/-- Data is data still. -/
theorem isData (hx : IsData s x) : IsData t x := by
  obtain ⟨p, hserved⟩ := h.served
  refine ⟨hx.pos, h.entered.marks.taken _ hx.taken, fun i hi hp heq => ?_⟩
  change frame (t.pde i) = _ at heq
  have hpos := hx.pos
  rcases h.entered.pde_cases hserved hi with hsame | hzero | ⟨hclear, -⟩
  · change present (t.pde i) = true at hp
    rw [hsame] at hp heq
    exact hx.unused i hi hp heq
  · omega
  · rw [heq, Nat.mul_div_cancel _ (by decide), hx.taken] at hclear
    simp at hclear

/-- The new frame holds data. -/
theorem isData_frame (hs : Held s) (hlt : virt < 0xFFC00000) : IsData t g := by
  obtain ⟨p, hserved⟩ := h.served
  have hal := hserved.aligned
  have hne := hserved.pos
  refine ⟨by omega, h.entered.data, fun i hi hp heq => ?_⟩
  change frame (t.pde i) = _ at heq
  rw [show g / 4096 * 4096 = g by omega] at heq
  rcases h.entered.pde_cases hserved hi with hsame | hzero | ⟨-, -, hother⟩
  · change present (t.pde i) = true at hp
    rw [hsame] at hp heq
    exact hs.unused hne hserved.clear i hi hp heq
  · omega
  · refine hother ?_ heq
    have hi' := directoryIndex_lt hlt
    omega

end StageRound

/-! ## The pages so far -/

theorem Staged.zero (hs : Kept s) (virt : Nat) (f : Nat → Nat) : Staged s virt 0 f s where
  rounds := .zero hs.sane hs.held virt
  kept := hs
  edits := (Edits.refl hs.ready).mono (by simp)
  frames := ⟨hs.ready, by simp, by simp, by simp, by simp, by simp⟩
  clear := by simp
  data := fun _ hx => ⟨rfl, hx⟩

/-- The entries of the pages before are not touched. -/
theorem Shows.keep {R : Set Nat} {g : Nat} (h : Shows t v g)
    (hedits : Edits t u R (pageRw ||| pageUser)) (hlt : v < 0xFFC00000) (hout : v / 4096 ∉ R) :
    Shows u v g := by
  have hi := directoryIndex_lt hlt
  have hdir := hedits.dirs _ (by omega) h.table
  refine ⟨by rw [hdir]; exact h.table, ?_⟩
  rw [hedits.kept _ _ hi (tableIndex_lt v) (by rwa [index_page]) h.table]
  exact h.entry

/-- One more page. -/
theorem Staged.next {g : Nat} (h : Staged s virt k f t) (hv : virt % 0x1000 = 0)
    (hlt : virt + 4096 * k < 0xFFC00000) (hsmall : Small s virt (k + 1))
    (hround : StageRound t u (virt + 4096 * k) g) (hrounds : Rounds s virt (k + 1) u) :
    Staged s virt (k + 1) (Function.update f k g) u := by
  obtain ⟨p, hserved⟩ := hround.served
  have hpage : (virt + 4096 * k) / 4096 = virt / 4096 + k := by omega
  have hedits : Edits s u (Set.Ico (virt / 4096) (virt / 4096 + (k + 1))) (pageRw ||| pageUser) := by
    refine (h.edits.trans hround.round.edits).mono fun q hq => ?_
    rw [Set.mem_union, Set.mem_Ico, Set.mem_singleton_iff, hpage] at hq
    rw [Set.mem_Ico]
    omega
  have hbefore : ∀ {m : Nat}, m < k + 1 → m ≠ k → m < k ∧ Function.update f k g m = f m :=
    fun hm hmk => ⟨by omega, Function.update_of_ne hmk _ _⟩
  have hclear : taken s.pmm (g / 4096) = false := by
    rw [← Bool.not_eq_true]
    intro htaken
    exact absurd ((h.rounds.marks.taken _ htaken).symm.trans hserved.clear) Bool.noConfusion
  -- the frames before are taken, and the new one was not
  have hnew : ∀ m, m < k → f m ≠ g := by
    intro m hm heq
    have htaken := (h.frames.data m hm).taken
    rw [heq, hserved.clear] at htaken
    simp at htaken
  refine ⟨hrounds, hround.kept, hedits, ⟨hround.kept.ready, ?_, ?_, ?_, ?_, ?_⟩, ?_, ?_⟩
  · apply forall_update_of_lt (P := fun m g => Shows u (virt + 4096 * m) g)
      ⟨hround.round.table, hround.round.entry⟩
    intro m hm
    refine (h.frames.shown m hm).keep hround.round.edits (by omega) ?_
    rw [Set.mem_singleton_iff]
    omega
  · intro m hm
    have hi := directoryIndex_lt (show virt + 4096 * m < 0xFFC00000 by omega)
    cases hp : present (s.pde (directoryIndex (virt + 4096 * m))) with
    | true =>
      rw [hedits.dirs _ (by omega) hp]
      exact hsmall m hm hp
    | false =>
      refine hedits.created_small (Or.inl (by decide)) (by omega) hp ?_
      by_cases hmk : m = k
      · rw [hmk]
        exact hround.round.table
      · have htable := (h.frames.shown m (by omega)).table
        rw [hround.round.edits.dirs _ (by omega) htable]
        exact htable
  · apply forall_update_of_lt (P := fun _ g => IsData u g) (hround.isData_frame h.kept.held hlt)
    exact fun m hm => hround.isData (h.frames.data m hm)
  · apply forall_update_of_lt (P := fun _ g => g % 4096 = 0 ∧ g < 2 ^ 32)
      ⟨hserved.aligned, hserved.lt⟩
    exact h.frames.aligned
  · intro m l hm hl hne
    by_cases hmk : m = k
    · obtain ⟨hl', hf⟩ := hbefore hl (by omega)
      rw [hmk, Function.update_self, hf]
      exact (hnew l hl').symm
    · obtain ⟨hm', hf⟩ := hbefore hm hmk
      rw [hf]
      by_cases hlk : l = k
      · rw [hlk, Function.update_self]
        exact hnew m hm'
      · obtain ⟨hl', hf'⟩ := hbefore hl hlk
        rw [hf']
        exact h.frames.apart m l hm' hl' hne
  · apply forall_update_of_lt (P := fun _ g => taken s.pmm (g / 4096) = false) hclear
    exact h.clear
  · intro x hx
    obtain ⟨hmem, hdata⟩ := h.data x hx
    exact ⟨(hround.data x hdata).trans hmem, hround.isData hdata⟩

/-- **Allocating a page of the range.**  With enough frames for all of it, each call
gives its page. -/
theorem Staged.allocPages (hs : Kept s) (h : Staged s virt k f t) (hv : virt % 0x1000 = 0)
    (hlt : virt + 4096 * n ≤ 0xFFC00000) (hsmall : Small s virt n) (henough : Enough s virt n)
    (hk : k < n) :
    ∃ g u, pagingAllocPages t (virt + 4096 * k) 1 = .ok (virt + 4096 * k, u) ∧
      Staged s virt (k + 1) (Function.update f k g) u := by
  obtain ⟨havail, hfree⟩ := henough
  have hgrow := demand_lt_succ s virt k
  have hend := demand_mono s virt (show k + 1 ≤ n from hk)
  have hsupply := h.rounds.supply
  have hcounter := h.rounds.counter
  obtain ⟨g, u, hrun, hround⟩ := stage_round h.kept (show (virt + 4096 * k) % 0x1000 = 0 by omega)
    (by omega) (by omega) (by omega) fun habsent => by
      have hneeds := (h.rounds.absent_iff hs.sane (by omega)).mp habsent
      have hmiss := demand_miss hneeds
      omega
  obtain ⟨g', u', hrun', hrounds⟩ := h.rounds.round_some hs.sane hv (by omega) (by omega)
    (Or.inr (by omega))
  rw [round_address (by omega), hrun] at hrun'
  obtain ⟨-, rfl⟩ := Prod.mk.inj (Except.ok.inj hrun')
  refine ⟨g, u, ?_, h.next hv (by omega) (fun m hm => hsmall m (by omega)) hround hrounds⟩
  rw [pagingAllocPages, allocLoop, Nat.zero_mul, Nat.add_zero, wrap_of_lt (by omega), hrun]
  rfl

/-! ## While the range is there -/

/-- The entry of an address is that of its page. -/
theorem indices_of_page (hv : virt % 0x1000 = 0) (hlo : virt ≤ v) :
    directoryIndex (virt + 4096 * ((v - virt) / 4096)) = directoryIndex v ∧
      tableIndex (virt + 4096 * ((v - virt) / 4096)) = tableIndex v := by
  have hpage : (virt + 4096 * ((v - virt) / 4096)) / 4096 = v / 4096 := by omega
  rw [directoryIndex_eq, directoryIndex_eq, tableIndex_eq, tableIndex_eq]
  constructor
  · omega
  · omega

namespace Frames

theorem congr (h : Frames t virt n f) (hlt : virt + 4096 * n ≤ 0xFFC00000)
    (hsame : SameTables t u) : Frames u virt n f := by
  have hindex : ∀ m, m < n → directoryIndex (virt + 4096 * m) < 1024 := fun m hm =>
    directoryIndex_lt' (by omega)
  refine ⟨hsame.ready h.ready, fun m hm => ⟨?_, ?_⟩, fun m hm => ?_,
    fun m hm => hsame.isData_iff.mpr (h.data m hm), h.aligned, h.apart⟩
  · rw [hsame.pde _ (hindex m hm)]
    exact (h.shown m hm).table
  · rw [hsame.pte _ _ (hindex m hm) (tableIndex_lt _) (h.shown m hm).table]
    exact (h.shown m hm).entry
  · rw [hsame.pde _ (hindex m hm)]
    exact h.small m hm

/-- Where a byte of the range lies. -/
theorem translate (h : Frames t virt n f) (hv : virt % 0x1000 = 0) (hlo : virt ≤ v)
    (hhi : v < virt + 4096 * n) :
    t.translate v = some (f ((v - virt) / 4096) + v % 4096) := by
  have hm : (v - virt) / 4096 < n := by omega
  have hshown := h.shown _ hm
  have hsmall := h.small _ hm
  obtain ⟨hal, hlt⟩ := h.aligned _ hm
  obtain ⟨-, hframe, hpresent⟩ := allocEntry_spec hal hlt
  obtain ⟨hdir, htab⟩ := indices_of_page hv hlo
  have htable := hshown.table
  have hentry := hshown.entry
  rw [hdir] at htable hsmall
  rw [hdir, htab] at hentry
  rw [State.translate_eq, htable, hsmall, hentry, hpresent, hframe]
  rfl

/-- A byte of a frame of data is data. -/
theorem isData_byte {g o : Nat} (h : IsData t g) (hal : g % 4096 = 0) (ho : o < 4096) :
    IsData t (g + o) := by
  have hblock : (g + o) / 4096 = g / 4096 := by omega
  refine ⟨?_, ?_, ?_⟩
  · rw [hblock]
    exact h.pos
  · rw [hblock]
    exact h.taken
  · rw [hblock]
    exact h.unused

/-- The range is data, each address a byte of its own. -/
theorem ownData (h : Frames t virt n f) (hv : virt % 0x1000 = 0)
    (hlt : virt + 4096 * n ≤ 0xFFC00000) : OwnData t (Set.Ico virt (virt + 4096 * n)) where
  mapped := by
    intro v hvI
    rw [Set.mem_Ico] at hvI
    have hm : (v - virt) / 4096 < n := by omega
    exact ⟨by omega, _, h.translate hv hvI.1 hvI.2,
      isData_byte (h.data _ hm) (h.aligned _ hm).1 (Nat.mod_lt v (by decide))⟩
  apart := by
    intro v hvI w hwI hne heq
    rw [Set.mem_Ico] at hvI hwI
    have hm : (v - virt) / 4096 < n := by omega
    have hm' : (w - virt) / 4096 < n := by omega
    have hal := (h.aligned _ hm).1
    have hal' := (h.aligned _ hm').1
    rw [h.translate hv hvI.1 hvI.2, h.translate hv hwI.1 hwI.2] at heq
    have hsum := Option.some.inj heq
    by_cases hpage : (v - virt) / 4096 = (w - virt) / 4096
    · omega
    · have happart := h.apart _ _ hm hm' hpage
      omega

end Frames

/-- Outside the range translation is what it was. -/
theorem Staged.translate_outside (h : Staged s virt k f t) (hv : virt % 0x1000 = 0)
    (hlt : v < 0xFFC00000) (hout : v < virt ∨ virt + 4096 * k ≤ v) :
    t.translate v = s.translate v := by
  refine h.edits.translate_outside (Or.inl (by decide)) hlt ?_
  rw [Set.mem_Ico]
  omega

/-- Data that was mapped is seen as before, and the range is added to it. -/
theorem Staged.ownData {R : Set Nat} (h : Staged s virt n f t) (hv : virt % 0x1000 = 0)
    (hlt : virt + 4096 * n ≤ 0xFFC00000) (hown : OwnData s R)
    (hR : ∀ v ∈ R, v < 0xFFC00000 ∧ (v < virt ∨ virt + 4096 * n ≤ v)) :
    OwnData t (R ∪ Set.Ico virt (virt + 4096 * n)) ∧ ∀ v ∈ R, view t v = view s v := by
  have hsame : ∀ v ∈ R, t.translate v = s.translate v := fun v hvR =>
    h.translate_outside hv (hR v hvR).1 (hR v hvR).2
  have hold : ∀ v ∈ R, ∃ p, s.translate v = some p ∧ IsData s p :=
    fun v hvR => (hown.mapped v hvR).2
  constructor
  · refine OwnData.union ⟨fun v hvR => ?_, fun v hvR w hwR hne => ?_⟩ (h.frames.ownData hv hlt)
      fun v hvR w hwI heq => ?_
    · obtain ⟨p, htrans, hp⟩ := hold v hvR
      exact ⟨(hown.mapped v hvR).1, p, (hsame v hvR).trans htrans, (h.data p hp).2⟩
    · rw [hsame v hvR, hsame w hwR]
      exact hown.apart v hvR w hwR hne
    · -- old data was taken when the frames were free
      rw [Set.mem_Ico] at hwI
      have hm : (w - virt) / 4096 < n := by omega
      obtain ⟨p, htrans, hp⟩ := hold v hvR
      have hclear := h.clear _ hm
      have hal := (h.frames.aligned _ hm).1
      have htaken := hp.taken
      rw [hsame v hvR, htrans, h.frames.translate hv hwI.1 hwI.2] at heq
      rw [Option.some.inj heq, show (f ((w - virt) / 4096) + w % 4096) / 4096 =
        f ((w - virt) / 4096) / 4096 by omega, hclear] at htaken
      simp at htaken
  · intro v hvR
    obtain ⟨p, htrans, hp⟩ := hold v hvR
    rw [view_eq ((hsame v hvR).trans htrans), view_eq htrans, (h.data p hp).1]

/-! ## Taking the range away -/

/-- `t` is `u` after the first `k` pages of the range were unmapped. -/
structure Unstaged (u : State) (virt k : Nat) (f : Nat → Nat) (t : State) : Prop where
  edits : Edits u t (Set.Ico (virt / 4096) (virt / 4096 + k)) (pageRw ||| pageUser)
  gone : ∀ m, m < k → t.pte (directoryIndex (virt + 4096 * m)) (tableIndex (virt + 4096 * m)) = 0
  freed : ∀ m, m < k → taken t.pmm (f m / 4096) = false

theorem Unstaged.zero (hu : u.Ready) (virt : Nat) (f : Nat → Nat) : Unstaged u virt 0 f u :=
  ⟨(Edits.refl hu).mono (by simp), by simp, by simp⟩

/-- **Unmapping a page of the range** clears its entry and frees its frame. -/
theorem Unstaged.unmapPage (hu : Frames u virt n f) (h : Unstaged u virt k f t)
    (hv : virt % 0x1000 = 0) (hlt : virt + 4096 * n ≤ 0xFFC00000) (hk : k < n) :
    ∃ t', pagingUnmapPage t (virt + 4096 * k) = .ok t' ∧ Unstaged u virt (k + 1) f t' := by
  have hpage : (virt + 4096 * k) / 4096 = virt / 4096 + k := by omega
  have hlt' : virt + 4096 * k < 0xFFC00000 := by omega
  have hshown : Shows t (virt + 4096 * k) (f k) := by
    refine (hu.shown k hk).keep h.edits hlt' ?_
    rw [hpage, Set.mem_Ico]
    omega
  obtain ⟨hal, hsmall⟩ := hu.aligned k hk
  obtain ⟨-, hframe, -⟩ := allocEntry_spec hal hsmall
  have hrun : ∃ t', pagingUnmapPage t (virt + 4096 * k) = .ok t' := by
    have hi := directoryIndex_lt hlt'
    rw [unmapPage_eq h.edits.ready.recursive (by omega) (by omega), hshown.table, if_pos rfl]
    exact ⟨_, rfl⟩
  obtain ⟨t', hrun⟩ := hrun
  have hround := unmapPage_round h.edits.ready hlt' hshown.table hrun
  refine ⟨t', hrun, ?_, ?_, ?_⟩
  · refine (h.edits.trans hround.edits).mono fun q hq => ?_
    rw [Set.mem_union, Set.mem_Ico, Set.mem_singleton_iff, hpage] at hq
    rw [Set.mem_Ico]
    omega
  · intro m hm
    by_cases hmk : m = k
    · rw [hmk]
      exact hround.entry
    · have htable : present (t.pde (directoryIndex (virt + 4096 * m))) = true := by
        have hp := (hu.shown m (by omega)).table
        rw [h.edits.dirs _ (directoryIndex_lt' (by omega)) hp]
        exact hp
      rw [hround.edits.kept _ _ (directoryIndex_lt (by omega)) (tableIndex_lt _)
        (by rw [index_page, Set.mem_singleton_iff]; omega) htable]
      exact h.gone m (by omega)
  · intro m hm
    have hfreed : ∀ b, taken t'.pmm b = (taken t.pmm b && !decide (b = f k / 4096)) := by
      intro b
      rw [hround.freed, hshown.entry, hframe, pmmFreePage]
      exact taken_mmapUnset _ _ b
    rw [hfreed]
    by_cases hmk : m = k
    · rw [hmk]
      simp
    · rw [h.freed m (by omega)]
      rfl

/-- Afterwards no address of the range is mapped. -/
theorem Unstaged.translate (hu : Frames u virt n f) (h : Unstaged u virt n f t)
    (hv : virt % 0x1000 = 0) (hlt : virt + 4096 * n ≤ 0xFFC00000) (hlo : virt ≤ v)
    (hhi : v < virt + 4096 * n) : t.translate v = none := by
  have hm : (v - virt) / 4096 < n := by omega
  obtain ⟨hdir, htab⟩ := indices_of_page hv hlo
  have htable := (hu.shown _ hm).table
  have hsmall := hu.small _ hm
  have hgone := h.gone _ hm
  rw [hdir] at htable hsmall
  rw [hdir, htab] at hgone
  rw [State.translate_eq, h.edits.dirs _ (directoryIndex_lt' (by omega)) htable, htable, hsmall,
    hgone]
  rfl

end Paging
end Medusa
