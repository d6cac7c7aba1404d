import Medusa.Paging.Unmap
import Medusa.Proc.World

/-!
# Frames and where they come from

What a journal must show: an allocator that had nothing is not taken to have given
frame 0, and a frame that is entered was free.  The allocator's answer is not looked
at before it is entered, so this holds when every call is served, and a run that
returns shows it in no other case.
-/

namespace Medusa
namespace Proc

open Machine Kernel Paging Pmm

/-- The address that a call gives, in the state `p` before it. -/
def answer (p : Pmm.State) (r : Pmm.Request) : Nat :=
  match r.run p with
  | .ok (addr, _) => addr
  | .error _ => 0

/-- The allocator finds the blocks that are asked for. -/
def Serves (p : Pmm.State) (r : Pmm.Request) : Prop := r.blocks = 0 ∨ answer p r ≠ 0

/-- `f` lies in a range of `num` blocks from `addr` on. -/
def Covers (addr num f : Nat) : Prop := addr ≤ f ∧ f < addr + 4096 * num

/-- The entry is not one into the range that starts at 0, if the call before it was
for that many blocks and found none. -/
def Distinct : Event → Event → Prop
  | .call p r, .entry v => ¬ Serves p r → present v = true → ¬ Covers 0 r.blocks (frame v)
  | _, _ => True

/-- A call gave the frame `f`, which was marked free. -/
def Backed (J : List Event) (f : Nat) : Prop :=
  ∃ p r, .call p r ∈ J ∧ answer p r ≠ 0 ∧ Covers (answer p r) r.blocks f ∧
    taken p (f / 4096) = false

/-- **Running out of memory is not mistaken for frame 0**: after a call that found
nothing no entry is made into the range at 0, and every frame that is entered was
free. -/
structure Sound (J : List Event) : Prop where
  distinct : J.Pairwise Distinct
  backed : ∀ v, .entry v ∈ J → present v = true → Backed J (frame v)

/-- Every call finds what it asks for. -/
def Served (J : List Event) : Prop := ∀ p r, .call p r ∈ J → Serves p r

/-- The blocks in a row that the allocator looks for. -/
def sought : Pmm.Request → Nat
  | .page => 1
  | .pages num => num
  | .largePage => 2 * 1024

/-- The allocator counts enough free blocks, and they lie in a row in the part of the
bitmap that it searches. -/
def HasRoom (p : Pmm.State) (r : Pmm.Request) : Prop :=
  sought r ≤ wsub p.maxBlocks p.usedBlocks ∧ ∃ g, g + sought r ≤ window p ∧ Run p g (sought r)

/-- What the allocator keeps to itself: block 0 is taken, and there are no more
blocks than addresses. -/
structure Safe (p : Pmm.State) : Prop where
  null : taken p 0 = true
  bound : p.maxBlocks ≤ 2 ^ 20

/-! ## The allocator -/

theorem answer_of_run {p q : Pmm.State} {r : Pmm.Request} {addr : Nat}
    (h : r.run p = .ok (addr, q)) : answer p r = addr := by
  rw [answer, h]

theorem wrap_page (n : Nat) : wrap (n * 4096) % 4096 = 0 ∧ wrap (n * 4096) < 2 ^ 32 := by
  refine ⟨?_, wrap_lt _⟩
  rw [wrap]
  omega

/-- An answer is the address of a block. -/
theorem answer_page (p : Pmm.State) (r : Pmm.Request) :
    answer p r % 4096 = 0 ∧ answer p r < 2 ^ 32 := by
  have hzero : 0 % 4096 = 0 ∧ 0 < 2 ^ 32 := by decide
  unfold answer
  cases r with
  | page =>
    cases hrun : Pmm.Request.page.run p with
    | error e => exact hzero
    | ok r => exact pmmAllocPage_aligned hrun
  | pages num =>
    change (pmmAllocPages p num).1 % 4096 = 0 ∧ (pmmAllocPages p num).1 < 2 ^ 32
    unfold pmmAllocPages
    split
    · exact hzero
    · dsimp only
      split
      · exact hzero
      · exact wrap_page _
  | largePage =>
    change (pmmAllocAlignedLargePage p).1 % 4096 = 0 ∧ (pmmAllocAlignedLargePage p).1 < 2 ^ 32
    unfold pmmAllocAlignedLargePage
    split
    · exact hzero
    · dsimp only
      split
      · exact hzero
      · exact wrap_page _

theorem Safe.request {p q : Pmm.State} {r : Pmm.Request} {addr : Nat} (h : Safe p)
    (hrun : r.run p = .ok (addr, q)) : Safe q := by
  have hmarks := Marks.request r hrun
  exact ⟨hmarks.taken 0 h.null, hmarks.maxBlocks ▸ h.bound⟩

/-- What an answer covers was free, and no sum in it is cut. -/
theorem Safe.answer_spec {p : Pmm.State} {r : Pmm.Request} (h : Safe p) (hr : 0 < r.blocks)
    (hne : answer p r ≠ 0) :
    answer p r + 4096 * r.blocks ≤ 2 ^ 32 ∧
      ∀ f, Covers (answer p r) r.blocks f → taken p (f / 4096) = false := by
  cases hrun : r.run p with
  | error e =>
    rw [answer, hrun] at hne
    exact absurd rfl hne
  | ok out =>
    obtain ⟨addr, q⟩ := out
    rw [answer_of_run hrun] at hne ⊢
    rcases Request.run_spec h.null h.bound hr hrun with ⟨hzero, -⟩ | hgrants
    · exact absurd hzero hne
    · have hbound := h.bound
      have hwindow := window_le p
      have hfits := hgrants.fits
      have haligned := hgrants.aligned
      dsimp only at hfits haligned
      refine ⟨by omega, fun f hf => hgrants.run (f / 4096) ?_ ?_⟩
      · have hlow := hf.1
        omega
      · have hhigh := hf.2
        dsimp only
        omega

theorem Safe.findFree_iff {p : Pmm.State} (hs : Safe p) :
    mmapFindFree p ≠ 0 ↔ ∃ g, g + 1 ≤ window p ∧ Run p g 1 := by
  have hbound := hs.bound
  rcases mmapFindFree_spec (s := p) (by omega) with ⟨hlt, hclear, -⟩ | ⟨hzero, hnone⟩
  · refine iff_of_true (fun hzero => ?_) ⟨mmapFindFree p, hlt, fun k hlo hhi => ?_⟩
    · rw [hzero, hs.null] at hclear
      simp at hclear
    · rw [show k = mmapFindFree p by omega]
      exact hclear
  · refine iff_of_false (not_not_intro hzero) ?_
    rintro ⟨g, hlt, hrun⟩
    have hfree := hrun g (Nat.le_refl g) (Nat.lt_succ_self g)
    rw [hnone g hlt] at hfree
    simp at hfree

theorem Safe.findFreeFrame_iff {p : Pmm.State} {n : Nat} (hs : Safe p) (hn : 0 < n) :
    mmapFindFreeFrame p n ≠ 0 ↔ ∃ g, g + n ≤ window p ∧ Run p g n := by
  have hbound := hs.bound
  rcases mmapFindFreeFrame_spec hs.null hn (by omega) with hframe | ⟨hzero, hnone⟩
  · exact iff_of_true (Nat.pos_iff_ne_zero.mp hframe.pos) ⟨_, hframe.fits, hframe.run⟩
  · exact iff_of_false (not_not_intro hzero) fun ⟨g, hfits, hrun⟩ => hnone g hfits hrun

/-- The three functions count, search and then answer. -/
theorem answer_ne_zero_iff {p : Pmm.State} {r : Pmm.Request} {f x : Nat}
    (hanswer : answer p r =
      if wsub p.maxBlocks p.usedBlocks < sought r then 0 else if f = 0 then 0 else x)
    (hf : f ≠ 0 ↔ ∃ g, g + sought r ≤ window p ∧ Run p g (sought r)) (hx : f ≠ 0 → x ≠ 0) :
    answer p r ≠ 0 ↔ HasRoom p r := by
  rw [HasRoom, hanswer, ← hf]
  by_cases hfew : wsub p.maxBlocks p.usedBlocks < sought r
  · rw [if_pos hfew]
    exact iff_of_false (not_not_intro rfl) fun h => absurd h.1 (by omega)
  · rw [if_neg hfew]
    by_cases hnone : f = 0
    · rw [if_pos hnone]
      exact iff_of_false (not_not_intro rfl) fun h => h.2 hnone
    · rw [if_neg hnone]
      exact iff_of_true (hx hnone) ⟨by omega, hnone⟩

/-- A call for blocks is answered exactly when the allocator has room for it. -/
theorem Safe.answer_iff {p : Pmm.State} {r : Pmm.Request} (hs : Safe p) (hr : 0 < r.blocks) :
    answer p r ≠ 0 ↔ HasRoom p r := by
  have hbound := hs.bound
  have hwindow := window_le p
  cases r with
  | page =>
    refine answer_ne_zero_iff (x := wrap (mmapFindFree p * 4096)) ?_ hs.findFree_iff fun hne => ?_
    · rw [answer, Pmm.Request.run, pmmAllocPage, sought]
      by_cases hfull : wsub p.maxBlocks p.usedBlocks ≤ 0
      · simp only [if_pos hfull, if_pos (Nat.lt_succ_of_le hfull)]
      · have hmany : ¬ wsub p.maxBlocks p.usedBlocks < 1 := fun h => hfull (Nat.le_of_lt_succ h)
        simp only [if_neg hfull, if_neg hmany]
        by_cases hnone : mmapFindFree p = 0
        · simp only [if_pos hnone]
        · simp only [if_neg hnone]
    · rcases mmapFindFree_spec (s := p) (by omega) with ⟨hlt, -⟩ | ⟨hzero, -⟩
      · rw [wrap_of_lt (by omega)]
        omega
      · exact absurd hzero hne
  | pages num =>
    refine answer_ne_zero_iff (x := wrap (mmapFindFreeFrame p num * 4096)) ?_
      (hs.findFreeFrame_iff hr) fun hne => ?_
    · show (pmmAllocPages p num).1 = _
      rw [pmmAllocPages, sought]
      split
      · rfl
      · dsimp only
        split
        · rfl
        · rfl
    · rcases mmapFindFreeFrame_spec (n := num) hs.null hr (by omega) with hframe | ⟨hzero, -⟩
      · have hpos := hframe.pos
        have hfits := hframe.fits
        change 0 < num at hr
        rw [wrap_of_lt (by omega)]
        omega
      · exact absurd hzero hne
  | largePage =>
    refine answer_ne_zero_iff
      (x := wrap (wrap ((mmapFindFreeFrame p (2 * 1024) / 1024 + 1) * 1024) * 4096)) ?_
      (hs.findFreeFrame_iff (by decide)) fun hne => ?_
    · show (pmmAllocAlignedLargePage p).1 = _
      rw [pmmAllocAlignedLargePage, sought]
      split
      · rfl
      · dsimp only
        split
        · rfl
        · rfl
    · rcases mmapFindFreeFrame_spec hs.null (n := 2 * 1024) (by decide) (by omega) with
        hframe | ⟨hzero, -⟩
      · have hfits := hframe.fits
        rw [wrap_of_lt (n := (_ / 1024 + 1) * 1024) (by omega), wrap_of_lt (by omega)]
        omega
      · exact absurd hzero hne

theorem Safe.serves_iff {p : Pmm.State} (hs : Safe p) (r : Pmm.Request) :
    Serves p r ↔ (0 < r.blocks → HasRoom p r) := by
  rw [Serves]
  by_cases hr : 0 < r.blocks
  · rw [hs.answer_iff hr]
    exact ⟨fun h _ => h.resolve_left (by omega), fun h => Or.inr (h hr)⟩
  · exact iff_of_true (Or.inl (by omega)) fun h => absurd h hr

/-! ## Accounts -/

/-- If every call is served, a frame that is entered is `owed` to the code or comes
from one of the calls. -/
def Account (J : List Event) (owed : Nat → Prop) : Prop :=
  Served J → ∀ v, .entry v ∈ J → present v = true → owed (frame v) ∨ Backed J (frame v)

/-- Frame 0 is entered. -/
def Nulls (J : List Event) : Prop := ∃ v, .entry v ∈ J ∧ present v = true ∧ frame v = 0

/-- After a call that was not served frame 0 is entered. -/
def Marked : List Event → Prop
  | [] => True
  | .call p r :: J => (¬ Serves p r → Nulls J) ∧ Marked J
  | .entry _ :: J => Marked J

variable {J J' : List Event} {owed owed' : Nat → Prop}

theorem Served.left (h : Served (J ++ J')) : Served J :=
  fun p r hr => h p r (List.mem_append_left J' hr)

theorem Served.right (h : Served (J ++ J')) : Served J' :=
  fun p r hr => h p r (List.mem_append_right J hr)

theorem Backed.mono {f : Nat} (h : Backed J f) (hJ : ∀ e ∈ J, e ∈ J') : Backed J' f := by
  obtain ⟨p, r, hr, hrest⟩ := h
  exact ⟨p, r, hJ _ hr, hrest⟩

theorem Account.nil : Account [] owed := fun _ _ hv => absurd hv List.not_mem_nil

theorem Account.append (h : Account J owed) (h' : Account J' owed) : Account (J ++ J') owed := by
  intro hserved v hv hp
  rcases List.mem_append.mp hv with hv | hv
  · exact (h hserved.left v hv hp).imp_right
      fun hb => hb.mono fun e he => List.mem_append_left J' he
  · exact (h' hserved.right v hv hp).imp_right
      fun hb => hb.mono fun e he => List.mem_append_right J he

theorem Nulls.append_right (h : Nulls J) (J' : List Event) : Nulls (J ++ J') := by
  obtain ⟨v, hv, hrest⟩ := h
  exact ⟨v, List.mem_append_left J' hv, hrest⟩

theorem Nulls.append_left (h : Nulls J') (J : List Event) : Nulls (J ++ J') := by
  obtain ⟨v, hv, hrest⟩ := h
  exact ⟨v, List.mem_append_right J hv, hrest⟩

theorem Marked.append (h : Marked J) (h' : Marked J') : Marked (J ++ J') := by
  induction J with
  | nil => exact h'
  | cons e J ih =>
    cases e with
    | call p r => exact ⟨fun hnot => (h.1 hnot).append_right J', ih h.2⟩
    | entry v => exact ih h

/-- A sound journal in which every failure shows has no failure. -/
theorem served_of_marked (hm : Marked J) (hd : J.Pairwise Distinct) : Served J := by
  induction J with
  | nil => exact fun p r hr => absurd hr List.not_mem_nil
  | cons e J ih =>
    obtain ⟨hfirst, hrest⟩ := List.pairwise_cons.mp hd
    cases e with
    | entry v =>
      intro p r hr
      rcases List.mem_cons.mp hr with heq | hr
      · simp at heq
      · exact ih hm hrest p r hr
    | call p r =>
      intro p' r' hr
      rcases List.mem_cons.mp hr with heq | hr
      · obtain ⟨rfl, rfl⟩ := Event.call.inj heq
        by_contra hnot
        obtain ⟨v, hv, hp, hzero⟩ := hm.1 hnot
        refine hfirst _ hv hnot hp ?_
        rw [hzero]
        have hpos : 0 < r'.blocks := Nat.pos_of_ne_zero fun hz => hnot (Or.inl hz)
        exact ⟨Nat.le_refl 0, by omega⟩
      · exact ih hm.2 hrest p' r' hr

theorem sound_of_served (h : Account J fun _ => False) (hserved : Served J) : Sound J where
  distinct := by
    refine List.pairwise_of_forall_mem_list fun e he e' _ => ?_
    cases e with
    | entry v => trivial
    | call p r =>
      cases e' with
      | call p' r' => trivial
      | entry v => exact fun hnot => absurd (hserved p r he) hnot
  backed := fun v hv hp => (h hserved v hv hp).resolve_left id

/-! ## The account of an action -/

/-- The journal grows by an account, and by a marked one if the action returns. -/
def Accounts (owed : Nat → Prop) (b : Bool) (w w' : World) : Prop :=
  ∃ J, w'.journal = w.journal ++ J ∧
    (Safe w.pmm → Safe w'.pmm ∧ Account J owed ∧ (b = true → Marked J))

theorem accounts_composes (owed : Nat → Prop) : Action.Composes (Accounts owed) where
  refl _ w := ⟨[], (List.append_nil _).symm, fun hs => ⟨hs, Account.nil, fun _ => trivial⟩⟩
  trans := by
    rintro b s t u ⟨J, hJ, h⟩ ⟨J', hJ', h'⟩
    refine ⟨J ++ J', ?_, fun hs => ?_⟩
    · rw [hJ', hJ, List.append_assoc]
    · obtain ⟨hs', haccount, hmarked⟩ := h hs
      obtain ⟨hs'', haccount', hmarked'⟩ := h' hs'
      exact ⟨hs'', haccount.append haccount', fun hb => (hmarked rfl).append (hmarked' hb)⟩

/-- Nothing is recorded and the allocator is left alone. -/
def Quiet (_ : Bool) (w w' : World) : Prop := w'.journal = w.journal ∧ w'.pmm = w.pmm

theorem quiet_composes : Action.Composes Quiet where
  refl _ _ := ⟨rfl, rfl⟩
  trans := fun h h' => ⟨h'.1.trans h.1, h'.2.trans h.2⟩

theorem Quiet.accounts {b : Bool} {w w' : World} (h : Quiet b w w') : Accounts owed b w w' :=
  ⟨[], by rw [h.1, List.append_nil], fun hs => ⟨h.2 ▸ hs, Account.nil, fun _ => trivial⟩⟩

/-- Frame 0 is entered whenever the action returns. -/
def Enters {α : Type} (x : Code α) : Prop :=
  ∀ w, (x.run w).1.isOk = true → ∃ J, (x.run w).2.journal = w.journal ++ J ∧ Nulls J

variable {α β : Type}

/-- A run of two parts that returns. -/
theorem bind_returns {x : Code α} {f : α → Code β} {w : World}
    (hok : ((x >>= f).run w).1.isOk = true) :
    ∃ a w', x.run w = (.ok a, w') ∧ (x >>= f).run w = (f a).run w' := by
  match hrun : x.run w with
  | (.ok a, w') => exact ⟨a, w', rfl, Action.bind_ok hrun⟩
  | (.error e, w') =>
    rw [Action.bind_error hrun] at hok
    cases hok

theorem Enters.bind_left {x : Code α} {f : α → Code β} (hx : Enters x)
    (hf : ∀ a, Action.Keeps (Accounts fun _ => True) (f a)) : Enters (x >>= f) := by
  intro w hok
  have hw := hx w
  obtain ⟨a, w', hrun, hrest⟩ := bind_returns hok
  rw [hrun] at hw
  rw [hrest]
  obtain ⟨J, hJ, hnull⟩ := hw rfl
  obtain ⟨J', hJ', -⟩ := hf a w'
  refine ⟨J ++ J', ?_, hnull.append_right J'⟩
  rw [hJ', hJ, List.append_assoc]

theorem Enters.bind_right {x : Code α} {f : α → Code β}
    (hx : Action.Keeps (Accounts fun _ => True) x) (hf : ∀ a, Enters (f a)) : Enters (x >>= f) := by
  intro w hok
  have hw := hx w
  obtain ⟨a, w', hrun, hrest⟩ := bind_returns hok
  rw [hrun] at hw
  rw [hrest] at hok ⊢
  obtain ⟨J, hJ, -⟩ := hw
  obtain ⟨J', hJ', hnull⟩ := hf a w' hok
  refine ⟨J ++ J', ?_, hnull.append_left J⟩
  rw [hJ', hJ, List.append_assoc]

/-! ## Accesses -/

theorem access_quiet {f : Paging.State → Except Stop Paging.State}
    (hf : ∀ s t, f s = .ok t → t.pmm = s.pmm) : Action.Keeps Quiet (access f) := by
  intro w
  unfold access
  dsimp only
  cases hrun : f w.paging with
  | ok s => exact ⟨rfl, hf _ _ hrun⟩
  | error e => exact ⟨rfl, rfl⟩

theorem load_quiet (virt : Nat) : Action.Keeps Quiet (load virt) := fun _ => ⟨rfl, rfl⟩

theorem store_quiet (virt v : Nat) : Action.Keeps Quiet (store virt v) :=
  access_quiet fun _ _ h => store_pmm h

theorem loadByte_quiet (virt : Nat) : Action.Keeps Quiet (loadByte virt) := by
  intro w
  unfold loadByte
  dsimp only
  cases Machine.translate w.paging.mem w.paging.cr3 virt with
  | some p => exact ⟨rfl, rfl⟩
  | none => exact ⟨rfl, rfl⟩

theorem storeByte_quiet (virt : Nat) (v : BitVec 8) : Action.Keeps Quiet (storeByte virt v) :=
  access_quiet fun _ _ h => storeByte_pmm h

theorem memset_quiet (buf : Nat) (value : BitVec 8) (size : Nat) :
    Action.Keeps Quiet (memset buf value size) :=
  quiet_composes.rounds (fun _ _ => storeByte_quiet _ _) 0 size ()

theorem memcpy_quiet (dst src size : Nat) : Action.Keeps Quiet (memcpy dst src size) :=
  quiet_composes.rounds (fun _ _ => quiet_composes.bind (loadByte_quiet _) fun _ =>
    storeByte_quiet _ _) 0 size ()

theorem switchDirectory_quiet (dirPhys : Nat) :
    Action.Keeps Quiet (pagingSwitchDirectory dirPhys) := fun _ => ⟨rfl, rfl⟩

theorem Quiet.keeps {x : Code α} (h : Action.Keeps Quiet x) : Action.Keeps (Accounts owed) x :=
  h.mono fun hq => hq.accounts

/-! ## Entries and calls -/

/-- The entry of a frame. -/
theorem entry_spec {f bits : Nat} (hf : f % 4096 = 0) (hlt : f < 2 ^ 32) (hbits : bits < 4096)
    (hp : present bits = true) : present (f ||| bits) = true ∧ frame (f ||| bits) = f :=
  ⟨(present_or hf hlt hbits).trans hp, (frame_or hf hlt hbits).2.1⟩

theorem setEntry_accounts (virt : Nat) {v : Nat} (howed : present v = true → owed (frame v)) :
    Action.Keeps (Accounts owed) (setEntry virt v) := by
  refine (accounts_composes owed).bind (Quiet.keeps (store_quiet virt v)) fun _ w => ?_
  refine ⟨[.entry v], rfl, fun hs => ⟨hs, ?_, fun _ => trivial⟩⟩
  intro _ v' hv' hp
  obtain rfl := Event.entry.inj (List.mem_singleton.mp hv')
  exact Or.inl (howed hp)

theorem setEntry_enters (virt : Nat) {v : Nat} (hp : present v = true) (hzero : frame v = 0) :
    Enters (setEntry virt v) := by
  refine Enters.bind_right (Quiet.keeps (store_quiet virt v)) fun _ w _ => ?_
  exact ⟨[.entry v], rfl, v, List.mem_singleton_self _, hp, hzero⟩

/-- A call that found nothing asked for blocks and got 0. -/
theorem answer_of_not_serves {p : Pmm.State} {r : Pmm.Request} (h : ¬ Serves p r) :
    0 < r.blocks ∧ answer p r = 0 := by
  obtain ⟨hne, hz⟩ := not_or.mp h
  exact ⟨Nat.pos_of_ne_zero hne, not_not.mp hz⟩

/-- A call that is served gives what it covers. -/
theorem Safe.gives {p : Pmm.State} {r : Pmm.Request} {f : Nat} (hs : Safe p) (hserves : Serves p r)
    (hcovers : answer p r + 4096 * r.blocks ≤ 2 ^ 32 → Covers (answer p r) r.blocks f) :
    answer p r ≠ 0 ∧ Covers (answer p r) r.blocks f ∧ taken p (f / 4096) = false := by
  have hlt := (answer_page p r).2
  -- a range of no blocks covers nothing
  have hpos : 0 < r.blocks := by
    by_contra hz
    obtain ⟨hlow, hhigh⟩ := hcovers (by omega)
    omega
  have hne := hserves.resolve_left (by omega)
  obtain ⟨hfits, hfree⟩ := hs.answer_spec hpos hne
  have hcov := hcovers hfits
  exact ⟨hne, hcov, hfree f hcov⟩

/-- The entries of the code after a call that are not its own are covered by the
call. -/
theorem Account.call {p : Pmm.State} {r : Pmm.Request} (hs : Safe p)
    (h : Account J fun f => owed f ∨
      (answer p r + 4096 * r.blocks ≤ 2 ^ 32 → Covers (answer p r) r.blocks f)) :
    Account (.call p r :: J) owed := by
  intro hserved v hv hp
  have hv' : .entry v ∈ J := by
    rcases List.mem_cons.mp hv with heq | hv
    · simp at heq
    · exact hv
  rcases h (fun p r hr => hserved p r (List.mem_cons_of_mem _ hr)) v hv' hp with
    (howed | hcovers) | hbacked
  · exact Or.inl howed
  · exact Or.inr ⟨p, r, List.mem_cons_self,
      hs.gives (hserved p r List.mem_cons_self) hcovers⟩
  · exact Or.inr (hbacked.mono fun e he => List.mem_cons_of_mem _ he)

/-- **The rule for a call**: the code that follows may enter what the call covers,
and it does enter frame 0 if the answer is 0. -/
theorem pmmAlloc_accounts {r : Pmm.Request} {k : Nat → Code α}
    (hk : ∀ addr, addr % 4096 = 0 → addr < 2 ^ 32 → Action.Keeps (Accounts fun f =>
      owed f ∨ (addr + 4096 * r.blocks ≤ 2 ^ 32 → Covers addr r.blocks f)) (k addr))
    (hzero : 0 < r.blocks → Enters (k 0)) :
    Action.Keeps (Accounts owed) (pmmAlloc r >>= k) := by
  intro w
  cases hrun : r.run w.pmm with
  | error e =>
    have hstop : (pmmAlloc r).run w = (.error e, w) := by
      unfold pmmAlloc
      dsimp only
      rw [hrun]
    rw [Action.bind_error hstop]
    exact (accounts_composes owed).refl false w
  | ok out =>
    obtain ⟨addr, p⟩ := out
    obtain rfl := answer_of_run hrun
    rw [Action.bind_ok (pmmAlloc_run hrun)]
    obtain ⟨haligned, hlt⟩ := answer_page w.pmm r
    obtain ⟨J, hJ, h⟩ := hk _ haligned hlt { w with
      paging := { w.paging with pmm := p }
      journal := w.journal ++ [.call w.pmm r] }
    refine ⟨.call w.pmm r :: J, ?_, fun hs => ?_⟩
    · rw [hJ]
      exact List.append_assoc ..
    · obtain ⟨hs', haccount, hmarked⟩ := h (hs.request hrun)
      refine ⟨hs', haccount.call hs, fun hok => ⟨fun hnot => ?_, hmarked hok⟩⟩
      obtain ⟨hpos, hz⟩ := answer_of_not_serves hnot
      rw [hz] at hok hJ
      obtain ⟨J', hJ', hnull⟩ := hzero hpos _ hok
      rw [hJ] at hJ'
      rw [List.append_cancel_left hJ']
      exact hnull

/-! ## `paging.c` -/

theorem createTable_accounts (dirIndex flags dir : Nat) :
    Action.Keeps (Accounts owed) (createTable dirIndex flags dir) := by
  obtain ⟨hbits, hpbits, -⟩ := tableBits flags
  have hassoc : ∀ f, f ||| 1 ||| pageRw ||| pageFlags flags =
      f ||| (1 ||| pageRw ||| pageFlags flags) := fun f => by
    rw [Nat.or_assoc, Nat.or_assoc, Nat.or_assoc]
  refine pmmAlloc_accounts (fun addr hmod hlt => ?_) fun _ => ?_
  · refine (accounts_composes _).bind (setEntry_accounts _ fun _ => Or.inr fun _ => ?_)
      fun _ => Quiet.keeps (memset_quiet _ _ _)
    rw [hassoc, (entry_spec hmod hlt hbits hpbits).2]
    exact ⟨Nat.le_refl _, Nat.lt_add_of_pos_right (by decide)⟩
  · obtain ⟨hp, hzero⟩ := entry_spec (f := 0) rfl (by decide) hbits hpbits
    refine Enters.bind_left (setEntry_enters _ ?_ ?_)
      fun _ => Quiet.keeps (memset_quiet _ _ _)
    · rw [hassoc]
      exact hp
    · rw [hassoc]
      exact hzero

theorem getPage_accounts (virt : Nat) (create : Bool) (flags : Nat) :
    Action.Keeps (Accounts owed) (pagingGetPage virt create flags) := by
  unfold pagingGetPage pagingGetPageSelectDir
  split
  · exact (accounts_composes owed).stop _
  · refine (accounts_composes owed).bind (Quiet.keeps (load_quiet _)) fun entry =>
      (accounts_composes owed).bind ?_ fun _ =>
        (accounts_composes owed).bind (Quiet.keeps (load_quiet _)) fun _ =>
          (accounts_composes owed).pure _
    unfold ensureTable
    split
    · exact createTable_accounts _ _ _
    · exact (accounts_composes owed).pure ()

theorem mapPage_accounts (virt : Nat) {phys flags : Nat}
    (howed : owed (frame (phys ||| 1 ||| pageFlags flags))) :
    Action.Keeps (Accounts owed) (pagingMapPage virt phys flags) := by
  refine (accounts_composes owed).bind (getPage_accounts _ _ _) fun page =>
    (accounts_composes owed).bind (Quiet.keeps (load_quiet _)) fun entry => ?_
  split
  · exact (accounts_composes owed).stop _
  · exact setEntry_accounts _ fun _ => howed

theorem mapPages_accounts {virt phys num flags : Nat} (hlt : phys < 2 ^ 32)
    (howed : ∀ k, k < num → owed (frame (rangeEntry phys flags k))) :
    Action.Keeps (Accounts owed) (pagingMapPages virt phys num flags) := by
  induction num generalizing virt phys with
  | zero => exact (accounts_composes owed).pure ()
  | succ num ih =>
    have hfirst := howed 0 (Nat.zero_lt_succ num)
    rw [rangeEntry, Nat.mul_zero, Nat.add_zero, wrap_of_lt hlt] at hfirst
    refine (accounts_composes owed).bind (mapPage_accounts virt hfirst) fun _ =>
      ih (wrap_lt _) fun k hk => ?_
    have hnext := howed (k + 1) (by omega)
    rw [rangeEntry, show phys + 4096 * (k + 1) = phys + 0x1000 + 4096 * k by omega,
      ← wrap_add_wrap] at hnext
    exact hnext

theorem mapPages_enters {virt num flags : Nat} (hnum : 0 < num) :
    Enters (pagingMapPages virt 0 num flags) := by
  obtain ⟨hbits, hpbits⟩ := pageBits flags
  obtain ⟨hp, hzero⟩ := entry_spec (f := 0) rfl (by decide) hbits hpbits
  rw [← Nat.or_assoc] at hp hzero
  cases num with
  | zero => omega
  | succ num =>
    refine Enters.bind_left ?_ fun _ => mapPages_accounts (wrap_lt _)
      fun _ _ => trivial
    refine Enters.bind_right (getPage_accounts _ _ _) fun page =>
      Enters.bind_right (Quiet.keeps (load_quiet _)) fun entry => ?_
    split
    · exact fun w hok => nomatch hok
    · exact setEntry_enters _ hp hzero

/-- A range that is asked for and mapped. -/
theorem allocMap_accounts (virt num flags : Nat) :
    Action.Keeps (Accounts owed) (allocMap virt num flags) := by
  refine pmmAlloc_accounts (fun addr hmod hlt => ?_) mapPages_enters
  refine mapPages_accounts hlt fun k hk => Or.inr fun hfits => ?_
  change addr + 4096 * num ≤ 2 ^ 32 at hfits
  change Covers addr num _
  rw [(rangeEntry_spec hmod flags k).2.1, wrap_of_lt (by omega)]
  exact ⟨by omega, by omega⟩

end Proc
end Medusa
