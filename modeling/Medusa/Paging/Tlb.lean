import Medusa.Paging.Leaf

/-!
# The translation cache

The processor keeps entries it has used.  `paging_map_page` and
`paging_switch_directory` drop what they change; `paging_unmap_page` and
`paging_alloc_pages` do not, so a page they change must not be cached.  The tables
themselves are only read through pages of the window, whose entries never change
once they are present.
-/

namespace Medusa
namespace Paging

open Machine Kernel Pmm

structure Cpu where
  state : State
  /-- The entries kept, by page number. -/
  tlb : Nat → Option Leaf

namespace Cpu

/-- `paging_invalidate_page`. -/
def invalidatePage (c : Cpu) (virt : Nat) : Cpu :=
  { c with tlb := Function.update c.tlb (virt / 4096) none }

/-- An access to `v`.  The processor may keep the entry it walks to. -/
def access (c : Cpu) (v : Nat) (keep : Bool) : Cpu :=
  if keep && (c.tlb (wrap v / 4096)).isNone then
    { c with tlb := Function.update c.tlb (wrap v / 4096) (c.state.leaf (wrap v / 4096)) }
  else c

/-- The physical address that an access to `v` goes to. -/
def reaches (c : Cpu) (v : Nat) : Option Nat :=
  match c.tlb (v / 4096) with
  | some l => some (l.address v)
  | none => c.state.translate v

/-! ## The operations -/

def mapPages (c : Cpu) (virt phys : Nat) : Nat → Nat → Except Stop Cpu
  | 0, _ => .ok c
  | num + 1, flags => do
    let t ← pagingMapPage c.state virt phys flags
    mapPages ({ c with state := t }.invalidatePage virt) (wrap (virt + 0x1000))
      (wrap (phys + 0x1000)) num flags

def unmapPages (c : Cpu) (virt : Nat) : Nat → Except Stop Cpu
  | 0 => .ok c
  | num + 1 => do
    let t ← pagingUnmapPage c.state virt
    unmapPages { c with state := t } (wrap (virt + 0x1000)) num

def allocLoop (c : Cpu) (virt i : Nat) : Nat → Except Stop Cpu
  | 0 => .ok c
  | rounds + 1 => do
    let (page, t) ← pagingAllocPage c.state (wrap (virt + i * 0x1000))
    match page with
    | none => return { c with state := t }
    | some _ => allocLoop { c with state := t } virt (i + 1) rounds

def switchDirectory (c : Cpu) (dirPhys : Nat) : Cpu :=
  { state := { c.state with cr3 := dirPhys }, tlb := fun _ => none }

inductive Op where
  | mapPages (virt phys num flags : Nat)
  | unmapPages (virt num : Nat)
  | allocPages (virt size : Nat)
  | switchDirectory (dirPhys : Nat)
  | access (v : Nat) (keep : Bool)

def Op.run (c : Cpu) : Op → Except Stop Cpu
  | mapPages virt phys num flags => c.mapPages virt phys num flags
  | unmapPages virt num => c.unmapPages virt num
  | allocPages virt size => c.allocLoop virt 0 size
  | switchDirectory dirPhys => .ok (c.switchDirectory dirPhys)
  | access v keep => .ok (c.access v keep)

def runOps (c : Cpu) : List Op → Except Stop Cpu
  | [] => .ok c
  | op :: ops => do
    let c ← op.run c
    runOps c ops

/-! ## A cache only watches -/

theorem mapPages_state (c : Cpu) (virt phys num flags : Nat) :
    (c.mapPages virt phys num flags).map state =
      pagingMapPages c.state virt phys num flags := by
  induction num generalizing c virt phys with
  | zero => rfl
  | succ num ih =>
    rw [mapPages, pagingMapPages]
    cases pagingMapPage c.state virt phys flags with
    | error e => rfl
    | ok t => exact ih ({ c with state := t }.invalidatePage virt) _ _

theorem unmapPages_state (c : Cpu) (virt num : Nat) :
    (c.unmapPages virt num).map state = pagingUnmapPages c.state virt num := by
  induction num generalizing c virt with
  | zero => rfl
  | succ num ih =>
    rw [unmapPages, pagingUnmapPages]
    cases pagingUnmapPage c.state virt with
    | error e => rfl
    | ok t => exact ih { c with state := t } _

theorem allocLoop_state (c : Cpu) (virt i rounds : Nat) :
    (c.allocLoop virt i rounds).map state =
      (Paging.allocLoop c.state virt i rounds).map Prod.snd := by
  induction rounds generalizing c i with
  | zero => rfl
  | succ rounds ih =>
    rw [allocLoop, Paging.allocLoop]
    cases pagingAllocPage c.state (wrap (virt + i * 0x1000)) with
    | error e => rfl
    | ok r =>
      obtain ⟨page, t⟩ := r
      cases page with
      | none => rfl
      | some page => exact ih { c with state := t } (i + 1)

/-! ## Coherence -/

/-- Every entry kept is the current one of its page. -/
def Coherent (c : Cpu) : Prop :=
  ∀ q l, c.tlb q = some l → q < 1024 * 1024 ∧ c.state.leaf q = some l

/-- The page can change without notice: it is not cached, or the entry changed is not
the one in force. -/
def Unnoticed (c : Cpu) (virt : Nat) : Prop :=
  c.tlb (virt / 4096) = none ∨
    (present (c.state.pde (directoryIndex virt)) = true ∧
      large (c.state.pde (directoryIndex virt)) = true)

def UnmapFine (c : Cpu) (virt : Nat) : Nat → Prop
  | 0 => True
  | num + 1 =>
    virt < 0xFFC00000 ∧ Unnoticed c virt ∧
      ∀ t, pagingUnmapPage c.state virt = .ok t →
        UnmapFine { c with state := t } (wrap (virt + 0x1000)) num

def AllocFine (c : Cpu) (virt i : Nat) : Nat → Prop
  | 0 => True
  | rounds + 1 =>
    wrap (virt + i * 0x1000) < 0xFFC00000 ∧ Unnoticed c (wrap (virt + i * 0x1000)) ∧
      AllocSupplied c.state (wrap (virt + i * 0x1000)) ∧
      ∀ page t, pagingAllocPage c.state (wrap (virt + i * 0x1000)) = .ok (some page, t) →
        AllocFine { c with state := t } virt (i + 1) rounds

/-- Ranges stay below the window, new tables come from unused frames, a directory
that is switched to has a window; pages that are changed without being invalidated
are not cached. -/
def Op.Fine (c : Cpu) : Op → Prop
  | mapPages virt phys num flags =>
    virt + num * 0x1000 ≤ 0xFFC00000 ∧ SuppliedRange c.state virt phys num flags
  | unmapPages virt num => UnmapFine c virt num
  | allocPages virt size => AllocFine c virt 0 size
  | switchDirectory dirPhys => (c.switchDirectory dirPhys).state.Ready
  | access _ _ => True

def FineOps (c : Cpu) : List Op → Prop
  | [] => True
  | op :: ops => op.Fine c ∧ ∀ d, op.run c = .ok d → FineOps d ops

variable {c d : Cpu} {s t : State} {virt phys num flags : Nat}

/-- A change at one page keeps the cache coherent if the page is not cached, or is
in a 4 MiB page before and after. -/
theorem Coherent.edit (h : Coherent c) (hs : c.state.Ready)
    (hedits : Edits c.state t {virt / 4096} flags) (hlt : virt < 0xFFC00000)
    (hun : Unnoticed c virt) : Coherent { c with state := t } := by
  intro q l hl
  obtain ⟨hq, hleaf⟩ := h q l hl
  refine ⟨hq, ?_⟩
  by_cases hpage : q = virt / 4096
  · rcases hun with hnone | ⟨hp, hlarge⟩
    · rw [hpage] at hl
      exact nomatch hl.symm.trans hnone
    · have hi := directoryIndex_lt hlt
      rw [hpage, State.leaf, page_directoryIndex, hp, hlarge] at hleaf
      rw [hpage]
      show t.leaf (virt / 4096) = some l
      rw [State.leaf, page_directoryIndex, hedits.dirs _ (by omega) hp, hp, hlarge]
      exact hleaf
  · exact hedits.leaf_kept hs hq hpage hleaf

theorem Coherent.invalidate (h : ∀ q l, q ≠ virt / 4096 → c.tlb q = some l →
    q < 1024 * 1024 ∧ c.state.leaf q = some l) : Coherent (c.invalidatePage virt) := by
  intro q l hl
  change Function.update c.tlb (virt / 4096) none q = some l at hl
  by_cases hq : q = virt / 4096
  · rw [hq, Function.update_self] at hl
    simp at hl
  · rw [Function.update_of_ne hq] at hl
    exact h q l hq hl

theorem mapPages_coherent (h : Coherent c) (hs : c.state.Ready)
    (hlt : virt + num * 0x1000 ≤ 0xFFC00000)
    (hsup : SuppliedRange c.state virt phys num flags)
    (hrun : c.mapPages virt phys num flags = .ok d) : d.state.Ready ∧ Coherent d := by
  induction num generalizing c virt phys with
  | zero =>
    rw [← Except.ok.inj hrun]
    exact ⟨hs, h⟩
  | succ num ih =>
    obtain ⟨hfirst, hrest⟩ := hsup
    obtain ⟨t, hpage, hrun⟩ := bind_eq_ok hrun
    obtain ⟨-, hedits, -⟩ := mapPage_ok hs (by omega) hfirst hpage
    have hsup' := hrest t hpage
    rw [wrap_of_lt (show virt + 0x1000 < 2 ^ 32 by omega)] at hsup' hrun
    have hcoh : Coherent ({ c with state := t }.invalidatePage virt) := by
      refine Coherent.invalidate fun q l hne hl => ?_
      obtain ⟨hq, hleaf⟩ := h q l hl
      exact ⟨hq, hedits.leaf_kept hs hq hne hleaf⟩
    exact ih hcoh hedits.ready (by omega) hsup' hrun

theorem unmapPages_coherent (h : Coherent c) (hs : c.state.Ready) (hfine : UnmapFine c virt num)
    (hrun : c.unmapPages virt num = .ok d) : d.state.Ready ∧ Coherent d := by
  induction num generalizing c virt with
  | zero =>
    rw [← Except.ok.inj hrun]
    exact ⟨hs, h⟩
  | succ num ih =>
    obtain ⟨hlt, hun, hrest⟩ := hfine
    obtain ⟨t, hpage, hrun⟩ := bind_eq_ok hrun
    have hedits := unmapPage_ok hs hlt hpage 0
    exact ih (h.edit hs hedits hlt hun) hedits.ready (hrest t hpage) hrun

theorem allocLoop_coherent {i rounds : Nat} (h : Coherent c) (hs : c.state.Ready)
    (hfine : AllocFine c virt i rounds) (hrun : c.allocLoop virt i rounds = .ok d) :
    d.state.Ready ∧ Coherent d := by
  induction rounds generalizing c i with
  | zero =>
    rw [← Except.ok.inj hrun]
    exact ⟨hs, h⟩
  | succ rounds ih =>
    obtain ⟨hlt, hun, hsup, hrest⟩ := hfine
    obtain ⟨⟨page, t⟩, hpage, hrun⟩ := bind_eq_ok hrun
    cases page with
    | none =>
      obtain ⟨p, rfl, -⟩ := allocPage_none hpage
      rw [← Except.ok.inj hrun]
      exact ⟨hs, h⟩
    | some page =>
      have hround := allocPage_round hs hlt hsup hpage
      exact ih (h.edit hs hround.edits hlt hun) hround.edits.ready (hrest page t hpage) hrun

theorem access_coherent (h : Coherent c) (v : Nat) (keep : Bool) : Coherent (c.access v keep) := by
  rw [access]
  by_cases hkeep : (keep && (c.tlb (wrap v / 4096)).isNone) = true
  · rw [if_pos hkeep]
    intro q l hl
    change Function.update c.tlb (wrap v / 4096) (c.state.leaf (wrap v / 4096)) q = some l at hl
    by_cases hq : q = wrap v / 4096
    · have hlt := wrap_lt v
      rw [hq, Function.update_self] at hl
      rw [hq]
      exact ⟨by omega, hl⟩
    · rw [Function.update_of_ne hq] at hl
      exact h q l hl
  · rw [if_neg hkeep]
    exact h

theorem access_state (c : Cpu) (v : Nat) (keep : Bool) : (c.access v keep).state = c.state := by
  rw [access]
  split <;> rfl

/-! ## Runs -/

theorem run_coherent {op : Op} (h : Coherent c) (hs : c.state.Ready) (hfine : op.Fine c)
    (hrun : op.run c = .ok d) : d.state.Ready ∧ Coherent d := by
  cases op with
  | mapPages virt phys num flags => exact mapPages_coherent h hs hfine.1 hfine.2 hrun
  | unmapPages virt num => exact unmapPages_coherent h hs hfine hrun
  | allocPages virt size => exact allocLoop_coherent h hs hfine hrun
  | switchDirectory dirPhys =>
    rw [← Except.ok.inj hrun]
    exact ⟨hfine, fun q l hl => nomatch hl⟩
  | access v keep =>
    rw [← Except.ok.inj hrun, access_state]
    exact ⟨hs, access_coherent h v keep⟩

theorem runOps_keeps {ops : List Op} (h : Coherent c) (hs : c.state.Ready) (hfine : FineOps c ops)
    (hrun : runOps c ops = .ok d) : Coherent d := by
  induction ops generalizing c with
  | nil =>
    rw [← Except.ok.inj hrun]
    exact h
  | cons op ops ih =>
    obtain ⟨hfirst, hrest⟩ := hfine
    obtain ⟨c₁, hop, hrun⟩ := bind_eq_ok hrun
    obtain ⟨hs₁, h₁⟩ := run_coherent h hs hfirst hop
    exact ih h₁ hs₁ (hrest c₁ hop) hrun

/-- With a coherent cache an access goes where the tables say. -/
theorem Coherent.reaches_eq (h : Coherent c) (v : Nat) : c.reaches v = c.state.translate v := by
  rw [reaches]
  cases hl : c.tlb (v / 4096) with
  | none => rfl
  | some l => rw [State.translate_leaf, (h _ l hl).2, Option.map_some]

/-- **The cache stays coherent** in every run from a reachable state whose operations
meet their conditions, and every access goes where the tables say. -/
theorem runOps_coherent {ops : List Op} (hs : Reachable c.state) (hc : Coherent c)
    (hfine : FineOps c ops) (hrun : runOps c ops = .ok d) :
    Coherent d ∧ ∀ v, d.reaches v = d.state.translate v := by
  have hd := runOps_keeps hc (reachable_ready hs) hfine hrun
  exact ⟨hd, hd.reaches_eq⟩

/-! ## A page of the identity mapping -/

/-- The processor with nothing cached. -/
def blank (t : State) : Cpu := { state := t, tlb := fun _ => none }

theorem blank_coherent (t : State) : Coherent (blank t) := fun _ _ hl => nomatch hl

/-- After start-up page 512 is mapped to itself. -/
theorem identity_leaf (h : AfterInit t) (hid : Identity t) :
    t.leaf 512 = some (.page (rangeEntry 0 pageRw 512)) := by
  have hp : present (t.pde 0) = true := (hid 0 (by decide)).1
  refine leaf_eq_page_iff.mpr ⟨hp, h.first_small hp, ?_, (hid 512 (by decide)).2⟩
  exact (rangeEntry_spec rfl pageRw 512).2.2.2

/-- Unmapping page 512 leaves it without an entry. -/
theorem identity_unmap (h : AfterInit t) (hid : Identity t) :
    ∃ u, pagingUnmapPage t 0x200000 = .ok u ∧ u.leaf 512 = none := by
  have hp : present (t.pde (directoryIndex 0x200000)) = true := (hid 0 (by decide)).1
  have hrun := unmapPage_eq h.ready.recursive (show 0x200000 % 0x1000 = 0 by decide) (by decide)
  rw [hp, if_pos rfl] at hrun
  refine ⟨_, hrun, ?_⟩
  exact (unmapPage_round h.ready (by decide) hp hrun).leaf (by decide) hp (h.first_small hp)

/-- The processor after a read of page 512. -/
def warm (t : State) : Cpu :=
  { state := t, tlb := Function.update (fun _ => none) 512 (t.leaf 512) }

theorem warm_tlb (t : State) : (warm t).tlb 512 = t.leaf 512 := by
  simp only [warm, Function.update_self]

theorem warm_run (t : State) : (Op.access 0x200000 true).run (blank t) = .ok (warm t) := by
  have haddr : wrap 0x200000 / 4096 = 512 := by decide
  have hmiss : (true && ((blank t).tlb 512).isNone) = true := rfl
  rw [Op.run, access, haddr, if_pos hmiss]
  rfl

theorem reload_run (t : State) : (Op.switchDirectory t.cr3).run (warm t) = .ok (blank t) := rfl

theorem unmapOne_run (c : Cpu) {u : State} (hrun : pagingUnmapPage c.state 0x200000 = .ok u) :
    (Op.unmapPages 0x200000 1).run c = .ok { c with state := u } := by
  rw [Op.run, unmapPages, hrun]
  rfl

theorem runOps_cons {op : Op} (h : op.run c = .ok d) (ops : List Op) :
    runOps c (op :: ops) = runOps d ops := by
  rw [runOps, h, ok_bind]

/-- What is left in the cache when page 512 is read and then unmapped. -/
theorem identity_stale (h : AfterInit t) (hid : Identity t) :
    ∃ d, runOps (blank t) [.access 0x200000 true, .unmapPages 0x200000 1] = .ok d ∧
      d.tlb 512 = some (.page (rangeEntry 0 pageRw 512)) ∧ d.state.leaf 512 = none := by
  obtain ⟨u, hrun, hnone⟩ := identity_unmap h hid
  refine ⟨{ warm t with state := u }, ?_, ?_, hnone⟩
  · rw [runOps_cons (warm_run t), runOps_cons (unmapOne_run (warm t) hrun), runOps]
  · show (warm t).tlb 512 = _
    rw [warm_tlb, identity_leaf h hid]

/-- Reloading the directory in between drops what was read. -/
theorem identity_reload (h : AfterInit t) (hid : Identity t) :
    ∃ d, runOps (blank t) [.access 0x200000 true, .switchDirectory t.cr3,
        .unmapPages 0x200000 1] = .ok d ∧ d.state.leaf 512 = none ∧
      FineOps (blank t) [.access 0x200000 true, .switchDirectory t.cr3,
        .unmapPages 0x200000 1] := by
  obtain ⟨u, hrun, hnone⟩ := identity_unmap h hid
  refine ⟨{ blank t with state := u }, ?_, hnone, trivial, ?_⟩
  · rw [runOps_cons (warm_run t), runOps_cons (reload_run t),
      runOps_cons (unmapOne_run (blank t) hrun), runOps]
  · intro d hd
    obtain rfl := Except.ok.inj ((warm_run t).symm.trans hd)
    refine ⟨h.ready, fun d hd => ?_⟩
    obtain rfl := Except.ok.inj ((reload_run t).symm.trans hd)
    exact ⟨⟨by decide, Or.inl rfl, fun _ _ => trivial⟩, fun _ _ => trivial⟩

theorem blank_reachable (h : Reachable t) : Reachable (blank t).state := h

theorem runOps_coherent_reload :
    ∃ d, runOps (blank started) [.access 0x200000 true, .switchDirectory started.cr3,
        .unmapPages 0x200000 1] = .ok d ∧ Coherent d ∧ d.reaches 0x200000 = none := by
  obtain ⟨-, -, hafter, hid⟩ := started_pages
  obtain ⟨d, hrun, hnone, hfine⟩ := identity_reload hafter hid
  obtain ⟨hcoh, hreach⟩ := runOps_coherent (blank_reachable started_reachable)
    (blank_coherent started) hfine hrun
  refine ⟨d, hrun, hcoh, ?_⟩
  rw [hreach, State.translate_leaf, hnone]
  rfl

/-- A page that is read and then unmapped stays in the cache, and accesses still go
to its old frame. -/
theorem runOps_stale :
    Reachable started ∧
      ∃ d, runOps (blank started) [.access 0x200000 true, .unmapPages 0x200000 1] = .ok d ∧
        ¬ Coherent d ∧ d.state.translate 0x200000 = none ∧
        d.reaches 0x200000 = some 0x200000 := by
  obtain ⟨-, -, hafter, hid⟩ := started_pages
  obtain ⟨d, hrun, htlb, hnone⟩ := identity_stale hafter hid
  refine ⟨started_reachable, d, hrun, fun hcoh => ?_, ?_, ?_⟩
  · exact nomatch hnone.symm.trans (hcoh 512 _ htlb).2
  · rw [State.translate_leaf, hnone]
    rfl
  · rw [reaches, htlb]
    rfl

end Cpu

end Paging
end Medusa
