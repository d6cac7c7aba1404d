import Medusa.Machine.Action
import Medusa.Paging.Map

/-!
# The kernel with a journal

The state that the allocators and the process code share, with every memory access
going through the page tables.  The journal lists the calls of the physical
allocator and the entries that the code makes, in order.  It changes nothing: the
functions of `paging.c` written over this state do what those of `Paging` do.
-/

namespace Medusa
namespace Proc

open Machine Kernel Paging

inductive Event where
  /-- A call of the physical allocator, with its state before the call. -/
  | call (before : Pmm.State) (request : Pmm.Request)
  /-- A word that the code stores into a directory or a table. -/
  | entry (value : Nat)

/-- Memory, the static variables of `kmalloc.c` and that of `proc_run_code`. -/
structure World where
  paging : Paging.State
  bottom : Nat
  top : Nat
  usedMemory : Nat
  tempPage : Nat
  journal : List Event

abbrev World.pmm (w : World) : Pmm.State := w.paging.pmm

abbrev Code := Action Stop World

/-! ## Memory accesses -/

/-- An access that `Paging` describes and that gives no value. -/
def access (f : Paging.State → Except Stop Paging.State) : Code Unit := ⟨fun w =>
  match f w.paging with
  | .ok s => (.ok (), { w with paging := s })
  | .error e => (.error e, w)⟩

def load (virt : Nat) : Code Nat := ⟨fun w => (Paging.load w.paging virt, w)⟩

def store (virt v : Nat) : Code Unit := access fun s => Paging.store s virt v

def loadByte (virt : Nat) : Code (BitVec 8) := ⟨fun w =>
  match Machine.translate w.paging.mem w.paging.cr3 virt with
  | some p => (.ok (w.paging.mem p), w)
  | none => (.error .fault, w)⟩

def storeByte (virt : Nat) (v : BitVec 8) : Code Unit :=
  access fun s => Paging.storeByte s virt v

def memset (buf : Nat) (value : BitVec 8) (size : Nat) : Code Unit :=
  Action.rounds (fun i _ => storeByte (wrap (buf + i)) value) 0 size ()

def memcpy (dst src size : Nat) : Code Unit :=
  Action.rounds (fun i _ => do
    let v ← loadByte (wrap (src + i))
    storeByte (wrap (dst + i)) v) 0 size ()

/-! ## What the journal sees -/

def record (e : Event) : Code Unit :=
  Action.modify fun w => { w with journal := w.journal ++ [e] }

/-- A store into a directory or a table. -/
def setEntry (virt v : Nat) : Code Unit := do
  store virt v
  record (.entry v)

/-- `pmm_alloc_page` and `pmm_alloc_pages`. -/
def pmmAlloc (r : Pmm.Request) : Code Nat := ⟨fun w =>
  match r.run w.pmm with
  | .ok (addr, p) =>
    (.ok addr, { w with
      paging := { w.paging with pmm := p }
      journal := w.journal ++ [.call w.pmm r] })
  | .error e => (.error e, w)⟩

/-! ## `paging.c` -/

def createTable (dirIndex flags dir : Nat) : Code Unit := do
  let newTable ← pmmAlloc .page
  setEntry (dir + 4 * dirIndex) (newTable ||| 1 ||| pageRw ||| pageFlags flags)
  memset (tableAddr dirIndex) 0#8 4096

/-- The first `if` of `paging_get_page_select_dir`. -/
def ensureTable (entry : Nat) (create : Bool) (dirIndex flags dir : Nat) : Code Unit :=
  if !present entry && create then createTable dirIndex flags dir else pure ()

def pagingGetPageSelectDir (virt : Nat) (create : Bool) (flags dir : Nat) : Code Nat :=
  if virt % 0x1000 ≠ 0 then Action.stop .abort
  else do
    let entry ← load (dir + 4 * directoryIndex virt)
    ensureTable entry create (directoryIndex virt) flags dir
    let entry ← load (dir + 4 * directoryIndex virt)
    return (if present entry then tableAddr (directoryIndex virt) + 4 * tableIndex virt else 0)

def pagingGetPage (virt : Nat) (create : Bool) (flags : Nat) : Code Nat :=
  pagingGetPageSelectDir virt create flags 0xFFFFF000

def pagingMapPage (virt phys flags : Nat) : Code Unit := do
  let page ← pagingGetPage virt true flags
  let entry ← load page
  if present entry then Action.stop .abort else setEntry page (phys ||| 1 ||| pageFlags flags)

def pagingMapPages (virt phys : Nat) : Nat → Nat → Code Unit
  | 0, _ => pure ()
  | num + 1, flags => do
    pagingMapPage virt phys flags
    pagingMapPages (wrap (virt + 0x1000)) (wrap (phys + 0x1000)) num flags

/-- Contiguous frames, mapped from `virt` on: the two calls stand together wherever the
kernel does this. -/
def allocMap (virt num flags : Nat) : Code Unit := do
  let phys ← pmmAlloc (.pages num)
  pagingMapPages virt phys num flags

def pagingSwitchDirectory (dirPhys : Nat) : Code Unit :=
  Action.modify fun w => { w with paging := { w.paging with cr3 := dirPhys } }

/-! ## Steps -/

theorem access_run {f : Paging.State → Except Stop Paging.State} {w : World} {s : Paging.State}
    (h : f w.paging = .ok s) : (access f).run w = (.ok (), { w with paging := s }) := by
  unfold access
  dsimp only
  rw [h]

theorem setEntry_run {w : World} {virt v : Nat} {s : Paging.State}
    (h : Paging.store w.paging virt v = .ok s) :
    (setEntry virt v).run w =
      (.ok (), { w with paging := s, journal := w.journal ++ [.entry v] }) :=
  Action.bind_ok (access_run h)

theorem pmmAlloc_run {r : Pmm.Request} {w : World} {addr : Nat} {p : Pmm.State}
    (h : r.run w.pmm = .ok (addr, p)) :
    (pmmAlloc r).run w = (.ok addr, { w with
      paging := { w.paging with pmm := p }
      journal := w.journal ++ [.call w.pmm r] }) := by
  unfold pmmAlloc
  dsimp only
  rw [h]

/-! ## The journal changes nothing -/

/-- An outcome without its journal. -/
def erase {α : Type} : Except Stop α × World → Except Stop (α × Paging.State)
  | (.ok a, w) => .ok (a, w.paging)
  | (.error e, _) => .error e

/-- Without the journal, `x` is the function `f` of `paging.c`. -/
def Erases {α : Type} (x : Code α) (f : Paging.State → Except Stop (α × Paging.State)) : Prop :=
  ∀ w, erase (x.run w) = f w.paging

theorem Erases.bind {α β : Type} {x : Code α} {f : Paging.State → Except Stop (α × Paging.State)}
    {k : α → Code β} {g : α → Paging.State → Except Stop (β × Paging.State)} (hx : Erases x f)
    (hk : ∀ a, Erases (k a) (g a)) : Erases (x >>= k) fun s => f s >>= fun r => g r.1 r.2 := by
  intro w
  have hw := hx w
  match hrun : x.run w with
  | (.ok a, w') =>
    rw [hrun] at hw
    rw [Action.bind_ok hrun, hk a w']
    dsimp only
    rw [← hw]
    rfl
  | (.error e, w') =>
    rw [hrun] at hw
    rw [Action.bind_error hrun]
    dsimp only
    rw [← hw]
    rfl

/-- `f` as a function with an empty result. -/
def unit (f : Paging.State → Except Stop Paging.State) (s : Paging.State) :
    Except Stop (Unit × Paging.State) :=
  (f s).map fun t => ((), t)

theorem access_erases (f : Paging.State → Except Stop Paging.State) :
    Erases (access f) (unit f) := by
  intro w
  unfold access unit
  dsimp only
  cases f w.paging with
  | ok s => rfl
  | error e => rfl

theorem load_erases (virt : Nat) :
    Erases (load virt) fun s => (Paging.load s virt).map fun v => (v, s) := by
  intro w
  unfold load
  dsimp only
  cases Paging.load w.paging virt with
  | ok v => rfl
  | error e => rfl

theorem setEntry_erases (virt v : Nat) :
    Erases (setEntry virt v) (unit fun s => Paging.store s virt v) := by
  intro w
  have hw := access_erases (fun s => Paging.store s virt v) w
  match hrun : (store virt v).run w with
  | (.ok a, w') =>
    rw [setEntry, Action.bind_ok hrun, ← hw]
    exact (congrArg erase hrun).symm
  | (.error e, w') =>
    rw [setEntry, Action.bind_error hrun, ← hw]
    exact (congrArg erase hrun).symm

theorem Erases.congr {α : Type} {x : Code α}
    {f g : Paging.State → Except Stop (α × Paging.State)} (h : Erases x f)
    (hfg : ∀ s, f s = g s) : Erases x g :=
  fun w => (h w).trans (hfg w.paging)

theorem pure_erases {α : Type} (a : α) : Erases (pure a : Code α) fun s => .ok (a, s) :=
  fun _ => rfl

theorem stop_erases {α : Type} (e : Stop) : Erases (Action.stop e : Code α) fun _ => .error e :=
  fun _ => rfl

theorem unit_bind {β : Type} (f : Paging.State → Except Stop Paging.State)
    (g : Paging.State → Except Stop β) (s : Paging.State) :
    (unit f s >>= fun r => g r.2) = f s >>= g := by
  unfold unit
  cases f s with
  | ok t => rfl
  | error e => rfl

theorem memset_erases (buf : Nat) (value : BitVec 8) (size : Nat) :
    Erases (memset buf value size) (unit fun s => Paging.memset s buf value size) := by
  have hrounds : ∀ n i, Erases
      (Action.rounds (fun i (_ : Unit) => storeByte (wrap (buf + i)) value) i n ())
      (unit fun s => (List.range' i n).foldlM
        (fun t i => Paging.storeByte t (wrap (buf + i)) value) s) := by
    intro n
    induction n with
    | zero => exact fun i => pure_erases ()
    | succ n ih =>
      intro i
      refine ((access_erases _).bind fun _ => ih (i + 1)).congr fun s => ?_
      rw [unit_bind _ (unit _), unit, List.range'_succ, List.foldlM_cons]
      cases Paging.storeByte s (wrap (buf + i)) value with
      | ok t => rfl
      | error e => rfl
  refine (hrounds size 0).congr fun s => ?_
  rw [unit, unit, Paging.memset, List.range_eq_range']

theorem pmmAlloc_erases :
    Erases (pmmAlloc .page)
      fun s => (Pmm.pmmAllocPage s.pmm).map fun r => (r.1, { s with pmm := r.2 }) := by
  intro w
  change erase ((pmmAlloc .page).run w) = (Pmm.Request.page.run w.pmm).map _
  unfold pmmAlloc
  dsimp only
  cases Pmm.Request.page.run w.pmm with
  | ok r => rfl
  | error e => rfl

theorem createTable_erases (dirIndex flags dir : Nat) :
    Erases (createTable dirIndex flags dir)
      (unit fun s => Paging.createTable s dirIndex flags dir) := by
  refine (pmmAlloc_erases.bind fun newTable => (setEntry_erases _ _).bind fun _ =>
    memset_erases _ _ _).congr fun s => ?_
  simp only [unit, Paging.createTable, bind, Except.bind]
  cases Pmm.pmmAllocPage s.pmm with
  | error e => rfl
  | ok r =>
    simp only [Except.map]
    cases Paging.store { s with pmm := r.2 } (dir + 4 * dirIndex)
      (r.1 ||| 1 ||| pageRw ||| pageFlags flags) with
    | error e => rfl
    | ok t => dsimp only

theorem getPage_erases (virt : Nat) (create : Bool) (flags : Nat) :
    Erases (pagingGetPage virt create flags)
      fun s => Paging.pagingGetPage s virt create flags := by
  unfold pagingGetPage pagingGetPageSelectDir Paging.pagingGetPage Paging.pagingGetPageSelectDir
  by_cases hv : virt % 0x1000 ≠ 0
  · simp only [if_pos hv]
    exact stop_erases .abort
  · simp only [if_neg hv]
    have htable : ∀ entry, Erases (ensureTable entry create (directoryIndex virt) flags 0xFFFFF000)
        (unit fun s => if !present entry && create then
          Paging.createTable s (directoryIndex virt) flags 0xFFFFF000 else .ok s) := by
      intro entry
      unfold ensureTable
      cases !present entry && create with
      | true => exact createTable_erases _ _ _
      | false => exact pure_erases ()
    refine ((load_erases _).bind fun entry => (htable entry).bind fun _ =>
      (load_erases _).bind fun entry => pure_erases _).congr fun s => ?_
    simp only [unit, bind, Except.bind]
    cases hload : Paging.load s (0xFFFFF000 + 4 * directoryIndex virt) with
    | error e => rfl
    | ok entry =>
      simp only [Except.map]
      cases !present entry && create with
      | false =>
        simp only [Bool.false_eq_true, if_false, hload]
        rfl
      | true =>
        simp only [if_true]
        cases Paging.createTable s (directoryIndex virt) flags 0xFFFFF000 with
        | error e => rfl
        | ok t =>
          dsimp only
          cases Paging.load t (0xFFFFF000 + 4 * directoryIndex virt) with
          | error e => rfl
          | ok entry => rfl

theorem mapPage_erases (virt phys flags : Nat) :
    Erases (pagingMapPage virt phys flags)
      (unit fun s => Paging.pagingMapPage s virt phys flags) := by
  have hset : ∀ page entry, Erases
      (if present entry then Action.stop .abort
        else setEntry page (phys ||| 1 ||| pageFlags flags))
      (unit fun s => if present entry then .error .abort
        else Paging.store s page (phys ||| 1 ||| pageFlags flags)) := by
    intro page entry
    cases present entry with
    | true => exact stop_erases .abort
    | false => exact setEntry_erases _ _
  refine ((getPage_erases virt true flags).bind fun page => (load_erases page).bind fun entry =>
    hset page entry).congr fun s => ?_
  simp only [unit, Paging.pagingMapPage, bind, Except.bind]
  cases Paging.pagingGetPage s virt true flags with
  | error e => rfl
  | ok r =>
    dsimp only
    cases Paging.load r.2 r.1 with
    | error e => rfl
    | ok entry =>
      simp only [Except.map]
      cases present entry with
      | true => rfl
      | false => rfl

/-- **Mapping with a journal is mapping.** -/
theorem mapPages_erases (virt phys num flags : Nat) :
    Erases (pagingMapPages virt phys num flags)
      (unit fun s => Paging.pagingMapPages s virt phys num flags) := by
  induction num generalizing virt phys with
  | zero => exact pure_erases ()
  | succ num ih =>
    refine ((mapPage_erases virt phys flags).bind fun _ => ih _ _).congr fun s => ?_
    rw [unit_bind _ (unit _), unit, Paging.pagingMapPages]
    cases Paging.pagingMapPage s virt phys flags with
    | ok t => rfl
    | error e => rfl

end Proc
end Medusa
