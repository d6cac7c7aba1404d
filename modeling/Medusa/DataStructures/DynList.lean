import Medusa.Heap.Limit
import Medusa.Kernel.Buffer
import Medusa.Machine.Loop

/-!
# The growing array

`list_t`: a block of items with the number in use.  An append that finds the block full
doubles it, and a removal copies what stays into a new list of the same size.  Against
any heap that keeps the items of a block it moves, the list is a sequence.
-/

namespace Medusa
namespace DataStructures
namespace DynList

open Machine Kernel Heap

/-- `list_t`; `list` holds the data pointers in the words of the block. -/
structure ListT where
  used : Nat
  size : Nat
  list : List Nat
deriving DecidableEq, Repr

/-- What the heap does during one operation.  It ends in `abort()` where there is no
block; `Heap.kmalloc_of_outgrown` says when it has to. -/
structure Env where
  kmalloc : Nat → Option (List Nat)
  krealloc : List Nat → Nat → Option (List Nat)
  kmalloc_length : ∀ {bytes block}, kmalloc bytes = some block → block.length = bytes / 4
  krealloc_length : ∀ {old bytes block}, krealloc old bytes = some block →
    block.length = bytes / 4
  krealloc_keeps : ∀ {old bytes block}, krealloc old bytes = some block →
    4 * old.length ≤ bytes → old <+: block
  krealloc_outgrown : ∀ {old bytes}, heapSize < bytes → bytes ≤ 2 * heapSize →
    krealloc old bytes = none

def orAbort (block : Option (List Nat)) : Except Stop (List Nat) :=
  match block with
  | some block => .ok block
  | none => .error .abort

/-! ## The functions -/

def listCreate (env : Env) : Except Stop ListT := do
  let _ ← orAbort (env.kmalloc 12)
  let list ← orAbort (env.kmalloc (4 * 1))
  return { used := 0, size := 1, list := list }

def listCreateExt (env : Env) (used size : Nat) : Except Stop ListT := do
  let _ ← orAbort (env.kmalloc 12)
  let list ← orAbort (env.kmalloc (wrap (4 * size)))
  return { used := used, size := size, list := list }

def listClear (l : ListT) : Except Stop ListT := do
  let list ← (List.range l.used).foldlM (fun list i => store list i 0) l.list
  return { l with list := list }

/-- The first half of `list_append`. -/
def grow (env : Env) (l : ListT) : Except Stop ListT :=
  if l.used = l.size then do
    let size := wrap (l.size * 2)
    let list ← orAbort (env.krealloc l.list (wrap (size * 4)))
    return { l with size := size, list := list }
  else .ok l

def listAppend (env : Env) (data : Nat) (l : ListT) : Except Stop ListT := do
  let l ← grow env l
  let list ← store l.list l.used data
  return { l with used := wrap (l.used + 1), list := list }

/-- `list_remove` and `list_remove_index`, with the round of their loop; `list_destroy`
clears the old list before it is freed. -/
def rebuild (env : Env) (l : ListT) (round : ListT → Nat → Except Stop ListT) :
    Except Stop ListT := do
  let new ← listCreateExt env 0 l.size
  let new ← (List.range l.used).foldlM round new
  let _ ← listClear l
  return new

/-- `if (list->list[i].data != data) list_append(list->list[i].data, new_list)`. -/
def removeRound (env : Env) (data : Nat) (l new : ListT) (i : Nat) : Except Stop ListT := do
  let item ← fetch l.list i
  if item ≠ data then listAppend env item new else .ok new

/-- `if (i != index) list_append(list->list[i].data, new_list)`. -/
def removeIndexRound (env : Env) (index : Int) (l new : ListT) (i : Nat) : Except Stop ListT :=
  if (i : Int) ≠ index then do
    let item ← fetch l.list i
    listAppend env item new
  else .ok new

def listRemove (env : Env) (data : Nat) (l : ListT) : Except Stop ListT :=
  rebuild env l (removeRound env data l)

def listRemoveIndex (env : Env) (index : Int) (l : ListT) : Except Stop ListT :=
  rebuild env l (removeIndexRound env index l)

def findLoop (data : Nat) (list : List Nat) : List Nat → Except Stop Nat
  | [] => .ok 0
  | i :: rest => do
    let item ← fetch list i
    if item = data then return item else findLoop data list rest

def listFind (data : Nat) (l : ListT) : Except Stop Nat :=
  findLoop data l.list (List.range l.used)

def listFindAt (index : Int) (l : ListT) : Except Stop Nat :=
  if 0 ≤ index then fetch l.list index.toNat else .error .fault

/-! ## Operations -/

inductive Op where
  | append (data : Nat)
  | remove (data : Nat)
  | removeIndex (index : Int)
  | find (data : Nat)
  | findAt (index : Int)
deriving DecidableEq, Repr

/-- The list after an operation, and what the operation returns. -/
def step (env : Env) (l : ListT) : Op → Except Stop (ListT × Option Nat)
  | .append data => do return (← listAppend env data l, none)
  | .remove data => do return (← listRemove env data l, none)
  | .removeIndex index => do return (← listRemoveIndex env index l, none)
  | .find data => do return (l, some (← listFind data l))
  | .findAt index => do return (l, some (← listFindAt index l))

/-- One operation after another, each with what the heap does during it. -/
def run : ListT → List (Env × Op) → Except Stop (ListT × List (Option Nat))
  | l, [] => .ok (l, [])
  | l, (env, op) :: rest => do
    let (l, answer) ← step env l op
    let (l, answers) ← run l rest
    return (l, answer :: answers)

/-! ## The sequence -/

def Op.after (xs : List Nat) : Op → List Nat
  | .append data => xs ++ [data]
  | .remove data => xs.filter (· ≠ data)
  | .removeIndex (.ofNat n) => xs.eraseIdx n
  | .removeIndex (.negSucc _) => xs
  | .find _ => xs
  | .findAt _ => xs

def Op.answer (xs : List Nat) : Op → Option Nat
  | .find data => some (if data ∈ xs then data else 0)
  | .findAt index => xs[index.toNat]?
  | _ => none

/-- `list_find_at` is called with an index below `used`. -/
def Op.InBounds (xs : List Nat) : Op → Prop
  | .findAt index => 0 ≤ index ∧ index < xs.length
  | _ => True

def contents (xs : List Nat) (ops : List Op) : List Nat := ops.foldl Op.after xs

def answers (xs : List Nat) : List Op → List (Option Nat)
  | [] => []
  | op :: rest => op.answer xs :: answers (op.after xs) rest

def InBounds (xs : List Nat) : List Op → Prop
  | [] => True
  | op :: rest => op.InBounds xs ∧ InBounds (op.after xs) rest

/-- The list holds a sequence. -/
structure Holds (l : ListT) (xs : List Nat) : Prop where
  used : l.used = xs.length
  items : l.list.take l.used = xs
  room : l.used ≤ l.size
  length : l.list.length = l.size
  power : ∃ k, l.size = 2 ^ k
  small : 4 * l.size ≤ heapSize

variable {env : Env} {l : ListT} {xs : List Nat} {data : Nat}

theorem Holds.size_pos (h : Holds l xs) : 0 < l.size := by
  obtain ⟨k, hk⟩ := h.power
  rw [hk]
  exact Nat.two_pow_pos k

/-- The items, and the part of the block that is not in use. -/
theorem Holds.split (h : Holds l xs) : l.list = xs ++ l.list.drop l.used := by
  conv_lhs => rw [← List.take_append_drop l.used l.list, h.items]

theorem Holds.fetch (h : Holds l xs) {i : Nat} (hi : i < xs.length) :
    Kernel.fetch l.list i = .ok xs[i] := by
  apply fetch_eq_ok
  rw [h.split, List.getElem?_append_left hi, List.getElem?_eq_getElem hi]

/-! ## What each function does -/

/-- A run either aborts or ends in a value with the property. -/
abbrev OrAborts {α : Type} (P : α → Prop) : Except Stop α → Prop := Exits P (· = .abort)

theorem orAbort_spec {block : Option (List Nat)} :
    OrAborts (fun list => block = some list) (orAbort block) := by
  cases block <;> rfl

theorem listCreate_holds (env : Env) : OrAborts (Holds · []) (listCreate env) := by
  refine exits_bind orAbort_spec fun _ _ => exits_bind orAbort_spec fun list hlist => ?_
  exact ⟨rfl, rfl, Nat.zero_le _, env.kmalloc_length hlist, ⟨0, rfl⟩, Nat.le_of_ble_eq_true rfl⟩

theorem listCreateExt_holds (env : Env) (h : Holds l xs) :
    OrAborts (Holds · []) (listCreateExt env 0 l.size) := by
  refine exits_bind orAbort_spec fun _ _ => exits_bind orAbort_spec fun list hlist => ?_
  have hheap : heapSize = 0x1E00000 := rfl
  have hsmall := h.small
  have hlength := env.kmalloc_length hlist
  rw [wrap_of_lt (by omega), Nat.mul_div_cancel_left _ (by decide)] at hlength
  exact ⟨rfl, rfl, Nat.zero_le _, hlength, h.power, h.small⟩

/-- A block of twice the size is inside the heap, and begins with the items of the old one. -/
theorem Holds.doubled (h : Holds l xs) {list : List Nat}
    (hlist : env.krealloc l.list (wrap (wrap (l.size * 2) * 4)) = some list) :
    4 * (l.size * 2) ≤ heapSize ∧ list.length = l.size * 2 ∧ ∃ new, list = l.list ++ new := by
  have hheap : heapSize = 0x1E00000 := rfl
  have hsmall := h.small
  have hlength := h.length
  rw [wrap_of_lt (show l.size * 2 < 2 ^ 32 by omega), wrap_of_lt (by omega)] at hlist
  refine ⟨?_, ?_, ?_⟩
  · by_contra hlarge
    rw [env.krealloc_outgrown (by omega) (by omega)] at hlist
    cases hlist
  · rw [env.krealloc_length hlist, Nat.mul_div_cancel _ (by decide)]
  · obtain ⟨new, hnew⟩ := env.krealloc_keeps hlist (by omega)
    exact ⟨new, hnew.symm⟩

/-- A full block is doubled, or the heap cannot serve the request. -/
theorem grow_holds (env : Env) (h : Holds l xs) :
    OrAborts (fun l' => Holds l' xs ∧ l'.used < l'.size) (grow env l) := by
  unfold grow
  by_cases hfull : l.used = l.size
  · rw [if_pos hfull]
    refine exits_bind orAbort_spec fun list hlist => ?_
    obtain ⟨hsmall, hlength, new, rfl⟩ := h.doubled hlist
    have hpos := h.size_pos
    have hheap : heapSize = 0x1E00000 := rfl
    have hdouble : wrap (l.size * 2) = l.size * 2 := wrap_of_lt (by omega)
    have hused : l.used = l.list.length := by rw [h.length, hfull]
    obtain ⟨k, hk⟩ := h.power
    simp only [hdouble]
    refine ⟨⟨h.used, ?_, ?_, hlength, ⟨k + 1, ?_⟩, hsmall⟩, ?_⟩
    · dsimp only
      rw [List.take_append_of_le_length (by omega), h.items]
    · dsimp only
      omega
    · dsimp only
      rw [hk, Nat.pow_succ]
    · dsimp only
      omega
  · rw [if_neg hfull]
    exact ⟨h, Nat.lt_of_le_of_ne h.room hfull⟩

theorem listAppend_holds (env : Env) (data : Nat) (h : Holds l xs) :
    OrAborts (Holds · (xs ++ [data])) (listAppend env data l) := by
  refine exits_bind (grow_holds env h) fun l' ⟨h', hlt⟩ => ?_
  have hheap : heapSize = 0x1E00000 := rfl
  have hsmall := h'.small
  have hused := h'.used
  have hstore : l'.used < l'.list.length := by rw [h'.length]; exact hlt
  have hwrap : wrap (l'.used + 1) = l'.used + 1 := wrap_of_lt (by omega)
  rw [store_eq_ok hstore, ok_bind]
  refine ⟨?_, ?_, ?_, ?_, h'.power, h'.small⟩
  · dsimp only
    rw [hwrap, hused, List.length_append, List.length_singleton]
  · dsimp only
    rw [hwrap, List.take_add_one, List.take_set_of_le (Nat.le_refl _), h'.items,
      List.getElem?_set_self hstore]
    rfl
  · dsimp only
    omega
  · dsimp only
    rw [List.length_set]
    exact h'.length

theorem listClear_returns (h : Holds l xs) : OrAborts (fun _ => True) (listClear l) := by
  have hloop := foldlM_range_induction (f := fun list i => store list i 0) (n := l.used)
    (fun _ list => list.length = l.size) (· = Stop.abort) h.length ?_
  · exact exits_bind hloop fun _ _ => trivial
  · intro k list hk hlength
    have hroom := h.room
    rw [store_eq_ok (by omega)]
    exact (List.length_set ..).trans hlength

/-- The loop builds what its rounds build. -/
theorem rebuild_holds (env : Env) (h : Holds l xs) {round : ListT → Nat → Except Stop ListT}
    (kept : Nat → List Nat) (hnil : kept 0 = []) (hround : ∀ k new, k < xs.length →
      Holds new (kept k) → OrAborts (Holds · (kept (k + 1))) (round new k)) :
    OrAborts (Holds · (kept xs.length)) (rebuild env l round) := by
  refine exits_bind (listCreateExt_holds env h) fun new hnew => ?_
  rw [← hnil] at hnew
  have hloop := foldlM_range_induction (fun k new => Holds new (kept k)) (· = Stop.abort) hnew
    fun k t hk ht => hround k t (by rwa [← h.used]) ht
  refine exits_bind hloop fun new hnew => exits_bind (listClear_returns h) fun _ _ => ?_
  rwa [← h.used]

theorem listRemove_holds (env : Env) (data : Nat) (h : Holds l xs) :
    OrAborts (Holds · (xs.filter (· ≠ data))) (listRemove env data l) := by
  have hround : ∀ k new, k < xs.length → Holds new ((xs.take k).filter (· ≠ data)) →
      OrAborts (Holds · ((xs.take (k + 1)).filter (· ≠ data))) (removeRound env data l new k) := by
    intro k new hk hnew
    rw [removeRound, h.fetch hk, ok_bind, List.take_add_one, List.getElem?_eq_getElem hk,
      List.filter_append]
    by_cases hne : xs[k] ≠ data
    · have hkeep : [xs[k]].filter (· ≠ data) = [xs[k]] := by simp [hne]
      rw [if_pos hne, Option.toList_some, hkeep]
      exact listAppend_holds env xs[k] hnew
    · have hdrop : [xs[k]].filter (· ≠ data) = [] := by simp [not_ne_iff.mp hne]
      rw [if_neg hne, Option.toList_some, hdrop, List.append_nil]
      exact hnew
  have hrun := rebuild_holds env h (fun k => (xs.take k).filter (· ≠ data)) rfl hround
  rwa [List.take_length] at hrun

/-- One round; no round meets a negative index. -/
theorem removeIndexRound_holds (env : Env) (index : Int) (h : Holds l xs) {new : ListT} {k : Nat}
    (hk : k < xs.length) (hnew : Holds new ((Op.removeIndex index).after (xs.take k))) :
    OrAborts (Holds · ((Op.removeIndex index).after (xs.take (k + 1))))
      (removeIndexRound env index l new k) := by
  have htake : xs.take (k + 1) = xs.take k ++ [xs[k]] := by
    rw [List.take_add_one, List.getElem?_eq_getElem hk]
    rfl
  have hlength : (xs.take k).length = k := List.length_take_of_le (by omega)
  rw [removeIndexRound, h.fetch hk, ok_bind, htake]
  by_cases hne : (k : Int) ≠ index
  · rw [if_pos hne]
    cases index with
    | ofNat n =>
      simp only [Op.after] at hnew ⊢
      rcases Nat.lt_or_ge k n with hlt | hge
      · rw [List.eraseIdx_of_length_le (by omega)] at hnew
        rw [List.eraseIdx_of_length_le (by simp; omega)]
        exact listAppend_holds env xs[k] hnew
      · have hn : n < k := by
          have hne' : k ≠ n := fun he => hne (by rw [he]; rfl)
          omega
        rw [List.eraseIdx_append_of_lt_length (by omega)]
        exact listAppend_holds env xs[k] hnew
    | negSucc n => exact listAppend_holds env xs[k] hnew
  · rw [if_neg hne]
    have hindex : index = Int.ofNat k := (not_ne_iff.mp hne).symm
    subst hindex
    simp only [Op.after] at hnew ⊢
    rw [List.eraseIdx_of_length_le (by omega)] at hnew
    rw [List.eraseIdx_append_of_length_le (by omega), hlength, Nat.sub_self,
      List.eraseIdx_cons_zero, List.append_nil]
    exact hnew

theorem listRemoveIndex_holds (env : Env) (index : Int) (h : Holds l xs) :
    OrAborts (Holds · ((Op.removeIndex index).after xs)) (listRemoveIndex env index l) := by
  have hrun := rebuild_holds env h (fun k => (Op.removeIndex index).after (xs.take k))
    (by cases index <;> simp [Op.after])
    fun k new hk hnew => removeIndexRound_holds env index h hk hnew
  rwa [List.take_length] at hrun

theorem findLoop_eq (h : Holds l xs) (data : Nat) {indices : List Nat}
    (hindices : ∀ i ∈ indices, i < xs.length) :
    findLoop data l.list indices =
      .ok (if ∃ i ∈ indices, xs[i]? = some data then data else 0) := by
  induction indices with
  | nil => simp [findLoop]
  | cons i indices ih =>
    simp only [List.mem_cons, forall_eq_or_imp] at hindices
    rw [findLoop, h.fetch hindices.1, ok_bind]
    by_cases hfound : xs[i] = data
    · have hitem : xs[i]? = some data := by rw [List.getElem?_eq_getElem hindices.1, hfound]
      rw [if_pos hfound, if_pos ⟨i, List.mem_cons_self, hitem⟩, hfound]
      rfl
    · rw [if_neg hfound, ih hindices.2]
      congr 2
      simp [hindices.1, hfound]

theorem listFind_eq (h : Holds l xs) (data : Nat) :
    listFind data l = .ok (if data ∈ xs then data else 0) := by
  rw [listFind, findLoop_eq h data fun i hi => h.used ▸ List.mem_range.mp hi]
  congr 2
  rw [h.used, List.mem_iff_getElem?, eq_iff_iff]
  constructor
  · rintro ⟨i, -, hi⟩
    exact ⟨i, hi⟩
  · rintro ⟨i, hi⟩
    exact ⟨i, List.mem_range.mpr (List.getElem?_eq_some_iff.mp hi).1, hi⟩

theorem listFindAt_eq (h : Holds l xs) {index : Int} (h0 : 0 ≤ index) (hlt : index < xs.length) :
    ∃ item, listFindAt index l = .ok item ∧ xs[index.toNat]? = some item := by
  have hi : index.toNat < xs.length := by omega
  refine ⟨xs[index.toNat], ?_, List.getElem?_eq_getElem hi⟩
  rw [listFindAt, if_pos h0, h.fetch hi]

/-! ## Runs -/

theorem step_holds (env : Env) (h : Holds l xs) {op : Op} (hop : op.InBounds xs) :
    OrAborts (fun r => Holds r.1 (op.after xs) ∧ r.2 = op.answer xs) (step env l op) := by
  cases op with
  | append data => exact exits_bind (listAppend_holds env data h) fun _ hl => ⟨hl, rfl⟩
  | remove data => exact exits_bind (listRemove_holds env data h) fun _ hl => ⟨hl, rfl⟩
  | removeIndex index =>
    exact exits_bind (listRemoveIndex_holds env index h) fun _ hl => ⟨hl, rfl⟩
  | find data =>
    rw [step, listFind_eq h]
    exact ⟨h, rfl⟩
  | findAt index =>
    obtain ⟨item, hrun, hitem⟩ := listFindAt_eq h hop.1 hop.2
    rw [step, hrun]
    exact ⟨h, hitem.symm⟩

theorem run_holds {script : List (Env × Op)} (h : Holds l xs)
    (hops : InBounds xs (script.map Prod.snd)) :
    OrAborts (fun r => Holds r.1 (contents xs (script.map Prod.snd)) ∧
      r.2 = answers xs (script.map Prod.snd)) (run l script) := by
  induction script generalizing l xs with
  | nil => exact ⟨h, rfl⟩
  | cons entry script ih =>
    obtain ⟨env, op⟩ := entry
    refine exits_bind (step_holds env h hops.1) fun r hr => ?_
    refine exits_bind (ih hr.1 hops.2) fun r' hr' => ?_
    exact ⟨hr'.1, congrArg₂ List.cons hr.2 hr'.2⟩

/-- **The list is a sequence.**  Whatever operations follow `list_create`, and whatever
the heap does as long as it does not abort, the items in use are the sequence that the
operations describe, every function answers for that sequence, no store leaves the block,
and the size is a power of two that holds them all. -/
theorem list_refines (env : Env) (script : List (Env × Op))
    (hops : InBounds [] (script.map Prod.snd)) :
    OrAborts (fun r => Holds r.1 (contents [] (script.map Prod.snd)) ∧
      r.2 = answers [] (script.map Prod.snd)) (listCreate env >>= fun l => run l script) :=
  exits_bind (listCreate_holds env) fun _ h => run_holds h hops

/-- A heap whose blocks are zero and which serves what fits it. -/
def zeroEnv : Env where
  kmalloc bytes := if bytes ≤ heapSize then some (List.replicate (bytes / 4) 0) else none
  krealloc old bytes :=
    if bytes ≤ heapSize then
      some (old.take (bytes / 4) ++ List.replicate (bytes / 4 - old.length) 0)
    else none
  kmalloc_length h := by
    obtain ⟨-, hblock⟩ := Option.ite_none_right_eq_some.mp h
    obtain rfl := Option.some.inj hblock
    exact List.length_replicate
  krealloc_length h := by
    obtain ⟨-, hblock⟩ := Option.ite_none_right_eq_some.mp h
    obtain rfl := Option.some.inj hblock
    rw [List.length_append, List.length_take, List.length_replicate]
    omega
  krealloc_keeps h hle := by
    obtain ⟨-, hblock⟩ := Option.ite_none_right_eq_some.mp h
    obtain rfl := Option.some.inj hblock
    rw [List.take_of_length_le (by omega)]
    exact List.prefix_append _ _
  krealloc_outgrown hlarge _ := if_neg (Nat.not_le.mpr hlarge)

/-- Three items are appended, which doubles the block twice, and two are removed. -/
theorem list_refines_three : ∃ r,
    (listCreate zeroEnv >>= fun l => run l
      [(zeroEnv, .append 7), (zeroEnv, .append 8), (zeroEnv, .append 9), (zeroEnv, .remove 8),
        (zeroEnv, .findAt 1), (zeroEnv, .removeIndex 0), (zeroEnv, .find 7)]) = .ok r ∧
      Holds r.1 [9] ∧ r.2 = [none, none, none, none, some 9, none, some 0] :=
  ⟨_, rfl, list_refines zeroEnv
    [(zeroEnv, .append 7), (zeroEnv, .append 8), (zeroEnv, .append 9), (zeroEnv, .remove 8),
      (zeroEnv, .findAt 1), (zeroEnv, .removeIndex 0), (zeroEnv, .find 7)]
    ⟨trivial, trivial, trivial, trivial, ⟨by decide, by decide⟩, trivial, trivial, trivial⟩⟩

/-- `NULL` is what `list_find` returns for an item that is not there, and so it seems to
find `NULL` in an empty list. -/
theorem listFind_null : ¬ ∀ (env : Env) (l : ListT) (data : Nat), listCreate env = .ok l →
    (listFind data l = .ok data ↔ data ∈ ([] : List Nat)) := by
  intro h
  have hnull := (h zeroEnv ⟨0, 1, [0]⟩ 0 rfl).mp rfl
  exact List.not_mem_nil hnull

end DynList
end DataStructures
end Medusa
