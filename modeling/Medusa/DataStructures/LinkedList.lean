import Medusa.Heap.Client
import Medusa.Machine.Chain
import Medusa.Machine.Loop
import Medusa.Machine.Run

/-!
# Linked lists

Nodes of two words on the kernel's heap.  A node from `kmalloc` holds whatever its block
held before.  `linked_list_init` and `linked_list_insert_beginning` set both its words;
`append_linked_list` sets the data and leaves the pointer, so that the list goes on to
wherever the block pointed.
-/

namespace Medusa
namespace DataStructures
namespace LinkedList

open Machine Kernel Chain
open Heap (Live Client)

/-- `node->data`. -/
def data (m : Mem) (node : Nat) : Nat := read32 m node

/-- `node->next`. -/
def next (m : Mem) (node : Nat) : Nat := read32 m (node + 4)

/-- The heap and the pointer to the list that its owner keeps. -/
structure State where
  heap : Heap.State
  head : Nat

/-- There are no more addresses than this, so a loop that goes on for as many rounds goes
on for ever. -/
def addresses : Nat := 2 ^ 32

def linkedListInit (h : Heap.State) : Except Stop State := do
  let (linkedList, h) ← Heap.kmalloc h 8
  let m := write32 h.mem linkedList 0
  let m := write32 m (linkedList + 4) 0
  return { heap := { h with mem := m }, head := linkedList }

def linkedListInsertBeginning (data : Nat) (s : State) : Except Stop State := do
  let (newNode, h) ← Heap.kmalloc s.heap 8
  let m := write32 h.mem newNode data
  let m := write32 m (newNode + 4) s.head
  return { heap := { h with mem := m }, head := newNode }

def appendLinkedList (data : Nat) (s : State) : Except Stop State := do
  let (newNode, h) ← Heap.kmalloc s.heap 8
  let m := write32 h.mem newNode data
  match runLoop (lastStep (next m)) addresses s.head with
  | none => .error .fuel
  | some temp => return { heap := { h with mem := write32 m (temp + 4) newNode }, head := s.head }

def linkedListFind (value : Nat) (s : State) : Except Stop Bool :=
  let m := s.heap.mem
  match runLoop (searchStep (next m) (fun temp => data m temp = value)) addresses s.head with
  | none => .error .fuel
  | some temp => .ok (decide (temp ≠ 0))

/-! ## Runs -/

/-- What happens to a list; `others` is all that the rest of the kernel does between two
calls, with the heap as it leaves it. -/
inductive Op where
  | insertBeginning (value : BitVec 32)
  | append (value : BitVec 32)
  | find (value : BitVec 32)
  | others (heap : Heap.State)

/-- The list, and the sequence that it stands for. -/
structure Traced where
  state : State
  contents : List Nat

def Op.run (s : State) : Op → Except Stop State
  | .insertBeginning value => linkedListInsertBeginning value.toNat s
  | .append value => appendLinkedList value.toNat s
  | .find value => do
    let _ ← linkedListFind value.toNat s
    return s
  | .others heap => .ok { s with heap := heap }

def Op.after (xs : List Nat) : Op → List Nat
  | .insertBeginning value => value.toNat :: xs
  | .append value => xs ++ [value.toNat]
  | .find _ => xs
  | .others _ => xs

def step (t : Traced) (op : Op) : Option Traced :=
  (op.run t.state).toOption.map fun s => { state := s, contents := op.after t.contents }

/-- The chain from the head ends at `NULL` and holds the sequence. -/
def Right (s : State) (xs : List Nat) : Prop :=
  ∃ nodes, Path (next s.heap.mem) 0 s.head nodes ∧ nodes.map (data s.heap.mem) = xs

/-- An operation ends, unless the kernel runs out of memory, and does what it says. -/
def Sound (t : Traced) : Op → Prop
  | .find value => linkedListFind value.toNat t.state = .ok (decide (value.toNat ∈ t.contents))
  | .others _ => True
  | op => Exits (Right · (op.after t.contents)) (· = .abort) (op.run t.state)

/-- The block that `kmalloc` hands out next has `NULL` where a node has its pointer. -/
def Clean (h : Heap.State) : Prop :=
  ∀ p h', Heap.kmalloc h 8 = .ok (p, h') → next h.mem p = 0

def CleanAppend (t : Traced) : Op → Prop
  | .append _ => Clean t.state.heap
  | _ => True

/-- The object that a node is. -/
def node (p : Nat) : Live where
  ptr := p
  align := 4
  size := 8

/-- The rest of the kernel leaves the heap sound, and the nodes what they were. -/
def Polite (t : Traced) : Op → Prop
  | .others heap => ∀ nodes, Path (next t.state.heap.mem) 0 t.state.head nodes →
    Client heap (nodes.map node) ∧ ∀ q ∈ nodes, Agree t.state.heap.mem heap.mem q (q + 8)
  | _ => True

/-- The nodes of a list are objects of the heap. -/
structure Holds (s : State) (xs : List Nat) (nodes : List Nat) : Prop where
  path : Path (next s.heap.mem) 0 s.head nodes
  data : nodes.map (data s.heap.mem) = xs
  client : Client s.heap (nodes.map node)
  nonempty : nodes ≠ []

variable {h : Heap.State} {s s' : State} {xs nodes : List Nat} {m m' : Mem} {p q : Nat}

/-! ## Nodes -/

theorem data_congr (h : Agree m m' q (q + 8)) : data m' q = data m q :=
  read32_congr (h.mono (Nat.le_refl q) (by omega))

theorem next_congr (h : Agree m m' q (q + 8)) : next m' q = next m q :=
  read32_congr (h.mono (by omega) (Nat.le_refl _))

theorem node_apart (hclient : Client h (node p :: nodes.map node)) (hq : q ∈ nodes) :
    q + 8 ≤ p ∨ p + 8 ≤ q :=
  (Heap.held_object (List.mem_map_of_mem hq)).apart hclient

theorem node_lt {live : List Live} (hclient : Client h live) (hq : node q ∈ live) :
    q + 8 ≤ 2 ^ 32 := by
  have hwithin := (hclient.within hq).2.1
  have hlimit : Heap.heapLimit = 0xC2200000 := rfl
  have hsize : (node q).ptr + (node q).size = q + 8 := rfl
  omega

/-- There is room for so many nodes only. -/
theorem nodes_lt (hclient : Client h (nodes.map node)) : nodes.length < addresses := by
  have hsub : nodes.toFinset ⊆ Finset.range (addresses - 1) := by
    intro q hq
    have hlt := node_lt hclient (List.mem_map_of_mem (List.mem_toFinset.mp hq))
    have haddresses : addresses = 2 ^ 32 := rfl
    exact Finset.mem_range.mpr (by omega)
  have hcard := Finset.card_le_card hsub
  rw [List.toFinset_card_of_nodup (hclient.nodup.of_map _), Finset.card_range] at hcard
  exact Nat.lt_of_le_pred (by decide) hcard

/-- A new node lies apart from what is held, and its words are what they were. -/
theorem kmalloc_node {live : List Live} (hclient : Client h live) :
    Heap.kmalloc h 8 = .error .abort ∨ ∃ p h', Heap.kmalloc h 8 = .ok (p, h') ∧ p ≠ 0 ∧
      Client h' (node p :: live) ∧ (∀ lo hi, Heap.Held live lo hi → Agree h.mem h'.mem lo hi) ∧
      Agree h.mem h'.mem p (p + 8) := by
  obtain ⟨blocks, hinv⟩ := hclient
  rcases hinv.serve Heap.aligns_four (show 8 ≤ Heap.heapSize by decide) with
    ⟨-, habort⟩ | ⟨b, blocks', h', -, hrun, hgot⟩
  · exact .inl habort
  · refine .inr ⟨b.data, h', hrun, Nat.succ_ne_zero _, ⟨blocks', hgot.invariant 8 hgot.room⟩,
      hgot.keeps, ?_⟩
    intro x hlo hhi
    have hroom := hgot.room
    exact hgot.headers x fun c hc =>
      hgot.rep.laid.header_apart hgot.allocated.mem hc hlo (by omega)

/-! ## What each function does -/

/-- Both words of a node. -/
def fill (m : Mem) (p data next : Nat) : Mem := write32 (write32 m p data) (p + 4) next

theorem data_fill (m : Mem) (p v w : Nat) : data (fill m p v w) p = v % 2 ^ 32 := by
  rw [data, fill, read32_write32_of_disjoint (by omega), read32_write32_self]

theorem next_fill (m : Mem) (p v w : Nat) : next (fill m p v w) p = w % 2 ^ 32 :=
  read32_write32_self ..

theorem fill_outside {x : Nat} (m : Mem) (v w : Nat) (hx : x < p ∨ p + 8 ≤ x) :
    fill m p v w x = m x := by
  rw [fill, write32_outside (by omega), write32_outside (by omega)]

theorem Client.fill {live : List Live} (hclient : Client h (node p :: live)) (v w : Nat) :
    Client { h with mem := fill h.mem p v w } (node p :: live) := by
  have hheld : Heap.Held (node p :: live) p (p + 8) := Heap.held_object List.mem_cons_self
  exact (hclient.write32 (hheld.mono (Nat.le_refl p) (by omega))).write32
    (hheld.mono (by omega) (Nat.le_refl _))

theorem Holds.head_lt (hs : Holds s xs nodes) : s.head < 2 ^ 32 := by
  cases hnodes : nodes with
  | nil => exact absurd hnodes hs.nonempty
  | cons q rest =>
    have hpath := hs.path
    rw [hnodes] at hpath
    have hq : q ∈ nodes := by
      rw [hnodes]
      exact List.mem_cons_self
    have hlt := node_lt hs.client (List.mem_map_of_mem hq)
    rw [hpath.1]
    omega

theorem linkedListInit_holds (hclient : Client h []) :
    Exits (fun s => Holds s [0] [s.head]) (· = .abort) (linkedListInit h) := by
  unfold linkedListInit
  rcases kmalloc_node hclient with habort | ⟨p, h', hrun, hp, hclient', -, -⟩
  · rw [habort]
    rfl
  · rw [hrun]
    exact ⟨⟨rfl, hp, next_fill ..⟩, congrArg (· :: []) (data_fill ..), Client.fill hclient' 0 0,
      List.cons_ne_nil _ _⟩

/-- Handing out a block and writing into it leaves the nodes of a list what they were. -/
theorem kept_of_outside (hclient : Client h (node p :: nodes.map node))
    (hkeeps : ∀ lo hi, Heap.Held (nodes.map node) lo hi → Agree m h.mem lo hi)
    (hm : ∀ x, x < p ∨ p + 8 ≤ x → m' x = h.mem x) : ∀ q ∈ nodes, Agree m m' q (q + 8) := by
  intro q hq x hlo hhi
  have hapart := node_apart hclient hq
  rw [hm x (by omega)]
  exact hkeeps q (q + 8) (Heap.held_object (List.mem_map_of_mem hq)) x hlo hhi

theorem insertBeginning_holds (hs : Holds s xs nodes) (value : BitVec 32) :
    Exits (fun s' => Holds s' (value.toNat :: xs) (s'.head :: nodes)) (· = .abort)
      (linkedListInsertBeginning value.toNat s) := by
  unfold linkedListInsertBeginning
  rcases kmalloc_node hs.client with habort | ⟨p, h', hrun, hp, hclient, hkeeps, -⟩
  · rw [habort]
    rfl
  · rw [hrun]
    have hkept := kept_of_outside hclient hkeeps fun x =>
      fill_outside h'.mem value.toNat s.head
    have hdata : data (fill h'.mem p value.toNat s.head) p = value.toNat := by
      rw [data_fill, Nat.mod_eq_of_lt value.isLt]
    have hnext : next (fill h'.mem p value.toNat s.head) p = s.head := by
      rw [next_fill, Nat.mod_eq_of_lt hs.head_lt]
    refine ⟨⟨rfl, hp, ?_⟩, ?_, Client.fill hclient _ _, List.cons_ne_nil _ _⟩
    · show Path _ 0 (next (fill h'.mem p value.toNat s.head) p) nodes
      rw [hnext]
      exact hs.path.congr fun q hq => next_congr (hkept q hq)
    · show data (fill h'.mem p value.toNat s.head) p :: nodes.map _ = _
      rw [hdata, ← hs.data]
      exact congrArg (_ :: ·) (List.map_congr_left fun q hq => data_congr (hkept q hq))

/-- Storing the new node into the pointer of the last one. -/
theorem link_path {a t : Nat} (hpath : Path (next m) 0 a (nodes ++ [t]))
    (hfront : ∀ q ∈ nodes, q + 8 ≤ t ∨ t + 8 ≤ q) (hnew : t + 8 ≤ p ∨ p + 8 ≤ t) (hp : p ≠ 0)
    (hlt : p < 2 ^ 32) :
    Path (next (write32 m (t + 4) p)) (next m p) a (nodes ++ [t] ++ [p]) := by
  have hsame : ∀ q, q + 8 ≤ t ∨ t + 8 ≤ q → next (write32 m (t + 4) p) q = next m q :=
    fun q hq => read32_write32_of_disjoint (by omega)
  have hlast : next (write32 m (t + 4) p) t = p := by
    rw [next, read32_write32_self, Nat.mod_eq_of_lt hlt]
  have hgraft := hpath.graft (fun q hq => hsame q (hfront q hq)) hlast hp
  rwa [hsame p (by omega)] at hgraft

/-- A store into the pointer of a node leaves the data of all nodes. -/
theorem link_data {t : Nat} (hq : q = t ∨ q + 8 ≤ t ∨ t + 8 ≤ q) :
    data (write32 m (t + 4) p) q = data m q :=
  read32_write32_of_disjoint (by omega)

/-- The last node of a list, and the nodes before it, which lie apart from it. -/
theorem Holds.last (hs : Holds s xs nodes) :
    ∃ front t, nodes = front ++ [t] ∧ t ∈ nodes ∧ ∀ q ∈ front, q + 8 ≤ t ∨ t + 8 ≤ q := by
  obtain ⟨front, t, rfl⟩ := (List.eq_nil_or_concat' nodes).resolve_left hs.nonempty
  have hperm : ((front ++ [t]).map node).Perm (node t :: front.map node) := by
    rw [List.map_append]
    exact List.perm_append_singleton _ _
  refine ⟨front, t, rfl, List.mem_append_right _ List.mem_cons_self, ?_⟩
  exact fun q hq => node_apart (hs.client.forget hperm.symm.subperm) hq

/-- The stores into the new node and into the last one leave the heap sound. -/
theorem Client.link {t v : Nat} (hclient : Client h (node p :: nodes.map node)) (ht : t ∈ nodes) :
    Client { h with mem := write32 (write32 h.mem p v) (t + 4) p } ((nodes ++ [p]).map node) := by
  have hheld : Heap.Held (node p :: nodes.map node) p (p + 8) :=
    Heap.held_object List.mem_cons_self
  have hheldLast : Heap.Held (node p :: nodes.map node) t (t + 8) :=
    Heap.held_object (List.mem_cons_of_mem _ (List.mem_map_of_mem ht))
  have hfilled := hclient.write32 (v := v) (hheld.mono (Nat.le_refl p) (by omega))
  have hwritten := hfilled.write32 (v := p)
    (hheldLast.mono (show t ≤ t + 4 by omega) (Nat.le_refl _))
  refine hwritten.forget (List.Perm.subperm ?_)
  rw [List.map_append]
  exact List.perm_append_singleton _ _

/-- What `append_linked_list` makes of a list: the new node is linked, and the list goes on
to where its block pointed. -/
structure Appended (s s' : State) (xs nodes : List Nat) (value p : Nat) : Prop where
  path : Path (next s'.heap.mem) (next s.heap.mem p) s'.head (nodes ++ [p])
  data : (nodes ++ [p]).map (data s'.heap.mem) = xs ++ [value]
  client : Client s'.heap ((nodes ++ [p]).map node)

theorem append_runs (hs : Holds s xs nodes) (value : BitVec 32) :
    (Heap.kmalloc s.heap 8 = .error .abort ∧
      appendLinkedList value.toNat s = .error .abort) ∨
    ∃ p h' s', Heap.kmalloc s.heap 8 = .ok (p, h') ∧ appendLinkedList value.toNat s = .ok s' ∧
      Appended s s' xs nodes value.toNat p := by
  unfold appendLinkedList
  rcases kmalloc_node hs.client with habort | ⟨p, h', hrun, hp, hclient, hkeeps, hsame⟩
  · exact .inl ⟨habort, by rw [habort]; rfl⟩
  · obtain ⟨front, t, hnodes, ht, hapart⟩ := hs.last
    have hnew := node_apart hclient ht
    have hlt := node_lt hclient List.mem_cons_self
    have hkept : ∀ q ∈ nodes, Agree s.heap.mem (write32 h'.mem p value.toNat) q (q + 8) :=
      kept_of_outside hclient hkeeps fun x hx => write32_outside (by omega)
    have hpath : Path (next (write32 h'.mem p value.toNat)) 0 s.head (front ++ [t]) := by
      rw [← hnodes]
      exact hs.path.congr fun q hq => next_congr (hkept q hq)
    have hwalk : runLoop (lastStep (next (write32 h'.mem p value.toNat))) addresses s.head =
        some t := by
      have hlength := nodes_lt hs.client
      rw [hnodes, List.length_append, List.length_singleton] at hlength
      exact hpath.walk (by omega)
    -- the pointer of the new node is what it was in the block
    have hjunk : next (write32 h'.mem p value.toNat) p = next s.heap.mem p := by
      rw [next, read32_write32_of_disjoint (by omega)]
      exact next_congr hsame
    have hvalue : data (write32 (write32 h'.mem p value.toNat) (t + 4) p) p = value.toNat := by
      rw [link_data (.inr (by omega)), data, read32_write32_self, Nat.mod_eq_of_lt value.isLt]
    refine .inr ⟨p, h', ?_⟩
    rw [hrun, ok_bind]
    simp only [hwalk]
    refine ⟨_, trivial, rfl, ?_, ?_, Client.link hclient ht⟩
    · rw [← hjunk, hnodes]
      exact link_path hpath hapart (by omega) hp (by omega)
    · rw [List.map_append, ← hs.data]
      refine congrArg₂ (· ++ ·) (List.map_congr_left fun q hq => ?_) (congrArg (· :: []) hvalue)
      have hq' : q = t ∨ q ∈ front := by
        rw [hnodes] at hq
        simpa [or_comm] using hq
      rw [link_data (hq'.imp_right (hapart q)), data_congr (hkept q hq)]

theorem find_eq (hs : Holds s xs nodes) (value : Nat) :
    linkedListFind value s = .ok (decide (value ∈ xs)) := by
  have hsearch : ∃ t, runLoop (searchStep (next s.heap.mem) fun q => data s.heap.mem q = value)
      addresses s.head = some t ∧ (t ≠ 0 ↔ ∃ q ∈ nodes, data s.heap.mem q = value) :=
    hs.path.search (nodes_lt hs.client)
  obtain ⟨t, hrun, ht⟩ := hsearch
  simp only [linkedListFind, hrun]
  congr 1
  rw [decide_eq_decide, ht, ← hs.data, List.mem_map]

/-! ## Whole runs -/

theorem Appended.right_iff {value : Nat} (happ : Appended s s' xs nodes value p) :
    Right s' (xs ++ [value]) ↔ next s.heap.mem p = 0 := by
  constructor
  · rintro ⟨nodes', hpath, hdata⟩
    obtain ⟨rest, rfl, hrest⟩ := happ.path.extends hpath
    rw [List.map_append, happ.data, List.append_right_eq_self, List.map_eq_nil_iff] at hdata
    rw [hdata] at hrest
    exact hrest
  · intro hnull
    have hpath := happ.path
    rw [hnull] at hpath
    exact ⟨_, hpath, happ.data⟩

theorem append_sound_iff (hs : Holds s xs nodes) (value : BitVec 32) :
    Exits (Right · (xs ++ [value.toNat])) (· = .abort) (appendLinkedList value.toNat s) ↔
      Clean s.heap := by
  rcases append_runs hs value with ⟨hfull, habort⟩ | ⟨p, h', s', hserved, hrun, happ⟩
  · rw [habort]
    refine iff_of_true rfl fun p h' hserved => ?_
    rw [hfull] at hserved
    cases hserved
  · rw [hrun]
    refine happ.right_iff.trans ⟨fun hnull q h₂ hq => ?_, fun hclean => hclean p h' hserved⟩
    rw [hserved] at hq
    obtain ⟨rfl, -⟩ := Prod.mk.inj (Except.ok.inj hq)
    exact hnull

theorem append_holds (hs : Holds s xs nodes) (value : BitVec 32) (hclean : Clean s.heap)
    (hrun : appendLinkedList value.toNat s = .ok s') :
    ∃ nodes', Holds s' (xs ++ [value.toNat]) nodes' := by
  rcases append_runs hs value with ⟨-, habort⟩ | ⟨p, h', t, hserved, hok, happ⟩
  · rw [habort] at hrun
    cases hrun
  · rw [hok] at hrun
    obtain rfl := Except.ok.inj hrun
    have hpath := happ.path
    rw [hclean p h' hserved] at hpath
    exact ⟨nodes ++ [p], hpath, happ.data, happ.client, by simp⟩

variable {t t' : Traced} {op : Op}

theorem Holds.right (hs : Holds s xs nodes) : Right s xs := ⟨nodes, hs.path, hs.data⟩

theorem sound_iff_clean (hs : Holds t.state t.contents nodes) (op : Op) :
    Sound t op ↔ CleanAppend t op := by
  cases op with
  | insertBeginning value =>
    exact iff_of_true (exits_imp (insertBeginning_holds hs value) fun _ h => h.right) trivial
  | append value => exact append_sound_iff hs value
  | find value => exact iff_of_true (find_eq hs value.toNat) trivial
  | others heap => exact Iff.rfl

theorem holds_step (hs : Holds t.state t.contents nodes) (hpolite : Polite t op)
    (hclean : CleanAppend t op) (hstep : step t op = some t') :
    ∃ nodes', Holds t'.state t'.contents nodes' := by
  unfold step at hstep
  obtain ⟨s', hrun, rfl⟩ := of_toOption_map hstep
  cases op with
  | insertBeginning value =>
    have hinsert := insertBeginning_holds hs value
    rw [show linkedListInsertBeginning value.toNat t.state = .ok s' from hrun] at hinsert
    exact ⟨_, hinsert⟩
  | append value => exact append_holds hs value hclean hrun
  | find value =>
    obtain ⟨_, -, hsame⟩ := bind_eq_ok hrun
    obtain rfl := Except.ok.inj hsame
    exact ⟨nodes, hs⟩
  | others heap =>
    obtain rfl := Except.ok.inj hrun
    obtain ⟨hclient, hkept⟩ := hpolite nodes hs.path
    refine ⟨nodes, hs.path.congr fun q hq => next_congr (hkept q hq), ?_, hclient, hs.nonempty⟩
    rw [← hs.data]
    exact List.map_congr_left fun q hq => data_congr (hkept q hq)

theorem holds_init (hclient : Client h []) (hinit : linkedListInit h = .ok s) :
    Holds s [0] [s.head] := by
  have hs := linkedListInit_holds hclient
  rw [hinit] at hs
  exact hs

/-- **A list is what its operations say exactly while `kmalloc` hands out clean blocks.**
On a sound heap, and while the rest of the kernel leaves the nodes alone, every operation
of a run ends with a chain that stops at `NULL` and holds the sequence, and every search
answers for that sequence, if and only if every append comes when the block that is next
has `NULL` in its second word. -/
theorem list_right_iff {ops : List Op} (hclient : Client h []) (hinit : linkedListInit h = .ok s)
    (hpolite : Throughout step Polite { state := s, contents := [0] } ops) :
    Right s [0] ∧ (Throughout step Sound { state := s, contents := [0] } ops ↔
      Throughout step CleanAppend { state := s, contents := [0] } ops) := by
  have hs := holds_init hclient hinit
  refine ⟨hs.right, ?_⟩
  apply throughout_iff_of (fun t => ∃ nodes, Holds t.state t.contents nodes)
  · rintro t op ⟨nodes, ht⟩ -
    exact sound_iff_clean ht op
  · rintro t op t' ⟨nodes, ht⟩ hpolite hclean hstep
    exact holds_step ht hpolite hclean hstep
  · exact ⟨_, hs⟩
  · exact hpolite

/-- An insertion, an append and a search, on a heap whose memory is zero. -/
theorem list_right_iff_zero : ∃ s, linkedListInit (Heap.start fun _ => 0#8).heap = .ok s ∧
    Right s [0] ∧
    (Throughout step Sound { state := s, contents := [0] }
        [.insertBeginning 1#32, .append 2#32, .find 2#32] ↔
      Throughout step CleanAppend { state := s, contents := [0] }
        [.insertBeginning 1#32, .append 2#32, .find 2#32]) :=
  ⟨_, rfl, list_right_iff ⟨[], Heap.invariant_start fun _ => 0#8⟩ rfl
    ⟨trivial, fun _ _ => ⟨trivial, fun _ _ => ⟨trivial, fun _ _ => trivial⟩⟩⟩⟩

/-- A heap whose second block of eight bytes still points to itself. -/
def staleHeap : Heap.State := (Heap.start (write32 (fun _ => 0#8) 0xC040002C 0xC0400028)).heap

theorem staleHeap_block : ∃ s, linkedListInit staleHeap = .ok s ∧
    ∃ p h, Heap.kmalloc s.heap 8 = .ok (p, h) ∧ next s.heap.mem p = p ∧ p ≠ 0 :=
  ⟨_, rfl, _, _, rfl, by decide +kernel, by decide +kernel⟩

/-- There the list runs in a circle after its first append. -/
theorem append_runs_on : ¬ ∀ (h : Heap.State) (s : State) (ops : List Op), Client h [] →
    linkedListInit h = .ok s → Throughout step Polite { state := s, contents := [0] } ops →
    Throughout step Sound { state := s, contents := [0] } ops := by
  intro hall
  obtain ⟨s, hinit, p, h', hserved, hnext, hp⟩ := staleHeap_block
  have hclient : Client staleHeap [] := ⟨[], Heap.invariant_start _⟩
  have hs := holds_init hclient hinit
  have hsound := (hall staleHeap s [.append 7#32] hclient hinit ⟨trivial, fun _ _ => trivial⟩).1
  have hclean := (append_sound_iff hs 7#32).mp hsound
  exact hp (hnext.symm.trans (hclean p h' hserved))

end LinkedList
end DataStructures
end Medusa
