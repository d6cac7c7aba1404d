import Medusa.Chip8.Emulator
import Medusa.DataStructures.LinkedList

/-!
# The stack

`stack.c` on the kernel's heap: `stack_t` has the two words of a list node, and the pointer
to the top lies at an address that `stack_push` and `stack_pop` are given.  Pushes and pops
are those of the list that the emulator's model keeps.  `stack_peek` has its test the wrong
way round: it returns `NULL` when there are items and looks into the top when there are none.
-/

namespace Medusa
namespace DataStructures
namespace Stack

open Machine Kernel Chain
open Heap (Live Client Held)
open LinkedList (data next node)

/-! ## The code -/

/-- A pointer that is followed.  Following `NULL` stops the model. -/
def deref (p : Nat) : Except Stop Nat := if p = 0 then .error .fault else .ok p

def createStackNode (h : Heap.State) (data : Nat) : Except Stop (Nat × Heap.State) := do
  let (stackNode, h) ← Heap.kmalloc h 8
  let m := write32 h.mem (← deref stackNode) data
  let m := write32 m ((← deref stackNode) + 4) 0
  return (stackNode, { h with mem := m })

def stackIsEmpty (root : Nat) : Bool := root = 0

/-- `root` is the address of the pointer to the top. -/
def stackPush (h : Heap.State) (root data : Nat) : Except Stop Heap.State := do
  let (stackNode, h) ← createStackNode h data
  let m := write32 h.mem ((← deref stackNode) + 4) (read32 h.mem root)
  return { h with mem := write32 m root stackNode }

def stackPop (h : Heap.State) (root : Nat) : Except Stop (Nat × Heap.State) := do
  if stackIsEmpty (read32 h.mem root) then return (0, h)
  else
    let temp := read32 h.mem root
    let m := write32 h.mem root (next h.mem (← deref temp))
    let poppedData := data m (← deref temp)
    return (poppedData, Heap.kfree { h with mem := m } temp)

def stackPeek (m : Mem) (root : Nat) : Except Stop Nat := do
  if !stackIsEmpty root then return 0
  else return data m (← deref root)

/-! ## Runs -/

/-- What happens to a stack; `others` is all that the rest of the kernel does between two
calls, with the heap as it leaves it. -/
inductive Op where
  | push (data : BitVec 32)
  | pop
  | peek
  | others (heap : Heap.State)

/-- The heap after an operation, and what the operation returns. -/
def Op.run (root : Nat) (h : Heap.State) : Op → Except Stop (Heap.State × Option Nat)
  | .push data => do return (← stackPush h root data.toNat, none)
  | .pop => do
    let (data, h) ← stackPop h root
    return (h, some data)
  | .peek => do return (h, some (← stackPeek h.mem (read32 h.mem root)))
  | .others heap => .ok (heap, none)

/-- The abstract stack after an operation. -/
def Op.after (xs : List Nat) : Op → List Nat
  | .push data => DataStructures.stackPush xs data.toNat
  | .pop => (DataStructures.stackPop xs).2
  | .peek => xs
  | .others _ => xs

/-- What the abstract stack answers; `NULL` is zero. -/
def Op.answer (xs : List Nat) : Op → Option Nat
  | .push _ => none
  | .pop => some ((DataStructures.stackPop xs).1.getD 0)
  | .peek => some (xs.head?.getD 0)
  | .others _ => none

/-- The heap, and the abstract stack. -/
structure Traced where
  heap : Heap.State
  contents : List Nat

def step (root : Nat) (t : Traced) (op : Op) : Option Traced :=
  (op.run root t.heap).toOption.map fun r => { heap := r.1, contents := op.after t.contents }

/-- The chain from `p` ends at `NULL`, and its nodes hold the items. -/
def Carries (m : Mem) (p : Nat) (xs nodes : List Nat) : Prop :=
  Path (next m) 0 p nodes ∧ nodes.map (data m) = xs

/-- The chain from the top holds the items. -/
def Right (root : Nat) (h : Heap.State) (xs : List Nat) : Prop :=
  ∃ nodes, Carries h.mem (read32 h.mem root) xs nodes

/-- An operation ends, unless the kernel runs out of memory, and it does to the stack and
returns what the abstract one does. -/
def Sound (root : Nat) (t : Traced) (op : Op) : Prop :=
  Exits (fun r => Right root r.1 (op.after t.contents) ∧ r.2 = op.answer t.contents)
    (· = .abort) (op.run root t.heap)

/-- `stack_peek` is called only while `NULL` is on top. -/
def PeeksNull (t : Traced) : Op → Prop
  | .peek => t.contents.head? = some 0
  | _ => True

/-- The rest of the kernel leaves the heap sound, and the nodes and the pointer to the top
what they were. -/
def Polite (root : Nat) (owner : List Live) (t : Traced) : Op → Prop
  | .others heap => ∀ nodes, Path (next t.heap.mem) 0 (read32 t.heap.mem root) nodes →
    Client heap (nodes.map node ++ owner) ∧ Agree t.heap.mem heap.mem root (root + 4) ∧
      ∀ q ∈ nodes, Agree t.heap.mem heap.mem q (q + 8)
  | _ => True

/-- The nodes of a stack are objects of the heap, besides those of its owner. -/
structure Holds (root : Nat) (owner : List Live) (h : Heap.State) (xs nodes : List Nat) :
    Prop where
  carries : Carries h.mem (read32 h.mem root) xs nodes
  client : Client h (nodes.map node ++ owner)

variable {root p q : Nat} {owner : List Live} {h : Heap.State} {xs nodes : List Nat}
  {m m' : Mem}

/-! ## Chains of items -/

theorem Carries.congr (h : Carries m p xs nodes)
    (hkept : ∀ q ∈ nodes, Agree m m' q (q + 8)) : Carries m' p xs nodes := by
  obtain ⟨hpath, rfl⟩ := h
  refine ⟨hpath.congr fun q hq => LinkedList.next_congr (hkept q hq), ?_⟩
  exact List.map_congr_left fun q hq => LinkedList.data_congr (hkept q hq)

theorem Carries.null (h : Carries m 0 xs nodes) : xs = [] := by
  obtain ⟨hpath, rfl⟩ := h
  rw [hpath.eq_nil]
  rfl

/-- The first node of a chain that is not empty, and what it leaves. -/
theorem Carries.first (h : Carries m p xs nodes) (hp : p ≠ 0) :
    ∃ rest, nodes = p :: rest ∧ xs = data m p :: rest.map (data m) ∧
      Carries m (next m p) (rest.map (data m)) rest := by
  obtain ⟨hpath, rfl⟩ := h
  obtain ⟨rest, rfl, hrest⟩ := hpath.eq_cons hp
  exact ⟨rest, rfl, rfl, hrest, rfl⟩

theorem Carries.cons (h : Carries m (next m p) xs nodes) (hp : p ≠ 0) :
    Carries m p (data m p :: xs) (p :: nodes) :=
  ⟨⟨rfl, hp, h.1⟩, congrArg (data m p :: ·) h.2⟩

/-! ## What each function does -/

theorem deref_of_ne (hp : p ≠ 0) : deref p = .ok p := if_neg hp

theorem Holds.right (hs : Holds root owner h xs nodes) : Right root h xs := ⟨nodes, hs.carries⟩

theorem node_held (hq : q ∈ nodes) : Held (nodes.map node ++ owner) q (q + 8) :=
  Heap.held_object (o := node q) (List.mem_append_left _ (List.mem_map_of_mem hq))

theorem root_held (hroot : Held owner root (root + 4)) :
    Held (nodes.map node ++ owner) root (root + 4) :=
  hroot.subset fun _ ho => List.mem_append_right _ ho

/-- The pointer to the top lies outside the nodes. -/
theorem root_apart (hclient : Client h (nodes.map node ++ owner))
    (hroot : Held owner root (root + 4)) (hq : q ∈ nodes) : root + 4 ≤ q ∨ q + 8 ≤ root := by
  have hperm : (nodes.map node ++ owner).Perm
      (node q :: ((nodes.erase q).map node ++ owner)) :=
    ((List.perm_cons_erase hq).map node).append_right owner
  have hfirst := hclient.forget hperm.symm.subperm
  exact (root_held hroot).apart hfirst

/-- A store into the pointer to the top leaves the nodes what they were. -/
theorem root_kept (hclient : Client h (nodes.map node ++ owner))
    (hroot : Held owner root (root + 4)) (v : Nat) :
    ∀ q ∈ nodes, Agree m (write32 m root v) q (q + 8) := by
  intro q hq
  have hapart := root_apart hclient hroot hq
  exact agree_write32 (by omega)

/-- A new node lies apart from what is held, and holds its item. -/
theorem createStackNode_node {live : List Live} (hclient : Client h live) (item : BitVec 32) :
    createStackNode h item.toNat = .error .abort ∨
      ∃ p h', createStackNode h item.toNat = .ok (p, h') ∧ p ≠ 0 ∧ Client h' (node p :: live) ∧
        (∀ lo hi, Held live lo hi → Agree h.mem h'.mem lo hi) ∧ data h'.mem p = item.toNat := by
  unfold createStackNode
  rcases LinkedList.kmalloc_node hclient with habort | ⟨p, h', hrun, hp, hclient', hkeeps, -⟩
  · exact .inl (by rw [habort]; rfl)
  · refine .inr ⟨p, { h' with mem := LinkedList.fill h'.mem p item.toNat 0 }, ?_, hp,
      LinkedList.Client.fill hclient' item.toNat 0, ?_, ?_⟩
    · rw [hrun, ok_bind]
      simp only [deref_of_ne hp]
      rfl
    · intro lo hi hheld x hlo hhi
      have hapart : hi ≤ p ∨ p + 8 ≤ lo := hheld.apart hclient'
      exact (LinkedList.fill_outside h'.mem item.toNat 0 (by omega)).trans
        (hkeeps lo hi hheld x hlo hhi)
    · rw [LinkedList.data_fill, Nat.mod_eq_of_lt item.isLt]

/-- The two stores of `stack_push`. -/
def link (m : Mem) (root p : Nat) : Mem :=
  write32 (write32 m (p + 4) (read32 m root)) root p

section Link

variable (hroot : root + 4 ≤ p ∨ p + 8 ≤ root)

include hroot

theorem data_link : data (link m root p) p = data m p := by
  rw [data, link, read32_write32_of_disjoint (by omega), read32_write32_of_disjoint (by omega)]
  rfl

theorem next_link : next (link m root p) p = read32 m root := by
  rw [next, link, read32_write32_of_disjoint (by omega), read32_write32_self,
    Nat.mod_eq_of_lt (read32_lt ..)]

end Link

theorem top_link (hp : p < 2 ^ 32) : read32 (link m root p) root = p := by
  rw [link, read32_write32_self, Nat.mod_eq_of_lt hp]

theorem agree_link (hp : q + 8 ≤ p ∨ p + 8 ≤ q) (hroot : root + 4 ≤ q ∨ q + 8 ≤ root) :
    Agree m (link m root p) q (q + 8) := by
  intro x hlo hhi
  rw [link, write32_outside (by omega), write32_outside (by omega)]

/-- A node that is linked is the top of the stack. -/
theorem link_holds (hcarries : Carries h.mem (read32 h.mem root) xs nodes)
    (hclient : Client h (node p :: (nodes.map node ++ owner)))
    (hroot : Held owner root (root + 4)) (hp : p ≠ 0) :
    Holds root owner { h with mem := link h.mem root p } (data h.mem p :: xs) (p :: nodes) := by
  have hheld : Held (node p :: (nodes.map node ++ owner)) p (p + 8) :=
    Heap.held_object List.mem_cons_self
  have hheldRoot : Held (nodes.map node ++ owner) root (root + 4) := root_held hroot
  have hlt := LinkedList.node_lt hclient List.mem_cons_self
  have hapart : root + 4 ≤ p ∨ p + 8 ≤ root := hheldRoot.apart hclient
  constructor
  · have hkept : ∀ q ∈ nodes, Agree h.mem (link h.mem root p) q (q + 8) := by
      intro q hq
      exact agree_link ((node_held hq).apart hclient)
        (root_apart (hclient.forget (List.sublist_cons_self _ _).subperm) hroot hq)
    have hrest := hcarries.congr hkept
    rw [← next_link hapart] at hrest
    show Carries (link h.mem root p) (read32 (link h.mem root p) root) _ _
    rw [top_link (by omega), ← data_link hapart]
    exact hrest.cons hp
  · have hnode := hclient.write32 (v := read32 h.mem root)
      (hheld.mono (Nat.le_add_right p 4) (Nat.le_refl _))
    exact hnode.write32 (hheldRoot.subset fun o ho => List.mem_cons_of_mem _ ho)

/-- A push puts a new node on top. -/
theorem stackPush_holds (hs : Holds root owner h xs nodes) (hroot : Held owner root (root + 4))
    (item : BitVec 32) :
    Exits (fun h' => ∃ p, Holds root owner h' (item.toNat :: xs) (p :: nodes)) (· = .abort)
      (stackPush h root item.toNat) := by
  unfold stackPush
  rcases createStackNode_node hs.client item with
    habort | ⟨p, h', hrun, hp, hclient, hkeeps, hitem⟩
  · rw [habort]
    rfl
  · rw [hrun, ok_bind]
    simp only [deref_of_ne hp]
    have htop : read32 h'.mem root = read32 h.mem root :=
      read32_congr (hkeeps root (root + 4) (root_held hroot))
    have hcarries : Carries h'.mem (read32 h'.mem root) xs nodes := by
      rw [htop]
      exact hs.carries.congr fun q hq => hkeeps q (q + 8) (node_held hq)
    have hlinked := link_holds hcarries hclient hroot hp
    rw [hitem] at hlinked
    exact ⟨p, hlinked⟩

/-- A node that the pointer to the top no longer leads to is given back. -/
theorem unlink_holds {rest : List Nat} (hrest : Carries h.mem (next h.mem p) xs rest)
    (hclient : Client h ((p :: rest).map node ++ owner)) (hroot : Held owner root (root + 4)) :
    Holds root owner (Heap.kfree { h with mem := write32 h.mem root (next h.mem p) } p) xs
      rest := by
  have hheldRoot : Held ((p :: rest).map node ++ owner) root (root + 4) := root_held hroot
  have hstored := hclient.write32 (v := next h.mem p) hheldRoot
  obtain ⟨hfreed, hkeeps⟩ := hstored.free (o := node p) List.mem_cons_self
  have herase : ((p :: rest).map node ++ owner).erase (node p) = rest.map node ++ owner :=
    List.erase_cons_head ..
  rw [herase] at hfreed
  refine ⟨?_, hfreed⟩
  have htop : read32 (Heap.kfree { h with mem := write32 h.mem root (next h.mem p) } p).mem root =
      next h.mem p := by
    refine (read32_congr (hkeeps root (root + 4) hheldRoot)).trans ?_
    show read32 (write32 h.mem root (next h.mem p)) root = _
    rw [read32_write32_self]
    exact Nat.mod_eq_of_lt (read32_lt ..)
  rw [htop]
  refine (hrest.congr fun q hq => ?_).congr fun q hq => hkeeps q (q + 8) ?_
  · exact root_kept hclient hroot (next h.mem p) q (List.mem_cons_of_mem _ hq)
  · exact node_held (List.mem_cons_of_mem _ hq)

/-- A pop takes the top off, or finds the stack empty. -/
theorem stackPop_holds (hs : Holds root owner h xs nodes) (hroot : Held owner root (root + 4)) :
    ∃ h' nodes', stackPop h root = .ok ((DataStructures.stackPop xs).1.getD 0, h') ∧
      Holds root owner h' (DataStructures.stackPop xs).2 nodes' := by
  have hcarries := hs.carries
  have hclient := hs.client
  unfold stackPop
  by_cases hnull : read32 h.mem root = 0
  · rw [hnull] at hcarries
    obtain rfl := hcarries.null
    simp only [stackIsEmpty, hnull, decide_true, if_true]
    exact ⟨h, nodes, rfl, hs⟩
  · obtain ⟨rest, rfl, rfl, hrest⟩ := hcarries.first hnull
    have hitem : data (write32 h.mem root (next h.mem (read32 h.mem root))) (read32 h.mem root) =
        data h.mem (read32 h.mem root) :=
      LinkedList.data_congr (root_kept hclient hroot _ _ List.mem_cons_self)
    simp only [stackIsEmpty, hnull, decide_false, Bool.false_eq_true, if_false, deref_of_ne hnull]
    refine ⟨_, rest, congrArg (fun v => Except.ok (v, _)) hitem, ?_⟩
    exact unlink_holds hrest hclient hroot

/-- What `stack_peek` does: it has no answer for an empty stack, and one for all others. -/
theorem stackPeek_eq (m : Mem) (top : Nat) :
    stackPeek m top = if top = 0 then .error .fault else .ok 0 := by
  unfold stackPeek
  by_cases hnull : top = 0
  · simp only [stackIsEmpty, hnull, decide_true, Bool.not_true, Bool.false_eq_true, if_false]
    rfl
  · simp only [stackIsEmpty, hnull, decide_false, Bool.not_false, if_true]
    rfl

/-! ## Whole runs -/

variable {t t' : Traced} {op : Op}

theorem peek_sound_iff (hs : Holds root owner t.heap t.contents nodes) :
    Sound root t .peek ↔ t.contents.head? = some 0 := by
  have hcarries := hs.carries
  unfold Sound Op.run
  rw [stackPeek_eq]
  by_cases hnull : read32 t.heap.mem root = 0
  · rw [hnull] at hcarries
    rw [if_pos hnull, hcarries.null]
    exact iff_of_false (fun hfault => Stop.noConfusion hfault) (Option.some_ne_none 0).symm
  · obtain ⟨rest, -, hxs, -⟩ := hcarries.first hnull
    rw [if_neg hnull, hxs]
    constructor
    · rintro ⟨-, hanswer⟩
      exact hanswer.symm
    · intro htop
      exact ⟨hxs ▸ hs.right, htop.symm⟩

theorem sound_iff_peeksNull (hs : Holds root owner t.heap t.contents nodes)
    (hroot : Held owner root (root + 4)) (hpolite : Polite root owner t op) :
    Sound root t op ↔ PeeksNull t op := by
  cases op with
  | push item =>
    refine iff_of_true ?_ trivial
    exact exits_bind (stackPush_holds hs hroot item) fun h' ⟨p, h⟩ => ⟨h.right, rfl⟩
  | pop =>
    obtain ⟨h', nodes', hrun, hs'⟩ := stackPop_holds hs hroot
    refine iff_of_true ?_ trivial
    unfold Sound Op.run
    rw [hrun]
    exact ⟨hs'.right, rfl⟩
  | peek => exact peek_sound_iff hs
  | others heap =>
    obtain ⟨-, htop, hkept⟩ := hpolite nodes hs.carries.1
    refine iff_of_true ⟨⟨nodes, ?_⟩, rfl⟩ trivial
    rw [read32_congr htop]
    exact hs.carries.congr hkept

theorem holds_step (hs : Holds root owner t.heap t.contents nodes)
    (hroot : Held owner root (root + 4)) (hpolite : Polite root owner t op)
    (hstep : step root t op = some t') :
    ∃ nodes', Holds root owner t'.heap t'.contents nodes' := by
  unfold step at hstep
  obtain ⟨r, hrun, rfl⟩ := of_toOption_map hstep
  cases op with
  | push item =>
    obtain ⟨h', hpush, hret⟩ := bind_eq_ok hrun
    obtain rfl := Except.ok.inj hret
    have hpushed := stackPush_holds hs hroot item
    rw [hpush] at hpushed
    obtain ⟨p, hpushed⟩ := hpushed
    exact ⟨p :: nodes, hpushed⟩
  | pop =>
    obtain ⟨h', nodes', hpop, hs'⟩ := stackPop_holds hs hroot
    rw [Op.run, hpop] at hrun
    obtain rfl := Except.ok.inj hrun
    exact ⟨nodes', hs'⟩
  | peek =>
    obtain ⟨v, -, hret⟩ := bind_eq_ok hrun
    obtain rfl := Except.ok.inj hret
    exact ⟨nodes, hs⟩
  | others heap =>
    obtain rfl := Except.ok.inj hrun
    obtain ⟨hclient, htop, hkept⟩ := hpolite nodes hs.carries.1
    refine ⟨nodes, ?_, hclient⟩
    show Carries heap.mem (read32 heap.mem root) t.contents nodes
    rw [read32_congr htop]
    exact hs.carries.congr hkept

/-- **A stack is last in, first out exactly while only `NULL` is looked at.**  On a sound heap, and
while the rest of the kernel leaves the nodes and the pointer to the top alone, every
operation of a run from `NULL` does what it does to the abstract stack and returns what it
returns there, if and only if every `stack_peek` comes when the item on top is `NULL`. -/
theorem stack_lifo_iff {ops : List Op} (hclient : Client h owner)
    (hroot : Held owner root (root + 4)) (hnull : read32 h.mem root = 0)
    (hpolite : Throughout (step root) (Polite root owner) { heap := h, contents := [] } ops) :
    Throughout (step root) (Sound root) { heap := h, contents := [] } ops ↔
      Throughout (step root) PeeksNull { heap := h, contents := [] } ops := by
  apply throughout_iff_of (fun t => ∃ nodes, Holds root owner t.heap t.contents nodes)
  · rintro t op ⟨nodes, hs⟩ hpolite
    exact sound_iff_peeksNull hs hroot hpolite
  · rintro t op t' ⟨nodes, hs⟩ hpolite - hstep
    exact holds_step hs hroot hpolite hstep
  · exact ⟨[], ⟨hnull, rfl⟩, hclient⟩
  · exact hpolite

/-- A heap whose memory is zero, with the pointer to the top at `0x1000`. -/
def emptyHeap : Heap.State := (Heap.start fun _ => 0#8).heap

theorem emptyHeap_client : Client emptyHeap [] := ⟨[], Heap.invariant_start fun _ => 0#8⟩

theorem emptyHeap_root : Held [] 0x1000 (0x1000 + 4) := .inl (by decide)

/-- `NULL` is pushed and looked at, an item is pushed over it, and three pops empty the
stack. -/
theorem stack_lifo_iff_three :
    Throughout (step 0x1000) (Sound 0x1000) { heap := emptyHeap, contents := [] }
        [.push 0#32, .peek, .push 7#32, .pop, .pop, .pop] ↔
      Throughout (step 0x1000) PeeksNull { heap := emptyHeap, contents := [] }
        [.push 0#32, .peek, .push 7#32, .pop, .pop, .pop] :=
  stack_lifo_iff emptyHeap_client emptyHeap_root rfl
    ⟨trivial, fun _ _ => ⟨trivial, fun _ _ => ⟨trivial, fun _ _ => ⟨trivial, fun _ _ =>
      ⟨trivial, fun _ _ => ⟨trivial, fun _ _ => trivial⟩⟩⟩⟩⟩⟩

/-- An empty stack is enough. -/
theorem peek_follows_null : ¬ ∀ (root : Nat) (owner : List Live) (h : Heap.State) (ops : List Op),
    Client h owner → Held owner root (root + 4) → read32 h.mem root = 0 →
    Throughout (step root) (Polite root owner) { heap := h, contents := [] } ops →
    Throughout (step root) (Sound root) { heap := h, contents := [] } ops := by
  intro hall
  have hsound := (hall 0x1000 [] emptyHeap [.peek] emptyHeap_client emptyHeap_root rfl
    ⟨trivial, fun _ _ => trivial⟩).1
  have hpeek : stackPeek emptyHeap.mem (read32 emptyHeap.mem 0x1000) = .error .fault :=
    stackPeek_eq emptyHeap.mem 0
  unfold Sound Op.run at hsound
  rw [hpeek] at hsound
  exact Stop.noConfusion hsound

end Stack
end DataStructures
end Medusa
