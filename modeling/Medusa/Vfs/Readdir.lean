import Mathlib.Data.List.Basic
import Mathlib.Data.List.Induction
import Mathlib.Data.Nat.Find
import Medusa.Machine.Loop
import Medusa.Vfs.Search

/-!
# Reading directories

`readdir_fs` of `vfs.c` over the two file systems that have a `readdir`: the
ramdisk (`initrd.c`), whose nodes lie in one flat array, and the device file system
(`devfs.c`).  A node is known by its address, and the two file systems share the
flag `initrd_readdir_call`.

`readdir_fs` compares the name of what the callback returned before it looks
whether there is anything, so no directory is ever read to its end.
-/

namespace Medusa
namespace Vfs
namespace Readdir

open Machine

/-- The functions that a `readdir` member can point to. -/
inductive Callback where
  | initrd
  | devfs
deriving DecidableEq, Repr

/-- The members of an `fs_node_t` that searching and listing use. -/
structure FsNode where
  name : String
  nodeType : FileType
  readdir : Option Callback
deriving DecidableEq, Repr

/-- The address of a node. -/
inductive Ptr where
  | initrdRoot
  | rootNode (i : Nat)
  | device (i : Nat)
deriving DecidableEq, Repr

/-- Where C leaves it open what happens next. -/
inductive Stop where
  /-- A member of the null pointer is read. -/
  | null
  /-- A slot of the device list is read that was never written. -/
  | garbage
deriving DecidableEq, Repr

structure State where
  rootNodes : List FsNode
  devices : List FsNode
  initrdReaddirCall : Bool
deriving DecidableEq, Repr

namespace State

/-- The node at an address. -/
def node (s : State) : Ptr → Option FsNode
  | .initrdRoot => some { name := "/", nodeType := .directory, readdir := some .initrd }
  | .rootNode i => s.rootNodes[i]?
  | .device i => s.devices[i]?

def readdirOf (s : State) (p : Ptr) : Option Callback := (s.node p).bind FsNode.readdir

end State

/-! ## The two file systems -/

def initrdReaddir (s : State) (index : Nat) : Except Stop (Option Ptr) × State :=
  (.ok (if s.rootNodes.length ≤ index then none else some (.rootNode index)),
    { s with initrdReaddirCall := true })

/-- The end of `devfs_readdir`, which reads the slot whatever the index is. -/
def deviceAt (s : State) (index : Nat) : Except Stop (Option Ptr) × State :=
  (if index < s.devices.length then .ok (some (.device index)) else .error .garbage,
    { s with initrdReaddirCall := false })

def devfsReaddir (s : State) (index : Nat) : Except Stop (Option Ptr) × State :=
  if s.devices.length ≤ index then
    if s.initrdReaddirCall then deviceAt s 0 else (.ok none, s)
  else deviceAt s index

def Callback.run : Callback → State → Nat → Except Stop (Option Ptr) × State
  | initrd => initrdReaddir
  | devfs => devfsReaddir

/-- `initrd_dev` is never assigned, so the name `dev` is looked up as the null
pointer. -/
def initrdFinddir (s : State) (node : Ptr) (name : String) : Option Ptr :=
  if node = .initrdRoot ∧ name = "dev" then none
  else (s.rootNodes.findIdx? fun child => child.name = name).map .rootNode

structure Device where
  name : String
  deviceType : FileType
deriving DecidableEq, Repr

/-- The node that `devfs_register_device` makes: its other callbacks are zero. -/
def Device.toNode (d : Device) : FsNode :=
  { name := d.name, nodeType := d.deviceType, readdir := none }

/-- A name that is taken is refused. -/
def devfsRegisterDevice (s : State) (d : Device) : State :=
  if ∃ n ∈ s.devices, n.name = d.name then s
  else { s with devices := s.devices ++ [d.toNode] }

/-! ## The layer above -/

/-- The name of the entry is compared with `dev` before the caller can test the
entry for null. -/
def readdirFs (s : State) (node : Ptr) (index : Nat) : Except Stop (Option Ptr) × State :=
  match s.readdirOf node with
  | none => (.ok none, s)
  | some callback =>
    match callback.run s index with
    | (.ok none, s) => (.error .null, s)
    | (.ok (some dir), s) => (.ok (some dir), s)
    | (.error stop, s) => (.error stop, s)

/-- `none` when the fuel runs out.  The loop goes on at the same directory after a
search below it came back empty. -/
def vfsSearchNode (path : String) :
    Nat → State → Ptr → Nat → Option (Except Stop (Option Ptr) × State)
  | 0, _, _, _ => none
  | fuel + 1, s, parent, indexChild =>
    match readdirFs s parent indexChild with
    | (.error stop, s) => some (.error stop, s)
    | (.ok none, s) => some (.ok none, s)
    | (.ok (some child), s) =>
      match s.node child with
      | none => some (.error .garbage, s)
      | some node =>
        if node.name = path then some (.ok (some child), s)
        else if node.nodeType = .directory then
          match vfsSearchNode path fuel s child (indexChild + 1) with
          | some (.ok none, s) => vfsSearchNode path fuel s parent (indexChild + 1)
          | result => result
        else vfsSearchNode path fuel s parent (indexChild + 1)

/-- The loop of the listing in `kernel_main` and of `ls`: the entries handed to its
body, and how it ended. -/
def listLoop : Nat → State → Ptr → Nat → Option (List Ptr × Except Stop Unit)
  | 0, _, _, _ => none
  | fuel + 1, s, node, i =>
    match readdirFs s node i with
    | (.error stop, _) => some ([], .error stop)
    | (.ok none, _) => some ([], .ok ())
    | (.ok (some dir), s) =>
      (listLoop fuel s node (i + 1)).map fun rest => (dir :: rest.1, rest.2)

/-! ## One call -/

section

variable {s : State} {node : Ptr} {callback : Callback} {index : Nat}

theorem initrdReaddir_of_lt (h : index < s.rootNodes.length) :
    initrdReaddir s index =
      (.ok (some (.rootNode index)), { s with initrdReaddirCall := true }) := by
  rw [initrdReaddir, if_neg (Nat.not_le.mpr h)]

theorem initrdReaddir_of_le (h : s.rootNodes.length ≤ index) :
    initrdReaddir s index = (.ok none, { s with initrdReaddirCall := true }) := by
  rw [initrdReaddir, if_pos h]

theorem deviceAt_of_lt (h : index < s.devices.length) :
    deviceAt s index =
      (.ok (some (.device index)), { s with initrdReaddirCall := false }) := by
  rw [deviceAt, if_pos h]

theorem devfsReaddir_of_lt (h : index < s.devices.length) :
    devfsReaddir s index =
      (.ok (some (.device index)), { s with initrdReaddirCall := false }) := by
  rw [devfsReaddir, if_neg (Nat.not_le.mpr h), deviceAt_of_lt h]

theorem devfsReaddir_of_le (h : s.devices.length ≤ index) (hflag : s.initrdReaddirCall = false) :
    devfsReaddir s index = (.ok none, s) := by
  rw [devfsReaddir, if_pos h, hflag]
  rfl

/-- After a call of the ramdisk a request past the end is one for the first device. -/
theorem devfsReaddir_reset (h : s.devices.length ≤ index) (hflag : s.initrdReaddirCall = true) :
    devfsReaddir s index = deviceAt s 0 := by
  rw [devfsReaddir, if_pos h, if_pos hflag]

/-- A call changes nothing but the flag. -/
theorem run_state (callback : Callback) (s : State) (index : Nat) :
    ∃ flag, (callback.run s index).2 = { s with initrdReaddirCall := flag } := by
  cases callback with
  | initrd => exact ⟨true, rfl⟩
  | devfs =>
    show ∃ flag, (devfsReaddir s index).2 = { s with initrdReaddirCall := flag }
    unfold devfsReaddir
    split
    · split
      · exact ⟨false, rfl⟩
      · exact ⟨s.initrdReaddirCall, rfl⟩
    · exact ⟨false, rfl⟩

theorem readdirFs_state (s : State) (node : Ptr) (index : Nat) :
    ∃ flag, (readdirFs s node index).2 = { s with initrdReaddirCall := flag } := by
  unfold readdirFs
  cases s.readdirOf node with
  | none => exact ⟨s.initrdReaddirCall, rfl⟩
  | some callback =>
    obtain ⟨flag, hflag⟩ := run_state callback s index
    refine ⟨flag, ?_⟩
    dsimp only
    rw [← hflag]
    split <;> simp_all

@[simp] theorem node_flag (s : State) (flag : Bool) (p : Ptr) :
    ({ s with initrdReaddirCall := flag } : State).node p = s.node p := by
  cases p <;> rfl

@[simp] theorem readdirOf_flag (s : State) (flag : Bool) (p : Ptr) :
    ({ s with initrdReaddirCall := flag } : State).readdirOf p = s.readdirOf p := by
  rw [State.readdirOf, node_flag, State.readdirOf]

theorem readdirFs_entry {dir : Ptr} {s' : State} (hnode : s.readdirOf node = some callback)
    (hrun : callback.run s index = (.ok (some dir), s')) :
    readdirFs s node index = (.ok (some dir), s') := by
  rw [readdirFs, hnode]
  dsimp only
  rw [hrun]

theorem readdirFs_end {s' : State} (hnode : s.readdirOf node = some callback)
    (hrun : callback.run s index = (.ok none, s')) :
    readdirFs s node index = (.error .null, s') := by
  rw [readdirFs, hnode]
  dsimp only
  rw [hrun]

theorem readdirFs_stop {stop : Stop} {s' : State} (hnode : s.readdirOf node = some callback)
    (hrun : callback.run s index = (.error stop, s')) :
    readdirFs s node index = (.error stop, s') := by
  rw [readdirFs, hnode]
  dsimp only
  rw [hrun]

/-- A directory never answers with the null pointer. -/
theorem readdirFs_ne_none (hnode : s.readdirOf node = some callback) (s' : State) :
    readdirFs s node index ≠ (.ok none, s') := by
  rw [readdirFs, hnode]
  dsimp only
  split <;> simp

end

/-! ## Searching the ramdisk -/

/-- The node array of the ramdisk: the nodes of the files, then the root of devfs
once it is appended. -/
structure NodeArray where
  files : List FsNode
  dev : Option FsNode
  files_readdir : ∀ f ∈ files, f.readdir = some .initrd
  dev_readdir : ∀ d ∈ dev, d.readdir = some .devfs

namespace NodeArray

def nodes (a : NodeArray) : List FsNode := a.files ++ a.dev.toList

/-- A node with another one behind it is that of a file. -/
theorem readdir_of_lt (a : NodeArray) {i m : Nat} (hlt : i < a.nodes.length) (him : i < m)
    (hm : m < a.nodes.length) : a.nodes[i].readdir = some .initrd := by
  have hdev : a.dev.toList.length ≤ 1 := by cases a.dev <;> simp
  have hlen : a.nodes.length = a.files.length + a.dev.toList.length := List.length_append
  have hi : i < a.files.length := by omega
  have heq : a.nodes[i] = a.files[i] := List.getElem_append_left hi
  rw [heq]
  exact a.files_readdir _ (List.getElem_mem hi)

end NodeArray

section

variable {a : NodeArray} {s : State} {name : String} {m : Nat}

/-- From any directory of the ramdisk and any position that is not past it, the
search ends at the first node of that name: the one that the deepest search reaches. -/
theorem search_first (hm : m < a.nodes.length) (hname : a.nodes[m].name = name)
    (hfirst : ∀ i, (hlt : i < a.nodes.length) → i < m → a.nodes[i].name ≠ name) :
    ∀ (fuel index : Nat) (s : State) (parent : Ptr), s.rootNodes = a.nodes →
      s.readdirOf parent = some .initrd → index ≤ m → m - index < fuel →
      vfsSearchNode name fuel s parent index =
        some (.ok (some (.rootNode m)), { s with initrdReaddirCall := true }) := by
  intro fuel
  induction fuel with
  | zero =>
    intro index s parent hs hparent hle hfuel
    omega
  | succ fuel ih =>
    intro index s parent hs hparent hle hfuel
    have hlt : index < a.nodes.length := Nat.lt_of_le_of_lt hle hm
    have hread : readdirFs s parent index =
        (.ok (some (.rootNode index)), { s with initrdReaddirCall := true }) :=
      readdirFs_entry hparent (initrdReaddir_of_lt (hs ▸ hlt))
    have hnode : s.node (.rootNode index) = some a.nodes[index] := by
      show s.rootNodes[index]? = some a.nodes[index]
      rw [hs]
      exact List.getElem?_eq_getElem hlt
    rw [vfsSearchNode, hread]
    dsimp only
    rw [node_flag, hnode]
    dsimp only
    by_cases hind : index = m
    · subst hind
      rw [if_pos hname]
    · have hnext : index < m := Nat.lt_of_le_of_ne hle hind
      have hchild : s.readdirOf (.rootNode index) = some .initrd := by
        rw [State.readdirOf, hnode]
        exact a.readdir_of_lt hlt hnext hm
      rw [if_neg (hfirst index hlt hnext)]
      split
      · rw [ih (index + 1) { s with initrdReaddirCall := true } (.rootNode index) hs
          (by rwa [readdirOf_flag]) hnext (by omega)]
      · rw [ih (index + 1) { s with initrdReaddirCall := true } parent hs
          (by rwa [readdirOf_flag]) hnext (by omega)]

/-- The linear scan ends there too. -/
theorem finddir_first (hs : s.rootNodes = a.nodes) (hdev : name ≠ "dev")
    (hm : m < a.nodes.length) (hname : a.nodes[m].name = name)
    (hfirst : ∀ i, (hlt : i < a.nodes.length) → i < m → a.nodes[i].name ≠ name) :
    initrdFinddir s .initrdRoot name = some (.rootNode m) := by
  have hfind : a.nodes.findIdx? (fun child => decide (child.name = name)) = some m := by
    rw [List.findIdx?_eq_some_iff_getElem]
    refine ⟨hm, decide_eq_true hname, fun i hi => ?_⟩
    rw [decide_eq_true_eq]
    exact hfirst i (Nat.lt_trans hi hm) hi
  rw [initrdFinddir, if_neg (fun h => hdev h.2), hs, hfind]
  rfl

end

/-- **Search and lookup agree on the ramdisk.**  Whatever the nodes are and whatever
was read before, a name other than `dev` that some node carries is found by
`vfs_search_node` at the node of least index with it, which is the node that
`initrd_finddir` returns. -/
theorem vfsSearchNode_eq_initrdFinddir (a : NodeArray) (s : State) (hs : s.rootNodes = a.nodes)
    (name : String) (hdev : name ≠ "dev") (hcarried : ∃ n ∈ a.nodes, n.name = name) :
    ∃ m, ∃ hm : m < a.nodes.length, a.nodes[m].name = name ∧
      (∀ i, (hlt : i < a.nodes.length) → i < m → a.nodes[i].name ≠ name) ∧
      initrdFinddir s .initrdRoot name = some (.rootNode m) ∧
      ∀ fuel, a.nodes.length ≤ fuel →
        vfsSearchNode name fuel s .initrdRoot 0 =
          some (.ok (initrdFinddir s .initrdRoot name), { s with initrdReaddirCall := true }) := by
  classical
  have hex : ∃ m, ∃ hm : m < a.nodes.length, a.nodes[m].name = name := by
    obtain ⟨n, hn, hname⟩ := hcarried
    obtain ⟨m, hm, rfl⟩ := List.getElem_of_mem hn
    exact ⟨m, hm, hname⟩
  obtain ⟨hm, hname⟩ := Nat.find_spec hex
  have hfirst : ∀ i, (hlt : i < a.nodes.length) → i < Nat.find hex → a.nodes[i].name ≠ name :=
    fun i hlt hi h => Nat.find_min hex hi ⟨hlt, h⟩
  have hfind := finddir_first hs hdev hm hname hfirst
  refine ⟨Nat.find hex, hm, hname, hfirst, hfind, fun fuel hfuel => ?_⟩
  rw [hfind]
  exact search_first hm hname hfirst fuel 0 s .initrdRoot hs rfl (Nat.zero_le _) (by omega)

/-- A directory, a file and the root of devfs. -/
def sampleArray : NodeArray where
  files := [⟨"d/", .directory, some .initrd⟩, ⟨"d/f", .file, some .initrd⟩]
  dev := some ⟨"dev/", .directory, some .devfs⟩
  files_readdir := by decide
  dev_readdir := by decide

/-- The file is found below the directory, which the root reads first. -/
theorem vfsSearchNode_sample :
    ∃ m, ∃ hm : m < sampleArray.nodes.length, sampleArray.nodes[m].name = "d/f" ∧
      (∀ i, (hlt : i < sampleArray.nodes.length) → i < m → sampleArray.nodes[i].name ≠ "d/f") ∧
      initrdFinddir ⟨sampleArray.nodes, [], false⟩ .initrdRoot "d/f" = some (.rootNode m) ∧
      ∀ fuel, sampleArray.nodes.length ≤ fuel →
        vfsSearchNode "d/f" fuel ⟨sampleArray.nodes, [], false⟩ .initrdRoot 0 =
          some (.ok (initrdFinddir ⟨sampleArray.nodes, [], false⟩ .initrdRoot "d/f"),
            ⟨sampleArray.nodes, [], true⟩) :=
  vfsSearchNode_eq_initrdFinddir sampleArray ⟨sampleArray.nodes, [], false⟩ rfl "d/f"
    (by decide) ⟨⟨"d/f", .file, some .initrd⟩, by decide, rfl⟩

/-! ## Reading to the end -/

namespace State

/-- How many entries a file system has. -/
def count (s : State) : Callback → Nat
  | .initrd => s.rootNodes.length
  | .devfs => s.devices.length

/-- There is an entry to return for `index`: one at that position, or the first
device where devfs starts again. -/
def HasEntry (s : State) (callback : Callback) (index : Nat) : Prop :=
  index < s.count callback ∨
    callback = .devfs ∧ s.initrdReaddirCall = true ∧ 0 < s.devices.length

instance (s : State) (callback : Callback) (index : Nat) : Decidable (s.HasEntry callback index) :=
  inferInstanceAs (Decidable (_ ∨ _))

/-- What is wrong with reading past the entries. -/
def endStop (s : State) (callback : Callback) : Stop :=
  if callback = .devfs ∧ s.initrdReaddirCall = true ∧ s.devices = [] then .garbage else .null

end State

/-- Where the entries of a file system are. -/
def Callback.entry : Callback → Nat → Ptr
  | initrd => .rootNode
  | devfs => .device

@[simp] theorem count_flag (s : State) (flag : Bool) (callback : Callback) :
    ({ s with initrdReaddirCall := flag } : State).count callback = s.count callback := by
  cases callback <;> rfl

/-- The call comes back. -/
def Returns (s : State) (node : Ptr) (index : Nat) : Prop :=
  ∃ dir, (readdirFs s node index).1 = .ok dir

section

variable {s : State} {node : Ptr} {callback : Callback} {index : Nat}

/-- Having returned an entry, the file system has none for the end. -/
theorem run_of_lt (h : index < s.count callback) :
    ∃ flag, callback.run s index =
        (.ok (some (callback.entry index)), { s with initrdReaddirCall := flag }) ∧
      ¬ ({ s with initrdReaddirCall := flag } : State).HasEntry callback (s.count callback) := by
  cases callback with
  | initrd =>
    refine ⟨true, initrdReaddir_of_lt h, fun hentry => ?_⟩
    cases hentry with
    | inl hlt => exact Nat.lt_irrefl _ hlt
    | inr hdevfs => simp at hdevfs
  | devfs =>
    refine ⟨false, devfsReaddir_of_lt h, fun hentry => ?_⟩
    cases hentry with
    | inl hlt => exact Nat.lt_irrefl _ hlt
    | inr hdevfs => simp at hdevfs

theorem endStop_of_pos (h : 0 < s.count callback) : s.endStop callback = .null := by
  rw [State.endStop, if_neg]
  rintro ⟨rfl, -, hempty⟩
  rw [State.count, hempty] at h
  simp at h

theorem readdirFs_stops (hnode : s.readdirOf node = some callback)
    (hentry : ¬ s.HasEntry callback index) :
    ∃ s', readdirFs s node index = (.error (s.endStop callback), s') := by
  have hle : s.count callback ≤ index := Nat.le_of_not_lt fun h => hentry (Or.inl h)
  cases callback with
  | initrd =>
    refine ⟨{ s with initrdReaddirCall := true }, ?_⟩
    rw [readdirFs_end hnode (initrdReaddir_of_le hle), State.endStop, if_neg (fun h => by simp at h)]
  | devfs =>
    by_cases hflag : s.initrdReaddirCall = true
    · have hempty : ¬ 0 < s.devices.length := fun hpos => hentry (Or.inr ⟨rfl, hflag, hpos⟩)
      have hrun : Callback.devfs.run s index =
          (.error .garbage, { s with initrdReaddirCall := false }) :=
        (devfsReaddir_reset hle hflag).trans (by rw [deviceAt, if_neg hempty])
      refine ⟨{ s with initrdReaddirCall := false }, ?_⟩
      rw [readdirFs_stop hnode hrun, State.endStop, if_pos]
      exact ⟨rfl, hflag, List.eq_nil_of_length_eq_zero (by omega)⟩
    · refine ⟨s, ?_⟩
      rw [readdirFs_end hnode (devfsReaddir_of_le hle (Bool.eq_false_iff.mpr hflag)),
        State.endStop, if_neg (fun h => hflag h.2.1)]

theorem returns_of_hasEntry (hnode : s.readdirOf node = some callback)
    (hentry : s.HasEntry callback index) : Returns s node index := by
  by_cases hlt : index < s.count callback
  · obtain ⟨flag, hrun, -⟩ := run_of_lt hlt
    exact ⟨_, by rw [readdirFs_entry hnode hrun]⟩
  · obtain ⟨rfl, hflag, hpos⟩ := hentry.resolve_left hlt
    have hrun : Callback.devfs.run s index =
        (.ok (some (.device 0)), { s with initrdReaddirCall := false }) :=
      (devfsReaddir_reset (Nat.le_of_not_lt hlt) hflag).trans (deviceAt_of_lt hpos)
    exact ⟨_, by rw [readdirFs_entry hnode hrun]⟩

theorem returns_iff (hnode : s.readdirOf node = some callback) :
    Returns s node index ↔ s.HasEntry callback index := by
  constructor
  · intro hreturns
    by_contra hentry
    obtain ⟨dir, hdir⟩ := hreturns
    obtain ⟨s', hstop⟩ := readdirFs_stops hnode hentry
    rw [hstop] at hdir
    simp at hdir
  · exact returns_of_hasEntry hnode

end

/-- From position `i` on the loop visits the entries that are left, and stops in
the call for the one after the last. -/
theorem listLoop_from {node : Ptr} {callback : Callback} :
    ∀ (fuel i : Nat) (s : State), s.readdirOf node = some callback → i ≤ s.count callback →
      (i = s.count callback → ¬ s.HasEntry callback i) → s.count callback - i < fuel →
      listLoop fuel s node i =
        some ((List.range' i (s.count callback - i)).map callback.entry,
          .error (s.endStop callback)) := by
  intro fuel
  induction fuel with
  | zero =>
    intro i s hnode hi hlast hfuel
    omega
  | succ fuel ih =>
    intro i s hnode hi hlast hfuel
    by_cases hlt : i < s.count callback
    · obtain ⟨flag, hrun, hend⟩ := run_of_lt hlt
      have hrest := ih (i + 1) { s with initrdReaddirCall := flag }
        (by rwa [readdirOf_flag]) (by rwa [count_flag])
        (fun h => h ▸ hend) (by rw [count_flag]; omega)
      have hpos : 0 < s.count callback := Nat.zero_lt_of_lt hlt
      rw [endStop_of_pos (by rwa [count_flag]), count_flag] at hrest
      rw [listLoop, readdirFs_entry hnode hrun, endStop_of_pos hpos]
      dsimp only
      rw [hrest, show s.count callback - i = s.count callback - (i + 1) + 1 by omega,
        List.range'_succ]
      rfl
    · have heq : i = s.count callback := Nat.le_antisymm hi (Nat.le_of_not_lt hlt)
      obtain ⟨s', hstop⟩ := readdirFs_stops hnode (hlast heq)
      rw [listLoop, hstop, show s.count callback - i = 0 by omega]
      rfl

/-- What a search that comes back has done: the flag aside it left the state alone,
and it found a node of that name or started where there is nothing to read. -/
structure Searched (path : String) (s s' : State) (parent : Ptr) (result : Option Ptr) : Prop where
  state : ∃ flag, s' = { s with initrdReaddirCall := flag }
  found : ∀ child ∈ result, ∃ node, s.node child = some node ∧ node.name = path
  empty : result = none → s.readdirOf parent = none

/-- A round that goes on in the state of the entry it read. -/
theorem Searched.mono {path : String} {s s₁ s' : State} {parent : Ptr} {result : Option Ptr}
    (h : Searched path s₁ s' parent result) (hs : ∃ flag, s₁ = { s with initrdReaddirCall := flag }) :
    Searched path s s' parent result := by
  obtain ⟨flag, rfl⟩ := hs
  obtain ⟨flag', rfl⟩ := h.state
  refine ⟨⟨flag', rfl⟩, fun child hchild => ?_, fun hnone => ?_⟩
  · have hfound := h.found child hchild
    rwa [node_flag] at hfound
  · have hempty := h.empty hnone
    rwa [readdirOf_flag] at hempty

theorem searched {path : String} :
    ∀ (fuel index : Nat) (s s' : State) (parent : Ptr) (result : Option Ptr),
      vfsSearchNode path fuel s parent index = some (.ok result, s') →
      Searched path s s' parent result := by
  intro fuel
  induction fuel with
  | zero =>
    intro index s s' parent result hsearch
    simp [vfsSearchNode] at hsearch
  | succ fuel ih =>
    intro index s s' parent result hsearch
    have hstate := readdirFs_state s parent index
    rw [vfsSearchNode] at hsearch
    cases hread : readdirFs s parent index with
    | mk dir s₁ =>
      rw [hread] at hsearch hstate
      dsimp only at hstate
      match dir with
      | .error stop => simp at hsearch
      | .ok none =>
        simp only [Option.some.injEq, Prod.mk.injEq, Except.ok.injEq] at hsearch
        obtain ⟨rfl, rfl⟩ := hsearch
        refine ⟨hstate, fun child hchild => by simp at hchild, fun _ => ?_⟩
        cases hcallback : s.readdirOf parent with
        | none => rfl
        | some callback => exact absurd hread (readdirFs_ne_none hcallback s₁)
      | .ok (some child) =>
        dsimp only at hsearch
        cases hchild : s₁.node child with
        | none => simp [hchild] at hsearch
        | some node =>
          rw [hchild] at hsearch
          dsimp only at hsearch
          split at hsearch
          · rename_i hname
            simp only [Option.some.injEq, Prod.mk.injEq, Except.ok.injEq] at hsearch
            obtain ⟨rfl, rfl⟩ := hsearch
            obtain ⟨flag, rfl⟩ := hstate
            rw [node_flag] at hchild
            refine ⟨⟨flag, rfl⟩, fun c hc => ?_, fun h => by simp at h⟩
            obtain rfl : child = c := Option.some.inj hc
            exact ⟨node, hchild, hname⟩
          · split at hsearch
            · -- the directory `child` is searched first
              split at hsearch
              · rename_i s₂ hbelow
                obtain ⟨flag, hflag⟩ := hstate
                obtain ⟨flag', hflag'⟩ := (ih _ _ _ _ _ hbelow).state
                exact (ih _ _ _ _ _ hsearch).mono ⟨flag', by rw [hflag', hflag]⟩
              · rename_i hne
                have hbelow := (ih _ _ _ _ _ hsearch).mono hstate
                refine ⟨hbelow.state, hbelow.found, fun hnone => ?_⟩
                rw [hnone] at hsearch
                exact absurd hsearch (hne s')
            · exact (ih _ _ _ _ _ hsearch).mono hstate

/-- **No directory is read to its end.**  `readdir_fs` returns from a directory exactly
for the positions that have an entry.  A loop over the directory visits each entry once,
in order, and then stops in `readdir_fs`; and a search that comes back has found its
name, so a failed one stops there too. -/
theorem readdirFs_returns_iff (s : State) (node : Ptr) (callback : Callback)
    (hnode : s.readdirOf node = some callback) :
    (∀ index, Returns s node index ↔ s.HasEntry callback index) ∧
      (∀ fuel, s.count callback < fuel →
        listLoop fuel s node 0 =
          some ((List.range (s.count callback)).map callback.entry,
            .error (s.endStop callback))) ∧
      ∀ path fuel index result s', vfsSearchNode path fuel s node index = some (.ok result, s') →
        ∃ child n, result = some child ∧ s.node child = some n ∧ n.name = path := by
  refine ⟨fun index => returns_iff hnode, fun fuel hfuel => ?_, fun path fuel index result s' h => ?_⟩
  · have hend : 0 = s.count callback → ¬ s.HasEntry callback 0 := by
      intro hzero hentry
      cases hentry with
      | inl hlt => omega
      | inr hdevfs =>
        obtain ⟨rfl, -, hpos⟩ := hdevfs
        exact Nat.ne_of_lt hpos hzero
    rw [List.range_eq_range']
    exact listLoop_from fuel 0 s hnode (Nat.zero_le _) hend hfuel
  · have hsearched := searched fuel index s s' node result h
    cases result with
    | none =>
      rw [hsearched.empty rfl] at hnode
      simp at hnode
    | some child =>
      obtain ⟨n, hn, hname⟩ := hsearched.found child rfl
      exact ⟨child, n, rfl, hn, hname⟩

/-- A ramdisk of one file, as `kernel_main` lists it. -/
def oneFile : State :=
  { rootNodes := [⟨"f", .file, some .initrd⟩], devices := [], initrdReaddirCall := false }

/-- The listing reads the file and then the null pointer: `initrd_readdir` has
nothing to return for position 1. -/
theorem listLoop_oneFile :
    (initrdReaddir oneFile 1).1 = .ok none ∧ ¬ Returns oneFile .initrdRoot 1 ∧
      listLoop 2 oneFile .initrdRoot 0 = some ([.rootNode 0], .error .null) := by
  refine ⟨by decide, ?_, by decide⟩
  have hnode : oneFile.readdirOf .initrdRoot = some .initrd := rfl
  rw [returns_iff hnode]
  decide

theorem readdirFs_returns_oneFile :
    (∀ index, Returns oneFile .initrdRoot index ↔ oneFile.HasEntry .initrd index) ∧
      (∀ fuel, oneFile.count .initrd < fuel →
        listLoop fuel oneFile .initrdRoot 0 =
          some ((List.range (oneFile.count .initrd)).map Callback.initrd.entry,
            .error (oneFile.endStop .initrd))) ∧
      ∀ path fuel index result s',
        vfsSearchNode path fuel oneFile .initrdRoot index = some (.ok result, s') →
        ∃ child n, result = some child ∧ oneFile.node child = some n ∧ n.name = path :=
  readdirFs_returns_iff oneFile .initrdRoot .initrd rfl

/-! ## Listing the devices -/

inductive Event where
  | register (device : Device)
  | initrdReaddir (index : Nat)
  | devfsReaddir (index : Nat)

namespace Event

def device : Event → Option Device
  | register device => some device
  | _ => none

/-- The file system whose `readdir` is called. -/
def callback : Event → Option Callback
  | register _ => none
  | initrdReaddir _ => some .initrd
  | devfsReaddir _ => some .devfs

end Event

/-- A call that stops ends the run. -/
def State.step (s : State) : Event → Except Stop State
  | .register device => .ok (devfsRegisterDevice s device)
  | .initrdReaddir index =>
    (Callback.initrd.run s index).1.map fun _ => (Callback.initrd.run s index).2
  | .devfsReaddir index =>
    (Callback.devfs.run s index).1.map fun _ => (Callback.devfs.run s index).2

def State.run (s : State) (events : List Event) : Except Stop State := events.foldlM State.step s

/-- After `devfs_initialize`: the device list is empty and the flag has its first
value. -/
def State.boot (rootNodes : List FsNode) : State :=
  { rootNodes := rootNodes, devices := [], initrdReaddirCall := false }

def registrations (events : List Event) : List Device := events.filterMap Event.device

/-- The file system that was read last. -/
def lastRead (events : List Event) : Option Callback := (events.filterMap Event.callback).getLast?

/-- The nodes of the devices, the first of each name, in the order they came. -/
def devicesOf (devices : List Device) : List FsNode :=
  devices.foldl (fun nodes d =>
    if ∃ n ∈ nodes, n.name = d.name then nodes else nodes ++ [d.toNode]) []

/-- Position `i` of a list of `n` devices. -/
def listed (n i : Nat) : Option Ptr := if i < n then some (.device i) else none

section

variable {s s' : State} {e : Event} {events : List Event} {rootNodes : List FsNode}

/-- Which call was last is all that `devfs_readdir` leaves in the flag. -/
theorem devfsReaddir_flag (s : State) (index : Nat) :
    (devfsReaddir s index).2 = { s with initrdReaddirCall := false } := by
  unfold devfsReaddir
  split
  · split
    · rfl
    · rename_i hflag
      rw [Bool.not_eq_true] at hflag
      rw [← hflag]
  · rfl

theorem step_ok (h : s.step e = .ok s') :
    (∃ d, e = .register d ∧ s' = devfsRegisterDevice s d) ∨
      (∃ i, e = .initrdReaddir i ∧ s' = { s with initrdReaddirCall := true }) ∨
      ∃ i, e = .devfsReaddir i ∧ s' = { s with initrdReaddirCall := false } := by
  cases e with
  | register d => exact Or.inl ⟨d, rfl, (Except.ok.inj h).symm⟩
  | initrdReaddir i => exact Or.inr (Or.inl ⟨i, rfl, (Except.ok.inj h).symm⟩)
  | devfsReaddir i =>
    refine Or.inr (Or.inr ⟨i, rfl, ?_⟩)
    rw [← devfsReaddir_flag s i]
    rw [State.step] at h
    cases hresult : (Callback.devfs.run s i).1 with
    | error stop =>
      rw [hresult] at h
      simp [Except.map] at h
    | ok dir =>
      rw [hresult] at h
      exact (Except.ok.inj h).symm

theorem run_concat (h : s.run (events ++ [e]) = .ok s') :
    ∃ s₁, s.run events = .ok s₁ ∧ s₁.step e = .ok s' := by
  rw [State.run, List.foldlM_append] at h
  obtain ⟨s₁, hrun, hlast⟩ := bind_eq_ok h
  have hstep : (s₁.step e >>= pure) = .ok s' := hlast
  rw [bind_pure] at hstep
  exact ⟨s₁, hrun, hstep⟩

theorem devicesOf_concat (devices : List Device) (d : Device) (s : State)
    (h : s.devices = devicesOf devices) :
    (devfsRegisterDevice s d).devices = devicesOf (devices ++ [d]) := by
  rw [devicesOf, List.foldl_append, ← devicesOf, ← h, devfsRegisterDevice]
  show _ = if ∃ n ∈ s.devices, n.name = d.name then s.devices else s.devices ++ [d.toNode]
  split <;> rfl

/-- Registering leaves the flag alone. -/
theorem devfsRegisterDevice_flag (s : State) (d : Device) :
    (devfsRegisterDevice s d).initrdReaddirCall = s.initrdReaddirCall := by
  rw [devfsRegisterDevice]
  split <;> rfl

/-- The registrations decide the device list, and the last call the flag. -/
theorem run_spec (h : (State.boot rootNodes).run events = .ok s') :
    s'.devices = devicesOf (registrations events) ∧
      (s'.initrdReaddirCall = true ↔ lastRead events = some .initrd) := by
  induction events using List.reverseRecOn generalizing s' with
  | nil =>
    obtain rfl := Except.ok.inj h
    exact ⟨rfl, by simp [State.boot, lastRead]⟩
  | append_singleton events e ih =>
    obtain ⟨s₁, hrun, hstep⟩ := run_concat h
    obtain ⟨hdevices, hflag⟩ := ih hrun
    rw [registrations, lastRead, List.filterMap_append, List.filterMap_append]
    obtain ⟨d, rfl, rfl⟩ | ⟨i, rfl, rfl⟩ | ⟨i, rfl, rfl⟩ := step_ok hstep
    · refine ⟨devicesOf_concat _ d s₁ hdevices, ?_⟩
      rw [devfsRegisterDevice_flag, hflag, lastRead]
      simp [Event.callback]
    · refine ⟨?_, by simp [Event.callback]⟩
      show s₁.devices = _
      rw [hdevices, registrations]
      exact congrArg devicesOf (List.append_nil _).symm
    · refine ⟨?_, by simp [Event.callback]⟩
      show s₁.devices = _
      rw [hdevices, registrations]
      exact congrArg devicesOf (List.append_nil _).symm

/-- Asked for position `i`, the device file system answers as a list would exactly if
the position is taken or the flag is clear. -/
theorem devfsReaddir_listed_iff (s : State) (i : Nat) :
    (devfsReaddir s i).1 = .ok (listed s.devices.length i) ↔
      i < s.devices.length ∨ s.initrdReaddirCall ≠ true := by
  by_cases hlt : i < s.devices.length
  · rw [devfsReaddir_of_lt hlt, listed, if_pos hlt]
    exact ⟨fun _ => Or.inl hlt, fun _ => rfl⟩
  · have hle := Nat.le_of_not_lt hlt
    by_cases hflag : s.initrdReaddirCall = true
    · rw [devfsReaddir_reset hle hflag, listed, if_neg hlt, deviceAt]
      constructor
      · intro h
        split at h <;> simp at h
      · intro h
        cases h with
        | inl h => exact absurd h hlt
        | inr h => exact absurd hflag h
    · rw [devfsReaddir_of_le hle (Bool.eq_false_iff.mpr hflag), listed, if_neg hlt]
      exact ⟨fun _ => Or.inr hflag, fun _ => rfl⟩

end

/-- **When a listing of `/dev` depends on nothing but the devices.**  Two runs that
registered the same devices agree on position `i`, with the device there or the null
pointer past the last, exactly if there is a device at `i` or neither run read the
ramdisk last. -/
theorem devfs_listing_iff {rootNodes₁ rootNodes₂ : List FsNode} {events₁ events₂ : List Event}
    {s₁ s₂ : State} (h₁ : (State.boot rootNodes₁).run events₁ = .ok s₁)
    (h₂ : (State.boot rootNodes₂).run events₂ = .ok s₂)
    (hsame : registrations events₁ = registrations events₂) (i : Nat) :
    (s₁.devices = devicesOf (registrations events₁) ∧ s₂.devices = s₁.devices) ∧
      (((devfsReaddir s₁ i).1 = .ok (listed s₁.devices.length i) ∧
          (devfsReaddir s₂ i).1 = .ok (listed s₁.devices.length i)) ↔
        i < (devicesOf (registrations events₁)).length ∨
          (lastRead events₁ ≠ some .initrd ∧ lastRead events₂ ≠ some .initrd)) := by
  obtain ⟨hdevices₁, hflag₁⟩ := run_spec h₁
  obtain ⟨hdevices₂, hflag₂⟩ := run_spec h₂
  have hdevices : s₂.devices = s₁.devices := by rw [hdevices₁, hdevices₂, hsame]
  refine ⟨⟨hdevices₁, hdevices⟩, ?_⟩
  have hright := devfsReaddir_listed_iff s₂ i
  rw [hdevices] at hright
  rw [devfsReaddir_listed_iff s₁ i, hright, ← hdevices₁, ← or_and_left, Ne, Ne, Ne, Ne, hflag₁,
    hflag₂]

def console : Device := { name := "stdin", deviceType := .characterDevice }

/-- The two histories of the example: in the second the ramdisk is read at the end. -/
def quietEvents : List Event := [.register console, .initrdReaddir 0, .devfsReaddir 0]

def readEvents : List Event := [.register console, .devfsReaddir 0, .initrdReaddir 0]

/-- With one device registered, position 1 is empty after the first history, and
holds the device after the second. -/
theorem devfs_listing_differs :
    registrations quietEvents = registrations readEvents ∧
      ((State.boot []).run quietEvents).map (fun s => (devfsReaddir s 1).1) = .ok (.ok none) ∧
      ((State.boot []).run readEvents).map (fun s => (devfsReaddir s 1).1) =
        .ok (.ok (some (.device 0))) :=
  ⟨rfl, rfl, rfl⟩

/-- The state that both histories lead to, but for the flag. -/
def oneDevice (flag : Bool) : State :=
  { rootNodes := [], devices := [console.toNode], initrdReaddirCall := flag }

theorem devfs_listing_sample :
    ((oneDevice false).devices = devicesOf (registrations quietEvents) ∧
        (oneDevice true).devices = (oneDevice false).devices) ∧
      (((devfsReaddir (oneDevice false) 1).1 = .ok (listed (oneDevice false).devices.length 1) ∧
          (devfsReaddir (oneDevice true) 1).1 = .ok (listed (oneDevice false).devices.length 1)) ↔
        1 < (devicesOf (registrations quietEvents)).length ∨
          (lastRead quietEvents ≠ some .initrd ∧ lastRead readEvents ≠ some .initrd)) := by
  have hquiet : (State.boot []).run quietEvents = .ok (oneDevice false) := rfl
  have hread : (State.boot []).run readEvents = .ok (oneDevice true) := rfl
  exact devfs_listing_iff hquiet hread rfl 1

end Readdir
end Vfs
end Medusa
