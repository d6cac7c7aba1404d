import Medusa.Initrd.Nodes
import Medusa.Machine.Run
import Medusa.Vfs.Readdir

/-!
# Opening and reading files

`vfs_open`, `close_fs`, `read_fs` and `write_fs` over a ramdisk that is mounted as the
root, after `kernel_main` has put the root of devfs behind its nodes.  A handle is the
address of a node, so all who open a file share one mode.

The ideal file system is the list of the files that were packed, with a mode for each.
Clients that name files of the archive and read into memory of their own get from the
kernel what the ideal file system gives them, for as long as they run.
-/

namespace Medusa
namespace Vfs

open Machine Initrd

/-! ## The code -/

/-- A name as the searches compare it. -/
def text (bytes : List (BitVec 8)) : String := String.ofList (bytes.map fun b => Char.ofNat b.toNat)

/-- The functions a device is registered with; what they do is up to the driver. -/
structure Driver where
  openNode : Option (Logged → Logged)
  closeNode : Option (Logged → Logged)
  read : Option (Logged → Nat → Nat → Nat → Logged × Nat)
  write : Option (Logged → Nat → Nat → Nat → Logged × Nat)

structure Mount where
  /-- `fs_root` is set. -/
  hasRoot : Bool
  /-- The nodes of the files. -/
  ramdisk : Ramdisk
  /-- The root of devfs follows them. -/
  hasDev : Bool
  devices : List (Readdir.FsNode × Driver)
  initrdReaddirCall : Bool
  /-- The member `mode` of each node. -/
  mode : Readdir.Ptr → BitVec 32
  memory : Logged

/-- A node of the ramdisk as the search sees it; `unset` is what the allocator left in
`node_type`. -/
def fileEntry (unset : FileType) (n : Initrd.FsNode) : Readdir.FsNode :=
  { name := text n.name, nodeType := n.nodeType.getD unset, readdir := some .initrd }

def devEntry : Readdir.FsNode :=
  { name := text devRoot.name, nodeType := .directory, readdir := some .devfs }

namespace Mount

/-- `root_nodes`. -/
def array (unset : FileType) (s : Mount) : Readdir.NodeArray where
  files := s.ramdisk.rootNodes.map (fileEntry unset)
  dev := if s.hasDev then some devEntry else none
  files_readdir := by
    intro f hf
    obtain ⟨n, -, rfl⟩ := List.mem_map.mp hf
    rfl
  dev_readdir := by
    intro d hd
    rcases h : s.hasDev with _ | _
    · simp [h] at hd
    · simp only [h, if_true, Option.mem_def, Option.some.injEq] at hd
      rw [← hd]
      rfl

def searchState (unset : FileType) (s : Mount) : Readdir.State :=
  { rootNodes := (s.array unset).nodes
    devices := s.devices.map Prod.fst
    initrdReaddirCall := s.initrdReaddirCall }

/-- The driver of a node; those of the ramdisk have none. -/
def driver (s : Mount) : Readdir.Ptr → Option Driver
  | .device i => (s.devices[i]?).map Prod.snd
  | _ => none

def setMode (s : Mount) (node : Readdir.Ptr) (flags : BitVec 32) : Mount :=
  { s with mode := Function.update s.mode node flags }

end Mount

def oRdonly : BitVec 32 := 0

def oWronly : BitVec 32 := 1

/-- The flags for a mode: `r` and `w` are known, and `O_RDONLY` is zero. -/
def openFlags (mode : List (BitVec 8)) : BitVec 32 :=
  (if mode = [0x72] then oRdonly else 0) ||| (if mode = [0x77] then oWronly else 0)

def openFs (s : Mount) (node : Readdir.Ptr) (flags : BitVec 32) : Mount :=
  match (s.driver node).bind Driver.openNode with
  | some callback => { s with memory := callback s.memory }
  | none => s.setMode node flags

/-- `none` when the fuel of the search runs out. -/
def vfsOpen (unset : FileType) (fuel : Nat) (s : Mount) (path mode : List (BitVec 8)) :
    Option (Except Readdir.Stop (Option Readdir.Ptr) × Mount) :=
  if s.hasRoot then
    (Readdir.vfsSearchNode (text path) fuel (s.searchState unset) .initrdRoot 0).map
      fun (result, t) =>
        let s := { s with initrdReaddirCall := t.initrdReaddirCall }
        match result with
        | .error stop => (.error stop, s)
        | .ok none => (.ok none, s)
        | .ok (some file) =>
          if (t.node file).map Readdir.FsNode.nodeType = some .file then
            (.ok (some file), openFs s file (openFlags mode))
          else (.ok none, s)
  else some (.ok none, s)

def closeFs (s : Mount) : Option Readdir.Ptr → Mount
  | none => s
  | some node =>
    match (s.driver node).bind Driver.closeNode with
    | some callback => { s with memory := callback s.memory }
    | none => s.setMode node 0

def readFs (s : Mount) (node : Option Readdir.Ptr) (offset size buffer : Nat) : Mount × Nat :=
  match node with
  | none => (s, minusOne)
  | some (.rootNode i) =>
    if i < s.ramdisk.rootNodes.length then
      let (memory, count) := Initrd.readFs s.ramdisk.listHeaders s.ramdisk.rootNodes[i]? s.memory
        offset size buffer
      ({ s with memory := memory }, count)
    else (s, 0)
  | some .initrdRoot =>
    -- its `inode` is 0, and its `read` is that of the files
    let (memory, count) := initrdReadLogged s.memory s.ramdisk.listHeaders 0 offset size buffer
    ({ s with memory := memory }, count)
  | some (.device i) =>
    match (s.driver (.device i)).bind Driver.read with
    | some callback =>
      let (memory, count) := callback s.memory offset size buffer
      ({ s with memory := memory }, count)
    | none => (s, 0)

/-- No node of the ramdisk has a `write`. -/
def writeFs (s : Mount) (node : Readdir.Ptr) (offset size buffer : Nat) : Mount × Nat :=
  match (s.driver node).bind Driver.write with
  | some callback =>
    let (memory, count) := callback s.memory offset size buffer
    ({ s with memory := memory }, count)
  | none => (s, 0)

/-- A call of a client. -/
inductive Request where
  | open (path mode : List (BitVec 8))
  | close (node : Option Readdir.Ptr)
  | read (node : Option Readdir.Ptr) (offset size buffer : Nat)
  | write (node : Readdir.Ptr) (offset size buffer : Nat)

/-- The file system after a call that returns. -/
def serve (unset : FileType) (fuel : Nat) (s : Mount) : Request → Option Mount
  | .open path mode =>
    match vfsOpen unset fuel s path mode with
    | some (.ok _, s) => some s
    | _ => none
  | .close node => some (closeFs s node)
  | .read node offset size buffer => some (readFs s node offset size buffer).1
  | .write node offset size buffer => some (writeFs s node offset size buffer).1

/-! ## The ideal file system -/

/-- The modes of the files. -/
abbrev Modes := Nat → BitVec 32

/-- Opening gives the first file of the name, if it is a plain file. -/
def idealOpen (files : List File) (modes : Modes) (path mode : List (BitVec 8)) :
    Option Nat × Modes :=
  match files.findIdx? fun f => f.name = path with
  | some i =>
    if (files[i]?).map File.typeflag = some 0x30 then
      (some i, Function.update modes i (openFlags mode))
    else (none, modes)
  | none => (none, modes)

def idealStep (files : List File) (modes : Modes) : Request → Modes
  | .open path mode => (idealOpen files modes path mode).2
  | .close (some (.rootNode i)) => Function.update modes i 0
  | _ => modes

/-- The modes that the kernel keeps. -/
def modesOf (s : Mount) : Modes := fun i => s.mode (.rootNode i)

/-! ## Names -/

theorem text_injective : Function.Injective text := by
  intro a b h
  have hchars := String.ofList_injective h
  refine List.map_injective_iff.mpr (fun x y hxy => ?_) hchars
  have hval := congrArg Char.toNat hxy
  have hsmall : ∀ z : BitVec 8, (Char.ofNat z.toNat).toNat = z.toNat := by decide
  rw [hsmall, hsmall] at hval
  exact BitVec.eq_of_toNat_eq hval

theorem text_inj {a b : List (BitVec 8)} : text a = text b ↔ a = b := text_injective.eq_iff

/-! ## Reading -/

section

variable {s : Logged} {dst src size : Nat} {x : Nat}

theorem logged_memcpy_frame (hx : ∀ j, j < size → wrap (dst + j) ≠ x) :
    (s.memcpy dst src size).mem x = s.mem x := by
  induction size with
  | zero => rfl
  | succ size ih =>
    rw [logged_memcpy_succ]
    exact (Function.update_of_ne (hx size (Nat.lt_succ_self size)).symm _ _).trans
      (ih fun j hj => hx j (Nat.lt_succ_of_lt hj))

/-- What was stored before does not matter. -/
theorem logged_memcpy_congr (s : Logged) :
    (s.memcpy dst src size).mem =
      (({ mem := s.mem, stores := [] } : Logged).memcpy dst src size).mem := by
  induction size with
  | zero => rfl
  | succ size ih =>
    rw [logged_memcpy_succ, logged_memcpy_succ]
    simp only [Logged.store, ih]

variable {list : HeaderList} {inode offset buffer : Nat}

theorem initrdReadLogged_congr (s : Logged) :
    (initrdReadLogged s list inode offset size buffer).1.mem =
      (initrdReadLogged { mem := s.mem, stores := [] } list inode offset size buffer).1.mem := by
  simp only [initrdReadLogged, Logged.store, logged_memcpy_congr s]

/-- A read stores into the buffer and the byte behind it. -/
theorem initrdReadLogged_frame
    (hbuffer : buffer + size < 2 ^ 32) (hx : x < buffer ∨ buffer + size < x) :
    (initrdReadLogged s list inode offset size buffer).1.mem x = s.mem x := by
  have hbyte : ∀ j, j ≤ size → wrap (buffer + j) ≠ x := fun j hj => by
    rw [wrap_of_lt (by omega)]
    omega
  exact (Function.update_of_ne (hbyte size (Nat.le_refl size)).symm _ _).trans
    (logged_memcpy_frame fun j hj => hbyte j (Nat.le_of_lt hj))

end

/-- A file lies inside its archive. -/
theorem headerAt_le (start : Nat) (files : List File) {i : Nat} (hi : i < files.length) :
    start ≤ headerAt start files i ∧
      headerAt start files i + files[i].length ≤ start + archiveLength files := by
  induction files generalizing start i with
  | nil => exact absurd hi (Nat.not_lt_zero i)
  | cons f files ih =>
    rw [archiveLength]
    cases i with
    | zero =>
      simp only [headerAt, List.take_zero, List.map_nil, List.sum_nil, List.getElem_cons_zero]
      omega
    | succ i =>
      have hrest := ih (start + f.length) (Nat.lt_of_succ_lt_succ hi)
      rw [headerAt_succ, List.getElem_cons_succ]
      omega

/-- A buffer, with the byte behind it, lies off the archive. -/
def Clear (start : Nat) (files : List File) (size buffer : Nat) : Prop :=
  buffer + size < 2 ^ 32 ∧ (buffer + size < start ∨ start + archiveLength files ≤ buffer)

instance (start : Nat) (files : List File) (size buffer : Nat) :
    Decidable (Clear start files size buffer) := inferInstanceAs (Decidable (_ ∧ _))

theorem holds_of_eq {m m' : Mem} {start : Nat} {files : List File} (h : Holds m start files)
    (heq : ∀ x, start ≤ x → x < start + archiveLength files → m' x = m x) :
    Holds m' start files := fun i hi => by
  rw [heq _ (by omega) (by omega)]
  exact h i hi

/-! ## Serving the archive -/

/-- The archive is mounted, and memory still holds it. -/
structure Serving (start : Nat) (files : List File) (s : Mount) : Prop where
  root : s.hasRoot = true
  loaded : Loaded start files s.ramdisk
  holds : Holds s.memory.mem start files

/-- What a well-behaved client asks for. -/
def Lawful (start : Nat) (files : List File) (_ : Mount) : Request → Prop
  | .open path _ => path ∈ files.map File.name
  | .close node => ∀ p ∈ node, ∃ i, i < files.length ∧ p = .rootNode i
  | .read node _ size buffer =>
    (∀ p ∈ node, ∃ i, i < files.length ∧ p = .rootNode i) ∧ Clear start files size buffer
  | .write node _ _ _ => ∃ i, i < files.length ∧ node = .rootNode i

/-- What the call gives back. -/
def Result (unset : FileType) (fuel : Nat) (files : List File) (s : Mount) : Request → Prop
  | .open path mode => ∃ s', vfsOpen unset fuel s path mode =
      some (.ok ((idealOpen files (modesOf s) path mode).1.map .rootNode), s')
  | .close _ => True
  | .read none offset size buffer => (readFs s none offset size buffer).2 = minusOne
  | .read (some p) offset size buffer =>
    (readFs s (some p) offset size buffer).2 = size ∧
      ∀ i, ∀ f ∈ files[i]?, p = .rootNode i → offset + size ≤ f.content.length →
        ∀ j, j < size → (readFs s (some p) offset size buffer).1.memory.mem (buffer + j) =
          f.content.getD (offset + j) 0
  | .write node offset size buffer => (writeFs s node offset size buffer).2 = 0

/-- The call returns what the ideal file system returns, and leaves it in step. -/
structure Answers (unset : FileType) (fuel : Nat) (files : List File) (s : Mount) (r : Request) :
    Prop where
  result : Result unset fuel files s r
  returns : ∃ s', serve unset fuel s r = some s' ∧
    modesOf s' = idealStep files (modesOf s) r

section

variable {unset : FileType} {fuel start : Nat} {files : List File} {s : Mount}

theorem Serving.array_length (h : Serving start files s) :
    files.length ≤ (s.array unset).nodes.length := by
  rw [Readdir.NodeArray.nodes, List.length_append]
  simp [Mount.array, h.loaded.length]

theorem Serving.array_get (h : Serving start files s) {i : Nat} (hi : i < files.length)
    (hlt : i < (s.array unset).nodes.length) :
    (s.array unset).nodes[i] = fileEntry unset (fileNode files[i] i) := by
  have hnode := h.loaded.node hi
  have hlen : i < s.ramdisk.rootNodes.length := by rwa [h.loaded.length]
  rw [List.getElem?_eq_getElem hlen] at hnode
  have hfile : i < (s.ramdisk.rootNodes.map (fileEntry unset)).length := by simpa using hlen
  have hget : (s.array unset).nodes[i] = (s.ramdisk.rootNodes.map (fileEntry unset))[i] :=
    List.getElem_append_left hfile
  rw [hget, List.getElem_map, Option.some.inj hnode]

/-- The search ends at the first file of the name. -/
theorem Serving.search (h : Serving start files s) (unset : FileType)
    (hfuel : files.length < fuel) {i : Nat} {path : List (BitVec 8)} (hi : i < files.length)
    (hname : files[i].name = path)
    (hfirst : ∀ j (hj : j < i), files[j].name ≠ path) :
    Readdir.vfsSearchNode (text path) fuel (s.searchState unset) .initrdRoot 0 =
      some (.ok (some (.rootNode i)),
        { s.searchState unset with initrdReaddirCall := true }) := by
  have hlt : i < (s.array unset).nodes.length := Nat.lt_of_lt_of_le hi h.array_length
  apply Readdir.search_first (a := s.array unset) hlt
  · rw [h.array_get hi hlt]
    exact congrArg text hname
  · intro j hj hji
    rw [h.array_get (Nat.lt_trans hji hi) hj]
    exact fun heq => hfirst j hji (text_injective heq)
  · rfl
  · rfl
  · exact Nat.zero_le i
  · omega

theorem idealOpen_first (modes : Modes) {path : List (BitVec 8)} (mode : List (BitVec 8))
    (hpath : path ∈ files.map File.name) :
    ∃ i, ∃ hi : i < files.length, files[i].name = path ∧
      (∀ j (hj : j < i), files[j].name ≠ path) ∧
      idealOpen files modes path mode =
        if files[i].typeflag = 0x30 then (some i, Function.update modes i (openFlags mode))
        else (none, modes) := by
  obtain ⟨f, hf, hname⟩ := List.mem_map.mp hpath
  cases hfind : files.findIdx? fun f => decide (f.name = path) with
  | none =>
    rw [List.findIdx?_eq_none_iff] at hfind
    exact absurd hname (of_decide_eq_false (hfind f hf))
  | some i =>
    obtain ⟨hi, hfound, hbefore⟩ := List.findIdx?_eq_some_iff_getElem.mp hfind
    refine ⟨i, hi, of_decide_eq_true hfound, fun j hj => ?_, ?_⟩
    · have hnot := hbefore j hj
      simpa using hnot
    · rw [idealOpen, hfind]
      simp [List.getElem?_eq_getElem hi]

/-- A handle of the ramdisk has its own mode. -/
theorem modesOf_setMode (s : Mount) (i : Nat) (flags : BitVec 32) :
    modesOf (s.setMode (.rootNode i) flags) = Function.update (modesOf s) i flags := by
  funext j
  by_cases hj : j = i
  · subst hj
    simp [modesOf, Mount.setMode]
  · simp [modesOf, Mount.setMode, hj]

/-- Opening a file of the archive. -/
theorem Serving.open (h : Serving start files s) (unset : FileType)
    (hfuel : files.length < fuel) {path : List (BitVec 8)} (mode : List (BitVec 8))
    (hpath : path ∈ files.map File.name) :
    ∃ s', vfsOpen unset fuel s path mode =
        some (.ok ((idealOpen files (modesOf s) path mode).1.map .rootNode), s') ∧
      modesOf s' = (idealOpen files (modesOf s) path mode).2 ∧ Serving start files s' := by
  obtain ⟨i, hi, hname, hfirst, hideal⟩ := idealOpen_first (modesOf s) mode hpath
  have hsearch := h.search unset hfuel hi hname hfirst
  have hlt : i < (s.array unset).nodes.length := Nat.lt_of_lt_of_le hi h.array_length
  have hnode : ({ s.searchState unset with initrdReaddirCall := true } : Readdir.State).node
      (.rootNode i) = some (fileEntry unset (fileNode files[i] i)) := by
    show (s.array unset).nodes[i]? = _
    rw [List.getElem?_eq_getElem hlt, h.array_get hi hlt]
  have htype : (fileEntry unset (fileNode files[i] i)).nodeType =
      if files[i].typeflag = 0x30 then FileType.file else .directory := by
    rcases files[i].typeflag_valid with hplain | hdir
    · simp [fileEntry, fileNode, nodeTypeOf, hplain]
    · simp [fileEntry, fileNode, nodeTypeOf, hdir]
  rw [hideal, vfsOpen, if_pos h.root, hsearch]
  simp only [Option.map_some, hnode, htype]
  split
  · refine ⟨_, rfl, ?_, ⟨h.root, h.loaded, h.holds⟩⟩
    exact modesOf_setMode { s with initrdReaddirCall := true } i (openFlags mode)
  · exact ⟨_, rfl, rfl, ⟨h.root, h.loaded, h.holds⟩⟩

/-- Reading a file of the archive into memory off it. -/
theorem Serving.read (h : Serving start files s) (hend : start + archiveLength files ≤ 2 ^ 32)
    {i size buffer : Nat} (offset : Nat) (hi : i < files.length)
    (hclear : Clear start files size buffer) :
    let t := readFs s (some (.rootNode i)) offset size buffer
    t.2 = size ∧ modesOf t.1 = modesOf s ∧ Serving start files t.1 ∧
      (offset + size ≤ files[i].content.length → ∀ j, j < size →
        t.1.memory.mem (buffer + j) = files[i].content.getD (offset + j) 0) := by
  obtain ⟨hbuffer, hoff⟩ := hclear
  have hread : readFs s (some (.rootNode i)) offset size buffer =
      ({ s with memory :=
          (initrdReadLogged s.memory s.ramdisk.listHeaders i offset size buffer).1 }, size) := by
    rw [readFs, if_pos (by rwa [h.loaded.length]), h.loaded.readFs hi]
    rfl
  intro t
  rw [show t = _ from hread]
  refine ⟨rfl, rfl, ⟨h.root, h.loaded, ?_⟩, fun hin j hj => ?_⟩
  · exact holds_of_eq h.holds fun x hlo hhi => initrdReadLogged_frame hbuffer (by omega)
  · have hfile := h.holds.fileAt hend hi
    have hinside := headerAt_le start files hi
    have hlen : 512 + files[i].content.length ≤ files[i].length := by unfold File.length; omega
    have hbyte := hfile.read_range (h.loaded.header i hi) hin
      (by unfold blockSize; omega) hbuffer hj
    rw [wrap_of_lt (by omega)] at hbyte
    exact (congrFun (initrdReadLogged_congr s.memory) _).trans hbyte

theorem Serving.close (h : Serving start files s) {node : Option Readdir.Ptr}
    (hnode : ∀ p ∈ node, ∃ i, i < files.length ∧ p = .rootNode i) :
    modesOf (closeFs s node) = idealStep files (modesOf s) (.close node) ∧
      Serving start files (closeFs s node) := by
  cases node with
  | none => exact ⟨rfl, h⟩
  | some p =>
    obtain ⟨i, -, rfl⟩ := hnode p rfl
    exact ⟨modesOf_setMode s i 0, ⟨h.root, h.loaded, h.holds⟩⟩

/-- **One call.**  A lawful call is answered, and the archive is served on. -/
theorem Serving.step (h : Serving start files s) (hend : start + archiveLength files ≤ 2 ^ 32)
    (hfuel : files.length < fuel) {r : Request} (hlaw : Lawful start files s r) :
    Answers unset fuel files s r ∧
      ∀ s', serve unset fuel s r = some s' → Serving start files s' := by
  cases r with
  | «open» path mode =>
    obtain ⟨s', hopen, hmodes, hserving⟩ := h.open unset hfuel mode hlaw
    have hserve : serve unset fuel s (.open path mode) = some s' := by rw [serve, hopen]
    refine ⟨⟨⟨s', hopen⟩, s', hserve, hmodes⟩, fun t ht => ?_⟩
    rw [← Option.some.inj (hserve.symm.trans ht)]
    exact hserving
  | close node =>
    obtain ⟨hmodes, hserving⟩ := h.close hlaw
    refine ⟨⟨trivial, _, rfl, hmodes⟩, fun t ht => ?_⟩
    rw [← Option.some.inj ht]
    exact hserving
  | read node offset size buffer =>
    obtain ⟨hnode, hclear⟩ := hlaw
    cases node with
    | none =>
      refine ⟨⟨rfl, s, rfl, rfl⟩, fun t ht => ?_⟩
      rw [← Option.some.inj ht]
      exact h
    | some p =>
      obtain ⟨i, hi, rfl⟩ := hnode p rfl
      obtain ⟨hcount, hmodes, hserving, hbytes⟩ := h.read hend offset hi hclear
      refine ⟨⟨⟨hcount, fun j f hf hj hin k hk => ?_⟩, _, rfl, hmodes⟩, fun t ht => ?_⟩
      · obtain rfl := Readdir.Ptr.rootNode.inj hj
        rw [List.getElem?_eq_getElem hi] at hf
        obtain rfl := Option.some.inj hf
        exact hbytes hin k hk
      · rw [← Option.some.inj ht]
        exact hserving
  | write node offset size buffer =>
    obtain ⟨i, -, rfl⟩ := hlaw
    refine ⟨⟨rfl, s, rfl, rfl⟩, fun t ht => ?_⟩
    rw [← Option.some.inj ht]
    exact h

end

/-- **The mounted archive is served.**  However long clients open, close, read and write
files of the archive, with buffers off it, every call returns; a path is opened at the
first file of the name, and only if it is a plain file; what is read from a file is what
was packed into it; and the modes are those of the last calls. -/
theorem vfs_serves_archive (m : Mem) (start : Nat) (files : List File) (h : Holds m start files)
    (hend : start + archiveLength files ≤ 2 ^ 32)
    (krealloc : HeaderList → Nat → Nat → Nat) (hkeep : KeepsStored krealloc)
    (fresh : Nat → Nat) (fuel : Nat) (hfuel : files.length < fuel) :
    ∃ r, initialiseInitrd krealloc fresh m fuel start = some r ∧
      ∀ (unset : FileType) (s : Mount), s.hasRoot = true → s.ramdisk = r → s.memory.mem = m →
        ∀ requests, Throughout (serve unset fuel) (Lawful start files) s requests →
          Throughout (serve unset fuel) (Answers unset fuel files) s requests := by
  obtain ⟨r, hr, hloaded⟩ := h.initialise hend hkeep fresh hfuel
  refine ⟨r, hr, fun unset s hroot hramdisk hmem requests hlaw => ?_⟩
  have hserving : Serving start files s := ⟨hroot, hramdisk ▸ hloaded, hmem ▸ h⟩
  exact throughout_of (Serving start files) (fun t q ht hq => (ht.step hend hfuel hq).1)
    (fun t q t' ht hq => (ht.step hend hfuel hq).2 t') hserving hlaw

/-- The archive of the examples, mounted. -/
def sampleMount (r : Ramdisk) : Mount where
  hasRoot := true
  ramdisk := r
  hasDev := true
  devices := []
  initrdReaddirCall := false
  mode := fun _ => 0
  memory := { mem := sampleMemory, stores := [] }

/-- The file is opened for writing, read whole, and closed. -/
theorem vfs_serves_hello : ∃ r, initialiseInitrd (fun list _ => list.headers) (fun _ => 0)
      sampleMemory 3 0x100000 = some r ∧
    Throughout (serve .file 3) (Answers .file 3 [docDir, helloFile]) (sampleMount r)
      [.open helloFile.name [0x77], .read (some (.rootNode 1)) 0 2 0x8000,
        .close (some (.rootNode 1))] := by
  obtain ⟨r, hr, hserves⟩ := vfs_serves_archive sampleMemory 0x100000 [docDir, helloFile]
    (archiveMemory_holds 0x100000 [docDir, helloFile]) (by decide) (fun list _ => list.headers)
    (fun _ _ _ _ => rfl) (fun _ => 0) 3 (by decide)
  have hhandle : ∀ p ∈ (some (.rootNode 1) : Option Readdir.Ptr),
      ∃ i, i < [docDir, helloFile].length ∧ p = .rootNode i :=
    fun p hp => ⟨1, Nat.lt_succ_self 1, (Option.some.inj hp).symm⟩
  have hclear : Clear 0x100000 [docDir, helloFile] 2 0x8000 := ⟨by omega, Or.inl (by omega)⟩
  refine ⟨r, hr, hserves .file (sampleMount r) rfl rfl (by rw [sampleMount]) _ ⟨?_,
    fun _ _ => ⟨?_, fun _ _ => ⟨?_, fun _ _ => trivial⟩⟩⟩⟩
  · exact List.mem_map_of_mem (List.mem_cons_of_mem _ List.mem_cons_self)
  · exact ⟨hhandle, hclear⟩
  · exact hhandle

end Vfs
end Medusa
