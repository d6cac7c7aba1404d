import Medusa.Initrd.Archive
import Medusa.Kernel.Misc
import Medusa.Vfs.Search

/-!
# The nodes of the ramdisk

`initialise_initrd` makes one node for each header, and `set_dev_node_initrd` appends
the root of devfs to the nodes but nothing to the headers.  `read_fs` and
`get_file_size_fs` call what a node points to.

`initrd_read` copies as many bytes as it is asked for and then terminates them, so a
buffer of `size` bytes is always overrun by one.  `initrd_get_file_size` returns the
address of the digits of a size, which nobody parses.
-/

namespace Medusa
namespace Initrd

open Machine

/-! ## Nodes -/

/-- The functions of `initrd.c` that a node can point to; no other file system has a
`get_file_size`. -/
inductive Callback where
  | initrd
deriving DecidableEq, Repr

/-- The members of an `fs_node_t` that `initrd.c` fills in. -/
structure FsNode where
  name : List (BitVec 8)
  length : Nat
  inode : Nat
  /-- A header of another type leaves the member as the allocator left it. -/
  nodeType : Option Vfs.FileType
  read : Option Callback
  getFileSize : Option Callback
deriving DecidableEq

/-- The size of the member `name`. -/
def nameSize : Nat := 128

def readName (m : Mem) (address : Nat) : List (BitVec 8) :=
  ((List.range nameSize).map fun i => m (wrap (address + i))).takeWhile (· ≠ 0)

/-- The offset of `typeflag` in `struct tar_header`. -/
def typeflagOffset : Nat := 156

def nodeTypeOf (typeflag : BitVec 8) : Option Vfs.FileType :=
  if typeflag = 0x30 then some .file
  else if typeflag = 0x35 then some .directory
  else none

/-- `root_nodes[i]` as the loop of `initialise_initrd` leaves it. -/
def rootNode (m : Mem) (list : HeaderList) (i : Nat) : FsNode :=
  { name := readName m (list.headers i)
    length := getsize m (wrap (list.headers i + sizeOffset))
    inode := i
    nodeType := nodeTypeOf (m (wrap (list.headers i + typeflagOffset)))
    read := some .initrd
    getFileSize := some .initrd }

structure Ramdisk where
  listHeaders : HeaderList
  rootNodes : List FsNode

def initialiseInitrd (krealloc : HeaderList → Nat → Nat → Nat) (fresh : Nat → Nat) (m : Mem)
    (fuel location : Nat) : Option Ramdisk := do
  let list ← generateListFilesInitrd krealloc fresh m fuel location
  let nfiles ← initrdGetNumberFiles m fuel location
  return { listHeaders := list, rootNodes := (List.range nfiles).map (rootNode m list) }

/-- `dev/`, as `devfs_initialize` makes it: its callbacks for reading are zero. -/
def devRoot : FsNode :=
  { name := [0x64, 0x65, 0x76, 0x2F]
    length := 0
    inode := 0
    nodeType := some .directory
    read := none
    getFileSize := none }

/-- The slot at `pos` is the one behind the nodes of the files. -/
def setDevNodeInitrd (r : Ramdisk) : Ramdisk := { r with rootNodes := r.rootNodes ++ [devRoot] }

/-! ## Reading -/

/-- Memory, and the addresses that were stored to. -/
structure Logged where
  mem : Mem
  stores : List Nat

namespace Logged

def store (s : Logged) (a : Nat) (v : BitVec 8) : Logged :=
  { mem := Function.update s.mem (wrap a) v, stores := s.stores ++ [wrap a] }

def memcpy (s : Logged) (dst src size : Nat) : Logged :=
  (List.range size).foldl (fun s i => s.store (dst + i) (s.mem (wrap (src + i)))) s

end Logged

def minusOne : Nat := 2 ^ 32 - 1

/-- `initrd_read` with the stores it makes. -/
def initrdReadLogged (s : Logged) (list : HeaderList) (inode offset size buffer : Nat) :
    Logged × Nat :=
  let content := wrap (list.headers inode + blockSize + offset)
  ((s.memcpy buffer content size).store (buffer + size) 0, size)

/-- `read_fs`; `none` is the null pointer. -/
def readFs (list : HeaderList) (node : Option FsNode) (s : Logged) (offset size buffer : Nat) :
    Logged × Nat :=
  match node with
  | none => (s, minusOne)
  | some node =>
    match node.read with
    | some .initrd => initrdReadLogged s list node.inode offset size buffer
    | none => (s, 0)

/-! ## Asking for the size -/

/-- The node is looked up again by its name, and the pointer to the digits is
returned as it is. -/
def initrdGetFileSize (r : Ramdisk) (node : FsNode) : Except Kernel.Stop Nat :=
  match r.rootNodes.findIdx? fun other => node.name = other.name with
  | some i =>
    if i < r.listHeaders.used then .ok (wrap (r.listHeaders.headers i + sizeOffset))
    else .error .fault
  | none => .ok minusOne

def getFileSizeFs (r : Ramdisk) (node : Option FsNode) : Except Kernel.Stop Nat :=
  match node with
  | none => .ok minusOne
  | some node =>
    match node.getFileSize with
    | some .initrd => initrdGetFileSize r node
    | none => .ok minusOne

/-! ## The stores of a copy -/

section

variable {dst src size : Nat}

theorem logged_memcpy_succ (s : Logged) (dst src size : Nat) :
    s.memcpy dst src (size + 1) =
      (s.memcpy dst src size).store (dst + size)
        ((s.memcpy dst src size).mem (wrap (src + size))) := by
  rw [Logged.memcpy, List.range_succ, List.foldl_append]
  rfl

theorem logged_memcpy_stores (s : Logged) (dst src size : Nat) :
    (s.memcpy dst src size).stores =
      s.stores ++ (List.range size).map fun i => wrap (dst + i) := by
  induction size with
  | zero => simp [Logged.memcpy]
  | succ size ih =>
    rw [logged_memcpy_succ, Logged.store, ih, List.range_succ, List.map_append,
      ← List.append_assoc]
    rfl

/-- Inside the address space the log changes nothing. -/
theorem logged_memcpy_mem (s : Logged) (hdst : dst + size ≤ 2 ^ 32) (hsrc : src + size ≤ 2 ^ 32) :
    (s.memcpy dst src size).mem = Libc.memcpy s.mem dst src size := by
  induction size with
  | zero => exact (Libc.memcpy_zero s.mem dst src).symm
  | succ size ih =>
    rw [logged_memcpy_succ, Logged.store, ih (by omega) (by omega), Libc.memcpy_succ,
      wrap_of_lt (show dst + size < 2 ^ 32 by omega), wrap_of_lt (show src + size < 2 ^ 32 by omega)]

theorem initrdReadLogged_mem (s : Logged) (list : HeaderList) (inode offset : Nat) {buffer : Nat}
    (hdst : buffer + size ≤ 2 ^ 32)
    (hsrc : wrap (list.headers inode + blockSize + offset) + size ≤ 2 ^ 32) :
    (initrdReadLogged s list inode offset size buffer).1.mem =
      (initrdRead s.mem list inode offset size buffer).1 := by
  rw [initrdReadLogged, initrdRead]
  dsimp only
  rw [Logged.store, logged_memcpy_mem s hdst hsrc]

end

/-! ## The nodes of an archive -/

section

variable {m : Mem} {address : Nat} {f : File}

/-- The name is followed by a zero inside the header. -/
theorem FileAt.name_byte (h : FileAt m address f) {i : Nat} (hi : i ≤ f.name.length) :
    m (wrap (address + i)) = f.name.getD i 0 := by
  have hbelow := h.below
  have hlen : 512 ≤ f.length := by unfold File.length; omega
  have hle := f.name_le
  rw [wrap_of_lt (by omega), h.bytes i (by omega), File.byte, if_pos (by omega), File.headerByte,
    if_pos (by omega)]

theorem FileAt.readName (h : FileAt m address f) : readName m address = f.name := by
  have hle := f.name_le
  have hsplit : List.range nameSize =
      List.range f.name.length ++ f.name.length ::
        List.range' (f.name.length + 1) (nameSize - f.name.length - 1) := by
    have hsum : f.name.length + (nameSize - f.name.length - 1 + 1) = nameSize := by
      unfold nameSize
      omega
    have happend := @List.range'_append_1 0 f.name.length (nameSize - f.name.length - 1 + 1)
    rw [Nat.zero_add, hsum] at happend
    rw [← List.range'_succ, List.range_eq_range', List.range_eq_range', happend]
  have hname : (List.range f.name.length).map (fun i => m (wrap (address + i))) = f.name := by
    refine List.ext_getElem (by simp) fun i hi hi' => ?_
    rw [List.getElem_map, List.getElem_range, h.name_byte (Nat.le_of_lt hi'),
      List.getD_eq_getElem _ _ hi']
  have hzero : m (wrap (address + f.name.length)) = 0 := by
    rw [h.name_byte (Nat.le_refl _), List.getD_eq_default _ _ (Nat.le_refl _)]
  rw [Initrd.readName, hsplit, List.map_append, hname, List.map_cons, hzero,
    List.takeWhile_append_of_pos (fun b hb => decide_eq_true (f.name_ne_zero b hb)),
    List.takeWhile_cons_of_neg (by simp), List.append_nil]

end

section

variable {m : Mem} {start fuel : Nat} {files : List File}
  {krealloc : HeaderList → Nat → Nat → Nat} {fresh : Nat → Nat}

/-- The node of file `i` of an archive at `start`. -/
def fileNode (f : File) (i : Nat) : FsNode :=
  { name := f.name
    length := f.content.length
    inode := i
    nodeType := nodeTypeOf f.typeflag
    read := some .initrd
    getFileSize := some .initrd }

/-- The ramdisk of an archive: a header and a node for each file, in order. -/
structure Loaded (start : Nat) (files : List File) (r : Ramdisk) : Prop where
  used : r.listHeaders.used = files.length
  header : ∀ i, i < files.length → r.listHeaders.headers i = headerAt start files i
  nodes : r.rootNodes = files.mapIdx fun i f => fileNode f i

theorem FileAt.rootNode {address i : Nat} {f : File} {list : HeaderList}
    (h : FileAt m address f) (hheader : list.headers i = address) :
    rootNode m list i = fileNode f i := by
  have hbelow := h.below
  have hlen : 512 ≤ f.length := by unfold File.length; omega
  have htype : m (wrap (address + typeflagOffset)) = f.typeflag := by
    unfold typeflagOffset
    rw [wrap_of_lt (by omega), h.bytes _ (by omega), File.byte, if_pos (by decide),
      File.headerByte, if_neg (by decide), if_neg (by decide), if_neg (by decide), if_pos rfl]
  rw [Initrd.rootNode, hheader, h.readName, h.getsize, htype, fileNode]

theorem Holds.initialise (h : Holds m start files) (hend : start + archiveLength files ≤ 2 ^ 32)
    (hkeep : KeepsStored krealloc) (fresh : Nat → Nat) (hfuel : files.length < fuel) :
    ∃ r, initialiseInitrd krealloc fresh m fuel start = some r ∧ Loaded start files r := by
  obtain ⟨list, hlist, hused, -, hheaders⟩ := h.generate hend hkeep fresh hfuel
  refine ⟨{ listHeaders := list, rootNodes := (List.range files.length).map (rootNode m list) },
    ?_, hused, hheaders, ?_⟩
  · rw [initialiseInitrd, hlist, h.number hend hfuel]
    rfl
  · refine List.ext_getElem (by simp) fun i hi hi' => ?_
    rw [List.length_mapIdx] at hi'
    rw [List.getElem_map, List.getElem_range, List.getElem_mapIdx]
    exact (h.fileAt hend hi').rootNode (hheaders i hi')

end

/-! ## What a read does -/

/-- What a read of the bytes from `offset` on promises a buffer of `size` bytes. -/
structure ReadsWithin (content : List (BitVec 8)) (offset size buffer : Nat)
    (result : Logged × Nat) : Prop where
  count : result.2 = min (offset + size) content.length - offset
  copied : ∀ j, j < result.2 →
    result.1.mem (wrap (buffer + j)) = content.getD (offset + j) 0
  bounded : ∀ a ∈ result.1.stores, ∃ j, j < size ∧ a = wrap (buffer + j)

section

variable {m : Mem} {start : Nat} {files : List File} {r : Ramdisk}

theorem Loaded.node (h : Loaded start files r) {i : Nat} (hi : i < files.length) :
    r.rootNodes[i]? = some (fileNode files[i] i) := by
  rw [h.nodes, List.getElem?_mapIdx, List.getElem?_eq_getElem hi]
  rfl

/-- Reading a node of the ramdisk. -/
theorem Loaded.readFs (h : Loaded start files r) {i : Nat} (hi : i < files.length) (s : Logged)
    (offset size buffer : Nat) :
    readFs r.listHeaders r.rootNodes[i]? s offset size buffer =
      initrdReadLogged s r.listHeaders i offset size buffer := by
  rw [h.node hi]
  rfl

/-- The terminator goes where the buffer ends. -/
theorem initrdReadLogged_stores (m : Mem) (list : HeaderList) (inode offset size buffer : Nat) :
    (initrdReadLogged { mem := m, stores := [] } list inode offset size buffer).1.stores =
      (List.range (size + 1)).map fun i => wrap (buffer + i) := by
  rw [initrdReadLogged]
  dsimp only
  rw [Logged.store, logged_memcpy_stores, List.range_succ, List.map_append]
  rfl

/-- Distinct positions of a buffer have distinct addresses. -/
theorem wrap_add_inj {buffer size j : Nat} (hj : j < size) (hsize : size < 2 ^ 32) :
    wrap (buffer + size) ≠ wrap (buffer + j) := by
  unfold wrap
  omega

/-- The part of a read that is inside the file, into a buffer apart from it. -/
theorem FileAt.read_range {address : Nat} {f : File} (h : FileAt m address f) {list : HeaderList}
    {inode offset size buffer : Nat} (hheader : list.headers inode = address)
    (hin : offset + size ≤ f.content.length)
    (hapart : buffer ≤ address + blockSize + offset ∨
      address + blockSize + offset + size ≤ buffer)
    (hbuffer : buffer + size < 2 ^ 32) {j : Nat} (hj : j < size) :
    (initrdReadLogged { mem := m, stores := [] } list inode offset size buffer).1.mem
        (wrap (buffer + j)) = f.content.getD (offset + j) 0 := by
  have hbelow := h.below
  have hlen : 512 + f.content.length ≤ f.length := by unfold File.length; omega
  have hsource : wrap (list.headers inode + blockSize + offset) = address + 512 + offset := by
    rw [hheader]
    exact wrap_of_lt (by unfold blockSize; omega)
  unfold blockSize at hapart
  rw [initrdReadLogged_mem _ _ _ _ (by omega) (by rw [hsource]; omega), wrap_of_lt (by omega),
    initrdRead]
  dsimp only
  rw [hsource, wrap_of_lt hbuffer, Function.update_of_ne (by omega),
    Libc.memcpy_apply hapart hj,
    show address + 512 + offset + j = address + (512 + offset + j) by omega,
    h.bytes _ (by omega), File.byte, if_neg (by omega),
    show 512 + offset + j - 512 = offset + j by omega]

end

/-- **A read always writes one byte too many.**  For every file of an archive and every
range, `initrd_read` stores to the address behind the buffer, so it never keeps its
promise.  The count is right exactly if the range ends inside the file or is empty, and
then the bytes are those of the file if the buffer is apart from them. -/
theorem initrd_read_overruns (m : Mem) (start : Nat) (files : List File)
    (h : Holds m start files) (hend : start + archiveLength files ≤ 2 ^ 32)
    (krealloc : HeaderList → Nat → Nat → Nat) (hkeep : KeepsStored krealloc)
    (fresh : Nat → Nat) (fuel : Nat) (hfuel : files.length < fuel) :
    ∃ r, initialiseInitrd krealloc fresh m fuel start = some r ∧
      ∀ i (hi : i < files.length) (offset size buffer : Nat), size < 2 ^ 32 →
        let result := readFs r.listHeaders r.rootNodes[i]? { mem := m, stores := [] }
          offset size buffer
        ¬ ReadsWithin files[i].content offset size buffer result ∧
        (wrap (buffer + size) ∈ result.1.stores ∧
          ∀ j, j < size → wrap (buffer + size) ≠ wrap (buffer + j)) ∧
        (result.2 = min (offset + size) files[i].content.length - offset ↔
          offset + size ≤ files[i].content.length ∨ size = 0) ∧
        (offset + size ≤ files[i].content.length →
          (buffer ≤ headerAt start files i + blockSize + offset ∨
            headerAt start files i + blockSize + offset + size ≤ buffer) →
          buffer + size < 2 ^ 32 →
          ∀ j, j < size →
            result.1.mem (wrap (buffer + j)) = files[i].content.getD (offset + j) 0) := by
  obtain ⟨r, hr, hloaded⟩ := h.initialise hend hkeep fresh hfuel
  refine ⟨r, hr, fun i hi offset size buffer hsize => ?_⟩
  dsimp only
  rw [hloaded.readFs hi]
  have hlast : wrap (buffer + size) ∈ (initrdReadLogged { mem := m, stores := [] } r.listHeaders i
      offset size buffer).1.stores := by
    rw [initrdReadLogged_stores]
    exact List.mem_map_of_mem (List.mem_range.mpr (Nat.lt_succ_self size))
  refine ⟨fun hreads => ?_, ⟨hlast, fun j hj => wrap_add_inj hj hsize⟩, ?_, ?_⟩
  · obtain ⟨j, hj, heq⟩ := hreads.bounded _ hlast
    exact wrap_add_inj hj hsize heq
  · show size = _ ↔ _
    omega
  · intro hin hapart hbuffer j hj
    exact (h.fileAt hend hi).read_range (hloaded.header i hi) hin hapart hbuffer hj

/-- The archive of the examples, in low memory. -/
def sampleMemory : Mem := archiveMemory 0x100000 [docDir, helloFile]

theorem sampleMemory_loads :
    ∃ r, initialiseInitrd (fun list _ => list.headers) (fun _ => 0) sampleMemory 3 0x100000 =
      some r ∧ Loaded 0x100000 [docDir, helloFile] r :=
  (archiveMemory_holds 0x100000 [docDir, helloFile]).initialise (by decide)
    (fun _ _ _ _ => rfl) (fun _ => 0) (by decide)

/-- `kernel_main` reads a file of two bytes into a buffer of two bytes, and the third
is written.  Five bytes from position 1 on come back as five, and there is one. -/
theorem initrd_read_hello :
    ∃ r, initialiseInitrd (fun list _ => list.headers) (fun _ => 0) sampleMemory 3 0x100000 =
        some r ∧
      ¬ ReadsWithin [0x48, 0x69] 0 2 0x8000
        (readFs r.listHeaders r.rootNodes[1]? { mem := sampleMemory, stores := [] } 0 2 0x8000) ∧
      ¬ ReadsWithin [0x48, 0x69] 1 5 0x8000
        (readFs r.listHeaders r.rootNodes[1]? { mem := sampleMemory, stores := [] } 1 5 0x8000) := by
  obtain ⟨r, hr, hloaded⟩ := sampleMemory_loads
  refine ⟨r, hr, fun hreads => ?_, fun hreads => ?_⟩
  · have hbound := hreads.bounded 0x8002
    rw [hloaded.readFs (by decide), initrdReadLogged_stores] at hbound
    obtain ⟨j, hj, heq⟩ := hbound (by decide)
    unfold wrap at heq
    omega
  · have hcount := hreads.count
    rw [hloaded.readFs (by decide)] at hcount
    exact absurd (show 5 = 1 from hcount) (by decide)

theorem initrd_read_overruns_hello :
    ∃ r, initialiseInitrd (fun list _ => list.headers) (fun _ => 0) sampleMemory 3 0x100000 =
        some r ∧
      wrap (0x8000 + 2) ∈
        (readFs r.listHeaders r.rootNodes[1]? { mem := sampleMemory, stores := [] }
          0 2 0x8000).1.stores := by
  obtain ⟨r, hr, hreads⟩ := initrd_read_overruns sampleMemory 0x100000 [docDir, helloFile]
    (archiveMemory_holds 0x100000 [docDir, helloFile]) (by decide) (fun list _ => list.headers)
    (fun _ _ _ _ => rfl) (fun _ => 0) 3 (by decide)
  exact ⟨r, hr, (hreads 1 (by decide) 0 2 0x8000 (by decide)).2.1.1⟩

/-! ## What asking for the size does -/

section

variable {start : Nat} {files : List File} {r : Ramdisk}

theorem Loaded.name (h : Loaded start files r) {i : Nat} (hi : i < r.rootNodes.length)
    (hi' : i < files.length) : r.rootNodes[i].name = files[i].name := by
  have hnode := h.node hi'
  rw [List.getElem?_eq_getElem hi] at hnode
  rw [Option.some.inj hnode]
  rfl

theorem Loaded.length (h : Loaded start files r) : r.rootNodes.length = files.length := by
  rw [h.nodes, List.length_mapIdx]

/-- With distinct names a node is found at its own place, whatever follows. -/
theorem Loaded.lookup (h : Loaded start files r) (hnodup : (files.map File.name).Nodup) {i : Nat}
    (hi : i < files.length) (extra : List FsNode) :
    (r.rootNodes ++ extra).findIdx? (fun other => files[i].name = other.name) = some i := by
  have hlt : i < r.rootNodes.length := by rwa [h.length]
  rw [List.findIdx?_eq_some_iff_getElem]
  refine ⟨by rw [List.length_append]; omega, ?_, fun j hj => ?_⟩
  · rw [List.getElem_append_left hlt, h.name hlt hi, decide_eq_true_eq]
  · rw [List.getElem_append_left (by omega), h.name (by omega) (by omega), decide_eq_true_eq]
    intro heq
    have hinj := List.pairwise_iff_getElem.mp hnodup j i (by simp; omega) (by simpa using hi) hj
    exact hinj (by simpa using heq.symm)

/-- The size of a file is the address of its digits. -/
theorem Loaded.getFileSize (h : Loaded start files r) (hnodup : (files.map File.name).Nodup)
    {i : Nat} (hi : i < files.length) (extra : List FsNode) :
    getFileSizeFs { r with rootNodes := r.rootNodes ++ extra } r.rootNodes[i]? =
      .ok (wrap (headerAt start files i + sizeOffset)) := by
  rw [h.node hi]
  show initrdGetFileSize _ _ = _
  rw [initrdGetFileSize]
  dsimp only
  rw [show (fileNode files[i] i).name = files[i].name from rfl, h.lookup hnodup hi extra]
  dsimp only
  rw [h.used, if_pos hi, h.header i hi]

/-- A name that no file has is not found among the files. -/
theorem Loaded.lookup_none (h : Loaded start files r) {name : List (BitVec 8)}
    (hname : name ∉ files.map File.name) :
    r.rootNodes.findIdx? (fun other => name = other.name) = none := by
  rw [List.findIdx?_eq_none_iff]
  intro other hother
  obtain ⟨i, hi, rfl⟩ := List.getElem_of_mem hother
  have hi' : i < files.length := by rwa [← h.length]
  rw [decide_eq_false_iff_not, h.name hi hi']
  exact fun heq => hname (heq ▸ List.mem_map_of_mem (List.getElem_mem hi'))

theorem Loaded.absent (h : Loaded start files r) {node : FsNode}
    (hname : node.name ∉ files.map File.name) : getFileSizeFs r (some node) = .ok minusOne := by
  rw [getFileSizeFs]
  split
  · rw [initrdGetFileSize, h.lookup_none hname]
  · rfl

/-- With the root of devfs among the nodes, its name is looked up in a header that
is not there. -/
theorem Loaded.absent_dev (h : Loaded start files r) {node : FsNode}
    (hname : node.name ∉ files.map File.name) :
    getFileSizeFs (setDevNodeInitrd r) (some node) = .ok minusOne ↔
      node.getFileSize = none ∨ node.name ≠ devRoot.name := by
  have hlookup : (setDevNodeInitrd r).rootNodes.findIdx? (fun other => node.name = other.name) =
      if node.name = devRoot.name then some files.length else none := by
    rw [setDevNodeInitrd, List.findIdx?_append, h.lookup_none hname, h.length]
    by_cases heq : node.name = devRoot.name <;> simp [List.findIdx?_cons, heq]
  cases hcallback : node.getFileSize with
  | none => exact ⟨fun _ => Or.inl rfl, fun _ => by rw [getFileSizeFs, hcallback]⟩
  | some callback =>
    rw [getFileSizeFs, hcallback, initrdGetFileSize, hlookup]
    by_cases heq : node.name = devRoot.name
    · rw [if_pos heq]
      dsimp only
      rw [show (setDevNodeInitrd r).listHeaders.used = files.length from h.used,
        if_neg (Nat.lt_irrefl _)]
      simp [heq]
    · rw [if_neg heq]
      exact ⟨fun _ => Or.inr heq, fun _ => rfl⟩

end

/-- **When the two sizes of a file agree.**  The member `length` of a node is the number
of content bytes.  `get_file_size_fs` says the same, before and after the root of devfs is
appended, exactly if the digits of the size happen to lie at that address.  A node whose
name is not in the archive has size -1, and with the root of devfs appended exactly if it
has no `get_file_size` or another name than that root. -/
theorem getFileSizeFs_agrees_iff (m : Mem) (start : Nat) (files : List File)
    (h : Holds m start files) (hend : start + archiveLength files ≤ 2 ^ 32)
    (hnodup : (files.map File.name).Nodup)
    (krealloc : HeaderList → Nat → Nat → Nat) (hkeep : KeepsStored krealloc)
    (fresh : Nat → Nat) (fuel : Nat) (hfuel : files.length < fuel) :
    ∃ r, initialiseInitrd krealloc fresh m fuel start = some r ∧
      (∀ i (hi : i < files.length), ∃ node, r.rootNodes[i]? = some node ∧
        node.length = files[i].content.length ∧
        (getFileSizeFs r (some node) = .ok node.length ∧
            getFileSizeFs (setDevNodeInitrd r) (some node) = .ok node.length ↔
          wrap (headerAt start files i + sizeOffset) = files[i].content.length)) ∧
      ∀ node : FsNode, node.name ∉ files.map File.name →
        getFileSizeFs r (some node) = .ok minusOne ∧
        (getFileSizeFs (setDevNodeInitrd r) (some node) = .ok minusOne ↔
          node.getFileSize = none ∨ node.name ≠ devRoot.name) := by
  obtain ⟨r, hr, hloaded⟩ := h.initialise hend hkeep fresh hfuel
  refine ⟨r, hr, fun i hi => ⟨fileNode files[i] i, hloaded.node hi, rfl, ?_⟩, fun node hname =>
    ⟨hloaded.absent hname, hloaded.absent_dev hname⟩⟩
  have hbefore := hloaded.getFileSize hnodup hi []
  have hafter := hloaded.getFileSize hnodup hi [devRoot]
  rw [hloaded.node hi] at hbefore hafter
  rw [List.append_nil] at hbefore
  rw [hbefore, setDevNodeInitrd, hafter, and_self]
  constructor
  · intro heq
    exact Except.ok.inj heq
  · intro heq
    rw [heq]
    rfl

theorem sampleNames_nodup : ([docDir, helloFile].map File.name).Nodup := by decide

/-- A file of two bytes, whose header lies at `0x100200`, is said to have
1049212. -/
theorem getFileSizeFs_hello :
    ∃ r, initialiseInitrd (fun list _ => list.headers) (fun _ => 0) sampleMemory 3 0x100000 =
        some r ∧
      r.rootNodes[1]?.map FsNode.length = some 2 ∧
      getFileSizeFs r r.rootNodes[1]? = .ok 0x10027C ∧
      getFileSizeFs (setDevNodeInitrd r) r.rootNodes[1]? = .ok 0x10027C := by
  obtain ⟨r, hr, hloaded⟩ := sampleMemory_loads
  have hbefore := hloaded.getFileSize sampleNames_nodup (i := 1) (by decide) []
  have hafter := hloaded.getFileSize sampleNames_nodup (i := 1) (by decide) [devRoot]
  rw [List.append_nil] at hbefore
  refine ⟨r, hr, ?_, hbefore, hafter⟩
  rw [hloaded.node (by decide)]
  rfl

theorem getFileSizeFs_agrees_hello :
    ∃ r, initialiseInitrd (fun list _ => list.headers) (fun _ => 0) sampleMemory 3 0x100000 =
        some r ∧
      getFileSizeFs (setDevNodeInitrd r) (some devRoot) = .ok minusOne := by
  obtain ⟨r, hr, -, habsent⟩ := getFileSizeFs_agrees_iff sampleMemory 0x100000 [docDir, helloFile]
    (archiveMemory_holds 0x100000 [docDir, helloFile]) (by decide) sampleNames_nodup
    (fun list _ => list.headers) (fun _ _ _ _ => rfl) (fun _ => 0) 3 (by decide)
  exact ⟨r, hr, (habsent devRoot (by decide)).2.mpr (Or.inl rfl)⟩

end Initrd
end Medusa
