import Mathlib.Data.List.Basic
import Mathlib.Data.List.Flatten
import Mathlib.Data.List.Induction

/-!
# Mount points

`vfs_mount`, `vfs_tree_find_local_root` and the path parser of `vfs.c`.  Strings
are lists of characters without the terminating zero, and a file system is known
by its root node, of any type.

Both functions look at the first character only to find out whether a path is the
root, so an absolute path is always taken for the root.
-/

namespace Medusa
namespace Vfs

abbrev CString := List Char

/-! ## Paths -/

/-- The loop of `parse_path`: the component being read, whether no slash has been
met, and the components so far. -/
structure Parse where
  tempPath : CString
  isFirstSlash : Bool
  folders : List CString

def parseChar (p : Parse) (c : Char) : Parse :=
  if c = '/' then
    { tempPath := []
      isFirstSlash := false
      folders := if p.isFirstSlash then p.folders else p.folders ++ [p.tempPath] }
  else { p with tempPath := p.tempPath ++ [c] }

/-- `fresh` is the string that the new buffer happens to hold.  What follows the
last slash is not kept. -/
def parsePath (fresh path : CString) : List CString :=
  (path.foldl parseChar { tempPath := fresh, isFirstSlash := true, folders := [] }).folders

/-! ## The tree of mount points -/

inductive TreeNode (α : Type) where
  | mk (name : CString) (isMountPoint : Bool) (mountPointFsNode : Option α)
      (childrens : List (TreeNode α)) (isFolder : Bool)

namespace TreeNode

variable {α : Type}

def name : TreeNode α → CString
  | mk name _ _ _ _ => name

def isMountPoint : TreeNode α → Bool
  | mk _ isMountPoint _ _ _ => isMountPoint

def mountPointFsNode : TreeNode α → Option α
  | mk _ _ mountPointFsNode _ _ => mountPointFsNode

def childrens : TreeNode α → List (TreeNode α)
  | mk _ _ _ childrens _ => childrens

def isFolder : TreeNode α → Bool
  | mk _ _ _ _ isFolder => isFolder

def setMount : TreeNode α → α → TreeNode α
  | mk name _ _ childrens isFolder, localRoot => mk name true (some localRoot) childrens isFolder

def setChildrens : TreeNode α → List (TreeNode α) → TreeNode α
  | mk name isMountPoint node _ isFolder, childrens => mk name isMountPoint node childrens isFolder

end TreeNode

variable {α : Type}

def vfsTreeNodeCreate (name : CString) (isFolder : Bool) : TreeNode α :=
  .mk name false none [] isFolder

/-- The root of the tree that `vfs_tree_init` makes. -/
def vfsTreeInit : TreeNode α := vfsTreeNodeCreate ['/'] true

def vfsTreeFindChildWithName (name : CString) (childrens : List (TreeNode α)) :
    Option (TreeNode α) :=
  childrens.find? fun child => child.name = name

/-- Change the first child of that name. -/
def updateChild (name : CString) (f : TreeNode α → TreeNode α) :
    List (TreeNode α) → List (TreeNode α)
  | [] => []
  | child :: rest =>
    if child.name = name then f child :: rest else child :: updateChild name f rest

/-- The loop of `vfs_mount`: go down along the components and make the nodes that
are missing. -/
def mountAt (localRoot : α) : List CString → TreeNode α → TreeNode α
  | [], node => node.setMount localRoot
  | name :: rest, node =>
    if !node.isFolder then node
    else
      match vfsTreeFindChildWithName name node.childrens with
      | some _ => node.setChildrens (updateChild name (mountAt localRoot rest) node.childrens)
      | none =>
        node.setChildrens (node.childrens ++ [mountAt localRoot rest (vfsTreeNodeCreate name true)])

def vfsMount (fresh : CString) (root : TreeNode α) (path : CString) (localRoot : α) : TreeNode α :=
  if path.head? = some '/' then root.setMount localRoot
  else mountAt localRoot (parsePath fresh path) root

/-- `struct vfs_tree_find_result`. -/
structure FindResult (α : Type) where
  pathToUse : CString
  fsNode : Option α
deriving DecidableEq

/-- The loop of `vfs_tree_find_local_root`.  The remaining components are
concatenated onto what a new buffer happens to hold. -/
def findLocalRoot (fresh : CString) : List CString → TreeNode α → Option (FindResult α)
  | [], _ => none
  | name :: rest, node =>
    if node.isMountPoint then
      some { pathToUse := fresh ++ (name :: rest).flatten, fsNode := node.mountPointFsNode }
    else
      match vfsTreeFindChildWithName name node.childrens with
      | some child => findLocalRoot fresh rest child
      | none => none

def vfsTreeFindLocalRoot (fresh : CString) (root : TreeNode α) (path : CString) :
    Option (FindResult α) :=
  if path.head? = some '/' then some { pathToUse := ['/'], fsNode := root.mountPointFsNode }
  else findLocalRoot fresh (parsePath fresh path) root

/-! ## What mounting is for -/

/-- A component of a path: not empty and without a slash. -/
def Component (c : CString) : Prop := c ≠ [] ∧ '/' ∉ c

instance (c : CString) : Decidable (Component c) :=
  inferInstanceAs (Decidable (_ ∧ _))

/-- An absolute path, as its components. -/
structure AbsPath where
  components : List CString
  valid : ∀ c ∈ components, Component c

namespace AbsPath

def toString (p : AbsPath) : CString :=
  if p.components = [] then ['/'] else p.components.flatMap fun c => '/' :: c

theorem toString_head (p : AbsPath) : p.toString.head? = some '/' := by
  obtain ⟨cs, hcs⟩ := p
  cases cs with
  | nil => rfl
  | cons c cs => rfl

end AbsPath

/-- The node most recently mounted on `cs`. -/
def lastOn (mounts : List (AbsPath × α)) (cs : List CString) : Option α :=
  (mounts.reverse.find? fun m => m.1.components = cs).map Prod.snd

/-- The longest prefix of `cs` that is mounted, as the node mounted there and the
components that remain. -/
def resolve (mounts : List (AbsPath × α)) (cs : List CString) : Option (α × List CString) :=
  (List.range (cs.length + 1)).reverse.findSome? fun k =>
    (lastOn mounts (cs.take k)).map fun node => (node, cs.drop k)

/-- Components joined by slashes; `top` is how the top of a file system is
written, where no component remains. -/
def joinPath (top : CString) : List CString → CString
  | [] => top
  | c :: cs => c ++ cs.flatMap fun d => '/' :: d

/-- The tree after a sequence of calls of `vfs_mount`. -/
def mountAll (fresh : CString) (mounts : List (AbsPath × α)) : TreeNode α :=
  mounts.foldl (fun root m => vfsMount fresh root m.1.toString m.2) vfsTreeInit

/-- Looking `path` up yields the node on the longest mounted prefix and the
remaining path, and nothing if no prefix is mounted. -/
def Resolves (fresh top : CString) (mounts : List (AbsPath × α)) (path : AbsPath) : Prop :=
  vfsTreeFindLocalRoot fresh (mountAll fresh mounts) path.toString =
    (resolve mounts path.components).map fun r =>
      { pathToUse := joinPath top r.2, fsNode := some r.1 }

/-- Mounting `m` as well does not change what `path` resolves to. -/
def Unchanged (fresh : CString) (mounts : List (AbsPath × α)) (m : AbsPath × α)
    (path : AbsPath) : Prop :=
  vfsTreeFindLocalRoot fresh (mountAll fresh (mounts ++ [m])) path.toString =
    vfsTreeFindLocalRoot fresh (mountAll fresh mounts) path.toString

/-! ## What the code does -/

theorem setMount_fsNode (root : TreeNode α) (localRoot : α) :
    (root.setMount localRoot).mountPointFsNode = some localRoot := by
  cases root
  rfl

/-- Every mount on an absolute path is a mount on the root. -/
theorem mountAll_fsNode (fresh : CString) (mounts : List (AbsPath × α)) :
    (mountAll fresh mounts).mountPointFsNode = mounts.getLast?.map Prod.snd := by
  induction mounts using List.reverseRecOn with
  | nil => rfl
  | append_singleton mounts m ih =>
    rw [mountAll, List.foldl_append]
    simp only [List.foldl_cons, List.foldl_nil, vfsMount, m.1.toString_head, if_true,
      setMount_fsNode, List.getLast?_concat, Option.map_some]

theorem findLocalRoot_eq (fresh : CString) (mounts : List (AbsPath × α)) (path : AbsPath) :
    vfsTreeFindLocalRoot fresh (mountAll fresh mounts) path.toString =
      some { pathToUse := ['/'], fsNode := mounts.getLast?.map Prod.snd } := by
  rw [vfsTreeFindLocalRoot, if_pos path.toString_head, mountAll_fsNode]

/-- A path that is itself mounted is its own longest mounted prefix. -/
theorem resolve_mounted {mounts : List (AbsPath × α)} {cs : List CString} {node : α}
    (h : lastOn mounts cs = some node) : resolve mounts cs = some (node, []) := by
  rw [resolve, List.range_succ, List.reverse_append]
  simp only [List.reverse_cons, List.reverse_nil, List.nil_append, List.cons_append,
    List.findSome?_cons, List.take_length, List.drop_length, h, Option.map_some]

theorem resolve_spec {mounts : List (AbsPath × α)} {cs rest : List CString} {node : α}
    (h : resolve mounts cs = some (node, rest)) :
    ∃ k, k ≤ cs.length ∧ lastOn mounts (cs.take k) = some node ∧ rest = cs.drop k := by
  obtain ⟨k, hk, hmap⟩ := List.exists_of_findSome?_eq_some h
  rw [List.mem_reverse, List.mem_range] at hk
  obtain ⟨node', hnode, heq⟩ := Option.map_eq_some_iff.mp hmap
  obtain ⟨rfl, rfl⟩ := Prod.mk.inj heq
  exact ⟨k, by omega, hnode, rfl⟩

/-- Remaining components never read as a single slash. -/
theorem joinPath_ne_slash {top : CString} {c : CString} {cs : List CString} (hc : Component c) :
    joinPath top (c :: cs) ≠ ['/'] := by
  obtain ⟨hne, hslash⟩ := hc
  cases c with
  | nil => exact absurd rfl hne
  | cons ch c =>
    intro h
    have hch : ch = '/' := (List.cons.inj h).1
    exact hslash (hch ▸ List.mem_cons_self)

theorem resolves_cases (fresh top : CString) (mounts : List (AbsPath × α)) (path : AbsPath) :
    Resolves fresh top mounts path ↔
      ∃ node, lastOn mounts path.components = some node ∧
        mounts.getLast?.map Prod.snd = some node ∧ top = ['/'] := by
  rw [Resolves, findLocalRoot_eq]
  constructor
  · intro h
    cases hres : resolve mounts path.components with
    | none =>
      rw [hres] at h
      simp at h
    | some r =>
      obtain ⟨node, rest⟩ := r
      rw [hres] at h
      obtain ⟨hpath, hnode⟩ := FindResult.mk.inj (Option.some.inj h)
      obtain ⟨k, hk, hlast, rfl⟩ := resolve_spec hres
      cases hdrop : path.components.drop k with
      | nil =>
        have hall : path.components.take k = path.components :=
          List.take_of_length_le (List.drop_eq_nil_iff.mp hdrop)
        rw [hall] at hlast
        rw [hdrop] at hpath
        exact ⟨node, hlast, hnode, hpath.symm⟩
      | cons c cs =>
        rw [hdrop] at hpath
        have hmem : c ∈ path.components :=
          List.mem_of_mem_drop (hdrop ▸ List.mem_cons_self : c ∈ path.components.drop k)
        exact absurd hpath.symm (joinPath_ne_slash (path.valid c hmem))
  · rintro ⟨node, hlast, hnode, rfl⟩
    rw [resolve_mounted hlast, hnode]
    rfl

theorem unchanged_cases (fresh : CString) (mounts : List (AbsPath × α)) (m : AbsPath × α)
    (path : AbsPath) :
    Unchanged fresh mounts m path ↔ mounts.getLast?.map Prod.snd = some m.2 := by
  rw [Unchanged, findLocalRoot_eq, findLocalRoot_eq, List.getLast?_concat, Option.map_some]
  constructor
  · intro h
    exact (FindResult.mk.inj (Option.some.inj h)).2.symm
  · intro h
    rw [h]

/-- **When an absolute path resolves.**  Exactly when the path is itself mounted,
the node there is also the last one mounted anywhere, and the top of a file system
is written as a slash.  A further mount leaves a result alone exactly when it mounts
the node that was mounted last. -/
theorem resolves_iff (fresh top : CString) (mounts : List (AbsPath × α)) (path : AbsPath) :
    (Resolves fresh top mounts path ↔
      ∃ node, lastOn mounts path.components = some node ∧
        mounts.getLast?.map Prod.snd = some node ∧ top = ['/']) ∧
    ∀ m, Unchanged fresh mounts m path ↔ mounts.getLast?.map Prod.snd = some m.2 :=
  ⟨resolves_cases fresh top mounts path, fun m => unchanged_cases fresh mounts m path⟩

/-- The path of one component. -/
def single (c : CString) (h : Component c) : AbsPath :=
  ⟨[c], fun d hd => by rwa [List.mem_singleton.mp hd]⟩

def devPath : AbsPath := single ['d', 'e', 'v'] (by decide)

def filePath : AbsPath := single ['f'] (by decide)

def rootPath : AbsPath := ⟨[], by simp⟩

/-- After mounts on the root and on `/dev`, the file `/f` of the root is looked up
in the file system of `/dev`, under the path of its top. -/
theorem resolves_last_mount :
    resolve [(rootPath, 1), (devPath, 2)] filePath.components = some (1, [['f']]) ∧
      vfsTreeFindLocalRoot [] (mountAll [] [(rootPath, 1), (devPath, 2)]) filePath.toString =
        some { pathToUse := ['/'], fsNode := some 2 } ∧
      ¬ Unchanged [] [(rootPath, 1)] (devPath, 2) filePath ∧
      ¬ ∀ top, Resolves [] top [(rootPath, 1), (devPath, 2)] filePath := by
  have hlast : lastOn [(rootPath, 1), (devPath, 2)] filePath.components = none := by decide
  refine ⟨by decide, findLocalRoot_eq [] _ filePath, ?_, ?_⟩
  · rw [unchanged_cases]
    decide
  · intro h
    obtain ⟨node, hnode, -⟩ := (resolves_cases _ _ _ _).mp (h [])
    rw [hlast] at hnode
    simp at hnode

end Vfs
end Medusa
