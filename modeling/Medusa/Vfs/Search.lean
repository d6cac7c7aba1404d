import Mathlib.Data.List.Basic

/-!
# Searching a file tree

`vfs_search_node` of `vfs.c`, on trees in which `readdir` yields the children of
a node in order.  The search hands its own position down to the directory it
enters, so it sees exactly the nodes on paths of growing positions.
-/

namespace Medusa
namespace Vfs

inductive FileType where
  | file
  | characterDevice
  | blockDevice
  | pipe
  | symbolicLink
  | directory
  | mountPoint
deriving DecidableEq, Repr

/-- An `fs_node_t` as the search sees it. -/
inductive FsNode where
  | mk (name : String) (nodeType : FileType) (children : List FsNode)

namespace FsNode

def name : FsNode → String
  | mk name _ _ => name

def nodeType : FsNode → FileType
  | mk _ nodeType _ => nodeType

def children : FsNode → List FsNode
  | mk _ _ children => children

end FsNode

/-- `readdir_fs`; `none` is the null pointer past the last child. -/
def readdirFs (node : FsNode) (index : Nat) : Option FsNode := node.children[index]?

theorem readdirFs_lt {node child : FsNode} {index : Nat} (h : readdirFs node index = some child) :
    index < node.children.length := (List.getElem?_eq_some_iff.mp h).1

theorem sizeOf_readdirFs {node child : FsNode} {index : Nat}
    (h : readdirFs node index = some child) : sizeOf child < sizeOf node := by
  have hmem := List.sizeOf_lt_of_mem (List.mem_of_getElem? h)
  cases node with
  | mk name nodeType children =>
    rw [FsNode.mk.sizeOf_spec]
    have hmem' : sizeOf child < sizeOf children := hmem
    omega

/-- The loop goes on with the next index, in the directory first. -/
def vfsSearchNode (parent : FsNode) (path : String) (indexChild : Nat) : Option FsNode :=
  match _h : readdirFs parent indexChild with
  | none => none
  | some child =>
    if child.name = path then some child
    else if child.nodeType = .directory then
      match vfsSearchNode child path (indexChild + 1) with
      | some recursiveChild => some recursiveChild
      | none => vfsSearchNode parent path (indexChild + 1)
    else vfsSearchNode parent path (indexChild + 1)
termination_by (sizeOf parent, parent.children.length - indexChild)
decreasing_by
  · exact Prod.Lex.left _ _ (sizeOf_readdirFs _h)
  · have hlt := readdirFs_lt _h
    exact Prod.Lex.right _ (by omega)
  · have hlt := readdirFs_lt _h
    exact Prod.Lex.right _ (by omega)

/-! ## Positions -/

/-- The node that the positions `path` lead to, through directories. -/
def nodeAt (node : FsNode) : List Nat → Option FsNode
  | [] => some node
  | p :: ps =>
    match node.children[p]? with
    | none => none
    | some child => if ps = [] ∨ child.nodeType = .directory then nodeAt child ps else none

/-- A proper descendant at positions that grow from level to level, starting with
at least `index`. -/
def Ascending (index : Nat) (root node : FsNode) : Prop :=
  ∃ ps, ps ≠ [] ∧ ps.Pairwise (· < ·) ∧ (∀ p ∈ ps, index ≤ p) ∧ nodeAt root ps = some node

variable {root node child : FsNode} {index : Nat}

theorem Ascending.mono {index' : Nat} (h : Ascending index root node) (hle : index' ≤ index) :
    Ascending index' root node := by
  obtain ⟨ps, hne, hgrow, hlow, hat⟩ := h
  exact ⟨ps, hne, hgrow, fun p hp => Nat.le_trans hle (hlow p hp), hat⟩

/-- A root whose only child is a directory with one file. -/
def oneFile : FsNode :=
  .mk "/" .directory [.mk "dir" .directory [.mk "file" .file []]]

end Vfs
end Medusa
