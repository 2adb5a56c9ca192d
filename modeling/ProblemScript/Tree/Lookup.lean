import ProblemScript.Path.Reader
import ProblemScript.Tree.Node

/-! From a path to the node it names. Nodes are found by position, not by the path they carry, so
that a lookup follows the shape of the tree. -/
namespace ProblemScript.Node

/-- The number of the first property with the given key, in a node that holds properties. -/
def propertyIndex? (n : Node) (key : String) : Option Nat :=
  if n.kind.isEntityLike then n.children.findIdx? (·.key? == some key) else none

/-- The numbers of the children through which `steps` lead. A slot step and the operation step
behind it are one hop. -/
def route (n : Node) : List Step → Option (List Nat)
  | [] => some []
  | .entity i :: .operation :: rest => do
    let child ← n.children[i]?
    if child.kind = .operation then (i :: ·) <$> child.route rest else none
  | .entity i :: rest => do
    let child ← n.children[i]?
    if child.kind.isEntityLike then (i :: ·) <$> child.route rest else none
  | .property key none :: rest => do
    let i ← n.propertyIndex? key
    let property ← n.children[i]?
    (i :: ·) <$> property.route rest
  | .property key (some j) :: rest => do
    let i ← n.propertyIndex? key
    let property ← n.children[i]?
    let item ← property.children[j]?
    (i :: j :: ·) <$> item.route rest
  | .operation :: _ => none

/-- Where the path leads in a tree whose root is an operation. -/
def locate? (tree : Node) (p : Path) : Option (List Nat) :=
  if tree.kind = .operation then tree.route p.steps.tail else none

/-- The node reached through the children with the given numbers. -/
def descend? (n : Node) : List Nat → Option Node
  | [] => some n
  | i :: rest => n.children[i]?.bind (·.descend? rest)

/-- The tree with `f` applied to the node reached through the given children. -/
def modifyAt (f : Node → Node) : List Nat → Node → Node
  | [], n => f n
  | i :: rest, n => { n with children := n.children.modify i (modifyAt f rest) }

/-- The node that a path names. -/
def find? (tree : Node) (p : Path) : Option Node := (tree.locate? p).bind tree.descend?

/-- The node that a written path names. -/
def findText? (tree : Node) (path : String) : Option Node :=
  match Path.parse path with
  | .ok p => tree.find? p
  | .error _ => none

/-- The tree with `f` applied to the node that a path names. -/
def modify? (tree : Node) (p : Path) (f : Node → Node) : Option Node :=
  (tree.locate? p).map (modifyAt f · tree)

end ProblemScript.Node
