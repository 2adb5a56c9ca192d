import ProblemScript.Tree.Node

/-! Pre-order traversal, as a list and as a walk that takes one node at a time. -/
namespace ProblemScript

/-- The data of a node that does not depend on where the text was broken into lines. -/
structure Outline where
  path : String
  kind : Kind
  value : Option String
deriving DecidableEq, Repr

namespace Node

mutual

/-- A node followed by all nodes below it, in order. -/
def nodes : Node → List Node
  | ⟨kind, path, span, value, children⟩ => ⟨kind, path, span, value, children⟩ :: nodesOf children

/-- The nodes of several trees, one tree after the other. -/
def nodesOf : List Node → List Node
  | [] => []
  | n :: ns => n.nodes ++ nodesOf ns

end

mutual

/-- Number of nodes of a tree. -/
def size : Node → Nat
  | ⟨_, _, _, _, children⟩ => totalSize children + 1

/-- Number of nodes of several trees. -/
def totalSize : List Node → Nat
  | [] => 0
  | n :: ns => n.size + totalSize ns

end

theorem size_eq (n : Node) : n.size = totalSize n.children + 1 := by
  cases n
  rfl

@[simp] theorem totalSize_append (ms ns : List Node) :
    totalSize (ms ++ ns) = totalSize ms + totalSize ns := by
  induction ms with
  | nil => simp [totalSize]
  | cons m ms ih => simp only [List.cons_append, totalSize, ih, Nat.add_assoc]

@[simp] theorem totalSize_reverse (ns : List Node) : totalSize ns.reverse = totalSize ns := by
  induction ns with
  | nil => rfl
  | cons n ns ih => simp [totalSize, ih, Nat.add_comm]

/-- All paths in pre-order. -/
def paths (n : Node) : List String := n.nodes.map (·.path)

/-- Path, kind and value of every node in pre-order. -/
def outline (n : Node) : List Outline := n.nodes.map fun m => ⟨m.path, m.kind, m.value⟩

end Node

/-- A node as a walk refers to it: with its position, the numbers of the children on the way to it.
Nodes that are alike stand at places of their own. -/
@[ext] structure Place where
  position : List Nat
  node : Node
deriving DecidableEq, Repr

/-- The places of the children, in order. -/
def Place.children (v : Place) : List Place :=
  v.node.children.mapIdx fun i c => ⟨v.position ++ [i], c⟩

@[simp] theorem Place.map_node_children (v : Place) :
    v.children.map (·.node) = v.node.children := by
  apply List.ext_getElem?
  intro i
  simp [children, Function.comp_def]

/-- A traversal under way: a stack of the places still to be visited, its top at the end. -/
structure Walk where
  stack : Array Place

namespace Walk

def start (n : Node) : Walk := ⟨#[⟨[], n⟩]⟩

/-- The place on top of the stack, and the walk behind it. The children are pushed from the last to
the first, so that the first is the next to be visited. -/
def next? (w : Walk) : Option (Place × Walk) :=
  w.stack.back?.map fun v => (v, ⟨w.stack.pop ++ v.children.reverse⟩)

theorem next?_eq_none_iff {w : Walk} : w.next? = none ↔ w.stack = #[] := by
  simp [next?]

theorem next?_eq_some_iff {w w' : Walk} {v : Place} :
    w.next? = some (v, w') ↔
      ∃ rest : Array Place, w.stack = rest.push v ∧ w' = ⟨rest ++ v.children.reverse⟩ := by
  simp only [next?, Option.map_eq_some_iff, Array.back?_eq_some_iff, Prod.mk.injEq]
  constructor
  · rintro ⟨_, ⟨rest, hrest⟩, rfl, rfl⟩
    exact ⟨rest, hrest, by simp [hrest]⟩
  · rintro ⟨rest, hrest, rfl⟩
    exact ⟨v, ⟨rest, hrest⟩, rfl, by simp [hrest]⟩

/-- Number of nodes on the stack and below it. -/
def remaining (w : Walk) : Nat := Node.totalSize (w.stack.toList.map (·.node))

/-- A step leaves one node less. -/
theorem remaining_of_next? {w w' : Walk} {v : Place} (h : w.next? = some (v, w')) :
    w.remaining = w'.remaining + 1 := by
  obtain ⟨rest, hrest, rfl⟩ := next?_eq_some_iff.1 h
  have hsize := Node.size_eq v.node
  simp only [remaining, hrest, Array.toList_push, Array.toList_appendList, List.map_append,
    List.map_reverse, Place.map_node_children, Node.totalSize_append, Node.totalSize_reverse,
    List.map_cons, List.map_nil, Node.totalSize]
  omega

/-- The places that are left, one a step, until no more comes. -/
def run (w : Walk) : List Place :=
  match _hnext : w.next? with
  | none => []
  | some (v, w') => v :: w'.run
termination_by w.remaining
decreasing_by
  have hsize := remaining_of_next? _hnext
  omega

end Walk
end ProblemScript
