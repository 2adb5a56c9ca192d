import ProblemScript.Tree.Node

/-! From a byte offset to the node under it. -/
namespace ProblemScript.Node

mutual

/-- Follows the first child whose range holds `offset`, as far down as there is one. Items share
the range of their property, so a property is not entered. -/
def innermost (offset : Nat) : Node → Node
  | ⟨kind, path, span, value, children⟩ =>
    let here : Node := ⟨kind, path, span, value, children⟩
    if kind = .property then here else (innermostOf offset children).getD here

/-- The innermost node below the first tree whose range holds `offset`. -/
def innermostOf (offset : Nat) : List Node → Option Node
  | [] => none
  | n :: ns => if n.span.contains offset then some (n.innermost offset) else innermostOf offset ns

end

/-- The innermost node under `offset`, if the tree reaches there. -/
def resolve? (tree : Node) (offset : Nat) : Option Node :=
  if tree.span.contains offset then some (tree.innermost offset) else none

/-- The path under `offset`. -/
def pathAt? (tree : Node) (offset : Nat) : Option String := (tree.resolve? offset).map (·.path)

end ProblemScript.Node
