import ProblemScript.Grammar.Value
import ProblemScript.Text.Identifier
import ProblemScript.Tree.Lookup

/-! Editing values in a tree. Paths and ranges stay those of the text that the tree was read
from. -/
namespace ProblemScript

/-- Why an edit is refused. -/
inductive EditError where
  | invalidPath (cause : PathError)
  | notFound (path : String)
  | notEditable (path : String)
  | invalidValue (path value : String)
deriving DecidableEq, Repr

def EditError.message : EditError → String
  | invalidPath cause => "Invalid path: " ++ cause.message
  | notFound path => "No node at path: " ++ path
  | notEditable path => "Node at path cannot be edited: " ++ path
  | invalidValue path value => "Invalid value for " ++ path ++ ": " ++ value

/-- What an edit does to a node: a new name for an operation or entity, new items for a property,
or a new item in place of one of them. -/
inductive Change where
  | name (name : String)
  | items (items : List String)
  | item (index : Nat) (item : String)
deriving DecidableEq, Repr

namespace Change

/-- The change that a new value makes at `p`, if the value is admissible there. Names have to be
identifiers, and items have to read back as themselves. -/
def ofValue? (p : Path) (value : String) : Option Change :=
  let items := Value.items value.toList
  match p.last with
  | .property _ (some j) =>
    match items with
    | [one] => if Value.isPlain one then some (.item j one) else none
    | _ => none
  | .property _ none => if items.all Value.isPlain then some (.items items) else none
  | .entity _ | .operation =>
    let name := Text.trimmed value
    if Text.isIdentifier name.toList then some (.name name) else none

/-- The node that a change at `p` is made to: an item is changed within its property. -/
def target (p : Path) : Path :=
  match p with
  | .item owner key _ => owner.property key
  | _ => p

/-- The placeholder takes no name. -/
def isRefusedBy : Change → Node → Bool
  | name _, n => n.isPlaceholder
  | _, _ => false

/-- The changed node. The type of an entity decides its kind; the value of a property follows its
items. -/
def apply : Change → Node → Node
  | name s, n =>
    { n with
      kind := if n.kind.isEntityLike then .ofType s else n.kind
      value := some s }
  | items xs, n =>
    { n with
      value := some (Value.join xs)
      children := Node.itemsOf n.path n.span xs }
  | item j s, n =>
    let children := n.children.modify j fun c => { c with value := some s }
    { n with value := some (Value.join (children.map (·.value.getD ""))), children }

end Change

/-- The tree with a new value for the node that `path` names. Faults are looked for in the path,
then in the value, and then in the tree. -/
def Node.setValue (tree : Node) (path value : String) : Except EditError Node :=
  match Path.parse path with
  | .error cause => .error (.invalidPath cause)
  | .ok p =>
    match Change.ofValue? p value with
    | none => .error (.invalidValue path value)
    | some change =>
      match tree.find? p with
      | none => .error (.notFound path)
      | some n =>
        if change.isRefusedBy n then .error (.notEditable path)
        else .ok ((tree.modify? (Change.target p) change.apply).getD tree)

end ProblemScript
