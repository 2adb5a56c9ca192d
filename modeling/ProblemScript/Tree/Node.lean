import ProblemScript.Path.Text
import ProblemScript.Span

/-! The tree of a script. Every node carries its written path and its byte range, so that a tree
can be searched from the text as well as from a path. -/
namespace ProblemScript

/-- What a node stands for. -/
inductive Kind where
  | operation
  | entity
  | container
  | property
deriving DecidableEq, Repr, Inhabited

namespace Kind

/-- The entity type that makes a container. -/
def containerType : String := "result_container"

/-- The kind of an entity with the given type. -/
def ofType (type : String) : Kind := if type = containerType then container else entity

/-- Entities and containers hold properties. -/
def isEntityLike : Kind → Bool
  | entity | container => true
  | _ => false

@[simp] theorem isEntityLike_ofType (type : String) : (ofType type).isEntityLike = true := by
  unfold ofType
  split <;> rfl

end Kind

/-- A node of a script tree. The value is the operation name, the entity type, or the canonical
property value. -/
structure Node where
  kind : Kind
  path : String
  span : Span
  value : Option String
  children : List Node
deriving Repr

namespace Node

mutual

/-- Equality of trees is decided node by node. -/
def decEq : (m n : Node) → Decidable (m = n)
  | ⟨kind, path, span, value, children⟩, ⟨kind', path', span', value', children'⟩ =>
    match decEqList children children' with
    | isFalse h => isFalse fun e => h (Node.mk.inj e).2.2.2.2
    | isTrue h =>
      if h' : kind = kind' ∧ path = path' ∧ span = span' ∧ value = value' then
        isTrue (by rw [h, h'.1, h'.2.1, h'.2.2.1, h'.2.2.2])
      else
        isFalse fun e =>
          let i := Node.mk.inj e
          h' ⟨i.1, i.2.1, i.2.2.1, i.2.2.2.1⟩

def decEqList : (ms ns : List Node) → Decidable (ms = ns)
  | [], [] => isTrue rfl
  | [], _ :: _ => isFalse nofun
  | _ :: _, [] => isFalse nofun
  | m :: ms, n :: ns =>
    match decEq m n, decEqList ms ns with
    | isTrue h, isTrue h' => isTrue (by rw [h, h'])
    | isFalse h, _ => isFalse fun e => h (List.cons.inj e).1
    | _, isFalse h => isFalse fun e => h (List.cons.inj e).2

end

instance : DecidableEq Node := decEq

/-- The root of a text without an operation: it covers the text and holds nothing. -/
def placeholder (bytes : Nat) : Node := ⟨.operation, Path.operationWord, ⟨0, bytes⟩, none, []⟩

instance : Inhabited Node := ⟨placeholder 0⟩

/-- An operation without name and parts. -/
def isPlaceholder (n : Node) : Bool :=
  n.kind == .operation && n.value.isNone && n.children.isEmpty

/-- The property key that a written path ends with: its last step without an item number. -/
def keyOfPath (path : String) : String :=
  .ofList ((path.toList.splitOn '/').getLastD [] |>.takeWhile (· != '['))

/-- The key of a property. -/
def key? (n : Node) : Option String :=
  if n.kind = .property then some (keyOfPath n.path) else none

/-- The first property child with the given key. -/
def property? (n : Node) (key : String) : Option Node := n.children.find? (·.key? == some key)

/-- The children of a property: one for each item when there are several. -/
def itemsOf (path : String) (span : Span) (items : List String) : List Node :=
  if items.length ≤ 1 then []
  else items.mapIdx fun j item => ⟨.property, Path.itemIn path j, span, some item, []⟩

end Node
end ProblemScript
