/-! Paths in written form. A path is a run of steps joined by `/`; the parser and the layout
extend written paths directly, and descent can be read off the text. -/
namespace ProblemScript.Path

/-- The word for the root step and for an operation inside an entity slot. -/
def operationWord : String := "operation"

/-- The word that numbers the slots of an operation. -/
def entitiesWord : String := "entities"

/-- A step with an item number behind it. -/
def indexed (name : String) (i : Nat) : String := name ++ "[" ++ toString i ++ "]"

/-- The `i`-th slot of the operation written `owner`. -/
def slotIn (owner : String) (i : Nat) : String := owner ++ "/" ++ indexed entitiesWord i

/-- The operation that the slot written `slot` holds. -/
def operationIn (slot : String) : String := slot ++ "/" ++ operationWord

/-- The property `key` of the entity written `owner`. -/
def propertyIn (owner key : String) : String := owner ++ "/" ++ key

/-- The `j`-th item of the property written `property`. -/
def itemIn (property : String) (j : Nat) : String := indexed property j

/-- `path` continues `ancestor` by a further step, or names an item of the property `ancestor`.
A numbered step has no items, so an ancestor that ends in `]` is continued by a step only. -/
def descends (ancestor path : String) : Bool :=
  let a := ancestor.toList
  a.isPrefixOf path.toList &&
    match path.toList.drop a.length with
    | '/' :: _ => true
    | '[' :: _ => a.getLast? != some ']'
    | _ => false

end ProblemScript.Path
