import ProblemScript.Path.Text

/-! Structured paths. A path starts at the root operation and grows one step at a time; the
builders do not check that a step may follow the one before it. -/
namespace ProblemScript

/-- One hop of a path. -/
inductive Step where
  | operation
  | entity (index : Nat)
  | property (key : String) (index : Option Nat)
deriving DecidableEq, Repr

namespace Step

/-- The written form of a step. -/
def text : Step → String
  | operation => Path.operationWord
  | entity i => Path.indexed Path.entitiesWord i
  | property key none => key
  | property key (some j) => Path.indexed key j

def isProperty : Step → Bool
  | property .. => true
  | _ => false

end Step

/-- The address of a node: the root operation, or a step taken from another address. -/
inductive Path where
  | root
  | entity (owner : Path) (index : Nat)
  | operation (slot : Path)
  | property (owner : Path) (key : String)
  | item (owner : Path) (key : String) (index : Nat)
deriving DecidableEq, Repr, Inhabited

namespace Path

/-- The step that a path ends with. -/
def last : Path → Step
  | root => .operation
  | entity _ i => .entity i
  | operation _ => .operation
  | property _ key => .property key none
  | item _ key j => .property key (some j)

/-- The steps from the root on; the first is the root operation itself. -/
def steps : Path → List Step
  | root => [.operation]
  | entity p i => p.steps ++ [.entity i]
  | operation p => p.steps ++ [.operation]
  | property p key => p.steps ++ [.property key none]
  | item p key j => p.steps ++ [.property key (some j)]

/-- Number of steps. -/
def length : Path → Nat
  | root => 1
  | entity p _ | operation p | property p _ | item p _ _ => p.length + 1

def isRoot : Path → Bool
  | root => true
  | _ => false

/-- The written form: steps joined by `/`. -/
def text : Path → String
  | root => operationWord
  | entity p i => slotIn p.text i
  | operation p => operationIn p.text
  | property p key => propertyIn p.text key
  | item p key j => itemIn (propertyIn p.text key) j

/-- The enclosing path. An item lies in its property, an operation in its slot. -/
def parent? : Path → Option Path
  | root => none
  | entity p _ | operation p | property p _ => some p
  | item p key _ => some (p.property key)

/-- All strict ancestors, nearest first. -/
def ancestors : Path → List Path
  | root => []
  | entity p _ | operation p | property p _ => p :: p.ancestors
  | item p key _ => p.property key :: p :: p.ancestors

/-- `p` is a strict ancestor of `q`. -/
def isAncestorOf (p q : Path) : Bool := q.ancestors.contains p

/-- Number of operation steps. -/
def operationDepth (p : Path) : Nat := p.steps.count .operation

@[simp] theorem length_steps (p : Path) : p.steps.length = p.length := by
  induction p <;> simp_all [steps, length]

/-- The ancestors are what repeated steps to the parent meet. -/
theorem ancestors_eq_parent (p : Path) :
    p.ancestors = match p.parent? with
      | none => []
      | some q => q :: q.ancestors := by
  cases p <;> rfl

theorem parent?_eq_none_iff (p : Path) : p.parent? = none ↔ p = root := by
  cases p <;> simp [parent?]

end Path
end ProblemScript
