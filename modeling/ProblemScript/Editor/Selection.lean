import ProblemScript.Editor.Session
import ProblemScript.Prose.Matcher

/-! The selected part of a script and what it highlights in the script, in the prose and in the
diagrams. -/
namespace ProblemScript.Editor

/-- What is highlighted in each view. -/
structure Highlights where
  script : List Span := []
  prose : List Span := []
  diagram : List Diagram.Component := []
deriving DecidableEq, Repr, Inhabited

def Highlights.isEmpty (h : Highlights) : Bool :=
  h.script.isEmpty && h.prose.isEmpty && h.diagram.isEmpty

/-- The selected path with its highlights. Nothing is highlighted unless something is selected. -/
structure Selection where
  path : Option String := none
  highlights : Highlights := {}
  matching : Prose.Options := {}
deriving DecidableEq, Repr, Inhabited

/-- The properties of an entity that are looked for in the prose. -/
def entityProseKeys : List String := ["entity_quantity", "entity_name", "container_name"]

/-- The values of a property that are looked for in the prose: its items, or its value. -/
def propertyProseValues (n : Node) : List String :=
  if n.children.isEmpty then n.value.toList else n.children.filterMap (·.value)

/-- The values of a node that are looked for in the prose. -/
def proseValues (n : Node) : List String :=
  match n.kind with
  | .property => propertyProseValues n
  | .entity | .container => (entityProseKeys.filterMap n.property?).flatMap propertyProseValues
  | .operation => []

namespace Selection

/-- A selection with nothing selected. -/
def new (matching : Prose.Options) : Selection := { matching }

def clear (sel : Selection) : Selection := new sel.matching

/-- What the node at `path` highlights in a session. -/
def highlightsOf (matching : Prose.Options) (s : Session) (path : String) (n : Node) :
    Highlights where
  script := (s.table.range? path).toList
  prose := Prose.findAll matching s.wordProblem (proseValues n)
  diagram := s.diagram.nearest path

/-- Selects a path, or nothing when the tree has no such node; tells which. -/
def select (sel : Selection) (s : Session) (path : String) : Selection × Bool :=
  match s.tree.findText? path with
  | none => (sel.clear, false)
  | some n => ({ sel with path := some path, highlights := highlightsOf sel.matching s path n }, true)

/-- Selects what is under a byte offset. -/
def selectAt (sel : Selection) (s : Session) (offset : Nat) : Selection × Bool :=
  match s.resolve? offset with
  | none => (sel.clear, false)
  | some path => sel.select s path

/-- Brings the highlights up to date after the session changed. A path that is gone is dropped. -/
def refresh (sel : Selection) (s : Session) : Selection :=
  match sel.path with
  | none => sel
  | some path => (sel.select s path).1

end Selection
end ProblemScript.Editor
