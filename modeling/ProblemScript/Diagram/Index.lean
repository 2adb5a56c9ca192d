import ProblemScript.Diagram.Markup
import ProblemScript.Path.Limits

/-! Which elements of the rendered diagrams show which part of a script. A renderer puts the path
of the part into the attribute `data-path`. -/
namespace ProblemScript.Diagram

/-- Which of the two diagrams an element belongs to. -/
inductive View where
  | formal
  | intuitive
deriving DecidableEq, Repr

/-- A diagram element that carries an admissible path. -/
structure Component where
  view : View
  dataPath : String
  elementId : Option String
  tag : String
deriving DecidableEq, Repr

/-- The component that a tag makes, if it carries an admissible path. -/
def Component.ofTag? (view : View) (t : Tag) : Option Component :=
  match t.attribute? "data-path" with
  | none => none
  | some path =>
    match Path.accept path with
    | .error _ => none
    | .ok _ => some ⟨view, path, t.attribute? "id", .ofList t.name⟩

/-- The components of one diagram, in document order. -/
def components (view : View) (svg : String) : List Component :=
  (Tag.scan svg.toList).filterMap (Component.ofTag? view)

/-- All components known, in the order in which their diagrams were added. -/
structure Index where
  components : List Component
deriving DecidableEq, Repr, Inhabited

namespace Index

def empty : Index := ⟨[]⟩

/-- Adds the components of a diagram. -/
def add (index : Index) (view : View) (svg : String) : Index :=
  ⟨index.components ++ Diagram.components view svg⟩

/-- The components that carry exactly this path. -/
def labelled (index : Index) (path : String) : List Component :=
  index.components.filter (·.dataPath == path)

def contains (index : Index) (path : String) : Bool := index.components.any (·.dataPath == path)

/-- The components of the first path in the list that has any. -/
def atFirst (index : Index) : List String → List Component
  | [] => []
  | p :: ps => if index.contains p then index.labelled p else index.atFirst ps

/-- The components of a path, or else those of its nearest ancestor that has any. -/
def nearest (index : Index) (path : String) : List Component :=
  let above := match Path.parse path with
    | .ok p => p.ancestors.map (·.text)
    | .error _ => []
  index.atFirst (path :: above)

end Index
end ProblemScript.Diagram
