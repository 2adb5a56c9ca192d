import ProblemScript.Diagram.Index
import ProblemScript.Editor.Service
import ProblemScript.Grammar.Script
import ProblemScript.Layout.Document
import ProblemScript.Tree.Cursor
import ProblemScript.Tree.Edit

/-! Editing sessions. A session holds a script with its tree and its ranges; whatever changes the
text replaces all three. -/
namespace ProblemScript.Editor

/-- Why a session refuses a step. -/
inductive SessionError where
  | edit (cause : EditError)
  | generation (reason : String)
deriving DecidableEq, Repr

def SessionError.message : SessionError → String
  | edit cause => cause.message
  | generation reason => "Generation failed: " ++ reason

/-- The state of one editor. -/
structure Session where
  text : String := ""
  tree : Node := Node.placeholder 0
  table : RangeTable := RangeTable.empty
  wordProblem : String := ""
  diagram : Diagram.Index := Diagram.Index.empty
  serverErrors : List String := []
  missingEntities : List String := []
  layout : Layout.Options := {}
deriving DecidableEq

namespace Session

/-- A session without text. -/
def new (layout : Layout.Options) : Session := { layout }

/-- Takes over a text as typed. -/
def replaceText (s : Session) (text : String) : Session :=
  let tree := Node.ofScript text
  { s with text, tree, table := .ofTree tree }

/-- A session over a text as typed. -/
def ofText (text : String) : Session := replaceText {} text

/-- Takes over a laid-out text. -/
def adopt (s : Session) (d : Layout.Document) : Session :=
  { s with text := d.text, tree := .ofScript d.text, table := d.table }

/-- Sets the value at a path and lays the tree out again. -/
def applyEdit (s : Session) (path value : String) : Except SessionError Session :=
  match s.tree.setValue path value with
  | .ok tree => .ok (s.adopt (Layout.document s.layout tree))
  | .error e => .error (.edit e)

/-- Lays the tree out again, unless there is none. -/
def reformat (s : Session) : Session :=
  if s.tree.isPlaceholder then s else s.adopt (Layout.document s.layout s.tree)

/-- The path under a byte offset. -/
def resolve? (s : Session) (offset : Nat) : Option String := s.tree.pathAt? offset

def setWordProblem (s : Session) (text : String) : Session := { s with wordProblem := text }

/-- The text without the white space around it, unless nothing is left. -/
def nonBlank? (text : String) : Option String :=
  let trimmed := Text.trimmed text
  if trimmed.isEmpty then none else some trimmed

/-- The request for new diagrams. The script goes out on one line; a text without an operation
goes out as typed, so that the service can say what is wrong with it. -/
def request (s : Session) : Request :=
  let script := if s.tree.isPlaceholder then s.text else Layout.minify s.tree
  { wordProblem := nonBlank? s.wordProblem, script := nonBlank? script }

/-- Takes over an answer of the service. -/
def applyResponse (s : Session) (r : Response) : Session :=
  let formal := (r.formalSvg.map (Diagram.Index.empty.add .formal)).getD .empty
  let diagram := (r.intuitiveSvg.map (formal.add .intuitive)).getD formal
  { s with
    serverErrors := r.errors
    missingEntities := r.missingEntities.getD []
    diagram }.replaceText r.script

/-- Asks the service for new diagrams and takes over its answer; a failure comes with its
reason. -/
def regenerate (s : Session) (service : Request → Except String Response) :
    Except SessionError Session :=
  match service s.request with
  | .ok r => .ok (s.applyResponse r)
  | .error reason => .error (.generation reason)

end Session
end ProblemScript.Editor
