import ProblemScript.Grammar.Script
import ProblemScript.Layout.Document
import ProblemScript.Tree.Edit

/-! Edits from text to text. -/
namespace ProblemScript.Editor

/-- Reads a script, sets the value at a path, and lays the result out. Paths and offsets from
before the edit do not hold for the new document. -/
def editText (o : Layout.Options) (text path value : String) : Except EditError Layout.Document :=
  ((Node.ofScript text).setValue path value).map (Layout.document o)

end ProblemScript.Editor
