import ProblemScript.Path.Reader
import ProblemScript.Text.Bytes

/-! Limits on written paths that come from outside, such as those on rendered diagrams. -/
namespace ProblemScript

/-- Why a path from outside is refused. -/
inductive LimitError where
  | tooLong
  | tooDeep
  | malformed (cause : PathError)
deriving DecidableEq, Repr

def LimitError.message : LimitError → String
  | tooLong => "Path too long"
  | tooDeep => "Path too deep"
  | malformed cause => cause.message

namespace Path

/-- Longest path accepted from outside, in bytes. -/
def maxBytes : Nat := 1024

/-- Most operations that a path from outside may pass through. -/
def maxDepth : Nat := 32

/-- Reads a path from outside. Its length is checked before its form, its depth after it. -/
def accept (s : String) : Except LimitError Path :=
  if maxBytes < Text.byteLength s.toList then .error .tooLong
  else match parse s with
    | .error cause => .error (.malformed cause)
    | .ok p => if maxDepth < p.operationDepth then .error .tooDeep else .ok p

end Path
end ProblemScript
