import ProblemScript.Text.Blank

/-! What goes to and comes from the service that generates scripts and diagrams. -/
namespace ProblemScript.Editor

/-- What the service is asked for. Absent parts are left to it. -/
structure Request where
  wordProblem : Option String := none
  formula : Option String := none
  hint : Option String := none
  script : Option String := none
deriving DecidableEq, Repr, Inhabited

/-- What the service answers: a new script, the diagrams it could render, and its complaints. -/
structure Response where
  script : String
  formalSvg : Option String := none
  intuitiveSvg : Option String := none
  formalError : Option String := none
  intuitiveError : Option String := none
  missingEntities : Option (List String) := none
deriving DecidableEq, Repr, Inhabited

/-- The errors reported, as they came, without blank ones. -/
def Response.errors (r : Response) : List String :=
  [r.formalError, r.intuitiveError].filterMap fun e =>
    e.filter fun s => !(Text.trim s.toList).isEmpty

end ProblemScript.Editor
