/-! Identifiers: an ASCII letter or underscore followed by ASCII letters, digits and
underscores. -/
namespace ProblemScript.Text

/-- A character that may stand in a name. -/
def isNameChar (c : Char) : Bool := c.isAlphanum || c == '_'

/-- A character that may start an identifier. -/
def isNameStart (c : Char) : Bool := c.isAlpha || c == '_'

/-- The identifier at the start of a text, empty when there is none. -/
def leadingName : List Char → List Char
  | [] => []
  | c :: cs => if isNameStart c then c :: cs.takeWhile isNameChar else []

/-- The text is one identifier. -/
def isIdentifier (cs : List Char) : Bool := !cs.isEmpty && leadingName cs == cs

end ProblemScript.Text
