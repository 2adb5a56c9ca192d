import ProblemScript.Text.Blank
import ProblemScript.Text.Occurrence
import ProblemScript.Text.WordChar

/-! Opening tags of vector graphics markup and their attributes. This is not a full markup reader:
a tag ends at the first `>`, and an attribute is looked for anywhere between the name and that. -/
namespace ProblemScript.Diagram

open Text

/-- An opening tag: its name, and everything from behind the name to the closing bracket. -/
structure Tag where
  name : List Char
  attributes : List Char
deriving DecidableEq, Repr

namespace Tag

def isNameChar (c : Char) : Bool := isWordChar c || c == ':' || c == '.' || c == '-'

/-- The tag at the start of a text. Attributes are set off by white space; without them the name
is followed by `>` or `/>`. -/
def recognise : Recogniser Tag
  | _, '<' :: c :: cs =>
    if c.isAlpha then
      let name := c :: cs.takeWhile isNameChar
      match cs.dropWhile isNameChar with
      | '>' :: _ => some (name.length + 2, ⟨name, []⟩)
      | '/' :: '>' :: _ => some (name.length + 3, ⟨name, []⟩)
      | rest@(d :: _) =>
        let attributes := rest.takeWhile (· != '>')
        if isBlank d && attributes.length < rest.length then
          some (name.length + attributes.length + 2, ⟨name, attributes⟩)
        else none
      | [] => none
    else none
  | _, _ => none

/-- All opening tags of a text. -/
def scan (text : List Char) : List Tag := (occurrences recognise text).map (·.found)

/-- The text up to the next `quote`, if there is one. -/
def quoted? (quote : Char) (cs : List Char) : Option (List Char) :=
  let inner := cs.takeWhile (· != quote)
  if inner.length < cs.length then some inner else none

/-- The value, if the text starts with `name = "value"` or `name = 'value'`. -/
def assigned? (name : List Char) (cs : List Char) : Option (List Char) :=
  if name.isPrefixOf cs then
    match trimStart (cs.drop name.length) with
    | '=' :: rest =>
      match trimStart rest with
      | '"' :: rest => quoted? '"' rest
      | '\'' :: rest => quoted? '\'' rest
      | _ => none
    | _ => none
  else none

/-- The first assignment to `name` behind white space. -/
def laterAssigned? (name : List Char) : List Char → Option (List Char)
  | [] => none
  | c :: cs => (if isBlank c then assigned? name cs else none) <|> laterAssigned? name cs

/-- The value of the first attribute with the given name. -/
def attribute? (t : Tag) (name : String) : Option String :=
  (assigned? name.toList t.attributes <|> laterAssigned? name.toList t.attributes).map .ofList

end Tag
end ProblemScript.Diagram
