import ProblemScript.Grammar.Entity

/-! Scripts. The root operation is the first line that starts with `name(`; its slots are the
segments between its parentheses that are entities or calls of further operations. Reading never
fails: other segments are passed over, and an operation that is not closed extends to the end. -/
namespace ProblemScript

/-- An operation whose parenthesis has been found: `rest` runs from behind the parenthesis, at
byte `bodyStart`, to the end of what the operation may extend to. -/
structure Call where
  name : List Char
  start : Nat
  bodyStart : Nat
  rest : List Char
deriving DecidableEq, Repr

/-- What a segment between the parentheses of an operation holds. -/
inductive Slot where
  | call (c : Call)
  | entity (e : EntitySource)
deriving DecidableEq, Repr

namespace Call

open Text

/-- The segment `raw` at byte offset `start`, if it is a whole call. -/
def ofSegment? (start : Nat) (raw : List Char) : Option Call :=
  let name := leadingName raw
  match name, trimStart (raw.drop name.length) with
  | _ :: _, '(' :: rest =>
    if raw.getLast? = some ')' then
      some { name, start, bodyStart := start + (byteLength raw - byteLength rest), rest }
    else none
  | _, _ => none

/-- A space or a tabulator. -/
def isIndent (c : Char) : Bool := c == ' ' || c == '\t'

/-- The call that opens on the line starting `cs`, at byte offset `start`. -/
def ofLine? (start : Nat) (cs : List Char) : Option Call :=
  let line := cs.dropWhile isIndent
  let name := leadingName line
  match name, (line.drop name.length).dropWhile isIndent with
  | _ :: _, '(' :: rest =>
    some
      { name, start := start + (byteLength cs - byteLength line),
        bodyStart := start + (byteLength cs - byteLength rest), rest }
  | _, _ => none

/-- The first call that opens a line behind a line break of `cs`. -/
def ofLaterLine? (start : Nat) : List Char → Option Call
  | [] => none
  | c :: cs =>
    let here := if c == '\n' then ofLine? (start + c.utf8Size) cs else none
    here <|> ofLaterLine? (start + c.utf8Size) cs

/-- The root operation of a text. -/
def root? (text : List Char) : Option Call := ofLine? 0 text <|> ofLaterLine? 0 text

/-- The text between the parentheses. -/
def body (c : Call) : List Char := (Bracket.enclosed 1 c.rest).1

/-- The parenthesis is closed. -/
def isClosed (c : Call) : Bool := (Bracket.enclosed 1 c.rest).2

def span (c : Call) : Span :=
  ⟨c.start, c.bodyStart + byteLength c.body + if c.isClosed then 1 else 0⟩

/-- The slots between the parentheses, in order. -/
def slots (c : Call) : List Slot :=
  (Segment.split c.body).filterMap fun s =>
    (ofSegment? (c.bodyStart + s.offset) s.chars).map .call <|>
      (EntitySource.ofSegment? (c.bodyStart + s.offset) s.chars).map .entity

/-- The tree of a call at the given path, with at most `fuel` operations inside one another. -/
def nodeWithin (text : List Char) : (fuel : Nat) → (path : String) → Call → Node
  | 0, path, c => ⟨.operation, path, c.span, some (.ofList c.name), []⟩
  | fuel + 1, path, c =>
    let children := c.slots.mapIdx fun i slot =>
      match slot with
      | .call c' => nodeWithin text fuel (Path.operationIn (Path.slotIn path i)) c'
      | .entity e => e.node text (Path.slotIn path i)
    ⟨.operation, path, c.span, some (.ofList c.name), children⟩

/-- The tree of a call. Each operation takes up a character, so none is left out. -/
def node (text : List Char) (path : String) (c : Call) : Node :=
  nodeWithin text (c.rest.length + 1) path c

end Call

namespace Node

/-- The tree of a script. A text without a root operation gives the placeholder. -/
def ofScript (text : String) : Node :=
  match Call.root? text.toList with
  | some c => c.node text.toList Path.operationWord
  | none => placeholder (Text.byteLength text.toList)

end Node
end ProblemScript
