import ProblemScript.Path.Basic
import ProblemScript.Text.Decimal
import ProblemScript.Text.Identifier

/-! Reading written paths. The grammar is
`operation(/entities[i](/operation)?)*(/key([j])?)?`: an operation is followed by a slot, a slot
by its operation or by a property, and a property ends the path. -/
namespace ProblemScript

/-- Why a text is not a path. The parts name the offending step as written. -/
inductive PathError where
  | empty
  | noRoot
  | badStep (part : String)
  | badIndex (part : String)
  | misplaced (part : String)
deriving DecidableEq, Repr

namespace PathError

def message : PathError → String
  | empty => "Empty path"
  | noRoot => "Path must start with 'operation'"
  | badStep part => "Invalid path step: " ++ part
  | badIndex part => "Invalid index in path step: " ++ part
  | misplaced part => "Unexpected path step: " ++ part

end PathError

namespace Path

/-- Decimal digits, with no zero before other digits. -/
def isIndex (digits : List Char) : Bool :=
  !digits.isEmpty && digits.all Char.isDigit && (digits.head? != some '0' || digits.length == 1)

/-- Indices are below `2 ^ 64`. -/
def indexBound : Nat := Nat.pow 2 64

/-- The index that `digits` write in canonical form. -/
def index? (digits : List Char) : Option Nat :=
  let n := Text.decimal digits
  if isIndex digits && n < indexBound then some n else none

/-- Names of steps and property keys are nonempty and consist of name characters. -/
def isKey (name : List Char) : Bool := !name.isEmpty && name.all Text.isNameChar

/-- One part between slashes, read as a name with an optional index. A wrong bracket is reported
before a wrong index, and that before a wrong name. -/
def readPart (part : List Char) : Except PathError (String × Option Nat) := do
  let name := part.takeWhile (· != '[')
  let index ← match part.drop name.length with
    | [] => pure none
    | _ :: rest =>
      if rest.getLast? != some ']' then throw (.badStep (.ofList part))
      match index? rest.dropLast with
      | some i => pure (some i)
      | none => throw (.badIndex (.ofList part))
  if isKey name then pure (.ofList name, index) else throw (.badStep (.ofList part))

/-- The path one step further, when such a step may follow. -/
def extend? (p : Path) (name : String) (index : Option Nat) : Option Path :=
  match p with
  | root | operation _ => if name = entitiesWord then index.map p.entity else none
  | entity .. =>
    if name = entitiesWord then none
    else if name = operationWord then if index = none then some p.operation else none
    else match index with
      | none => some (p.property name)
      | some j => some (p.item name j)
  | property .. | item .. => none

/-- The path after one more written part. -/
def readStep (p : Path) (part : List Char) : Except PathError Path := do
  let (name, index) ← readPart part
  match p.extend? name index with
  | some q => pure q
  | none => throw (.misplaced (.ofList part))

/-- Reads a written path. -/
def parse (s : String) : Except PathError Path :=
  if s.isEmpty then .error .empty
  else match s.toList.splitOn '/' with
    | first :: rest =>
      if first = operationWord.toList then rest.foldlM readStep root else .error .noRoot
    | [] => .error .noRoot

end Path
end ProblemScript
