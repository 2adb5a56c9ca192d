import ProblemScript.Grammar.Value
import ProblemScript.Path.Text
import ProblemScript.Text.Identifier

/-! The fields of an entity body. A segment `key: value` opens a field; segments without a key go
on with the value of the field before them. A key that is repeated or reserved opens nothing, and
the segments without a key behind it are dropped with it. -/
namespace ProblemScript

/-- A `key: value` pair inside a body, by byte offsets. -/
structure Field where
  key : List Char
  keyOffset : Nat
  valueStart : Nat
  valueStop : Nat
deriving DecidableEq, Repr

namespace Field

open Text

/-- Keys are identifiers or empty, and do not collide with the words of paths. -/
def isUsableKey (key : List Char) : Bool :=
  leadingName key == key && key != Path.operationWord.toList && key != Path.entitiesWord.toList

/-- The keyless segments at the start of a list. -/
def continuation (segments : List Segment) : List Segment :=
  segments.takeWhile fun s => (Value.splitKey? s.chars).isNone

/-- The fields that segments make up, where the keys `seen` are taken. -/
def group (seen : List (List Char)) : List Segment → List Field
  | [] => []
  | s :: rest =>
    match Value.splitKey? s.chars with
    | none => group seen rest
    | some (key, value) =>
      if seen.contains key || !isUsableKey key then group seen rest
      else
        let field : Field :=
          { key, keyOffset := s.offset, valueStart := s.stop - byteLength value,
            valueStop := ((continuation rest).getLastD s).stop }
        field :: group (key :: seen) rest

/-- The fields of a body. -/
def ofBody (body : List Char) : List Field := group [] (Segment.split body)

/-- The value of a field as written in its body. -/
def rawValue (body : List Char) (f : Field) : List Char :=
  (cutAt (f.valueStop - f.valueStart) (cutAt f.valueStart body).2).1

end Field
end ProblemScript
