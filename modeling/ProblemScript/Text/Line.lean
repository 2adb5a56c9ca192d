import ProblemScript.Text.Bytes
import ProblemScript.Span

/-! The line of a text around a byte position. -/
namespace ProblemScript.Text

/-- One carriage return at the end is part of the line terminator. -/
def dropReturn (line : List Char) : List Char :=
  if line.getLast? = some '\r' then line.dropLast else line

/-- Extent of the line that holds byte position `pos`, without its terminator. -/
def lineAt (text : List Char) (pos : Nat) : Span :=
  let (before, after) := cutAt pos text
  let head := (before.reverse.takeWhile (· != '\n')).reverse
  let start := byteLength before - byteLength head
  ⟨start, start + byteLength (dropReturn (head ++ after.takeWhile (· != '\n')))⟩

/-- The line around `pos`, cut down to `bounds`. -/
def lineWithin (text : List Char) (pos : Nat) (bounds : Span) : Span :=
  (lineAt text pos).clampTo bounds

/-- A position handed in from outside that is no character boundary of the text. -/
structure OutsideText where
  position : Nat
deriving DecidableEq, Repr

/-- `lineWithin` for a position from outside. -/
def lineWithin? (text : List Char) (pos : Nat) (bounds : Span) : Except OutsideText Span :=
  if IsBoundary text pos then .ok (lineWithin text pos bounds) else .error ⟨pos⟩

end ProblemScript.Text
