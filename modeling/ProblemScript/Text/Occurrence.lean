import ProblemScript.Span
import ProblemScript.Text.Bytes

/-! Occurrences of a pattern in a text, from left to right and without overlap. -/
namespace ProblemScript.Text

/-- Looks at the character before and the text that follows. On success it gives the number of
characters taken, which is not zero, and what they mean. -/
abbrev Recogniser (α : Type) := Option Char → List Char → Option (Nat × α)

/-- A place where a pattern was found. -/
structure Occurrence (α : Type) where
  span : Span
  found : α
deriving DecidableEq, Repr

/-- The occurrences in the rest of a text, which starts at byte `pos` behind the character
`before`; the next `taken` characters belong to an occurrence already. -/
def occurrencesFrom {α : Type} (r : Recogniser α) :
    (before : Option Char) → (pos taken : Nat) → List Char → List (Occurrence α)
  | _, _, _, [] => []
  | _, pos, taken + 1, c :: cs => occurrencesFrom r (some c) (pos + c.utf8Size) taken cs
  | before, pos, 0, c :: cs =>
    match r before (c :: cs) with
    | none => occurrencesFrom r (some c) (pos + c.utf8Size) 0 cs
    | some (n, a) =>
      ⟨⟨pos, pos + byteLength ((c :: cs).take n)⟩, a⟩ ::
        occurrencesFrom r (some c) (pos + c.utf8Size) (n - 1) cs

/-- The leftmost occurrences in a text. -/
def occurrences {α : Type} (r : Recogniser α) (text : List Char) : List (Occurrence α) :=
  occurrencesFrom r none 0 0 text

end ProblemScript.Text
