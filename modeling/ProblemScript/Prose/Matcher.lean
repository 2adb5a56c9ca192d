import ProblemScript.Numeric.Quantity
import ProblemScript.Text.Blank
import ProblemScript.Text.CaseFold
import ProblemScript.Text.DecimalDigit
import ProblemScript.Text.Occurrence
import ProblemScript.Text.WordChar

/-! Values of a script found in the prose of a word problem. A quantity is found wherever a number
of the same value is written, and as a number word up to twenty; any other value is found as a
whole word. -/
namespace ProblemScript.Prose

open Text

/-- How values are looked for. -/
structure Options where
  caseInsensitive : Bool := true
  matchPlurals : Bool := true
  maxMatches : Option Nat := none
deriving DecidableEq, Repr, Inhabited

namespace Options

/-- The two characters count as the same. -/
def sameChar (o : Options) (c d : Char) : Bool :=
  c == d || (o.caseInsensitive && foldCase c == foldCase d)

/-- What follows `word` in a text that starts with it. -/
def dropWord? (o : Options) : (word : List Char) → List Char → Option (List Char)
  | [], cs => some cs
  | _ :: _, [] => none
  | w :: ws, c :: cs => if o.sameChar w c then o.dropWord? ws cs else none

end Options

/-- The endings that a word may take, in order of preference. -/
def endings (plurals : Bool) : List (List Char) :=
  if plurals then [['s'], ['e', 's'], []] else [[]]

/-- The first of the given forms of a word that starts the text and ends at a word boundary, by
its number of characters. -/
def matchForms (o : Options) (text : List Char) : (forms : List (List Char)) → Option Nat
  | [] => none
  | form :: forms =>
    match o.dropWord? form text with
    | none => matchForms o text forms
    | some rest =>
      if isWordBoundary (text.take form.length).getLast? rest.head? then some form.length
      else matchForms o text forms

/-- Recognises a word between word boundaries. -/
def recogniseWord (o : Options) (plurals : Bool) (word : List Char) : Recogniser Unit :=
  fun before text =>
    if isWordBoundary before text.head? then
      (matchForms o text ((endings plurals).map (word ++ ·))).map (·, ())
    else none

/-- Recognises digits, with a fraction if a point and further digits follow. -/
def recogniseNumber : Recogniser (List Char) := fun _ text =>
  let whole := text.takeWhile isDecimalDigit
  if whole.isEmpty then none
  else
    let fraction := match text.dropWhile isDecimalDigit with
      | '.' :: rest =>
        let digits := rest.takeWhile isDecimalDigit
        if digits.isEmpty then [] else '.' :: digits
      | _ => []
    let number := whole ++ fraction
    some (number.length, number)

/-- The words for zero up to twenty. -/
def numberWords : List String :=
  ["zero", "one", "two", "three", "four", "five", "six", "seven", "eight", "nine", "ten", "eleven",
   "twelve", "thirteen", "fourteen", "fifteen", "sixteen", "seventeen", "eighteen", "nineteen",
   "twenty"]

/-- The word for a quantity, if it is a count that has one. -/
def numberWord? (q : Quantity) : Option String :=
  ((numberWords.zipIdx).find? fun w => Quantity.ofNat? w.2 == some q).map (·.1)

/-- The places of a word. -/
def wordSpans (o : Options) (plurals : Bool) (text word : List Char) : List Span :=
  (occurrences (recogniseWord o plurals word) text).map (·.span)

/-- The places of numbers with a given value. -/
def numberSpans (text : List Char) (q : Quantity) : List Span :=
  ((occurrences recogniseNumber text).filter (Quantity.ofDecimal? ·.found == some q)).map (·.span)

/-- The places of a value, in no particular order. -/
def candidates (o : Options) (text value : List Char) : List Span :=
  match Quantity.ofDecimal? value with
  | some q =>
    numberSpans text q ++
      match numberWord? q with
      | some word => wordSpans o false text word.toList
      | none => []
  | none => wordSpans o o.matchPlurals text value

/-- Enters a range into a list without repetition, ordered by start and end. -/
def insertSpan (s : Span) : List Span → List Span
  | [] => [s]
  | t :: ts => if s = t then t :: ts else if s.le t then s :: t :: ts else t :: insertSpan s ts

/-- The ranges in order and without repetition. -/
def sortSpans (spans : List Span) : List Span := spans.foldr insertSpan []

/-- At most the permitted number of ranges. -/
def limit (o : Options) (spans : List Span) : List Span :=
  match o.maxMatches with
  | some n => spans.take n
  | none => spans

/-- The places of a value in a text, in order. -/
def find (o : Options) (text value : String) : List Span :=
  let value := trim value.toList
  if value.isEmpty then [] else limit o (sortSpans (candidates o text.toList value))

/-- The places of several values in a text, in order. -/
def findAll (o : Options) (text : String) (values : List String) : List Span :=
  limit o (sortSpans (values.flatMap (find o text)))

end ProblemScript.Prose
