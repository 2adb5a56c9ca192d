import ProblemScript.Grammar.Segment

/-! Property values. A value is a list of items; its canonical form has single spaces inside the
items and `", "` between them. -/
namespace ProblemScript.Value

/-- The items of a raw value, each with its white space collapsed. -/
def items (raw : List Char) : List String :=
  (Segment.split raw).map fun s => .ofList (Text.collapse s.chars)

/-- Items written one behind the other. -/
def join (items : List String) : String := .ofList ([',', ' '].intercalate (items.map (·.toList)))

/-- The canonical form of a raw value. -/
def canonical (raw : List Char) : String := join (items raw)

/-- A value with one item is written as the item. -/
theorem canonical_of_items {raw : List Char} {x : String} (h : items raw = [x]) :
    canonical raw = x := by
  simp [canonical, h, join]

/-- The key and the remainder of a segment that starts with `key:`. A colon behind an opening
bracket belongs to a nested value. -/
def splitKey? (segment : List Char) : Option (List Char × List Char) :=
  let head := segment.takeWhile (· != ':')
  match segment.drop head.length with
  | [] => none
  | _ :: rest => if head.any Bracket.isOpening then none else some (Text.trim head, rest)

/-- The item reads back as itself: its brackets pair up and it has no key of its own. -/
def isPlain (item : String) : Bool :=
  Bracket.isBalanced item.toList && (splitKey? item.toList).isNone

end ProblemScript.Value
