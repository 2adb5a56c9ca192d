/-! Layout settings. -/
namespace ProblemScript.Layout

inductive Style where
  | pretty
  | minified
deriving DecidableEq, Repr, Inhabited

/-- How a script is laid out: one property to a line with `indentWidth` spaces for each level, or
everything on one line. -/
structure Options where
  indentWidth : Nat := 2
  style : Style := .pretty
deriving DecidableEq, Repr, Inhabited

namespace Options

/-- One line, as sent to the generation service. -/
def minified : Options := { style := .minified }

/-- What stands between two neighbours, apart from a line break. -/
def separator (o : Options) : List Char :=
  match o.style with
  | .pretty => [',']
  | .minified => [',', ' ']

/-- The line break before something at nesting level `depth`. -/
def newline (o : Options) (depth : Nat) : List Char :=
  match o.style with
  | .pretty => '\n' :: List.replicate (depth * o.indentWidth) ' '
  | .minified => []

/-- What stands before the element with the given number at nesting level `depth`. -/
def lead (o : Options) (depth index : Nat) : List Char :=
  (if index = 0 then [] else o.separator) ++ o.newline depth

/-- What stands behind the last of `count` elements, before the closing bracket. -/
def tail (o : Options) (depth count : Nat) : List Char := if count = 0 then [] else o.newline depth

end Options
end ProblemScript.Layout
