/-! Square and round brackets. Nesting depth counts both kinds alike and may go below zero;
balance pairs each closing bracket with an opening one of its own kind. -/
namespace ProblemScript.Bracket

def isOpening (c : Char) : Bool := c == '[' || c == '('

def isClosing (c : Char) : Bool := c == ']' || c == ')'

/-- What one character adds to the nesting depth. -/
def weight (c : Char) : Int := if isOpening c then 1 else if isClosing c then -1 else 0

/-- Depth at the end of a text: opening brackets less closing ones. -/
def depth : List Char → Int
  | [] => 0
  | c :: cs => weight c + depth cs

@[simp] theorem depth_append (xs ys : List Char) : depth (xs ++ ys) = depth xs + depth ys := by
  induction xs with
  | nil => simp [depth]
  | cons c xs ih => simp [depth, ih, Int.add_assoc]

/-- The bracket that closes an opening one. -/
def closer (c : Char) : Char := if c == '[' then ']' else ')'

/-- `cs` closes the brackets `pending`, innermost first, and all that it opens itself. -/
def closes : (pending : List Char) → List Char → Bool
  | pending, [] => pending.isEmpty
  | pending, c :: cs =>
    if isOpening c then closes (closer c :: pending) cs
    else if isClosing c then
      match pending with
      | [] => false
      | p :: ps => c == p && closes ps cs
    else closes pending cs

/-- Every bracket is paired with one of its own kind. -/
def isBalanced (cs : List Char) : Bool := closes [] cs

/-- The text before the bracket that closes the last of `n` open ones, and whether there is such
a bracket. Without one this is the whole text. -/
def enclosed : (n : Nat) → List Char → List Char × Bool
  | _, [] => ([], false)
  | n, c :: cs =>
    if isClosing c && n ≤ 1 then ([], true)
    else
      let n' := if isOpening c then n + 1 else if isClosing c then n - 1 else n
      let (inner, closed) := enclosed n' cs
      (c :: inner, closed)

/-- What is enclosed starts the text, and a closing bracket follows it if one was found. -/
theorem enclosed_append (n : Nat) (cs : List Char) :
    ∃ rest, cs = (enclosed n cs).1 ++ rest ∧
      if (enclosed n cs).2 then ∃ c tail, rest = c :: tail ∧ isClosing c = true else rest = [] := by
  induction cs generalizing n with
  | nil => exact ⟨[], by simp [enclosed]⟩
  | cons c cs ih =>
    simp only [enclosed]
    split
    · rename_i h
      exact ⟨c :: cs, by simp, by simp_all⟩
    · obtain ⟨rest, he, hc⟩ := ih
        (if isOpening c then n + 1 else if isClosing c then n - 1 else n)
      exact ⟨rest, by simpa using he, hc⟩

end ProblemScript.Bracket
