/-! White space: the characters with the Unicode property White_Space, trimming, and the words
between runs of them. -/
namespace ProblemScript.Text

/-- The character has the Unicode property White_Space. -/
def isBlank (c : Char) : Bool :=
  let n := c.toNat
  (9 ≤ n && n ≤ 13) || n == 0x20 || n == 0x85 || n == 0xA0 || n == 0x1680 ||
    (0x2000 ≤ n && n ≤ 0x200A) || n == 0x2028 || n == 0x2029 || n == 0x202F || n == 0x205F ||
    n == 0x3000

/-- The text after its leading white space. -/
def trimStart (cs : List Char) : List Char := cs.dropWhile isBlank

/-- The text before its trailing white space. -/
def trimEnd (cs : List Char) : List Char := (cs.reverse.dropWhile isBlank).reverse

def trim (cs : List Char) : List Char := trimEnd (trimStart cs)

/-- The maximal runs of characters other than white space. -/
def words (cs : List Char) : List (List Char) := (cs.splitOnP isBlank).filter (!·.isEmpty)

/-- The words with one space between neighbours. -/
def collapse (cs : List Char) : List Char := [' '].intercalate (words cs)

/-- White space around a string removed. -/
def trimmed (s : String) : String := .ofList (trim s.toList)

end ProblemScript.Text
