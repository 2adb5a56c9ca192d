/-! Numbers written with ASCII digits. -/
namespace ProblemScript.Text

/-- The number that decimal digits write. -/
def decimal (digits : List Char) : Nat :=
  digits.foldl (fun n d => 10 * n + (d.toNat - '0'.toNat)) 0

end ProblemScript.Text
