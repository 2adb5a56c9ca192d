/-! Sets of characters given by ranges of code points. -/
namespace ProblemScript.Text

/-- Some range of the table holds the code point; the ends belong to it. -/
def inRanges (table : List (Nat × Nat)) (n : Nat) : Bool :=
  table.any fun r => r.1 ≤ n && n ≤ r.2

theorem inRanges_iff (table : List (Nat × Nat)) (n : Nat) :
    inRanges table n = true ↔ ∃ r ∈ table, r.1 ≤ n ∧ n ≤ r.2 := by
  simp [inRanges]

end ProblemScript.Text
