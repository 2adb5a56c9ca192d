import ProblemScript.Grammar.Bracket
import ProblemScript.Text.Blank
import ProblemScript.Text.Bytes

/-! Comma-separated segments. Only commas at depth zero separate; once closing brackets have
brought the depth below zero everything up to the way back belongs to one segment. -/
namespace ProblemScript

/-- A nonblank stretch of a text, trimmed, with the byte offset where it starts. -/
structure Segment where
  offset : Nat
  chars : List Char
deriving DecidableEq, Repr

namespace Segment

open Text

/-- Offset of the first byte behind the segment. -/
def stop (s : Segment) : Nat := s.offset + byteLength s.chars

/-- The stretches between the separating commas, where the text starts at depth `d`. The running
depth is an integer without bound. In a text with fewer than 2 ^ 31 brackets it stays within the
signed numbers of 32 bits (`IsSplitOf.counts`), so that a counter of that width cuts at the same
commas; beyond that such a counter could overflow, which is not modelled. -/
def pieces (d : Int) : List Char → List (List Char)
  | [] => [[]]
  | c :: cs =>
    if c == ',' && d == 0 then [] :: pieces 0 cs
    else (pieces (d + Bracket.weight c) cs).modifyHead (c :: ·)

theorem pieces_ne_nil (d : Int) (cs : List Char) : pieces d cs ≠ [] := by
  induction cs generalizing d with
  | nil => simp [pieces]
  | cons c cs ih =>
    simp only [pieces]
    split
    · simp
    · cases h : pieces (d + Bracket.weight c) cs with
      | nil => exact absurd h (ih _)
      | cons p ps => simp

/-- Stretches and commas together are the text. -/
theorem intercalate_pieces (d : Int) (cs : List Char) :
    [','].intercalate (pieces d cs) = cs := by
  induction cs generalizing d with
  | nil => simp [pieces, List.intercalate]
  | cons c cs ih =>
    simp only [pieces]
    split
    · rename_i h
      obtain ⟨p, ps, hp⟩ := List.exists_cons_of_ne_nil (pieces_ne_nil 0 cs)
      have := ih 0
      simp_all [List.intercalate]
    · obtain ⟨p, ps, hp⟩ := List.exists_cons_of_ne_nil (pieces_ne_nil (d + Bracket.weight c) cs)
      have := ih (d + Bracket.weight c)
      cases ps <;> simp_all [List.intercalate]

/-- Trims stretches that start at byte `start` with one byte between neighbours, and drops the
blank ones. -/
def locate (start : Nat) : List (List Char) → List Segment
  | [] => []
  | p :: ps =>
    let rest := locate (start + byteLength p + 1) ps
    if (trim p).isEmpty then rest
    else ⟨start + byteLength (p.takeWhile isBlank), trim p⟩ :: rest

/-- The segments of a text. -/
def split (cs : List Char) : List Segment := locate 0 (pieces 0 cs)

end Segment
end ProblemScript
