import ProblemScript.Proofs.Grammar.Listed

/-! Balance as a grammar. The check for balance keeps a stack of brackets that are still open; it
accepts exactly the texts whose brackets are generated by pairing each opening bracket with a
closing one of its own kind. Counting depth is blind to the kind, so it sees less: a balanced text
starts and ends at depth zero and is never below it, which is all that splitting needs. -/
namespace ProblemScript
open Text ProblemScript.Bracket Segment

namespace Bracket

def isBracket (c : Char) : Bool := isOpening c || isClosing c

/-- Brackets in which each opening one is closed by one of its own kind, and nothing else. -/
inductive Paired : List Char → Prop
  | empty : Paired []
  | square {xs ys : List Char} (hx : Paired xs) (hy : Paired ys) : Paired ('[' :: xs ++ ']' :: ys)
  | round {xs ys : List Char} (hx : Paired xs) (hy : Paired ys) : Paired ('(' :: xs ++ ')' :: ys)

/-- The brackets `cs` close the brackets `pending`, innermost first, with pairs in between. -/
def PairedUpTo : (pending : List Char) → List Char → Prop
  | [], cs => Paired cs
  | p :: ps, cs => ∃ xs ys, cs = xs ++ p :: ys ∧ Paired xs ∧ PairedUpTo ps ys

theorem Paired.bracketed {c : Char} (hc : isOpening c = true) {xs ys : List Char} (hx : Paired xs)
    (hy : Paired ys) : Paired (c :: xs ++ closer c :: ys) := by
  simp only [isOpening, Bool.or_eq_true, beq_iff_eq] at hc
  rcases hc with rfl | rfl
  · exact .square hx hy
  · exact .round hx hy

/-- A pair may be put in front of whatever closes the open brackets. -/
theorem PairedUpTo.bracketed {c : Char} (hc : isOpening c = true) {pending xs ys : List Char}
    (hx : Paired xs) (hy : PairedUpTo pending ys) :
    PairedUpTo pending (c :: xs ++ closer c :: ys) := by
  cases pending with
  | nil => exact hx.bracketed hc hy
  | cons p ps =>
    obtain ⟨first, rest, rfl, hfirst, hrest⟩ := hy
    exact ⟨c :: xs ++ closer c :: first, rest, by simp, hx.bracketed hc hfirst, hrest⟩

/-- Characters other than brackets leave the stack as it is. -/
theorem closes_filter (pending cs : List Char) :
    closes pending (cs.filter isBracket) = closes pending cs := by
  induction cs generalizing pending with
  | nil => rfl
  | cons c cs ih =>
    cases ho : isOpening c with
    | true => simp [isBracket, closes, ho, ih]
    | false =>
      cases hc : isClosing c with
      | true => cases pending <;> simp [isBracket, closes, ho, hc, ih]
      | false => simp [isBracket, closes, ho, hc, ih]

/-- Pairs leave the stack as it was before them. -/
theorem Paired.closes_append {xs : List Char} (h : Paired xs) (pending ys : List Char) :
    closes pending (xs ++ ys) = closes pending ys := by
  induction h generalizing pending ys with
  | empty => rfl
  | square _ _ ihx ihy => simp [closes, isOpening, isClosing, closer, ihx, ihy]
  | round _ _ ihx ihy => simp [closes, isOpening, isClosing, closer, ihx, ihy]

/-- What empties the stack closes its brackets one by one. The induction follows the scan, and an
opening bracket puts its own pair in front of what the rest closes. -/
theorem pairedUpTo_of_closes {pending cs : List Char} (hcs : ∀ c ∈ cs, isBracket c = true)
    (h : closes pending cs = true) : PairedUpTo pending cs := by
  induction cs generalizing pending with
  | nil =>
    cases pending with
    | nil => exact .empty
    | cons p ps => simp [closes] at h
  | cons c cs ih =>
    obtain ⟨hc, hrest⟩ := List.forall_mem_cons.1 hcs
    unfold closes at h
    cases ho : isOpening c with
    | true =>
      simp only [ho, if_true] at h
      obtain ⟨xs, ys, rfl, hx, hy⟩ := ih hrest h
      exact hy.bracketed ho hx
    | false =>
      have hclosing : isClosing c = true := by simpa [isBracket, ho] using hc
      simp only [ho, hclosing, Bool.false_eq_true, if_false, if_true] at h
      cases pending with
      | nil => simp at h
      | cons p ps =>
        simp only [Bool.and_eq_true, beq_iff_eq] at h
        obtain ⟨rfl, h⟩ := h
        exact ⟨[], cs, rfl, .empty, ih hrest h⟩

/-- The stack accepts what the grammar generates, and nothing else. -/
theorem isBalanced_iff_paired (cs : List Char) :
    isBalanced cs = true ↔ Paired (cs.filter isBracket) := by
  have hfilter : isBalanced cs = closes [] (cs.filter isBracket) := (closes_filter [] cs).symm
  constructor
  · intro h
    rw [hfilter] at h
    exact pairedUpTo_of_closes (fun c hc => (List.mem_filter.1 hc).2) h
  · intro h
    have hrun := h.closes_append [] []
    rw [List.append_nil] at hrun
    rw [hfilter, hrun]
    rfl

theorem depth_nonneg_of_prefix {cs before : List Char} (h : isBalanced cs = true)
    (hbefore : before <+: cs) : 0 ≤ depth before := by
  obtain ⟨after, rfl⟩ := hbefore
  have hwithin := (within_append.1 (within_of_isBalanced h).1).1
  simpa using hwithin.le_depth (Int.le_refl 0)

end Bracket

namespace Segment

/-- A comma behind a level text separates the segments of the two sides. -/
theorem map_chars_split_append_comma {xs : List Char} (h : depth xs = 0) (ys : List Char) :
    (split (xs ++ ',' :: ys)).map (·.chars) =
      (split xs).map (·.chars) ++ (split ys).map (·.chars) := by
  simp only [split_eq_splitFrom, splitFrom_append_comma h]
  simp [splitFrom_eq_map _ ys, moved, Function.comp_def]

end Segment

/-- Balance is pairing, and pairing is enough for the splitter: the depth, which does not tell the
kinds apart, is zero at the end and never negative, and a comma between two balanced texts is one
that separates. -/
theorem Bracket.isBalanced_exactly :
    (∀ cs, isBalanced cs = true ↔ Paired (cs.filter isBracket)) ∧
      (∀ cs, isBalanced cs = true → depth cs = 0 ∧ ∀ before, before <+: cs → 0 ≤ depth before) ∧
      ∀ xs ys, isBalanced xs = true → isBalanced ys = true →
        (split (xs ++ ',' :: ys)).map (·.chars) =
          (split xs).map (·.chars) ++ (split ys).map (·.chars) := by
  refine ⟨isBalanced_iff_paired, fun cs h => ⟨(within_of_isBalanced h).2, ?_⟩, fun xs ys hx _ => ?_⟩
  · exact fun before hbefore => depth_nonneg_of_prefix h hbefore
  · exact map_chars_split_append_comma (within_of_isBalanced hx).2 ys

/-- Two balanced texts with commas inside and outside of brackets, and one that only counting takes
for balanced. -/
theorem Bracket.isBalanced_exactly_nested :
    let xs := "a, f(b[1], c)".toList
    let ys := "(,), é[]".toList
    Paired "[()][]".toList ∧ ¬Paired "[(])".toList ∧
      (∀ before, before <+: xs → 0 ≤ depth before) ∧
      (split (xs ++ ',' :: ys)).map (String.ofList ·.chars) =
        ["a", "f(b[1], c)", "(,)", "é[]"] := by
  intro xs ys
  obtain ⟨hpaired, hdepth, hsplit⟩ := isBalanced_exactly
  have hxs : isBalanced xs = true := by decide
  have hys : isBalanced ys = true := by decide
  refine ⟨(hpaired "a[(b)], c[]".toList).1 (by decide), fun h => ?_, (hdepth xs hxs).2, ?_⟩
  · exact absurd ((hpaired "[(])".toList).2 h) (by decide)
  · have hchars := congrArg (List.map String.ofList) (hsplit xs ys hxs hys)
    rw [List.map_map] at hchars
    exact hchars.trans (by decide +kernel)

end ProblemScript
