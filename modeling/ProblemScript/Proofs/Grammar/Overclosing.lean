import Mathlib.Data.List.Infix
import ProblemScript.Proofs.Grammar.Cuts

/-! Closing brackets that nothing opened. Such a bracket takes the depth below zero, and no comma
cuts before the depth is back. If it never is back at a comma, the segment that holds the bracket
is the last one; otherwise it ends at the first such comma, and the text behind is split as if it
stood alone. -/
namespace ProblemScript
open Text ProblemScript.Bracket Segment

namespace Text

theorem trimEnd_append_of_not_allBlank (xs : List Char) {ys : List Char} (h : ¬AllBlank ys) :
    trimEnd (xs ++ ys) = xs ++ trimEnd ys := by
  have hrest : ys.reverse.dropWhile isBlank ≠ [] := by
    simpa [List.dropWhile_eq_nil_iff, AllBlank] using h
  simp [trimEnd, List.dropWhile_append, hrest]

theorem trimEnd_eq_of_not_allBlank {cs : List Char} (h : ¬AllBlank cs) :
    trimEnd cs = cs.takeWhile isBlank ++ trim cs := by
  have hcs : cs = cs.takeWhile isBlank ++ trimStart cs := List.takeWhile_append_dropWhile.symm
  have hrest : ¬AllBlank (trimStart cs) := by
    intro hblank
    apply h
    rw [hcs]
    exact (allBlank_takeWhile cs).append hblank
  calc trimEnd cs = trimEnd (cs.takeWhile isBlank ++ trimStart cs) := by rw [← hcs]
    _ = cs.takeWhile isBlank ++ trim cs := trimEnd_append_of_not_allBlank _ hrest

end Text

namespace Segment

/-- The bracket at byte `k` closes more than was opened before it, and it is the first that does. -/
def Overcloses (cs : List Char) (k : Nat) : Prop :=
  let (before, after) := cutAt k cs
  IsBoundary cs k ∧ (∀ xs ∈ before.inits, 0 ≤ depth xs) ∧ depth (before ++ after.take 1) < 0

instance (cs : List Char) (k : Nat) : Decidable (Overcloses cs k) :=
  inferInstanceAs (Decidable (_ ∧ _ ∧ _))

theorem overcloses_iff {cs : List Char} {k : Nat} :
    Overcloses cs k ↔ ∃ before c after, cs = before ++ c :: after ∧ byteLength before = k ∧
      (∀ xs, xs <+: before → 0 ≤ depth xs) ∧ depth (before ++ [c]) < 0 := by
  constructor
  · rintro ⟨hboundary, hlevel, hneg⟩
    have hbefore : ∀ xs, xs <+: (cutAt k cs).1 → 0 ≤ depth xs := fun xs hxs =>
      hlevel xs ((List.mem_inits _ _).2 hxs)
    cases hafter : (cutAt k cs).2 with
    | nil =>
      have hend := hbefore _ (List.prefix_refl _)
      rw [hafter, List.take_nil, List.append_nil] at hneg
      omega
    | cons c after =>
      refine ⟨(cutAt k cs).1, c, after, ?_, hboundary, hbefore, by simpa [hafter] using hneg⟩
      rw [← hafter, cutAt_append]
  · rintro ⟨before, c, after, rfl, rfl, hlevel, hneg⟩
    unfold Overcloses
    rw [cutAt_byteLength]
    exact ⟨isBoundary_iff.2 ⟨before, _, rfl, rfl⟩,
      fun xs hxs => hlevel xs ((List.mem_inits _ _).1 hxs), hneg⟩

/-- The last segment holds byte `k` and all that follows, up to white space at the end. -/
def LastHolds (cs : List Char) (k : Nat) : Prop :=
  ∃ segs last, split cs = segs ++ [last] ∧ last.offset ≤ k ∧ last.stop = byteLength (trimEnd cs)

theorem isClosing_of_depth_concat {before : List Char} {c : Char} (h : 0 ≤ depth before)
    (hneg : depth (before ++ [c]) < 0) : isClosing c = true := by
  rw [depth_append, depth_cons, depth_nil] at hneg
  by_contra hc
  cases ho : isOpening c with
  | true =>
    have hw := weight_of_isOpening ho
    omega
  | false =>
    have hw := weight_eq_zero ho (by simpa using hc)
    omega

theorem isBlank_eq_false_of_isClosing {c : Char} (h : isClosing c = true) : isBlank c = false := by
  apply Bool.eq_false_iff.2
  intro hblank
  have hweight := (neutral_of_isBlank hblank).1
  rw [weight_of_isClosing h] at hweight
  omega

theorem Overcloses.not_allBlank {cs : List Char} {k : Nat} (h : Overcloses cs k) :
    ¬AllBlank cs := by
  obtain ⟨before, c, after, rfl, -, hlevel, hneg⟩ := overcloses_iff.1 h
  intro hall
  have hc := isClosing_of_depth_concat (hlevel before (List.prefix_refl _)) hneg
  have hblank := hall c (by simp)
  rw [isBlank_eq_false_of_isClosing hc] at hblank
  exact Bool.false_ne_true hblank

/-- A text that goes on behind the bracket may be cut off there. -/
theorem Overcloses.of_append {xs ys : List Char} {k : Nat} (h : Overcloses (xs ++ ys) k)
    (hk : k < byteLength xs) : Overcloses xs k := by
  obtain ⟨before, c, after, heq, rfl, hrest⟩ := overcloses_iff.1 h
  rcases cases_of_append_eq heq with ⟨mid, rfl⟩ | ⟨mid, rfl, -⟩
  · exact overcloses_iff.2 ⟨before, c, mid, rfl, rfl, hrest⟩
  · rw [byteLength_append] at hk
    omega

/-- Behind a level stretch and its comma, the bracket is the first of the rest that closes too
much. -/
theorem Overcloses.behind_comma {p ys : List Char} {k : Nat} (h : Overcloses (p ++ ',' :: ys) k)
    (hd : depth p = 0) (hk : byteLength p ≤ k) :
    ∃ j, k = byteLength p + 1 + j ∧ Overcloses ys j := by
  obtain ⟨before, c, after, heq, rfl, hlevel, hneg⟩ := overcloses_iff.1 h
  have hc := isClosing_of_depth_concat (hlevel before (List.prefix_refl _)) hneg
  have hcomma : weight ',' = 0 := rfl
  rcases cases_of_append_eq heq with ⟨mid, rfl⟩ | ⟨mid, rfl, hmid⟩
  · have hpos := c.utf8Size_pos
    rw [byteLength_append, byteLength_cons] at hk
    omega
  · cases mid with
    | nil =>
      obtain ⟨rfl, -⟩ := List.cons.inj hmid
      exact absurd hc (by decide)
    | cons d mid =>
      obtain ⟨rfl, rfl⟩ := List.cons.inj hmid
      refine ⟨byteLength mid, ?_, overcloses_iff.2
        ⟨mid, c, after, rfl, rfl, fun xs hxs => ?_, ?_⟩⟩
      · rw [byteLength_append, byteLength_cons, Nat.add_assoc]
        rfl
      · have hstart : p ++ ',' :: xs <+: p ++ ',' :: mid := by simpa using hxs
        have hxs := hlevel _ hstart
        rw [depth_append, depth_cons, hd, hcomma] at hxs
        omega
      · rw [List.append_assoc, List.cons_append, depth_append, depth_cons, hd, hcomma] at hneg
        omega

/-- One stretch holds all of a text that is not cut. -/
theorem Solid.splitFrom_of_not_allBlank {cs : List Char} (hs : Solid cs) (h : ¬AllBlank cs)
    (k : Nat) :
    ∃ s, splitFrom k cs = [s] ∧ s.offset = k + byteLength (cs.takeWhile isBlank) ∧
      s.stop = k + byteLength (trimEnd cs) := by
  have hne : Text.trim cs ≠ [] := mt (trim_eq_nil_iff cs).1 h
  refine ⟨⟨k + byteLength (cs.takeWhile isBlank), Text.trim cs⟩, ?_, rfl, ?_⟩
  · rw [hs.splitFrom_eq]
    simp [locate, hne]
  · rw [trimEnd_eq_of_not_allBlank h, byteLength_append, stop, Nat.add_assoc]

/-- Without a cut behind the bracket, the segment that holds it is the last one and has no end but
that of the text. -/
theorem Overcloses.splitFrom_eq {cs : List Char} {k : Nat} (h : Overcloses cs k)
    (hcut : ∀ i, k < i → ¬IsCut cs i) (start : Nat) :
    ∃ segs last, splitFrom start cs = segs ++ [last] ∧ last.offset ≤ start + k ∧
      last.stop = start + byteLength (trimEnd cs) := by
  induction cs using pieces_induction generalizing k start with
  | solid cs hs =>
    obtain ⟨s, hsplit, hoffset, hstop⟩ := hs.splitFrom_of_not_allBlank h.not_allBlank start
    refine ⟨[], s, hsplit, ?_, hstop⟩
    -- The bracket is not blank, so it stands behind the white space at the start.
    obtain ⟨before, c, after, rfl, rfl, hlevel, hneg⟩ := overcloses_iff.1 h
    have hblank := isBlank_eq_false_of_isClosing
      (isClosing_of_depth_concat (hlevel before (List.prefix_refl _)) hneg)
    have hlead : (before ++ c :: after).takeWhile isBlank <+: before := by
      rw [List.takeWhile_append]
      split
      · simp [hblank]
      · exact List.takeWhile_prefix _
    have hle := byteLength_le_of_prefix hlead
    omega
  | cut p ys hp hd ih =>
    by_cases hk : k < byteLength p
    · exact absurd (isCut_iff.2 ⟨p, ys, rfl, rfl, hd⟩) (hcut _ hk)
    · obtain ⟨j, rfl, hys⟩ := h.behind_comma hd (Nat.le_of_not_lt hk)
      have hcutys : ∀ i, j < i → ¬IsCut ys i := fun i hi hcuti =>
        hcut (byteLength p + 1 + i) (by omega)
          ((hp.isCut_append_comma hd ys _).2 (.inr ⟨i, rfl, hcuti⟩))
      obtain ⟨segs, last, hsplit, hoffset, hstop⟩ := ih hys hcutys (start + byteLength p + 1)
      refine ⟨locate start [p] ++ segs, last, ?_, by omega, ?_⟩
      · rw [hp.splitFrom_append_comma hd, hsplit, List.append_assoc]
      · have htrim : trimEnd (p ++ ',' :: ys) = p ++ [','] ++ trimEnd ys := by
          simpa using trimEnd_append_of_not_allBlank (p ++ [',']) hys.not_allBlank
        have hcomma : byteLength [','] = 1 := rfl
        rw [hstop, htrim, byteLength_append, byteLength_append, hcomma]
        omega

/-- The last segment reaches from the bracket to the end exactly if no comma behind the bracket
cuts. -/
theorem Overcloses.lastHolds_iff {cs : List Char} {k : Nat} (h : Overcloses cs k) :
    LastHolds cs k ↔ ∀ i, k < i → ¬IsCut cs i := by
  constructor
  · rintro ⟨segs, last, hsplit, hoffset, hstop⟩ i hi hcut
    obtain ⟨before, after, rfl, rfl, hdepth⟩ := isCut_iff.1 hcut
    have hcomma : ¬AllBlank (',' :: after) := fun hblank =>
      absurd (hblank ',' (by simp)) (by decide)
    have hend : byteLength before < byteLength (trimEnd (before ++ ',' :: after)) := by
      have hne : trimEnd (',' :: after) ≠ [] := by
        rw [trimEnd_eq_of_not_allBlank hcomma]
        simp [mt (trim_eq_nil_iff _).1 hcomma]
      have hpos := byteLength_pos hne
      rw [trimEnd_append_of_not_allBlank _ hcomma, byteLength_append]
      omega
    have hmem : last ∈ split (before ++ ',' :: after) := by simp [hsplit]
    rw [split_eq_splitFrom, splitFrom_append_comma hdepth] at hmem
    rcases List.mem_append.1 hmem with hmem | hmem
    · have hlast := (extent_of_mem_splitFrom hmem).2
      omega
    · have hlast := (extent_of_mem_splitFrom hmem).1
      omega
  · intro hcut
    obtain ⟨segs, last, hsplit, hoffset, hstop⟩ := h.splitFrom_eq hcut 0
    exact ⟨segs, last, hsplit, by simpa using hoffset, by simpa using hstop⟩

/-- A cut behind the bracket that is the first leaves the bracket's segment before it whole. -/
theorem Overcloses.exists_first_cut {cs : List Char} {k i : Nat} (h : Overcloses cs k)
    (hi : k < i) (hcut : IsCut cs i) :
    ∃ before after, cs = before ++ ',' :: after ∧ k < byteLength before ∧ depth before = 0 ∧
      Overcloses before k ∧ ∀ j, k < j → ¬IsCut before j := by
  obtain ⟨before, after, rfl, rfl, hdepth⟩ := isCut_iff.1 hcut
  have hbefore := h.of_append hi
  by_cases hnone : ∀ j, k < j → ¬IsCut before j
  · exact ⟨before, after, rfl, hi, hdepth, hbefore, hnone⟩
  · push Not at hnone
    obtain ⟨j, hj, hcutj⟩ := hnone
    obtain ⟨first, rest, rfl, hfirst⟩ := hbefore.exists_first_cut hj hcutj
    exact ⟨first, rest ++ ',' :: after, by simp, hfirst⟩
termination_by cs.length

theorem forall_not_isCut_iff {cs : List Char} {k : Nat} :
    (∀ i, k < i → ¬IsCut cs i) ↔
      ∀ before after, cs = before ++ ',' :: after → k < byteLength before → depth before ≠ 0 := by
  constructor
  · intro hcut before after heq hk hdepth
    exact hcut _ hk (isCut_iff.2 ⟨before, after, heq, rfl, hdepth⟩)
  · intro hlevel i hi hcut
    obtain ⟨before, after, heq, rfl, hdepth⟩ := isCut_iff.1 hcut
    exact hlevel before after heq hi hdepth

/-- What becomes of the text behind a bracket that closes too much. It is not cut any more, and
stays in the last segment, exactly if no comma behind the bracket stands where the depth is back at
zero. If there is such a comma, the segment with the bracket ends before the first of them, and
what follows that comma is split as a text of its own. -/
theorem lastHolds_exactly {cs : List Char} {k : Nat} (h : Overcloses cs k) :
    ((∀ i, k < i → ¬IsCut cs i) ∧ LastHolds cs k ↔
      ∀ before after, cs = before ++ ',' :: after → k < byteLength before → depth before ≠ 0) ∧
    (¬LastHolds cs k → ∃ before after, cs = before ++ ',' :: after ∧ k < byteLength before ∧
      depth before = 0 ∧ LastHolds before k ∧
      split cs = split before ++ (split after).map (moved (byteLength before + 1))) := by
  refine ⟨?_, fun hnot => ?_⟩
  · rw [h.lastHolds_iff, and_self, forall_not_isCut_iff]
  · rw [h.lastHolds_iff] at hnot
    push Not at hnot
    obtain ⟨i, hi, hcut⟩ := hnot
    obtain ⟨before, after, rfl, hk, hdepth, hbefore, hnone⟩ := h.exists_first_cut hi hcut
    refine ⟨before, after, rfl, hk, hdepth, hbefore.lastHolds_iff.2 hnone, ?_⟩
    have hbehind := splitFrom_eq_map (byteLength before + 1) after
    rw [split_eq_splitFrom, splitFrom_append_comma hdepth, Nat.zero_add, hbehind,
      split_eq_splitFrom before]

/-- The depth is back behind `c(`, and the text is split from there on. -/
theorem lastHolds_exactly_reopened :
    let cs := "a, b), c( , [d], e".toList
    Overcloses cs 4 ∧ IsCut cs 10 ∧
      ((∀ i, 4 < i → ¬IsCut cs i) ∧ LastHolds cs 4 ↔
        ∀ before after, cs = before ++ ',' :: after → 4 < byteLength before → depth before ≠ 0) ∧
      ∃ before after, cs = before ++ ',' :: after ∧ 4 < byteLength before ∧ depth before = 0 ∧
        LastHolds before 4 ∧
        split cs = split before ++ (split after).map (moved (byteLength before + 1)) := by
  intro cs
  have hover : Overcloses cs 4 := by decide
  have hcut : IsCut cs 10 := by decide
  obtain ⟨hiff, hback⟩ := lastHolds_exactly hover
  have hnot : ¬LastHolds cs 4 := fun hlast => hover.lastHolds_iff.1 hlast 10 (by decide) hcut
  exact ⟨hover, hcut, hiff, hback hnot⟩

/-- A bracket that is opened later brings the depth back: the comma at byte 6 cuts, and the text
behind it is no part of the segment with the unopened bracket. -/
theorem not_lastHolds_reopened :
    Overcloses "a], [b, c".toList 1 ∧ IsCut "a], [b, c".toList 6 ∧
      ¬LastHolds "a], [b, c".toList 1 ∧
      split "a], [b, c".toList = [⟨0, "a], [b".toList⟩, ⟨8, "c".toList⟩] := by
  have hover : Overcloses "a], [b, c".toList 1 := by decide
  have hcut : IsCut "a], [b, c".toList 6 := by decide
  refine ⟨hover, hcut, ?_, by decide⟩
  intro hlast
  exact hover.lastHolds_iff.1 hlast 6 (by decide) hcut

end Segment
end ProblemScript
