import ProblemScript.Proofs.Prose.Merging
import ProblemScript.Proofs.Text.Occurrence
import ProblemScript.Proofs.Text.Place

/-! Matches and word boundaries. A word is looked for between word boundaries, and so is the word
for a number. A number in digits is looked for without them: it begins and ends with word
characters, so its ends are word boundaries just where no further word character touches it. -/
namespace ProblemScript
open Text

namespace Text

def charBefore? (text : List Char) (i : Nat) : Option Char := (cutAt i text).1.getLast?

def charBehind? (text : List Char) (i : Nat) : Option Char := (cutAt i text).2.head?

/-- A word starts or ends at byte offset `i` of the text. -/
def WordBoundaryAt (text : List Char) (i : Nat) : Prop :=
  IsBoundary text i ∧ isWordBoundary (charBefore? text i) (charBehind? text i) = true

instance (text : List Char) (i : Nat) : Decidable (WordBoundaryAt text i) :=
  inferInstanceAs (Decidable (_ ∧ _))

/-- A range that starts and ends where a word does. -/
structure IsWhole (text : List Char) (s : Span) : Prop where
  start : WordBoundaryAt text s.start
  stop : WordBoundaryAt text s.stop

/-- A number as it is written in digits of some script, with or without a fraction. -/
inductive IsNumeral : List Char → Prop
  | whole {digits : List Char} (hne : digits ≠ []) (h : ∀ c ∈ digits, isDecimalDigit c = true) :
      IsNumeral digits
  | fraction {digits more : List Char} (hne : digits ≠ [])
      (h : ∀ c ∈ digits, isDecimalDigit c = true) (hne' : more ≠ [])
      (h' : ∀ c ∈ more, isDecimalDigit c = true) : IsNumeral (digits ++ '.' :: more)

/-- Every range of digits lies in one of word characters. -/
theorem digitRanges_within :
    (digitRanges.all fun d => wordRanges.any fun w => Nat.ble w.1 d.1 && Nat.ble d.2 w.2) =
      true := by
  decide +kernel

theorem isWordChar_of_isDecimalDigit {c : Char} (h : isDecimalDigit c = true) :
    isWordChar c = true := by
  unfold isDecimalDigit at h
  unfold isWordChar
  split at h
  · rename_i hascii
    simp [hascii, Char.isAlphanum, h]
  · rename_i hascii
    obtain ⟨d, hd, hfirst, hlast⟩ := (inRanges_iff _ _).1 h
    obtain ⟨w, hw, hwithin⟩ := List.any_eq_true.1 (List.all_eq_true.1 digitRanges_within d hd)
    simp only [Bool.and_eq_true, Nat.ble_eq] at hwithin
    simp only [hascii, if_false]
    exact (inRanges_iff _ _).2 ⟨w, hw, by omega, by omega⟩

namespace IsNumeral
variable {cs : List Char} (h : IsNumeral cs)
include h

theorem exists_head : ∃ c rest, cs = c :: rest ∧ isDecimalDigit c = true := by
  cases h with
  | whole hne h =>
    obtain ⟨c, rest, rfl⟩ := List.exists_cons_of_ne_nil hne
    exact ⟨c, rest, rfl, h c (by simp)⟩
  | fraction hne h =>
    obtain ⟨c, rest, rfl⟩ := List.exists_cons_of_ne_nil hne
    exact ⟨c, _, rfl, h c (by simp)⟩

theorem exists_last : ∃ front c, cs = front ++ [c] ∧ isDecimalDigit c = true := by
  cases h with
  | whole hne h =>
    exact ⟨_, _, (List.dropLast_append_getLast hne).symm, h _ (List.getLast_mem hne)⟩
  | @fraction digits more _ _ hne h =>
    refine ⟨digits ++ '.' :: more.dropLast, more.getLast hne, ?_, h _ (List.getLast_mem hne)⟩
    simp [List.dropLast_append_getLast]

/-- A numeral starts at a word boundary unless a word character stands before it. -/
theorem isWordBoundary_head (before : Option Char) (after : List Char) :
    isWordBoundary before (cs ++ after).head? = true ↔ ¬before.any isWordChar = true := by
  obtain ⟨c, rest, rfl, hc⟩ := h.exists_head
  simp [isWordBoundary, isWordChar_of_isDecimalDigit hc]

/-- A numeral ends at a word boundary unless a word character stands behind it. -/
theorem isWordBoundary_last (before : List Char) (after : Option Char) :
    isWordBoundary (before ++ cs).getLast? after = true ↔ ¬after.any isWordChar = true := by
  obtain ⟨front, c, rfl, hc⟩ := h.exists_last
  have hlast : (before ++ (front ++ [c])).getLast? = some c := by
    rw [← List.append_assoc, List.getLast?_concat]
  simp [isWordBoundary, hlast, isWordChar_of_isDecimalDigit hc]

end IsNumeral

/-- The range `s` of the text holds `found`, between `before` and `after`. -/
structure Holds (text : List Char) (s : Span) (before found after : List Char) : Prop where
  text_eq : text = before ++ found ++ after
  span_eq : s = ⟨byteLength before, byteLength before + byteLength found⟩

namespace Holds
variable {text before found after : List Char} {s : Span} (h : Holds text s before found after)
include h

theorem slice_eq : slice text s = found := by
  obtain ⟨rfl, rfl⟩ := h
  exact At.slice_eq ⟨before, after, rfl, rfl⟩

theorem cutAt_start : cutAt s.start text = (before, found ++ after) := by
  obtain ⟨rfl, rfl⟩ := h
  simp [cutAt_byteLength]

theorem cutAt_stop : cutAt s.stop text = (before ++ found, after) := by
  obtain ⟨rfl, rfl⟩ := h
  simpa using cutAt_byteLength (before ++ found) after

theorem wordBoundaryAt_start :
    WordBoundaryAt text s.start ↔ isWordBoundary before.getLast? (found ++ after).head? = true := by
  have hboundary : IsBoundary text s.start := by
    rw [IsBoundary, h.cutAt_start, h.span_eq]
  simp only [WordBoundaryAt, charBefore?, charBehind?, h.cutAt_start, hboundary, true_and]

theorem wordBoundaryAt_stop :
    WordBoundaryAt text s.stop ↔ isWordBoundary (before ++ found).getLast? after.head? = true := by
  have hboundary : IsBoundary text s.stop := by
    rw [IsBoundary, h.cutAt_stop, h.span_eq, byteLength_append]
  simp only [WordBoundaryAt, charBefore?, charBehind?, h.cutAt_stop, hboundary, true_and]

end Holds

/-- Every occurrence is recognised where it stands. -/
theorem exists_of_mem_occurrencesFrom {α : Type} {r : Recogniser α} {o : Occurrence α}
    {before : Option Char} {pos taken : Nat} {text : List Char}
    (h : o ∈ occurrencesFrom r before pos taken text) :
    ∃ xs rest n, text = xs ++ rest ∧ r (lastOf before xs) rest = some (n, o.found) ∧
      o.span = ⟨pos + byteLength xs, pos + byteLength xs + byteLength (rest.take n)⟩ := by
  induction text generalizing before pos taken with
  | nil => simp at h
  | cons c cs ih =>
    have hlater : ∀ {taken}, o ∈ occurrencesFrom r (some c) (pos + c.utf8Size) taken cs →
        ∃ xs rest n, c :: cs = xs ++ rest ∧ r (lastOf before xs) rest = some (n, o.found) ∧
          o.span = ⟨pos + byteLength xs, pos + byteLength xs + byteLength (rest.take n)⟩ := by
      intro taken hmem
      obtain ⟨xs, rest, n, rfl, hr, hspan⟩ := ih hmem
      exact ⟨c :: xs, rest, n, rfl, by simpa using hr, by simpa [Nat.add_assoc] using hspan⟩
    cases taken with
    | succ taken => exact hlater h
    | zero =>
      unfold occurrencesFrom at h
      split at h
      · exact hlater h
      · rename_i n a hr
        rcases List.mem_cons.1 h with rfl | h
        · exact ⟨[], c :: cs, n, rfl, hr, by simp⟩
        · exact hlater h

theorem exists_of_mem_occurrences {α : Type} {r : Recogniser α} {o : Occurrence α}
    {text : List Char} (h : o ∈ occurrences r text) :
    ∃ before rest n, text = before ++ rest ∧ r before.getLast? rest = some (n, o.found) ∧
      o.span = ⟨byteLength before, byteLength before + byteLength (rest.take n)⟩ := by
  simpa [lastOf] using exists_of_mem_occurrencesFrom h

end Text

namespace Prose

/-- Digits are taken to their end, and so are those of a fraction. -/
theorem exists_of_recogniseNumber {before : Option Char} {text number : List Char} {n : Nat}
    (h : recogniseNumber before text = some (n, number)) :
    IsNumeral number ∧ ∃ after, text = number ++ after ∧ n = number.length := by
  have hdigits : ∀ cs : List Char, ∀ c ∈ cs.takeWhile isDecimalDigit, isDecimalDigit c = true :=
    fun cs c hc => List.mem_takeWhile_imp hc
  have hsplit := List.takeWhile_append_dropWhile (p := isDecimalDigit) (l := text)
  simp only [recogniseNumber] at h
  split at h
  · simp at h
  · rename_i hwhole
    have hne : text.takeWhile isDecimalDigit ≠ [] := by simpa using hwhole
    simp only [Option.some.injEq, Prod.mk.injEq] at h
    obtain ⟨rfl, rfl⟩ := h
    split
    · rename_i rest hrest
      have hmore := List.takeWhile_append_dropWhile (p := isDecimalDigit) (l := rest)
      split
      · refine ⟨by simpa using IsNumeral.whole hne (hdigits text), '.' :: rest, ?_, by simp⟩
        simp [← hrest, hsplit]
      · rename_i hfraction
        have hne' : rest.takeWhile isDecimalDigit ≠ [] := by simpa using hfraction
        refine ⟨.fraction hne (hdigits text) hne' (hdigits rest),
          rest.dropWhile isDecimalDigit, ?_, rfl⟩
        simp [hmore, ← hrest, hsplit]
    · exact ⟨by simpa using IsNumeral.whole hne (hdigits text), text.dropWhile isDecimalDigit,
        by simp [hsplit], by simp⟩

theorem exists_of_dropWord? {o : Options} {word text rest : List Char}
    (h : o.dropWord? word text = some rest) :
    ∃ found, text = found ++ rest ∧ found.length = word.length := by
  induction word generalizing text with
  | nil => exact ⟨[], by simpa [Options.dropWord?] using h, rfl⟩
  | cons w word ih =>
    cases text with
    | nil => simp [Options.dropWord?] at h
    | cons c text =>
      simp only [Options.dropWord?] at h
      split at h
      · obtain ⟨found, rfl, hlength⟩ := ih h
        exact ⟨c :: found, rfl, by simp [hlength]⟩
      · simp at h

theorem exists_of_matchForms {o : Options} {text : List Char} {forms : List (List Char)} {n : Nat}
    (h : matchForms o text forms = some n) :
    ∃ form ∈ forms, ∃ found after, text = found ++ after ∧ found.length = form.length ∧
      n = found.length ∧ isWordBoundary found.getLast? after.head? = true := by
  induction forms with
  | nil => simp [matchForms] at h
  | cons form forms ih =>
    simp only [List.mem_cons, exists_eq_or_imp]
    simp only [matchForms] at h
    split at h
    · exact .inr (ih h)
    · rename_i rest hdrop
      split at h
      · rename_i hboundary
        obtain ⟨found, rfl, hlength⟩ := exists_of_dropWord? hdrop
        simp only [← hlength, List.take_left, Option.some.injEq] at hboundary h
        exact .inl ⟨found, rest, rfl, hlength, h.symm, hboundary⟩
      · exact .inr (ih h)

/-- A word is recognised between word boundaries. -/
theorem exists_of_recogniseWord {o : Options} {plurals : Bool} {word : List Char} (hne : word ≠ [])
    {before : Option Char} {text : List Char} {n : Nat} {u : Unit}
    (h : recogniseWord o plurals word before text = some (n, u)) :
    ∃ found after, text = found ++ after ∧ n = found.length ∧ found ≠ [] ∧
      isWordBoundary before text.head? = true ∧
      isWordBoundary found.getLast? after.head? = true := by
  simp only [recogniseWord] at h
  split at h
  · rename_i hstart
    obtain ⟨m, hm, heq⟩ := Option.map_eq_some_iff.1 h
    obtain ⟨form, hform, found, after, rfl, hlength, rfl, hstop⟩ := exists_of_matchForms hm
    obtain ⟨ending, -, rfl⟩ := List.mem_map.1 hform
    have hfound : found ≠ [] := by
      rintro rfl
      exact hne (List.append_eq_nil_iff.1 (List.length_eq_zero_iff.1 hlength.symm)).1
    exact ⟨found, after, rfl, (Prod.mk.inj heq).1.symm, hfound, hstart, hstop⟩
  · simp at h

section Matches
variable {text : List Char} {s : Span}

theorem whole_of_mem_wordSpans {o : Options} {plurals : Bool} {word : List Char} (hne : word ≠ [])
    (h : s ∈ wordSpans o plurals text word) :
    ∃ before found after, Holds text s before found after ∧ IsWhole text s := by
  obtain ⟨occ, hocc, rfl⟩ := List.mem_map.1 h
  obtain ⟨before, rest, n, rfl, hr, hspan⟩ := exists_of_mem_occurrences hocc
  obtain ⟨found, after, rfl, rfl, hfound, hstart, hstop⟩ := exists_of_recogniseWord hne hr
  have hholds : Holds (before ++ (found ++ after)) occ.span before found after :=
    ⟨by simp, by simpa using hspan⟩
  have hlast : (before ++ found).getLast? = found.getLast? := by
    simp [List.getLast?_append, List.getLast?_eq_some_getLast hfound]
  exact ⟨before, found, after, hholds, hholds.wordBoundaryAt_start.2 hstart,
    hholds.wordBoundaryAt_stop.2 (hlast ▸ hstop)⟩

theorem numeral_of_mem_numberSpans {q : Quantity} (h : s ∈ numberSpans text q) :
    ∃ before found after, Holds text s before found after ∧ IsNumeral found := by
  obtain ⟨occ, hocc, rfl⟩ := List.mem_map.1 h
  obtain ⟨before, rest, n, rfl, hr, hspan⟩ :=
    exists_of_mem_occurrences (List.mem_filter.1 hocc).1
  obtain ⟨hnumeral, after, rfl, rfl⟩ := exists_of_recogniseNumber hr
  exact ⟨before, occ.found, after, ⟨by simp, by simpa using hspan⟩, hnumeral⟩

theorem ne_nil_of_numberWord? {q : Quantity} {word : String} (h : numberWord? q = some word) :
    word.toList ≠ [] := by
  obtain ⟨⟨w, i⟩, hw, rfl⟩ := Option.map_eq_some_iff.1 h
  have hmem : w ∈ numberWords := (List.mem_zipIdx' (List.mem_of_find?_eq_some hw)).2 ▸ by simp
  have hwords : ∀ w ∈ numberWords, w.toList ≠ [] := by decide
  exact hwords w hmem

/-- A match is a number in digits, or it stands between word boundaries; without a number there is
only the second. -/
theorem cases_of_mem_candidates {o : Options} {value : List Char} (hne : value ≠ [])
    (h : s ∈ candidates o text value) :
    ∃ before found after, Holds text s before found after ∧
      ((Quantity.ofDecimal? value).isSome = true ∧ IsNumeral found ∨ IsWhole text s) := by
  unfold candidates at h
  split at h
  · rename_i q hq
    rcases List.mem_append.1 h with h | h
    · obtain ⟨before, found, after, hholds, hnumeral⟩ := numeral_of_mem_numberSpans h
      exact ⟨before, found, after, hholds, .inl ⟨by simp [hq], hnumeral⟩⟩
    · split at h
      · rename_i word hnumber
        obtain ⟨before, found, after, hholds, hwhole⟩ :=
          whole_of_mem_wordSpans (ne_nil_of_numberWord? hnumber) h
        exact ⟨before, found, after, hholds, .inr hwhole⟩
      · simp at h
  · obtain ⟨before, found, after, hholds, hwhole⟩ := whole_of_mem_wordSpans hne h
    exact ⟨before, found, after, hholds, .inr hwhole⟩

end Matches

theorem mem_candidates_of_mem_find {o : Options} {text value : String} {s : Span}
    (h : s ∈ find o text value) :
    trim value.toList ≠ [] ∧ s ∈ candidates o text.toList (trim value.toList) := by
  simp only [find] at h
  split at h
  · simp at h
  · rename_i hne
    exact ⟨by simpa using hne, mem_sortSpans.1 ((Scanner.sublist_limit o _).subset h)⟩

/-- Where a match has a word boundary. It starts at one unless it is a number in digits with a word
character directly before it, and ends at one unless it is a number in digits with a word character
directly behind it; the matches of a value that is no number are always whole words. -/
theorem find_whole_exactly (o : Options) (text value : String) {s : Span}
    (hs : s ∈ find o text value) :
    (WordBoundaryAt text.toList s.start ↔
        ¬(IsNumeral (slice text.toList s) ∧
          (charBefore? text.toList s.start).any isWordChar = true)) ∧
      (WordBoundaryAt text.toList s.stop ↔
        ¬(IsNumeral (slice text.toList s) ∧
          (charBehind? text.toList s.stop).any isWordChar = true)) ∧
      (Quantity.ofDecimal? (trim value.toList) = none → IsWhole text.toList s) := by
  obtain ⟨hne, hmem⟩ := mem_candidates_of_mem_find hs
  obtain ⟨before, found, after, hholds, hcases⟩ := cases_of_mem_candidates hne hmem
  have hnumeral : IsNumeral found ∨ IsWhole text.toList s := hcases.imp_left And.right
  simp only [hholds.slice_eq, charBefore?, charBehind?, hholds.cutAt_start, hholds.cutAt_stop]
  refine ⟨?_, ?_, fun hnone => hcases.resolve_left (by simp [hnone])⟩
  -- What is not in digits was found as a word, so it is whole whatever stands around it.
  · by_cases hfound : IsNumeral found
    · simp only [hholds.wordBoundaryAt_start, hfound.isWordBoundary_head, hfound, true_and]
    · simp only [hfound, false_and, not_false_iff, iff_true]
      exact (hnumeral.resolve_left hfound).start
  · by_cases hfound : IsNumeral found
    · simp only [hholds.wordBoundaryAt_stop, hfound.isWordBoundary_last, hfound, true_and]
    · simp only [hfound, false_and, not_false_iff, iff_true]
      exact (hnumeral.resolve_left hfound).stop

/-- A number that only its unit touches starts at a word boundary and does not end at one. -/
theorem find_whole_exactly_unit :
    let text := "three boxes of 3kg"
    ⟨15, 16⟩ ∈ find {} text "3.0" ∧ WordBoundaryAt text.toList 15 ∧
      ¬WordBoundaryAt text.toList 16 := by
  intro text
  have hmem : ⟨15, 16⟩ ∈ find {} text "3.0" := by decide +kernel
  obtain ⟨hstart, hstop, -⟩ := find_whole_exactly {} text "3.0" hmem
  have hslice : slice text.toList ⟨15, 16⟩ = ['3'] := by decide +kernel
  have hnumeral : IsNumeral ['3'] := .whole (by decide) (List.forall_mem_singleton.2 (by decide))
  refine ⟨hmem, hstart.2 fun h => absurd h.2 (by decide +kernel), fun h => ?_⟩
  exact hstop.1 h ⟨hslice ▸ hnumeral, by decide +kernel⟩

/-- Not every match is a whole word: a digit is found inside of one. -/
theorem not_whole_inside :
    ¬∀ (o : Options) (text value : String), ∀ s ∈ find o text value, IsWhole text.toList s := by
  intro h
  have hwhole := h {} "a3" "3" ⟨1, 2⟩ (by decide +kernel)
  exact absurd hwhole.start (by decide +kernel)

end Prose
end ProblemScript
