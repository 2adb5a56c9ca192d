import Mathlib.Data.List.Sort
import ProblemScript.Prose.Matcher

/-! Matches of several values put together. A lookup sorts its ranges and keeps the first of them; a
lookup of several values does so with ranges that were cut off already. Nothing is lost by that: the
first `m` of all ranges are among the first `m` of each value. The laws hold whatever finds the
numbers and the words of a text, so they are stated for any `Scanner`. -/
namespace ProblemScript
open Text
open scoped List

namespace Span

/-- Earlier start, or the same start and an earlier end. -/
def Before (s t : Span) : Prop := s.start < t.start ∨ (s.start = t.start ∧ s.stop < t.stop)

instance (s t : Span) : Decidable (s.Before t) := inferInstanceAs (Decidable (_ ∨ _))

theorem Before.trans {s t u : Span} (hst : s.Before t) (htu : t.Before u) : s.Before u := by
  unfold Before at *
  omega

instance : Std.Irrefl Before where
  irrefl s h := by
    unfold Before at h
    omega

instance : Std.Antisymm Before where
  antisymm s t hst hts := by
    unfold Before at hst hts
    omega

theorem before_of_le {s t : Span} (h : s.le t = true) (hne : s ≠ t) : s.Before t := by
  obtain ⟨a, b⟩ := s
  obtain ⟨c, d⟩ := t
  simp only [le, Bool.or_eq_true, Bool.and_eq_true, decide_eq_true_eq, beq_iff_eq] at h
  simp only [ne_eq, Span.mk.injEq, not_and] at hne
  simp only [Before]
  omega

theorem before_of_not_le {s t : Span} (h : ¬s.le t = true) : t.Before s := by
  simp only [le, Bool.or_eq_true, Bool.and_eq_true, decide_eq_true_eq, beq_iff_eq] at h
  unfold Before
  omega

end Span

namespace Prose

@[simp] theorem mem_insertSpan {s t : Span} {spans : List Span} :
    t ∈ insertSpan s spans ↔ t = s ∨ t ∈ spans := by
  induction spans with
  | nil => simp [insertSpan]
  | cons u us ih =>
    unfold insertSpan
    split
    · rename_i heq
      simp [heq]
    · split
      · simp
      · rw [List.mem_cons, ih, List.mem_cons]
        tauto

@[simp] theorem mem_sortSpans {s : Span} {spans : List Span} :
    s ∈ sortSpans spans ↔ s ∈ spans := by
  induction spans with
  | nil => simp [sortSpans]
  | cons t ts ih =>
    have hstep : sortSpans (t :: ts) = insertSpan t (sortSpans ts) := rfl
    rw [hstep, mem_insertSpan, ih, List.mem_cons]

theorem pairwise_insertSpan (s : Span) {spans : List Span} (h : spans.Pairwise Span.Before) :
    (insertSpan s spans).Pairwise Span.Before := by
  induction spans with
  | nil => simp [insertSpan]
  | cons t ts ih =>
    obtain ⟨ht, hts⟩ := List.pairwise_cons.1 h
    unfold insertSpan
    split
    · exact h
    · rename_i hne
      split
      · rename_i hle
        have hst := Span.before_of_le hle hne
        refine List.pairwise_cons.2 ⟨fun u hu => ?_, h⟩
        rcases List.mem_cons.1 hu with rfl | hu
        · exact hst
        · exact hst.trans (ht u hu)
      · rename_i hle
        refine List.pairwise_cons.2 ⟨fun u hu => ?_, ih hts⟩
        rcases mem_insertSpan.1 hu with rfl | hu
        · exact Span.before_of_not_le hle
        · exact ht u hu

theorem pairwise_sortSpans (spans : List Span) : (sortSpans spans).Pairwise Span.Before := by
  induction spans with
  | nil => simp [sortSpans]
  | cons s spans ih => exact pairwise_insertSpan s ih

/-- Order and repetition of the ranges do not matter to the sorted list. -/
theorem sortSpans_congr {xs ys : List Span} (h : ∀ s, s ∈ xs ↔ s ∈ ys) :
    sortSpans xs = sortSpans ys := by
  apply (pairwise_sortSpans xs).eq_of_mem_iff (pairwise_sortSpans ys)
  intro s
  rw [mem_sortSpans, mem_sortSpans, h]

theorem sublist_sortSpans {xs spans : List Span} (hxs : xs.Pairwise Span.Before)
    (hsub : xs ⊆ spans) : xs <+ sortSpans spans := by
  have hmem : xs ⊆ sortSpans spans := fun s hs => mem_sortSpans.2 (hsub hs)
  exact List.sublist_of_subperm_of_pairwise (List.subperm_of_subset hxs.nodup hmem) hxs
    (pairwise_sortSpans spans)

/-- An element keeps its place or comes further to the front when others are left out. -/
theorem mem_take_of_sublist {α : Type} {xs ys : List α} (h : xs <+ ys) (hys : ys.Nodup) {x : α}
    {m : Nat} (hx : x ∈ xs) (hm : x ∈ ys.take m) : x ∈ xs.take m := by
  induction h generalizing m with
  | slnil => simp at hx
  | cons y h ih =>
    obtain ⟨hy, hnodup⟩ := List.nodup_cons.1 hys
    cases m with
    | zero => simp at hm
    | succ m =>
      rcases List.mem_cons.1 hm with rfl | hm
      · exact absurd (h.subset hx) hy
      · exact List.take_subset_take_left _ (Nat.le_succ m) (ih hnodup hx hm)
  | cons_cons y h ih =>
    obtain ⟨hy, hnodup⟩ := List.nodup_cons.1 hys
    cases m with
    | zero => simp at hm
    | succ m =>
      rw [List.take_succ_cons, List.mem_cons] at hm ⊢
      rcases List.mem_cons.1 hx with rfl | hx
      · exact .inl rfl
      · rcases hm with rfl | hm
        · exact .inl rfl
        · exact .inr (ih hnodup hx hm)

/-- Leaving out elements behind the first `m` leaves the first `m` as they are. -/
theorem take_eq_of_sublist {α : Type} {xs ys : List α} (h : xs <+ ys) (hys : ys.Nodup) {m : Nat}
    (hm : ys.take m ⊆ xs) : xs.take m = ys.take m := by
  induction h generalizing m with
  | slnil => rfl
  | cons y h ih =>
    cases m with
    | zero => rfl
    | succ m =>
      have hy := hm (show y ∈ (y :: _).take (m + 1) by simp)
      exact absurd (h.subset hy) (List.nodup_cons.1 hys).1
  | cons_cons y h ih =>
    obtain ⟨hy, hnodup⟩ := List.nodup_cons.1 hys
    cases m with
    | zero => rfl
    | succ m =>
      rw [List.take_succ_cons, List.take_succ_cons, ih hnodup]
      intro x hx
      rcases List.mem_cons.1 (hm (List.mem_cons_of_mem y hx)) with rfl | hmem
      · exact absurd (List.mem_of_mem_take hx) hy
      · exact hmem

/-- The first `m` ranges of a union need only the first `m` of each part. -/
theorem take_sortSpans_flatMap {α : Type} (part : α → List Span)
    (hpart : ∀ a, (part a).Pairwise Span.Before) (m : Nat) (as : List α) :
    (sortSpans (as.flatMap fun a => (part a).take m)).take m =
      (sortSpans (as.flatMap part)).take m := by
  have hnodup := (pairwise_sortSpans (as.flatMap part)).nodup
  apply take_eq_of_sublist ?_ hnodup
  · intro s hs
    obtain ⟨a, ha, hsa⟩ := List.mem_flatMap.1 (mem_sortSpans.1 (List.mem_of_mem_take hs))
    have hsub : part a <+ sortSpans (as.flatMap part) :=
      sublist_sortSpans (hpart a) fun t ht => List.mem_flatMap.2 ⟨a, ha, ht⟩
    have hfirst := mem_take_of_sublist hsub hnodup hsa hs
    exact mem_sortSpans.2 (List.mem_flatMap.2 ⟨a, ha, hfirst⟩)
  · apply sublist_sortSpans (pairwise_sortSpans _)
    intro s hs
    obtain ⟨a, ha, hsa⟩ := List.mem_flatMap.1 (mem_sortSpans.1 hs)
    exact List.mem_flatMap.2 ⟨a, ha, List.mem_of_mem_take hsa⟩

/-- Whatever finds the numbers of a text, with the characters of each, and the places of a word. -/
structure Scanner where
  numbers : (text : List Char) → List (Occurrence (List Char))
  words : (caseInsensitive plurals : Bool) → (text word : List Char) → List Span

namespace Scanner

/-- The scanner of the matcher. -/
def standard : Scanner where
  numbers := occurrences recogniseNumber
  words caseInsensitive := wordSpans { caseInsensitive }

/-- The places of a value, in no particular order. -/
def candidates (sc : Scanner) (o : Options) (text value : List Char) : List Span :=
  match Quantity.ofDecimal? value with
  | some q =>
    ((sc.numbers text).filter (Quantity.ofDecimal? ·.found == some q)).map (·.span) ++
      match numberWord? q with
      | some word => sc.words o.caseInsensitive false text word.toList
      | none => []
  | none => sc.words o.caseInsensitive o.matchPlurals text value

/-- The places of a value in a text, in order. -/
def find (sc : Scanner) (o : Options) (text value : String) : List Span :=
  if (trim value.toList).isEmpty || text.toList.isEmpty then []
  else limit o (sortSpans (sc.candidates o text.toList (trim value.toList)))

/-- The places of several values in a text, in order. -/
def findAll (sc : Scanner) (o : Options) (text : String) (values : List String) : List Span :=
  limit o (sortSpans (values.flatMap (sc.find o text)))

end Scanner

section Standard

theorem dropWord?_congr {o o' : Options} (h : o.caseInsensitive = o'.caseInsensitive)
    (word cs : List Char) : o.dropWord? word cs = o'.dropWord? word cs := by
  induction word generalizing cs with
  | nil => rfl
  | cons w ws ih =>
    cases cs with
    | nil => rfl
    | cons c cs =>
      have hsame : o.sameChar w c = o'.sameChar w c := by
        unfold Options.sameChar
        rw [h]
      simp only [Options.dropWord?, hsame, ih]

theorem matchForms_congr {o o' : Options} (h : o.caseInsensitive = o'.caseInsensitive)
    (text : List Char) (forms : List (List Char)) :
    matchForms o text forms = matchForms o' text forms := by
  induction forms with
  | nil => rfl
  | cons form forms ih => simp only [matchForms, dropWord?_congr h, ih]

/-- Of the options, only that on letter case matters to the places of a given word. -/
theorem wordSpans_congr {o o' : Options} (h : o.caseInsensitive = o'.caseInsensitive) :
    wordSpans o = wordSpans o' := by
  have hword : recogniseWord o = recogniseWord o' := by
    funext plurals word before text
    simp only [recogniseWord, matchForms_congr h]
  funext plurals text word
  simp only [wordSpans, hword]

theorem candidates_eq_standard (o : Options) (text value : List Char) :
    candidates o text value = Scanner.standard.candidates o text value := by
  have hwords : Scanner.standard.words o.caseInsensitive = wordSpans o :=
    wordSpans_congr (o := { caseInsensitive := o.caseInsensitive }) rfl
  simp only [candidates, Scanner.candidates, hwords]
  rfl

theorem candidates_nil (o : Options) (value : List Char) : candidates o [] value = [] := by
  unfold candidates numberSpans wordSpans
  split
  · split <;> rfl
  · rfl

theorem find_eq_standard (o : Options) (text value : String) :
    find o text value = Scanner.standard.find o text value := by
  have hempty : limit o (sortSpans []) = [] := by
    unfold limit
    split <;> simp [sortSpans]
  simp only [find, Scanner.find, ← candidates_eq_standard, Bool.or_eq_true]
  by_cases hvalue : (trim value.toList).isEmpty = true
  · simp only [hvalue, if_true, true_or]
  · simp only [hvalue]
    by_cases htext : text.toList = []
    · simp [htext, candidates_nil, hempty]
    · simp [htext]

theorem findAll_eq_standard (o : Options) (text : String) (values : List String) :
    findAll o text values = Scanner.standard.findAll o text values := by
  have hfind : find o text = Scanner.standard.find o text := funext (find_eq_standard o text)
  rw [findAll, Scanner.findAll, hfind]

end Standard

namespace Scanner
variable (sc : Scanner) (o : Options) (text : String)

theorem sublist_limit (spans : List Span) : limit o spans <+ spans := by
  unfold limit
  split
  · exact List.take_sublist _ _
  · exact List.Sublist.refl _

theorem pairwise_find (value : String) : (sc.find o text value).Pairwise Span.Before := by
  unfold find
  split
  · exact .nil
  · exact (pairwise_sortSpans _).sublist (sublist_limit o _)

/-- The limit on one lookup keeps the first ranges of the unlimited one. -/
theorem find_limited (m : Nat) (value : String) :
    sc.find { o with maxMatches := some m } text value =
      (sc.find { o with maxMatches := none } text value).take m := by
  unfold find
  split
  · simp
  · rfl

/-- The limit on a lookup of several values keeps the first ranges of the unlimited one, although
it has cut off the ranges of each value before. -/
theorem findAll_limited (m : Nat) (values : List String) :
    sc.findAll { o with maxMatches := some m } text values =
      (sc.findAll { o with maxMatches := none } text values).take m := by
  have hfind : sc.find { o with maxMatches := some m } text =
      fun value => (sc.find { o with maxMatches := none } text value).take m :=
    funext (sc.find_limited o text m)
  unfold findAll
  rw [hfind]
  exact take_sortSpans_flatMap _ (sc.pairwise_find _ text) m values

end Scanner

/-- Looking up several values, whatever scans the text. The ranges are strictly increasing; without
a limit they are those of the single values, in whatever order and however often these are given;
and a limit keeps the first ranges, of one value as of several. The matcher is the case of its own
scanner. -/
theorem findAll_merges (sc : Scanner) (o : Options) (text : String) (values : List String) :
    (sc.findAll o text values).Pairwise Span.Before ∧
      (∀ s, s ∈ sc.findAll { o with maxMatches := none } text values ↔
        ∃ value ∈ values, s ∈ sc.find { o with maxMatches := none } text value) ∧
      (∀ values', (∀ value, value ∈ values' ↔ value ∈ values) →
        sc.findAll { o with maxMatches := none } text values' =
          sc.findAll { o with maxMatches := none } text values) ∧
      (∀ m value, sc.find { o with maxMatches := some m } text value =
        (sc.find { o with maxMatches := none } text value).take m) ∧
      (∀ m, sc.findAll { o with maxMatches := some m } text values =
        (sc.findAll { o with maxMatches := none } text values).take m) ∧
      (∀ value, find o text value = Scanner.standard.find o text value) ∧
      findAll o text values = Scanner.standard.findAll o text values := by
  refine ⟨?_, ?_, ?_, sc.find_limited o text, fun m => sc.findAll_limited o text m values,
    find_eq_standard o text, findAll_eq_standard o text values⟩
  · exact (pairwise_sortSpans _).sublist (Scanner.sublist_limit o _)
  · intro s
    simp only [Scanner.findAll, limit, mem_sortSpans, List.mem_flatMap]
  · intro values' h
    unfold Scanner.findAll
    refine congrArg _ (sortSpans_congr fun s => ?_)
    simp only [List.mem_flatMap, h]

/-- Two values that share a place, given twice and in another order, and a limit of two. -/
theorem findAll_merges_shared :
    let text := "Ann had 3 pears; three of the 3.0 were Bob's."
    let o : Options := {}
    let all := findAll o text ["3", "pear", "3.0"]
    all = [⟨8, 9⟩, ⟨10, 15⟩, ⟨17, 22⟩, ⟨30, 33⟩] ∧
      findAll o text ["pear", "3.0", "3", "pear"] = all ∧
      findAll { o with maxMatches := some 2 } text ["3", "pear", "3.0"] = all.take 2 := by
  intro text o all
  have hvalues : ∀ value : String, value ∈ ["pear", "3.0", "3", "pear"] ↔
      value ∈ ["3", "pear", "3.0"] := by
    intro value
    simp only [List.mem_cons, List.not_mem_nil, or_false]
    tauto
  obtain ⟨-, -, hsame, -, hlimit, -⟩ :=
    findAll_merges Scanner.standard o text ["3", "pear", "3.0"]
  refine ⟨by decide +kernel, ?_, ?_⟩
  · rw [findAll_eq_standard]
    exact (hsame _ hvalues).trans (findAll_eq_standard _ _ _).symm
  · rw [findAll_eq_standard]
    exact (hlimit 2).trans (congrArg _ (findAll_eq_standard _ _ _).symm)

end Prose
end ProblemScript
