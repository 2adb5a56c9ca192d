import ProblemScript.Proofs.Text.Occurrence

/-! Patterns and what they match. A pattern lists the points where a match may end in the order in
which they are tried: a run of characters is taken as long as possible first, and of two choices the
one written first comes first. What a search finds is the first of these. -/
namespace ProblemScript.Text

section Delimited
variable {quote : Char} {inner : List Char} (h : quote ∉ inner) (rest : List Char)
include h

theorem bne_of_not_mem : ∀ c ∈ inner, (c != quote) = true :=
  fun _ hc => bne_iff_ne.2 fun heq => h (heq ▸ hc)

theorem takeWhile_bne : (inner ++ quote :: rest).takeWhile (· != quote) = inner := by
  simp [List.takeWhile_append_of_pos (bne_of_not_mem h)]

theorem dropWhile_bne : (inner ++ quote :: rest).dropWhile (· != quote) = quote :: rest := by
  simp [List.dropWhile_append_of_pos (bne_of_not_mem h)]

end Delimited

/-- A pattern over classes of characters. -/
inductive Pattern where
  | empty
  /-- Nothing, between two characters that pass the test; the text may end on either side. -/
  | between (test : Option Char → Option Char → Bool)
  | one (test : Char → Bool)
  | many (test : Char → Bool)
  | seq (first second : Pattern)
  | choice (preferred other : Pattern)
  /-- The text that the inner pattern takes is kept under a number. -/
  | group (number : Nat) (inner : Pattern)

/-- A point in a text with the groups that were kept on the way to it, the latest first. -/
structure Point where
  before : Option Char
  rest : List Char
  groups : List (Nat × List Char)

namespace Point

/-- The point behind all characters of the class. -/
def skip (test : Char → Bool) (s : Point) : Point :=
  { s with before := lastOf s.before (s.rest.takeWhile test), rest := s.rest.dropWhile test }

theorem skip_bne {quote : Char} {inner : List Char} (h : quote ∉ inner) (before : Option Char)
    (rest : List Char) (groups : List (Nat × List Char)) :
    skip (· != quote) ⟨before, inner ++ quote :: rest, groups⟩ =
      ⟨lastOf before inner, quote :: rest, groups⟩ := by
  rw [skip, takeWhile_bne h, dropWhile_bne h]

/-- The text between two points. -/
def upTo (s t : Point) : List Char := s.rest.take (s.rest.length - t.rest.length)

theorem upTo_eq {s t : Point} {xs : List Char} (h : s.rest = xs ++ t.rest) : s.upTo t = xs := by
  simp [upTo, h]

/-- Keeps what was taken since the point `s`. -/
def keep (number : Nat) (s t : Point) : Point := { t with groups := (number, s.upTo t) :: t.groups }

end Point

namespace Pattern

/-- The points behind a run of characters, the longest run first. -/
def runs (test : Char → Bool) (groups : List (Nat × List Char)) :
    Option Char → List Char → List Point
  | before, [] => [⟨before, [], groups⟩]
  | before, c :: cs =>
    (if test c then runs test groups (some c) cs else []) ++ [⟨before, c :: cs, groups⟩]

/-- Where a match from a given point on may end, in the order in which the ends are tried. -/
def ends : Pattern → Point → List Point
  | empty, s => [s]
  | between test, s => if test s.before s.rest.head? then [s] else []
  | one test, s =>
    match s.rest with
    | [] => []
    | c :: cs => if test c then [{ s with before := some c, rest := cs }] else []
  | many test, s => runs test s.groups s.before s.rest
  | seq first second, s => (first.ends s).flatMap second.ends
  | choice preferred other, s => preferred.ends s ++ other.ends s
  | group number inner, s => (inner.ends s).map (s.keep number)

/-- A match of the pattern at the start of a text, by its groups. -/
def recogniser (p : Pattern) : Recogniser (List (Nat × List Char)) := fun before text =>
  (p.ends ⟨before, text, []⟩).head?.map fun t => (text.length - t.rest.length, t.groups)

/-- The characters of a word, one after the other. -/
def literal (word : List Char) : Pattern := word.foldr (fun c p => seq (one (· == c)) p) empty

def optional (p : Pattern) : Pattern := choice p empty

section Ends
variable (s : Point)

@[simp] theorem ends_empty : empty.ends s = [s] := rfl

@[simp] theorem ends_seq (p q : Pattern) : (seq p q).ends s = (p.ends s).flatMap q.ends := rfl

@[simp] theorem ends_choice (p q : Pattern) : (choice p q).ends s = p.ends s ++ q.ends s := rfl

@[simp] theorem ends_optional (p : Pattern) : (optional p).ends s = p.ends s ++ [s] := rfl

@[simp] theorem ends_group (number : Nat) (p : Pattern) :
    (group number p).ends s = (p.ends s).map (s.keep number) := rfl

@[simp] theorem ends_one_nil (test : Char → Bool) (before : Option Char)
    (groups : List (Nat × List Char)) : (one test).ends ⟨before, [], groups⟩ = [] := rfl

@[simp] theorem ends_one_cons (test : Char → Bool) (before : Option Char) (c : Char)
    (cs : List Char) (groups : List (Nat × List Char)) :
    (one test).ends ⟨before, c :: cs, groups⟩ =
      if test c then [⟨some c, cs, groups⟩] else [] := rfl

end Ends

/-- The way on fails wherever a character of the class stands. -/
def Avoids (k : Point → List Point) (test : Char → Bool) : Prop :=
  ∀ t c cs, t.rest = c :: cs → test c = true → k t = []

/-- A run is taken to its end if what follows cannot start inside it. -/
theorem flatMap_many {k : Point → List Point} {test : Char → Bool} (h : Avoids k test)
    (s : Point) : ((many test).ends s).flatMap k = k (s.skip test) := by
  obtain ⟨before, rest, groups⟩ := s
  simp only [ends, Point.skip]
  induction rest generalizing before with
  | nil => simp [runs]
  | cons c cs ih =>
    cases hc : test c with
    | false => simp [runs, hc]
    | true =>
      have hhere : k ⟨before, c :: cs, groups⟩ = [] := h _ c cs rfl hc
      simp [runs, hc, ih, hhere]

/-- A run is taken to its end if the match can go on there. -/
theorem head?_flatMap_many {k : Point → List Point} {test : Char → Bool} (s : Point)
    (h : k (s.skip test) ≠ []) :
    (((many test).ends s).flatMap k).head? = (k (s.skip test)).head? := by
  obtain ⟨before, rest, groups⟩ := s
  simp only [ends, Point.skip] at h ⊢
  induction rest generalizing before with
  | nil => simp [runs]
  | cons c cs ih =>
    cases hc : test c with
    | false => simp [runs, hc]
    | true =>
      simp only [hc, List.takeWhile_cons_of_pos, List.dropWhile_cons_of_pos, lastOf_cons] at h ⊢
      have hrest := ih (some c) h
      obtain ⟨t, ts, hts⟩ := List.exists_cons_of_ne_nil h
      simp [runs, hc, hrest, hts]

/-- A run ends further on in the text. -/
theorem suffix_of_mem_many {test : Char → Bool} {s t : Point} (h : t ∈ (many test).ends s) :
    t.rest <:+ s.rest := by
  obtain ⟨before, rest, groups⟩ := s
  simp only [ends] at h ⊢
  induction rest generalizing before with
  | nil => simp_all [runs]
  | cons c cs ih =>
    unfold runs at h
    rcases List.mem_append.1 h with h | h
    · split at h
      · exact (ih _ h).trans (List.suffix_cons c cs)
      · simp at h
    · simp_all

theorem ends_literal (word : List Char) (before : Option Char) (cs : List Char)
    (groups : List (Nat × List Char)) :
    (literal word).ends ⟨before, cs, groups⟩ =
      if word.isPrefixOf cs then [⟨lastOf before word, cs.drop word.length, groups⟩] else [] := by
  induction word generalizing before cs with
  | nil => simp [literal]
  | cons w word ih =>
    have hstep : literal (w :: word) = seq (one (· == w)) (literal word) := rfl
    rw [hstep, ends_seq]
    cases cs with
    | nil => simp
    | cons c cs =>
      by_cases hc : c = w
      · simp [hc, ih]
      · have hne : ¬w = c := fun h => hc h.symm
        simp [hc, hne]

end Pattern
end ProblemScript.Text
