import Mathlib.Data.List.Basic
import ProblemScript.Proofs.Grammar.Split

/-! Rows: cells with commas between them and white space before them. All lists of a laid-out
script are rows, of properties and their items in an entity and of slots in an operation, and a
row is cut into its own cells again. -/
namespace ProblemScript.Layout
open Text ProblemScript.Bracket Segment

/-- The text is one element of a list: it is trimmed, and its commas do not separate. -/
structure IsElement (lo : Int) (cs : List Char) : Prop where
  nonempty : cs ≠ []
  trimmed : trim cs = cs
  within : Within lo 1 0 cs
  depth_nonneg : 0 ≤ depth cs

/-- An element with something in front of it that has neither brackets nor commas. -/
theorem IsElement.lead {lo : Int} {lead cs : List Char} (h : IsElement lo cs)
    (hneutral : Neutral lead) (hstart : ∀ c ∈ lead.head?, isBlank c = false) (hlo : lo ≤ 0) :
    IsElement lo (lead ++ cs) ∧ depth (lead ++ cs) = depth cs := by
  have hdepth : depth (lead ++ cs) = depth cs := by
    rw [depth_append, depth_of_neutral hneutral, Int.zero_add]
  have hends := head?_trim cs
  have hlast := getLast?_trim cs
  rw [h.trimmed] at hends hlast
  refine ⟨⟨?_, ?_, ?_, ?_⟩, hdepth⟩
  · simp [h.nonempty]
  · apply trim_eq_self
    · cases lead with
      | nil => exact hends
      | cons d lead => simpa using hstart
    · rwa [List.getLast?_append_of_ne_nil _ h.nonempty]
  · apply within_append.2
    rw [depth_of_neutral hneutral]
    exact ⟨within_of_neutral hneutral hlo, h.within⟩
  · rw [hdepth]
    exact h.depth_nonneg

/-- A body in brackets. It may go one below its own depth. -/
theorem isElement_brackets {body : List Char} {opener closer : Char}
    (ho : isOpening opener = true) (hc : isClosing closer = true) (hbody : Within (-1) 0 0 body)
    (hd : 0 ≤ depth body) :
    IsElement 0 (opener :: body ++ [closer]) ∧
      depth (opener :: body ++ [closer]) = depth body := by
  have hopener := weight_of_isOpening ho
  have hcloser := weight_of_isClosing hc
  have hcomma : opener ≠ ',' ∧ closer ≠ ',' := by
    constructor <;> (rintro rfl; simp [weight, isOpening, isClosing] at hopener hcloser)
  have hblank : ∀ {c : Char}, weight c ≠ 0 → isBlank c = false := by
    intro c hw
    cases hb : isBlank c with
    | false => rfl
    | true => exact absurd (neutral_of_isBlank hb).1 hw
  have hdepth : depth (opener :: body ++ [closer]) = depth body := by
    simp only [List.cons_append, depth_append, depth_cons, depth_nil, hopener, hcloser]
    omega
  refine ⟨⟨by simp, ?_, ?_, by rw [hdepth]; exact hd⟩, hdepth⟩
  · apply trim_eq_self
    · intro c hmem
      obtain rfl : opener = c := by simpa using hmem
      exact hblank (by omega)
    · intro c hmem
      rw [List.getLast?_concat, Option.mem_some] at hmem
      subst hmem
      exact hblank (by omega)
  · refine ⟨fun h => absurd h hcomma.1, by omega, within_append.2 ⟨?_, ?_⟩⟩
    · rw [hopener]
      exact (within_add 1).2 hbody
    · exact ⟨fun h => absurd h hcomma.2, by omega, trivial⟩

/-- An element of a list as written, and the white space before it. -/
structure Cell where
  gap : List Char
  chars : List Char
deriving DecidableEq, Repr

namespace Cell

structure IsProper (lo : Int) (c : Cell) : Prop extends IsElement lo c.chars where
  gap : AllBlank c.gap

/-- All cells are proper, and those before the last are level. -/
structure AreProper (lo : Int) (cells : List Cell) : Prop where
  proper : ∀ c ∈ cells, c.IsProper lo
  level : cells.Pairwise fun c _ => depth c.chars = 0

/-- The cells, each behind a comma. -/
def led (cells : List Cell) : List Char := cells.flatMap fun c => ',' :: (c.gap ++ c.chars)

/-- The cells with commas between them. -/
def row : List Cell → List Char
  | [] => []
  | c :: cs => c.gap ++ c.chars ++ led cs

/-- Where the cells of a row that starts at byte `k` are found. -/
def segments (k : Nat) : List Cell → List Segment
  | [] => []
  | c :: cs =>
    ⟨k + byteLength c.gap, c.chars⟩ ::
      segments (k + byteLength c.gap + byteLength c.chars + 1) cs

theorem led_append (cs ds : List Cell) : led (cs ++ ds) = led cs ++ led ds :=
  List.flatMap_append

theorem led_cons (c : Cell) (cs : List Cell) : led (c :: cs) = ',' :: row (c :: cs) := by
  simp [led, row]

theorem row_append {cs : List Cell} (h : cs ≠ []) (ds : List Cell) :
    row (cs ++ ds) = row cs ++ led ds := by
  obtain ⟨c, cs, rfl⟩ := List.exists_cons_of_ne_nil h
  simp [row, led_append]

theorem add_byteLength_led (k : Nat) (c : Cell) (cs : List Cell) :
    k + byteLength c.gap + byteLength c.chars + 1 + byteLength (led cs) =
      k + byteLength (led (c :: cs)) := by
  simp [led, show (',').utf8Size = 1 from rfl]
  omega

theorem segments_append (k : Nat) (cs ds : List Cell) :
    segments k (cs ++ ds) = segments k cs ++ segments (k + byteLength (led cs)) ds := by
  induction cs generalizing k with
  | nil => simp [segments, led]
  | cons c cs ih =>
    rw [List.cons_append, segments, ih, add_byteLength_led, segments, List.cons_append]

theorem exists_of_mem_segments {k : Nat} {cs : List Cell} {s : Segment} (h : s ∈ segments k cs) :
    ∃ c ∈ cs, s.chars = c.chars := by
  induction cs generalizing k with
  | nil => simp [segments] at h
  | cons c cs ih =>
    rw [segments] at h
    rcases List.mem_cons.1 h with rfl | h
    · exact ⟨c, by simp, rfl⟩
    · obtain ⟨d, hd, hs⟩ := ih h
      exact ⟨d, by simp [hd], hs⟩

theorem map_chars_segments (k : Nat) (cs : List Cell) :
    (segments k cs).map (·.chars) = cs.map (·.chars) := by
  induction cs generalizing k with
  | nil => rfl
  | cons c cs ih => rw [segments, List.map_cons, ih, List.map_cons]

variable {lo : Int}

theorem AreProper.of_cons {c : Cell} {cs : List Cell} (h : AreProper lo (c :: cs)) :
    c.IsProper lo ∧ AreProper lo cs ∧ (cs ≠ [] → depth c.chars = 0) := by
  obtain ⟨hhead, htail⟩ := List.pairwise_cons.1 h.level
  refine ⟨h.proper c (by simp), ⟨fun d hd => h.proper d (by simp [hd]), htail⟩, fun hne => ?_⟩
  obtain ⟨d, ds, rfl⟩ := List.exists_cons_of_ne_nil hne
  exact hhead d (by simp)

theorem IsProper.solid_append {c : Cell} (h : c.IsProper lo) : Solid (c.gap ++ c.chars) :=
  (solid_of_neutral (neutral_of_allBlank h.gap)).append
    (depth_of_neutral (neutral_of_allBlank h.gap)) (solid_of_within h.within)

theorem IsProper.depth_append {c : Cell} (h : c.IsProper lo) :
    depth (c.gap ++ c.chars) = depth c.chars := by
  rw [Bracket.depth_append, depth_of_neutral (neutral_of_allBlank h.gap), Int.zero_add]

/-- A level cell is cut off at the comma behind it. -/
theorem IsProper.splitFrom_append_comma {c : Cell} (h : c.IsProper lo) (hd : depth c.chars = 0)
    (k : Nat) (ys : List Char) :
    splitFrom k (c.gap ++ c.chars ++ ',' :: ys) =
      ⟨k + byteLength c.gap, c.chars⟩ ::
        splitFrom (k + byteLength c.gap + byteLength c.chars + 1) ys := by
  have hloc := locate_singleton h.gap h.trimmed h.nonempty allBlank_nil k
  rw [List.append_nil] at hloc
  rw [h.solid_append.splitFrom_append_comma (by rw [h.depth_append, hd]), hloc,
    byteLength_append, ← Nat.add_assoc, List.singleton_append]

/-- A row is cut into its cells. -/
theorem AreProper.splitFrom_row {cells : List Cell} (h : AreProper lo cells) {t : List Char}
    (ht : AllBlank t) (k : Nat) : splitFrom k (row cells ++ t) = segments k cells := by
  cases cells with
  | nil =>
    rw [row, List.nil_append, (solid_of_neutral (neutral_of_allBlank ht)).splitFrom_eq,
      locate_of_allBlank ht, segments]
  | cons c cs =>
    induction cs generalizing c k with
    | nil =>
      obtain ⟨hc, -, -⟩ := h.of_cons
      have hsolid : Solid (c.gap ++ c.chars ++ t) :=
        hc.solid_append.append_of_not_mem fun h => (neutral_of_allBlank ht _ h).2 rfl
      rw [row, led, List.flatMap_nil, List.append_nil, hsolid.splitFrom_eq,
        locate_singleton hc.gap hc.trimmed hc.nonempty ht, segments, segments]
    | cons d ds ih =>
      obtain ⟨hc, hcs, hlevel⟩ := h.of_cons
      rw [row, led_cons, List.append_assoc, List.cons_append,
        hc.splitFrom_append_comma (hlevel (by simp)), ih _ _ hcs, segments.eq_def k (c :: d :: ds)]

/-- Level cells are cut off a row, whatever follows the cell behind them. -/
theorem splitFrom_row_concat {cs : List Cell} (h : ∀ c ∈ cs, c.IsProper lo ∧ depth c.chars = 0)
    (last : Cell) (rest : List Char) (k : Nat) :
    splitFrom k (row (cs ++ [last]) ++ rest) =
      segments k cs ++ splitFrom (k + byteLength (led cs)) (last.gap ++ last.chars ++ rest) := by
  induction cs generalizing k with
  | nil => simp [row, led, segments]
  | cons c cs ih =>
    obtain ⟨hc, hlevel⟩ := h c (by simp)
    have hled : led (cs ++ [last]) = ',' :: row (cs ++ [last]) := by
      cases cs <;> exact led_cons _ _
    rw [List.cons_append, row, hled, List.append_assoc, List.cons_append,
      hc.splitFrom_append_comma hlevel, ih fun d hd => h d (by simp [hd]), add_byteLength_led,
      segments,
      List.cons_append]

theorem IsProper.depth_row_cons {c : Cell} (h : c.IsProper lo) (cs : List Cell) :
    depth (row (c :: cs)) = depth c.chars + depth (row cs) := by
  cases cs with
  | nil =>
    have hrow : row [c] = c.gap ++ c.chars := by simp [row, led]
    rw [hrow, h.depth_append, row, depth_nil, Int.add_zero]
  | cons d ds =>
    rw [row, led_cons, Bracket.depth_append, h.depth_append, depth_cons,
      show weight ',' = 0 from rfl, Int.zero_add]

/-- A row is level exactly when its cells are. -/
theorem AreProper.depth_row {cells : List Cell} (h : AreProper lo cells) :
    0 ≤ depth (row cells) ∧ (depth (row cells) = 0 ↔ ∀ c ∈ cells, depth c.chars = 0) := by
  induction cells with
  | nil => simp [row]
  | cons c cs ih =>
    obtain ⟨hc, hcs, -⟩ := h.of_cons
    obtain ⟨hnonneg, hiff⟩ := ih hcs
    have := hc.depth_nonneg
    rw [hc.depth_row_cons, List.forall_mem_cons, ← hiff]
    omega

/-- A row goes no lower than its cells, and its commas stand at depth zero or above. -/
theorem AreProper.within_row {cells : List Cell} (h : AreProper lo cells) (hlo : lo ≤ 0) :
    Within lo 0 0 (row cells) := by
  have hcell : ∀ {c : Cell}, c.IsProper lo → Within lo 0 0 (c.gap ++ c.chars) := by
    intro c hc
    refine within_append.2 ⟨within_of_neutral (neutral_of_allBlank hc.gap) hlo, ?_⟩
    rw [depth_of_neutral (neutral_of_allBlank hc.gap)]
    exact hc.within.mono (by omega) (by omega)
  cases cells with
  | nil => trivial
  | cons c cs =>
    induction cs generalizing c with
    | nil =>
      rw [row, led, List.flatMap_nil, List.append_nil]
      exact hcell h.of_cons.1
    | cons d ds ih =>
      obtain ⟨hc, hcs, hlevel⟩ := h.of_cons
      rw [row, led_cons]
      refine within_append.2 ⟨hcell hc, ?_⟩
      rw [hc.depth_append, hlevel (by simp)]
      exact ⟨fun _ => by omega, by simpa [weight, isOpening, isClosing] using hlo,
        by simpa [weight, isOpening, isClosing] using ih d hcs⟩

/-- White space behind a row changes nothing. -/
theorem AreProper.within_row_append {cells : List Cell} (h : AreProper lo cells) (hlo : lo ≤ 0)
    {t : List Char} (ht : AllBlank t) :
    Within lo 0 0 (row cells ++ t) ∧ depth (row cells ++ t) = depth (row cells) := by
  have hneutral := neutral_of_allBlank ht
  refine ⟨within_append.2 ⟨h.within_row hlo, within_of_neutral hneutral ?_⟩, ?_⟩
  · have := h.depth_row.1
    omega
  · rw [Bracket.depth_append, depth_of_neutral hneutral, Int.add_zero]

end Cell
end ProblemScript.Layout
