import ProblemScript.Proofs.Diagram.Nearest
import ProblemScript.Proofs.Text.Blank
import ProblemScript.Proofs.Text.Pattern

/-! Tags and attributes as patterns. The tags of a text are the matches of
`<([A-Za-z][\w:.-]*)((?:\s[^>]*)?)/?>`, and the value of an attribute is that of the first match of
`(?:^|\s)name\s*=\s*(?:"([^"]*)"|'([^']*)')` in what the second group has kept. The scan goes
straight to the end of each run, and so do the patterns: a name, white space or a text in quotation
marks cannot be left early, and of the ways to end the attributes the longest comes first, although
a slash before the end of the tag might be left out of them. -/
namespace ProblemScript
open Text

/-- The ranges of white space. -/
def Text.blankRanges : List (Nat × Nat) :=
  [(9, 13), (0x20, 0x20), (0x85, 0x85), (0xA0, 0xA0), (0x1680, 0x1680), (0x2000, 0x200A),
   (0x2028, 0x2029), (0x202F, 0x202F), (0x205F, 0x205F), (0x3000, 0x3000)]

theorem Text.inRanges_of_isBlank {c : Char} (h : isBlank c = true) :
    inRanges blankRanges c.toNat = true := by
  simp only [isBlank, Bool.or_eq_true, Bool.and_eq_true, decide_eq_true_eq, beq_iff_eq] at h
  simp only [inRanges, blankRanges, List.any_cons, List.any_nil, Bool.or_eq_true, Bool.and_eq_true,
    decide_eq_true_eq]
  omega

/-- No range of word characters meets one of white space. -/
theorem Text.wordRanges_apart :
    (wordRanges.all fun w => blankRanges.all fun b => Nat.blt w.2 b.1 || Nat.blt b.2 w.1) =
      true := by
  decide +kernel

theorem Text.isWordChar_eq_false_of_isBlank {c : Char} (h : isBlank c = true) :
    isWordChar c = false := by
  apply Bool.eq_false_iff.2
  intro hword
  unfold isWordChar at hword
  split at hword
  · have hblank := isBlank_eq_false_of_isNameChar hword
    rw [h] at hblank
    cases hblank
  · obtain ⟨b, hb, hfirst, hlast⟩ := (inRanges_iff _ _).1 (inRanges_of_isBlank h)
    obtain ⟨w, hw, hfirst', hlast'⟩ := (inRanges_iff _ _).1 hword
    have hapart := List.all_eq_true.1 (List.all_eq_true.1 wordRanges_apart w hw) b hb
    simp only [Bool.or_eq_true, Nat.blt_eq] at hapart
    omega

namespace Diagram

theorem Tag.isNameChar_eq_false_of_isBlank {c : Char} (h : isBlank c = true) :
    Tag.isNameChar c = false := by
  have hword := isWordChar_eq_false_of_isBlank h
  simp only [Tag.isNameChar, hword, Bool.false_or, Bool.or_eq_false_iff, beq_eq_false_iff_ne]
  refine ⟨⟨?_, ?_⟩, ?_⟩ <;> (rintro rfl; exact absurd h (by decide))

theorem Tag.quoted?_append {quote : Char} {inner : List Char} (h : quote ∉ inner)
    (rest : List Char) : Tag.quoted? quote (inner ++ quote :: rest) = some inner := by
  simp [Tag.quoted?, takeWhile_bne h]

theorem Tag.quoted?_of_not_mem {quote : Char} {cs : List Char} (h : quote ∉ cs) :
    Tag.quoted? quote cs = none := by
  have hall : cs.takeWhile (· != quote) = cs := List.takeWhile_eq_self_iff.2 (bne_of_not_mem h)
  simp [Tag.quoted?, hall]

theorem Tag.assigned?_nil (name : List Char) : Tag.assigned? name [] = none := by
  cases name <;> rfl

theorem Tag.assigned?_of_ne {c d : Char} (h : c ≠ d) (name cs : List Char) :
    Tag.assigned? (c :: name) (d :: cs) = none := by
  have hprefix : (c :: name).isPrefixOf (d :: cs) = false := by simp [List.isPrefixOf, h]
  rw [Tag.assigned?, hprefix]
  rfl

namespace Patterns
open Pattern

/-- The end of a tag, `/?>`. -/
def close : Pattern := seq (optional (one (· == '/'))) (one (· == '>'))

/-- White space and all that follows up to the end of the tag, `\s[^>]*`. -/
def attributes : Pattern := seq (one isBlank) (many (· != '>'))

/-- What follows the name of a tag. The second group keeps its attributes. -/
def behindName : Pattern := seq (group 2 (optional attributes)) close

/-- An opening tag. The first group keeps its name. -/
def tag : Pattern :=
  seq (one (· == '<')) (seq (group 1 (seq (one Char.isAlpha) (many Tag.isNameChar))) behindName)

/-- A text in quotation marks, kept without them. -/
def quoted (number : Nat) (quote : Char) : Pattern :=
  seq (one (· == quote)) (seq (group number (many (· != quote))) (one (· == quote)))

def eitherQuoted : Pattern := choice (quoted 1 '"') (quoted 2 '\'')

/-- What follows the name of an attribute that is assigned a value. -/
def value : Pattern :=
  seq (many isBlank) (seq (one (· == '=')) (seq (many isBlank) eitherQuoted))

/-- An assignment to the attribute, at the start of the text or behind white space. -/
def assignment (name : List Char) : Pattern :=
  seq (choice (between fun before _ => before.isNone) (one isBlank)) (seq (literal name) value)

section Tag
variable (before : Option Char) (cs : List Char) (groups : List (Nat × List Char))

theorem ends_close_plain :
    close.ends ⟨before, '>' :: cs, groups⟩ = [⟨some '>', cs, groups⟩] := by
  simp [close]

theorem ends_close_slash :
    close.ends ⟨before, '/' :: '>' :: cs, groups⟩ = [⟨some '>', cs, groups⟩] := by
  simp [close]

theorem ends_close_eq_nil (hplain : ∀ rest, cs ≠ '>' :: rest)
    (hslash : ∀ rest, cs ≠ '/' :: '>' :: rest) : close.ends ⟨before, cs, groups⟩ = [] := by
  cases cs with
  | nil => simp [close]
  | cons c cs =>
    have hc : c ≠ '>' := fun heq => hplain cs (by rw [heq])
    by_cases hfirst : c = '/'
    · cases cs with
      | nil => simp [close, hfirst]
      | cons d cs =>
        have hd : d ≠ '>' := fun heq => hslash cs (by rw [heq, hfirst])
        simp [close, hfirst, hd]
    · simp [close, hc, hfirst]

/-- Without white space there are no attributes. -/
theorem ends_behindName_of_head (h : cs.head?.any isBlank = false) :
    behindName.ends ⟨before, cs, groups⟩ = close.ends ⟨before, cs, (2, []) :: groups⟩ := by
  cases cs with
  | nil => simp [behindName, attributes, Point.keep, Point.upTo]
  | cons c cs =>
    have hc : isBlank c = false := h
    simp [behindName, attributes, Point.keep, Point.upTo, hc]

/-- With white space, the attributes may go up to any point before the first `>`. -/
theorem ends_behindName_of_isBlank {d : Char} (hd : isBlank d = true) :
    behindName.ends ⟨before, d :: cs, groups⟩ =
      ((many (· != '>')).ends ⟨some d, cs, groups⟩).flatMap fun t =>
        close.ends (Point.keep 2 ⟨before, d :: cs, groups⟩ t) := by
  have hplain : close.ends
      (Point.keep 2 ⟨before, d :: cs, groups⟩ ⟨before, d :: cs, groups⟩) = [] := by
    apply ends_close_eq_nil <;> (rintro rest ⟨⟩; exact absurd hd (by decide))
  simp [behindName, attributes, hd, List.flatMap_map, hplain]

theorem ends_behindName_of_not_mem {d : Char} (hd : isBlank d = true) (h : '>' ∉ cs) :
    behindName.ends ⟨before, d :: cs, groups⟩ = [] := by
  rw [ends_behindName_of_isBlank before cs groups hd, List.flatMap_eq_nil_iff]
  intro t ht
  have hrest : '>' ∉ t.rest := fun hmem => h ((suffix_of_mem_many ht).subset hmem)
  apply ends_close_eq_nil <;> (rintro more heq; simp [heq] at hrest)

/-- The attributes do go up to the first `>`, since a run is taken as long as possible. -/
theorem head?_ends_behindName {d : Char} (hd : isBlank d = true) (h : '>' ∉ cs)
    (rest : List Char) :
    (behindName.ends ⟨before, d :: (cs ++ '>' :: rest), groups⟩).head? =
      some ⟨some '>', rest, (2, d :: cs) :: groups⟩ := by
  have hclose : close.ends (Point.keep 2 ⟨before, d :: (cs ++ '>' :: rest), groups⟩
      (Point.skip (· != '>') ⟨some d, cs ++ '>' :: rest, groups⟩)) =
        [⟨some '>', rest, (2, d :: cs) :: groups⟩] := by
    rw [Point.skip_bne h, Point.keep, Point.upTo_eq (List.cons_append ..).symm, ends_close_plain]
  rw [ends_behindName_of_isBlank before _ groups hd, head?_flatMap_many _ (by simp [hclose]),
    hclose]
  rfl

/-- The name of a tag goes on as long as it can, since no tag ends inside a name. -/
theorem ends_tag {c : Char} (hc : c.isAlpha = true) :
    tag.ends ⟨before, '<' :: c :: cs, groups⟩ =
      behindName.ends ⟨lastOf (some c) (cs.takeWhile Tag.isNameChar), cs.dropWhile Tag.isNameChar,
        (1, c :: cs.takeWhile Tag.isNameChar) :: groups⟩ := by
  set start : Point := ⟨some '<', c :: cs, groups⟩ with hstart
  have havoids : Avoids (fun t => behindName.ends (start.keep 1 t)) Tag.isNameChar := by
    rintro t d ds hrest hname
    have hblank : isBlank d = false := by
      apply Bool.eq_false_iff.2
      intro hblank
      rw [Tag.isNameChar_eq_false_of_isBlank hblank] at hname
      cases hname
    simp only [Point.keep, hrest]
    rw [ends_behindName_of_head _ (d :: ds) _ hblank]
    apply ends_close_eq_nil <;> (rintro rest ⟨⟩; exact absurd hname (by decide))
  have htext : start.upTo (Point.skip Tag.isNameChar ⟨some c, cs, groups⟩) =
      c :: cs.takeWhile Tag.isNameChar :=
    Point.upTo_eq (by simp [Point.skip, hstart])
  have hends : tag.ends ⟨before, '<' :: c :: cs, groups⟩ =
      ((many Tag.isNameChar).ends ⟨some c, cs, groups⟩).flatMap
        fun t => behindName.ends (start.keep 1 t) := by
    simp [tag, hc, hstart, List.flatMap_map]
  rw [hends, flatMap_many havoids, Point.keep, htext]
  rfl

/-- The groups that a tag keeps. -/
def groupsOf (t : Diagram.Tag) : List (Nat × List Char) := [(2, t.attributes), (1, t.name)]

/-- Behind the name, a tag is completed as it is recognised. -/
theorem head?_behindName (name : List Char) :
    ((behindName.ends ⟨before, cs, [(1, name)]⟩).head?.map fun t =>
        (name.length + cs.length + 1 - t.rest.length, t.groups)) =
      (match cs with
        | '>' :: _ => some (name.length + 2, (⟨name, []⟩ : Diagram.Tag))
        | '/' :: '>' :: _ => some (name.length + 3, ⟨name, []⟩)
        | rest@(d :: _) =>
          let attributes := rest.takeWhile (· != '>')
          if isBlank d && attributes.length < rest.length then
            some (name.length + attributes.length + 2, ⟨name, attributes⟩)
          else none
        | [] => none).map fun m : Nat × Tag => (m.1, groupsOf m.2) := by
  split
  · rename_i rest
    have htaken : name.length + ('>' :: rest).length + 1 - rest.length = name.length + 2 := by
      rw [List.length_cons]
      omega
    rw [ends_behindName_of_head _ _ _ rfl, ends_close_plain]
    simp only [List.head?_cons, Option.map_some, htaken, groupsOf]
  · rename_i rest
    have htaken : name.length + ('/' :: '>' :: rest).length + 1 - rest.length =
        name.length + 3 := by
      rw [List.length_cons, List.length_cons]
      omega
    rw [ends_behindName_of_head _ _ _ rfl, ends_close_slash]
    simp only [List.head?_cons, Option.map_some, htaken, groupsOf]
  · rename_i d cs hplain hslash
    have hne : (d != '>') = true := bne_iff_ne.2 hplain
    cases hd : isBlank d with
    | false =>
      rw [ends_behindName_of_head _ (d :: cs) _ hd, ends_close_eq_nil]
      · simp
      · rintro more ⟨⟩
        exact hplain rfl
      · rintro more ⟨⟩
        exact hslash more rfl rfl
    | true =>
      by_cases hmem : '>' ∈ cs
      · obtain ⟨inner, rest, rfl, hinner⟩ := List.eq_append_cons_of_mem hmem
        have htake : (d :: (inner ++ '>' :: rest)).takeWhile (· != '>') = d :: inner := by
          simp [hne, takeWhile_bne hinner]
        have hlength : (d :: (inner ++ '>' :: rest)).length =
            (d :: inner).length + rest.length + 1 := by
          simp only [List.length_cons, List.length_append]
          omega
        have hshorter : (d :: inner).length < (d :: inner).length + rest.length + 1 := by omega
        rw [head?_ends_behindName _ _ _ hd hinner]
        simp only [Option.map_some, htake, hlength, hshorter, decide_true, Bool.and_self, if_true,
          groupsOf]
        congr 2
        omega
      · have hall : cs.takeWhile (· != '>') = cs :=
          List.takeWhile_eq_self_iff.2 (bne_of_not_mem hmem)
        rw [ends_behindName_of_not_mem _ _ _ hd hmem]
        simp [hne, hall]
  · rw [ends_behindName_of_head _ _ _ rfl, ends_close_eq_nil _ _ _ (by simp) (by simp)]
    rfl

/-- Tags are recognised as the pattern says. -/
theorem recogniser_tag (text : List Char) :
    tag.recogniser before text =
      (Tag.recognise before text).map fun m => (m.1, groupsOf m.2) := by
  unfold Tag.recognise
  split
  · rename_i c cs
    by_cases hc : c.isAlpha
    · have hlength : ('<' :: c :: cs).length = (c :: cs.takeWhile Tag.isNameChar).length +
          (cs.dropWhile Tag.isNameChar).length + 1 := by
        rw [← List.length_append, List.cons_append, List.takeWhile_append_dropWhile]
        rfl
      rw [if_pos hc, recogniser, ends_tag before cs [] hc, hlength]
      exact head?_behindName ..
    · simp [recogniser, tag, hc]
  · rename_i hnot
    cases text with
    | nil => simp [recogniser, tag]
    | cons c cs =>
      by_cases hc : c = '<'
      · cases cs with
        | nil => simp [recogniser, tag, hc]
        | cons d cs => exact absurd (by rw [hc]) (hnot d cs)
      · simp [recogniser, tag, hc]

end Tag

section Assignment
variable (before : Option Char) (cs : List Char) (groups : List (Nat × List Char))

theorem ends_quoted (number : Nat) (quote : Char) :
    ((quoted number quote).ends ⟨before, quote :: cs, groups⟩).map (·.groups) =
      (Tag.quoted? quote cs).toList.map fun v => (number, v) :: groups := by
  set start : Point := ⟨some quote, cs, groups⟩ with hstart
  have hends : (quoted number quote).ends ⟨before, quote :: cs, groups⟩ =
      ((many (· != quote)).ends start).flatMap fun t =>
        (one (· == quote)).ends (start.keep number t) := by
    simp [quoted, hstart, List.flatMap_map]
  have havoids : Avoids (fun t => (one (· == quote)).ends (start.keep number t)) (· != quote) := by
    rintro t d ds hrest hd
    have hne : d ≠ quote := bne_iff_ne.1 hd
    simp [Point.keep, hrest, hne]
  rw [hends, flatMap_many havoids, hstart]
  by_cases hmem : quote ∈ cs
  · obtain ⟨inner, rest, rfl, hinner⟩ := List.eq_append_cons_of_mem hmem
    rw [Point.skip_bne hinner, Point.keep, Point.upTo_eq rfl, Tag.quoted?_append hinner]
    simp
  · have hdrop : cs.dropWhile (· != quote) = [] :=
      List.dropWhile_eq_nil_iff.2 (bne_of_not_mem hmem)
    simp [Point.skip, Point.keep, hdrop, Tag.quoted?_of_not_mem hmem]

theorem ends_quoted_of_ne (number : Nat) {quote : Char} (h : cs.head? ≠ some quote) :
    (quoted number quote).ends ⟨before, cs, groups⟩ = [] := by
  cases cs with
  | nil => simp [quoted]
  | cons c cs =>
    have hc : c ≠ quote := fun heq => h (by rw [heq]; rfl)
    simp [quoted, hc]

/-- The value that an assignment has kept: the text between either kind of quotation marks. -/
def valueOf (groups : List (Nat × List Char)) : Option (List Char) :=
  (groups.lookup 1).or (groups.lookup 2)

theorem ends_eitherQuoted :
    (eitherQuoted.ends ⟨before, cs, []⟩).map (valueOf ·.groups) =
      ((match cs with
        | '"' :: rest => Tag.quoted? '"' rest
        | '\'' :: rest => Tag.quoted? '\'' rest
        | _ => none).toList).map some := by
  have hvalues : ∀ ends : List Point,
      ends.map (valueOf ·.groups) = (ends.map (·.groups)).map valueOf := by
    simp
  rw [hvalues, eitherQuoted, ends_choice, List.map_append]
  have hfirst : ∀ v, valueOf [(1, v)] = some v := fun _ => rfl
  have hsecond : ∀ v, valueOf [(2, v)] = some v := fun _ => rfl
  split
  · rw [ends_quoted, ends_quoted_of_ne _ _ _ _ (by simp)]
    simp [hfirst, Function.comp_def]
  · rw [ends_quoted, ends_quoted_of_ne _ _ _ _ (by simp)]
    simp [hsecond, Function.comp_def]
  · rename_i hdouble hsingle
    have hhead : ∀ {quote}, (∀ rest, cs = quote :: rest → False) → cs.head? ≠ some quote := by
      intro quote hquote hhead
      obtain ⟨rest, hrest⟩ := List.head?_eq_some_iff.1 hhead
      exact hquote rest hrest
    rw [ends_quoted_of_ne _ _ _ _ (hhead hdouble), ends_quoted_of_ne _ _ _ _ (hhead hsingle)]
    rfl

theorem avoids_eitherQuoted : Avoids eitherQuoted.ends isBlank := by
  rintro ⟨before, rest, groups⟩ c cs rfl hc
  have hnot : ∀ quote, isBlank quote = false → (c :: cs).head? ≠ some quote := by
    rintro quote hquote ⟨⟩
    rw [hc] at hquote
    cases hquote
  rw [eitherQuoted, ends_choice, ends_quoted_of_ne _ _ _ _ (hnot '"' (by decide)),
    ends_quoted_of_ne _ _ _ _ (hnot '\'' (by decide))]
  rfl

/-- An equals sign, and a value behind it. -/
theorem ends_equals (p : Pattern) :
    (seq (one (· == '=')) p).ends ⟨before, cs, groups⟩ =
      match cs with
      | '=' :: rest => p.ends ⟨some '=', rest, groups⟩
      | _ => [] := by
  split
  · simp
  · rename_i hnot
    cases cs with
    | nil => simp
    | cons c cs =>
      have hc : c ≠ '=' := fun heq => hnot cs (by rw [heq])
      simp [hc]

theorem ends_value :
    (value.ends ⟨before, cs, []⟩).map (valueOf ·.groups) =
      ((match trimStart cs with
        | '=' :: rest =>
          match trimStart rest with
          | '"' :: rest => Tag.quoted? '"' rest
          | '\'' :: rest => Tag.quoted? '\'' rest
          | _ => none
        | _ => none).toList).map some := by
  have havoids : Avoids (seq (one (· == '=')) (seq (many isBlank) eitherQuoted)).ends isBlank := by
    rintro ⟨before, rest, groups⟩ c cs rfl hc
    rw [ends_equals]
    split
    · rename_i hcons
      obtain ⟨rfl, -⟩ := List.cons.inj hcons
      exact absurd hc (by decide)
    · rfl
  rw [value, ends_seq, flatMap_many havoids, Point.skip, ends_equals]
  change List.map _ (match trimStart cs with | '=' :: rest => _ | _ => _) = _
  split
  · rw [ends_seq, flatMap_many avoids_eitherQuoted, Point.skip]
    exact ends_eitherQuoted ..
  · rfl

theorem ends_assigned (name : List Char) :
    ((seq (literal name) value).ends ⟨before, cs, []⟩).map (valueOf ·.groups) =
      (Tag.assigned? name cs).toList.map some := by
  rw [ends_seq, ends_literal, Tag.assigned?]
  split
  · rw [List.flatMap_singleton]
    exact ends_value ..
  · rfl

/-- An assignment stands at the start of the text or behind one character of white space. -/
theorem recogniser_assignment (name : List Char) (c : Char) :
    ((assignment name).recogniser before (c :: cs)).map (fun m => valueOf m.2) =
      ((if before.isNone then Tag.assigned? name (c :: cs) else none).or
        (if isBlank c then Tag.assigned? name cs else none)).map some := by
  have hends : ((assignment name).ends ⟨before, c :: cs, []⟩).map (valueOf ·.groups) =
      ((if before.isNone then Tag.assigned? name (c :: cs) else none).toList ++
        (if isBlank c then Tag.assigned? name cs else none).toList).map some := by
    rw [assignment, ends_seq, ends_choice, List.flatMap_append, List.map_append, List.map_append]
    congr 1
    · cases before with
      | none =>
        have hstart := ends_assigned none (c :: cs) name
        rwa [← List.flatMap_singleton (seq (literal name) value).ends] at hstart
      | some b => rfl
    · cases hc : isBlank c with
      | true => simpa [hc] using ends_assigned (some c) cs name
      | false => simp [hc]
  have hfirst : ((assignment name).recogniser before (c :: cs)).map (fun m => valueOf m.2) =
      (((assignment name).ends ⟨before, c :: cs, []⟩).map (valueOf ·.groups)).head? := by
    simp [recogniser, Function.comp_def]
  rw [hfirst, hends, List.head?_map, List.head?_append, Option.head?_toList, Option.head?_toList]

/-- The value that the first match in a text has kept. -/
def firstValue? (p : Pattern) (text : List Char) : Option (List Char) :=
  (occurrences p.recogniser text).head?.bind fun o => valueOf o.found

/-- What comes first is an assignment at the start of the text, then the first one further on. -/
theorem head?_assignments (name : List Char) (pos : Nat) :
    ((occurrencesFrom (assignment name).recogniser before pos 0 cs).head?.bind
        fun o => valueOf o.found) =
      (if before.isNone then Tag.assigned? name cs else none).or (Tag.laterAssigned? name cs) := by
  induction cs generalizing before pos with
  | nil => simp [Tag.assigned?_nil, Tag.laterAssigned?]
  | cons c cs ih =>
    have hhere := recogniser_assignment before cs name c
    have hlater : Tag.laterAssigned? name (c :: cs) =
        (if isBlank c then Tag.assigned? name cs else none).or (Tag.laterAssigned? name cs) :=
      Option.orElse_eq_or
    rw [occurrencesFrom, hlater, ← Option.or_assoc]
    cases hfound : (assignment name).recogniser before (c :: cs) with
    | none =>
      rw [hfound, Option.map_none, eq_comm, Option.map_eq_none_iff] at hhere
      rw [hhere, Option.none_or]
      simpa using ih (some c) (pos + c.utf8Size)
    | some m =>
      rw [hfound, Option.map_some, eq_comm, Option.map_eq_some_iff] at hhere
      obtain ⟨v, hv, hvalue⟩ := hhere
      rw [hv, Option.some_or, hvalue]
      rfl

theorem firstValue?_assignment (t : Diagram.Tag) (name : String) :
    (firstValue? (assignment name.toList) t.attributes).map String.ofList = t.attribute? name := by
  rw [firstValue?, occurrences, head?_assignments]
  simp [Tag.attribute?]

end Assignment

/-- The captures of the tags in a text, as the patterns find them. -/
def captures (svg : String) : List Capture :=
  (occurrences tag.recogniser svg.toList).map fun o =>
    let attributes := (o.found.lookup 2).getD []
    { name := .ofList ((o.found.lookup 1).getD [])
      dataPath? := (firstValue? (assignment "data-path".toList) attributes).map .ofList
      elementId? := (firstValue? (assignment "id".toList) attributes).map .ofList }

/-- Going straight to the ends of runs finds what the patterns find. -/
theorem captures_eq (svg : String) : captures svg = Diagram.captures svg := by
  have htags := occurrencesFrom_map Tag.recognise none 0 recogniser_tag 0 svg.toList
  unfold captures Diagram.captures Tag.scan occurrences
  rw [htags, List.map_map, List.map_map]
  apply List.map_congr_left
  intro o _
  have hattributes : ((groupsOf o.found).lookup 2).getD [] = o.found.attributes := rfl
  have hname : ((groupsOf o.found).lookup 1).getD [] = o.found.name := rfl
  simp only [Function.comp_apply, hattributes, hname, firstValue?_assignment]
  rfl

end Patterns
end Diagram
end ProblemScript
