import ProblemScript.Proofs.Diagram.Patterns

/-! Diagrams as a renderer writes them. A rendered diagram is a run of opening tags, closing tags and
plain text; the opening tags are found in it one by one with their attributes, and each attribute by
its whole name. So the components of the diagram are those of its elements. -/
namespace ProblemScript
open Text

theorem Text.isWordChar_of_isNameChar {c : Char} (h : isNameChar c = true) :
    isWordChar c = true := by
  have hascii : c.toNat < 0x80 := by
    have hn := toNat_of_isNameChar h
    omega
  rw [isWordChar, if_pos hascii]
  exact h

namespace Diagram

/-- Characters of rendered names: letters and digits of ASCII, and `_`, `:`, `.` and `-`. -/
def isMarkupChar (c : Char) : Bool := isNameChar c || c == ':' || c == '.' || c == '-'

/-- A tag is named by a letter and further name characters. -/
def isTagName : List Char → Bool
  | [] => false
  | c :: cs => c.isAlpha && cs.all isMarkupChar

/-- An attribute is named by a letter or `_` and further name characters. -/
def isAttributeName : List Char → Bool
  | [] => false
  | c :: cs => isNameStart c && cs.all isMarkupChar

/-- A value without quotation marks, `>` and white space. -/
def isPlainValue (cs : List Char) : Bool := cs.all fun c => c != '"' && c != '>' && !isBlank c

/-- An attribute of an element. -/
structure Attribute where
  name : String
  value : String
  isName : isAttributeName name.toList = true
  isValue : isPlainValue value.toList = true

/-- An element of a diagram, by its opening tag; one without content ends with `/>`. -/
structure Element where
  tag : String
  attributes : List Attribute
  isEmpty : Bool
  isTag : isTagName tag.toList = true

/-- A part of a rendered diagram. -/
inductive Part where
  | opening (e : Element)
  | closing (tag : String) (isTag : isTagName tag.toList = true)
  | text (s : String) (plain : '<' ∉ s.toList)

/-- An assignment as it stands in a tag. -/
def Attribute.written (a : Attribute) : List Char :=
  a.name.toList ++ '=' :: '"' :: (a.value.toList ++ ['"'])

def Attribute.render (a : Attribute) : List Char := ' ' :: a.written

namespace Element

def render (e : Element) : List Char :=
  '<' :: e.tag.toList ++ e.attributes.flatMap Attribute.render ++
    if e.isEmpty then ['/', '>'] else ['>']

/-- The value of the first attribute with the given name. -/
def attribute? (e : Element) (name : String) : Option String :=
  (e.attributes.find? (·.name = name)).map (·.value)

/-- The component that an element is: one with an admissible `data-path`. -/
def component? (view : View) (e : Element) : Option Component :=
  ((e.attribute? "data-path").filter fun path => (Path.accept path).isOk).map fun path =>
    ⟨view, path, e.attribute? "id", e.tag⟩

end Element

namespace Part

def render : Part → List Char
  | opening e => e.render
  | closing tag _ => '<' :: '/' :: (tag.toList ++ ['>'])
  | text s _ => s.toList

def element? : Part → Option Element
  | opening e => some e
  | _ => none

end Part

/-- A diagram as text. -/
def rendered (parts : List Part) : String := .ofList (parts.flatMap Part.render)

/-- The elements of a diagram, in document order. -/
def elements (parts : List Part) : List Element := parts.filterMap Part.element?

section Names

theorem isNameChar_of_isMarkupChar {c : Char} (h : isMarkupChar c = true) :
    Tag.isNameChar c = true := by
  simp only [isMarkupChar, Bool.or_eq_true] at h
  simp only [Tag.isNameChar, Bool.or_eq_true]
  rcases h with ((h | h) | h) | h
  · exact .inl (.inl (.inl (isWordChar_of_isNameChar h)))
  · exact .inl (.inl (.inr h))
  · exact .inl (.inr h)
  · exact .inr h

theorem isBlank_eq_false_of_isMarkupChar {c : Char} (h : isMarkupChar c = true) :
    isBlank c = false := by
  simp only [isMarkupChar, Bool.or_eq_true, beq_iff_eq] at h
  rcases h with ((h | rfl) | rfl) | rfl
  · exact isBlank_eq_false_of_isNameChar h
  · decide
  · decide
  · decide

/-- A name holds none of the characters that end it. -/
theorem ne_of_isMarkupChar {c d : Char} (h : isMarkupChar c = true)
    (hd : isMarkupChar d = false) : c ≠ d := by
  rintro rfl
  rw [h] at hd
  exact Bool.noConfusion hd

theorem isMarkupChar_of_isNameStart {c : Char} (h : isNameStart c = true) :
    isMarkupChar c = true := by
  simp only [isNameStart, Bool.or_eq_true] at h
  rcases h with h | h
  · simp [isMarkupChar, isNameChar, Char.isAlphanum, h]
  · simp [isMarkupChar, isNameChar, h]

theorem isMarkupChar_of_isTagName {name : List Char} (h : isTagName name = true) :
    ∀ c ∈ name, isMarkupChar c = true := by
  cases name with
  | nil => simp
  | cons c cs =>
    simp only [isTagName, Bool.and_eq_true, List.all_eq_true] at h
    have hc : isNameStart c = true := by simp [isNameStart, h.1]
    exact List.forall_mem_cons.2 ⟨isMarkupChar_of_isNameStart hc, h.2⟩

theorem isMarkupChar_of_isAttributeName {name : List Char} (h : isAttributeName name = true) :
    ∀ c ∈ name, isMarkupChar c = true := by
  cases name with
  | nil => simp
  | cons c cs =>
    simp only [isAttributeName, Bool.and_eq_true, List.all_eq_true] at h
    exact List.forall_mem_cons.2 ⟨isMarkupChar_of_isNameStart h.1, h.2⟩

theorem Attribute.plain_value (a : Attribute) :
    ∀ c ∈ a.value.toList, c ≠ '"' ∧ c ≠ '>' ∧ isBlank c = false := by
  have hvalue := a.isValue
  simp only [isPlainValue, List.all_eq_true, Bool.and_eq_true, bne_iff_ne, Bool.not_eq_true'] at hvalue
  exact fun c hc => ⟨(hvalue c hc).1.1, (hvalue c hc).1.2, (hvalue c hc).2⟩

/-- White space stands only before an assignment, and no tag ends inside one. -/
theorem Attribute.plain_written (a : Attribute) :
    ∀ c ∈ a.written, isBlank c = false ∧ c ≠ '>' := by
  intro c hc
  simp only [written, List.mem_append, List.mem_cons, List.not_mem_nil, or_false] at hc
  rcases hc with hc | rfl | rfl | hc | rfl
  · have hname := isMarkupChar_of_isAttributeName a.isName c hc
    exact ⟨isBlank_eq_false_of_isMarkupChar hname, ne_of_isMarkupChar hname (by decide)⟩
  · decide
  · decide
  · exact ⟨(a.plain_value c hc).2.2, (a.plain_value c hc).2.1⟩
  · decide

end Names

section Attributes

/-- An assignment is one to a name exactly if the whole name is written in it. -/
theorem Attribute.assigned?_written (a : Attribute) {name : String}
    (hname : isAttributeName name.toList = true) (rest : List Char) :
    Tag.assigned? name.toList (a.written ++ rest) =
      if a.name = name then some a.value.toList else none := by
  have hwritten : a.written ++ rest =
      a.name.toList ++ '=' :: '"' :: (a.value.toList ++ '"' :: rest) := by
    simp [written]
  have hequals : '=' ∉ name.toList := fun hmem =>
    absurd (isMarkupChar_of_isAttributeName hname _ hmem) (by decide)
  rw [hwritten]
  unfold Tag.assigned?
  by_cases heq : a.name = name
  · have hquote : '"' ∉ a.value.toList := fun hmem => (a.plain_value _ hmem).1 rfl
    have hblank : isBlank '=' = false ∧ isBlank '"' = false := by decide
    simp [heq, trimStart_cons, hblank, Tag.quoted?_append hquote]
  · rw [if_neg heq]
    split
    · rename_i hprefix
      obtain ⟨t, ht⟩ := List.isPrefixOf_iff_prefix.1 hprefix
      rcases List.append_eq_append_iff.1 ht with ⟨l, hl, hrest⟩ | ⟨l, hl, hrest⟩
      · cases l with
        | nil => exact absurd (String.toList_inj.1 (by simpa using hl)) heq
        | cons d l =>
          have hd : isMarkupChar d = true :=
            isMarkupChar_of_isAttributeName a.isName d (by simp [hl])
          have hnot : d ≠ '=' := ne_of_isMarkupChar hd (by decide)
          rw [hl, List.append_assoc, List.drop_left, List.cons_append,
            trimStart_cons (isBlank_eq_false_of_isMarkupChar hd)]
          split
          · rename_i hcons
            exact absurd (List.cons.inj hcons).1 hnot
          · rfl
      · cases l with
        | nil => exact absurd (String.toList_inj.1 (by simpa using hl.symm)) heq
        | cons d l =>
          obtain ⟨rfl, -⟩ := List.cons.inj hrest
          exact absurd (by simp [hl]) hequals
    · rfl

theorem Tag.laterAssigned?_append {xs : List Char} (h : ∀ c ∈ xs, isBlank c = false)
    (name ys : List Char) :
    Tag.laterAssigned? name (xs ++ ys) = Tag.laterAssigned? name ys := by
  induction xs with
  | nil => rfl
  | cons c xs ih =>
    obtain ⟨hc, hxs⟩ := List.forall_mem_cons.1 h
    rw [List.cons_append, Tag.laterAssigned?, hc, ih hxs]
    rfl

/-- The assignments of a tag are met in order, and no other place of the tag looks like one. -/
theorem laterAssigned?_render {name : String} (hname : isAttributeName name.toList = true)
    (attributes : List Attribute) {tail : List Char} (htail : ∀ c ∈ tail, isBlank c = false) :
    Tag.laterAssigned? name.toList (attributes.flatMap Attribute.render ++ tail) =
      (attributes.find? (·.name = name)).map (·.value.toList) := by
  induction attributes with
  | nil =>
    have hend := Tag.laterAssigned?_append htail name.toList []
    rw [List.append_nil] at hend
    exact hend
  | cons a attributes ih =>
    have hblank : isBlank ' ' = true := by decide
    have hplain : ∀ c ∈ a.written, isBlank c = false := fun c hc => (a.plain_written c hc).1
    rw [List.flatMap_cons, Attribute.render, List.cons_append, List.cons_append, List.append_assoc,
      Tag.laterAssigned?, hblank, if_pos rfl, a.assigned?_written hname,
      Tag.laterAssigned?_append hplain, ih]
    by_cases heq : a.name = name
    · simp [heq]
    · simp [heq]

end Attributes

namespace Element

/-- What stands between the name of the tag and its end. The slash of an element without content
counts among the attributes, if there are any. -/
def attributeText (e : Element) : List Char :=
  e.attributes.flatMap Attribute.render ++
    if e.isEmpty && !e.attributes.isEmpty then ['/'] else []

/-- The opening tag of an element. -/
def asTag (e : Element) : Tag := ⟨e.tag.toList, e.attributeText⟩

theorem attributeText_of_nil {e : Element} (h : e.attributes = []) : e.attributeText = [] := by
  simp [attributeText, h]

theorem exists_attributeText {e : Element} {a : Attribute} {as : List Attribute}
    (h : e.attributes = a :: as) : ∃ text, e.attributeText = ' ' :: text := by
  simp [attributeText, h, Attribute.render]

theorem attribute?_asTag (e : Element) {name : String}
    (hname : isAttributeName name.toList = true) :
    e.asTag.attribute? name = e.attribute? name := by
  -- The text before the first white space is empty, so nothing is assigned at its start.
  have hstart : Tag.assigned? name.toList e.attributeText = none := by
    obtain ⟨c, cs, hcs⟩ := List.exists_cons_of_ne_nil (show name.toList ≠ [] by
      rintro hnil
      simp [hnil, isAttributeName] at hname)
    have hc : c ≠ ' ' :=
      ne_of_isMarkupChar (isMarkupChar_of_isAttributeName hname c (by simp [hcs])) (by decide)
    rw [hcs]
    cases hattributes : e.attributes with
    | nil => rw [attributeText_of_nil hattributes, Tag.assigned?_nil]
    | cons a as =>
      obtain ⟨text, htext⟩ := exists_attributeText hattributes
      rw [htext, Tag.assigned?_of_ne hc]
  have htail : ∀ c ∈ (if e.isEmpty && !e.attributes.isEmpty then ['/'] else []),
      isBlank c = false := by
    split
    · exact List.forall_mem_singleton.2 (by decide)
    · simp
  have hlater := laterAssigned?_render hname e.attributes htail
  unfold Tag.attribute? asTag
  rw [hstart]
  change (Tag.laterAssigned? name.toList e.attributeText).map String.ofList = _
  rw [attributeText, hlater, Option.map_map, attribute?]
  simp [Function.comp_def]

/-- No tag ends within the attributes. -/
theorem not_mem_attributeText (e : Element) : '>' ∉ e.attributeText := by
  intro hmem
  rcases List.mem_append.1 hmem with hmem | hmem
  · obtain ⟨a, -, ha⟩ := List.mem_flatMap.1 hmem
    rcases List.mem_cons.1 ha with hspace | ha
    · exact absurd hspace (by decide)
    · exact (a.plain_written _ ha).2 rfl
  · split at hmem <;> simp at hmem

end Element

namespace Tag

section Recognise
variable {c : Char} {cs : List Char} (hc : c.isAlpha = true)
  (hcs : ∀ d ∈ cs, isNameChar d = true) (before : Option Char) (rest : List Char)
include hc hcs

theorem recognise_plain :
    recognise before ('<' :: c :: (cs ++ '>' :: rest)) = some (cs.length + 3, ⟨c :: cs, []⟩) := by
  have hend : isNameChar '>' = false := by decide
  simp [recognise, hc, List.takeWhile_append_of_pos hcs, List.dropWhile_append_of_pos hcs, hend]

theorem recognise_slash :
    recognise before ('<' :: c :: (cs ++ '/' :: '>' :: rest)) =
      some (cs.length + 4, ⟨c :: cs, []⟩) := by
  have hend : isNameChar '/' = false := by decide
  simp [recognise, hc, List.takeWhile_append_of_pos hcs, List.dropWhile_append_of_pos hcs, hend]

theorem recognise_attributes {text : List Char} (htext : '>' ∉ text) :
    recognise before ('<' :: c :: (cs ++ ' ' :: (text ++ '>' :: rest))) =
      some (cs.length + text.length + 4, ⟨c :: cs, ' ' :: text⟩) := by
  have hend : isNameChar ' ' = false := by decide
  have hblank : isBlank ' ' = true := by decide
  have htake : (' ' :: (text ++ '>' :: rest)).takeWhile (· != '>') = ' ' :: text := by
    simp [takeWhile_bne htext]
  simp only [recognise, hc, if_true, List.takeWhile_append_of_pos hcs,
    List.dropWhile_append_of_pos hcs, List.takeWhile_cons, List.dropWhile_cons, hend,
    Bool.false_eq_true, if_false, List.append_nil]
  generalize hbehind : text ++ '>' :: rest = behind at htake ⊢
  have hlength : (' ' :: text).length < (' ' :: behind).length := by simp [← hbehind]
  change (if (isBlank ' ' && decide (((' ' :: behind).takeWhile (· != '>')).length <
      (' ' :: behind).length)) = true then
    some ((c :: cs).length + ((' ' :: behind).takeWhile (· != '>')).length + 2,
      (⟨c :: cs, (' ' :: behind).takeWhile (· != '>')⟩ : Tag)) else none) = _
  rw [htake, hblank, decide_eq_true hlength]
  simp only [Bool.and_self, if_true, List.length_cons]
  congr 2
  omega

end Recognise

theorem recognise_of_ne {c : Char} (h : c ≠ '<') (before : Option Char) (cs : List Char) :
    recognise before (c :: cs) = none := by
  unfold recognise
  split
  · rename_i hcons
    exact absurd (List.cons.inj hcons).1 h
  · rfl

theorem skips_of_not_mem {xs : List Char} (h : '<' ∉ xs) (ys : List Char) :
    Skips recognise xs ys := by
  rintro before first c rest rfl
  apply recognise_of_ne
  rintro rfl
  simp at h

end Tag

namespace Element

theorem recognise_render (e : Element) (before : Option Char) (rest : List Char) :
    Tag.recognise before (e.render ++ rest) = some (e.render.length, e.asTag) := by
  have hchars := isMarkupChar_of_isTagName e.isTag
  have htag := e.isTag
  cases hname : e.tag.toList with
  | nil => simp [hname, isTagName] at htag
  | cons c cs =>
    rw [hname] at hchars htag
    have hc : c.isAlpha = true := (Bool.and_eq_true_iff.1 htag).1
    have hcs : ∀ d ∈ cs, Tag.isNameChar d = true := fun d hd =>
      isNameChar_of_isMarkupChar (hchars d (List.mem_cons_of_mem c hd))
    cases hattributes : e.attributes with
    | nil =>
      cases hempty : e.isEmpty with
      | false =>
        have hplain := Tag.recognise_plain hc hcs before rest
        simpa [render, asTag, attributeText, hname, hattributes, hempty] using hplain
      | true =>
        have hslash := Tag.recognise_slash hc hcs before rest
        simpa [render, asTag, attributeText, hname, hattributes, hempty] using hslash
    | cons a as =>
      obtain ⟨text, htext⟩ := exists_attributeText hattributes
      have hplain : '>' ∉ text := by
        have hnot := e.not_mem_attributeText
        rw [htext] at hnot
        exact fun hmem => hnot (List.mem_cons_of_mem _ hmem)
      have hrender : e.render = '<' :: c :: (cs ++ (e.attributeText ++ ['>'])) := by
        cases hempty : e.isEmpty with
        | false => simp [render, attributeText, hname, hempty]
        | true => simp [render, attributeText, hname, hattributes, hempty]
      rw [htext] at hrender
      have hfound := Tag.recognise_attributes hc hcs before rest hplain
      have hlength : e.render.length = cs.length + text.length + 4 := by
        simp only [hrender, List.length_cons, List.length_append, List.length_nil]
        omega
      rw [hlength, hrender, asTag, hname, htext]
      simpa using hfound

end Element

namespace Part

theorem skips_closing {tag : String} (htag : isTagName tag.toList = true) (ys : List Char) :
    Skips Tag.recognise (closing tag htag).render ys := by
  have hname : '<' ∉ '/' :: (tag.toList ++ ['>']) := by
    intro hmem
    simp only [List.mem_cons, List.mem_append, List.not_mem_nil, or_false] at hmem
    rcases hmem with h | h | h
    · exact absurd h (by decide)
    · exact absurd (isMarkupChar_of_isTagName htag _ h) (by decide)
    · exact absurd h (by decide)
  intro before first c rest h
  cases first with
  | nil =>
    obtain ⟨rfl, rfl⟩ := List.cons.inj h
    rfl
  | cons d first =>
    exact Tag.skips_of_not_mem hname ys before first c rest (List.cons.inj h).2

end Part

theorem found_occurrencesFrom (parts : List Part) (before : Option Char) (pos : Nat) :
    (occurrencesFrom Tag.recognise before pos 0 (parts.flatMap Part.render)).map (·.found) =
      (elements parts).map Element.asTag := by
  induction parts generalizing before pos with
  | nil => simp [elements]
  | cons part parts ih =>
    rw [List.flatMap_cons]
    cases part with
    | opening e =>
      have hfound := occurrencesFrom_of_some Tag.recognise before pos (by simp [Element.render])
        (e.recognise_render before (parts.flatMap Part.render))
      rw [Part.render, hfound, List.map_cons, ih]
      rfl
    | closing tag htag =>
      rw [occurrencesFrom_of_skips Tag.recognise before pos (Part.skips_closing htag _), ih]
      rfl
    | text s plain =>
      rw [Part.render,
        occurrencesFrom_of_skips Tag.recognise before pos (Tag.skips_of_not_mem plain _), ih]
      rfl

/-- The opening tags of a rendered diagram are those of its elements. -/
theorem scan_rendered (parts : List Part) :
    Tag.scan (rendered parts).toList = (elements parts).map Element.asTag := by
  rw [rendered, String.toList_ofList]
  exact found_occurrencesFrom parts none 0

theorem ofTag?_asTag (view : View) (e : Element) :
    Component.ofTag? view e.asTag = e.component? view := by
  have hpath : e.asTag.attribute? "data-path" = e.attribute? "data-path" :=
    e.attribute?_asTag (by decide)
  have hid : e.asTag.attribute? "id" = e.attribute? "id" := e.attribute?_asTag (by decide)
  unfold Component.ofTag? Element.component?
  rw [hpath, hid]
  cases e.attribute? "data-path" with
  | none => rfl
  | some path =>
    cases haccept : Path.accept path with
    | error cause => simp [haccept, Option.filter_some, Except.isOk, Except.toBool]
    | ok p => simp [haccept, Option.filter_some, Except.isOk, Except.toBool, Element.asTag]

theorem Index.add_eq_gather (index : Index) (view : View) (svg : String) :
    index.add view svg = index.gather Patterns.captures view svg := by
  have hpatterns : Patterns.captures = captures := funext Patterns.captures_eq
  rw [hpatterns, gather_captures]

/-- The index of a rendered diagram has one component for each element whose first `data-path` is
admissible, in document order, with that path, the first `id` and the tag of the element. What an
index takes in from a diagram is, for any text, what the patterns capture. -/
theorem components_rendered (view : View) (parts : List Part) :
    (Index.empty.add view (rendered parts)).components =
        (elements parts).filterMap (Element.component? view) ∧
      ∀ index svg, Index.add index view svg = index.gather Patterns.captures view svg := by
  refine ⟨?_, fun index svg => index.add_eq_gather view svg⟩
  unfold Index.add Diagram.components
  rw [scan_rendered, List.filterMap_map]
  simp only [Index.empty, List.nil_append, Function.comp_def, ofTag?_asTag]

/-- A name that ends in `id` is another name, and the slash of an element is no part of a value. -/
example :
    let other : Attribute := ⟨"xml:id", "a", by decide, by decide⟩
    let label : Attribute := ⟨"data-path", "operation", by decide, by decide⟩
    let name : Attribute := ⟨"id", "b", by decide, by decide⟩
    let line : Element := ⟨"line", [other, label, name], true, by decide⟩
    (Index.empty.add .formal (rendered [.text "1 > 0" (by decide), .opening line])).components =
      [⟨.formal, "operation", some "b", "line"⟩] := by
  decide +kernel

end Diagram
end ProblemScript
