import ProblemScript.Proofs.Layout.Parts
import ProblemScript.Proofs.Layout.RoundTrip
import ProblemScript.Proofs.Tree.Narrowest

/-! Pretty text gives every property a line of its own. An entity is written with each property
between two line breaks, and no value has a line break in it. What is read from the layout has the
lines as ranges, and no two lines say the same key, so that an offset on a line leads to its
property, in the tree and in the table. -/
namespace ProblemScript
open Text ProblemScript.Bracket

namespace Text

/-- A line without the spaces around it and without one comma at its end. -/
def bare (line : List Char) : List Char :=
  let inner := ((line.dropWhile (· == ' ')).reverse.dropWhile (· == ' ')).reverse
  if inner.getLast? = some ',' then inner.dropLast else inner

/-- The text can fill a line: it has no line break, and is told apart from spaces and a comma that
are put around it. -/
structure FillsLine (cs : List Char) : Prop where
  head : ∀ c ∈ cs.head?, isBlank c = false
  last : ∃ c, cs.getLast? = some c ∧ isBlank c = false ∧ c ≠ ','
  unbroken : '\n' ∉ cs

theorem dropWhile_spaces {cs : List Char} (h : ∀ c ∈ cs.head?, isBlank c = false) (k : Nat) :
    (List.replicate k ' ' ++ cs).dropWhile (· == ' ') = cs := by
  rw [List.dropWhile_append_of_pos (by simp)]
  cases cs with
  | nil => rfl
  | cons c cs =>
    have hc : (c == ' ') = false := by
      rw [beq_eq_false_iff_ne]
      rintro rfl
      exact absurd (h ' ' rfl) (by decide)
    simp [hc]

namespace FillsLine
variable {cs : List Char}

theorem ne_nil (h : FillsLine cs) : cs ≠ [] := by
  obtain ⟨c, hlast, -⟩ := h.last
  rintro rfl
  simp at hlast

theorem bare_eq (h : FillsLine cs) (spaces : Nat) (comma : Bool) :
    bare (List.replicate spaces ' ' ++ cs ++ if comma then [','] else []) = cs := by
  obtain ⟨c, hlast, hblank, hcomma⟩ := h.last
  have hfront : ∀ e : List Char, ∀ d ∈ (cs ++ e).head?, isBlank d = false := by
    intro e d hd
    rw [List.head?_append_of_ne_nil cs h.ne_nil] at hd
    exact h.head d hd
  unfold bare
  rw [List.append_assoc, dropWhile_spaces (hfront _)]
  cases comma with
  | false =>
    have hend : cs.reverse.dropWhile (· == ' ') = cs.reverse :=
      dropWhile_spaces (by simpa [hlast] using hblank) 0
    have hkeep : ¬cs.getLast? = some ',' := by simpa [hlast] using hcomma
    simp [hend, hkeep]
  | true => simp

/-- Spaces and a comma around it leave the text a line without a carriage return. -/
theorem isLine (h : FillsLine cs) (spaces : Nat) (comma : Bool) :
    '\n' ∉ List.replicate spaces ' ' ++ (cs ++ if comma then [','] else []) ∧
      (List.replicate spaces ' ' ++ (cs ++ if comma then [','] else [])).getLast? ≠ some '\r' := by
  obtain ⟨c, hlast, hblank, -⟩ := h.last
  have hreturn : c ≠ '\r' := by
    rintro rfl
    exact absurd hblank (by decide)
  constructor
  · cases comma <;> simp [h.unbroken]
  · cases comma <;> simp [List.getLast?_append, hlast, hreturn]

end FillsLine

end Text

/-- An item with as many opening as closing brackets does not end in a comma. -/
theorem Value.IsItem.getLast?_ne {x : String} (h : IsItem x) (hlevel : depth x.toList = 0) :
    x.toList.getLast? ≠ some ',' := by
  intro hlast
  obtain ⟨front, hx⟩ := List.getLast?_eq_some_iff.1 hlast
  have hwithin := h.within
  rw [hx] at hwithin hlevel
  have hcomma := (within_append.1 hwithin).2.1 rfl
  rw [depth_append, show depth [','] = 0 from rfl] at hlevel
  omega

namespace Layout

variable {owner : String} {p : Node}

/-- What a property is written with, by its key and its value. -/
theorem propertyChars_eq (h : p.IsSpelled owner) :
    ∃ key value, p.key? = some key ∧ p.value = some value ∧ Field.isUsableKey key.toList = true ∧
      p.path = Path.propertyIn owner key ∧
      propertyChars p = key.toList ++ ':' :: if value = "" then [] else ' ' :: value.toList := by
  have hkey : p.key? = some p.keyText := by
    conv =>
      lhs
      rw [h.eq]
    exact Node.key?_property h.key _ _ _
  have hvalue : p.value = some (propertyValue p) := by
    rw [propertyValue_eq]
    exact congrArg Node.value h.eq
  refine ⟨p.keyText, propertyValue p, hkey, hvalue, h.key, congrArg Node.path h.eq, ?_⟩
  have hempty : (propertyValue p).toList.isEmpty = true ↔ propertyValue p = "" := by simp
  simp only [propertyChars, hempty]
  rfl

/-- The value of a property is written without line breaks, and ends neither in a space nor in a
comma. -/
theorem unbroken_propertyValue (h : p.IsSpelled owner) (hlevel : p.IsLevel) :
    '\n' ∉ (propertyValue p).toList ∧
      ∀ c ∈ (propertyValue p).toList.getLast?, isBlank c = false ∧ c ≠ ',' := by
  rw [propertyValue_eq, Value.toList_join]
  have hitem : ∀ cs ∈ p.itemTexts.map String.toList, ∃ x ∈ p.itemTexts, cs = x.toList := by
    intro cs hcs
    obtain ⟨x, hx, rfl⟩ := List.mem_map.1 hcs
    exact ⟨x, hx, rfl⟩
  constructor
  · intro hbreak
    rcases mem_intercalate hbreak with hsep | ⟨cs, hcs, hbreak⟩
    · simp at hsep
    · obtain ⟨x, hx, rfl⟩ := hitem cs hcs
      rw [← (h.items.item x hx).collapsed] at hbreak
      rcases mem_collapse hbreak with hspace | hblank
      · exact absurd hspace (by decide)
      · exact absurd hblank (by decide)
  · intro c hc
    have hne : ∀ cs ∈ p.itemTexts.map String.toList, cs ≠ [] := by
      intro cs hcs
      obtain ⟨x, hx, rfl⟩ := hitem cs hcs
      exact (h.items.item x hx).nonempty
    obtain ⟨cs, hcs, hlast⟩ := getLast?_intercalate hne hc
    obtain ⟨x, hx, rfl⟩ := hitem cs hcs
    constructor
    · rw [← (isElement_of_isItem (h.items.item x hx)).trimmed] at hlast
      exact getLast?_trim _ c hlast
    · rintro rfl
      exact (h.items.item x hx).getLast?_ne (h.isLevel_iff.1 hlevel x hx) hlast

theorem fillsLine_propertyChars (h : p.IsSpelled owner) (hlevel : p.IsLevel) :
    FillsLine (propertyChars p) := by
  obtain ⟨hbreak, hlast⟩ := unbroken_propertyValue h hlevel
  have hkey : '\n' ∉ (p.key?.getD "").toList := by
    intro hmem
    exact absurd (Field.isNameChar_of_isUsableKey h.key _ hmem) (by decide)
  constructor
  · exact head?_key h.key _
  · unfold propertyChars
    cases hvalue : (propertyValue p).toList.getLast? with
    | none =>
      rw [List.getLast?_eq_none_iff.1 hvalue]
      exact ⟨':', by simp, by decide, by decide⟩
    | some c =>
      have hne : (propertyValue p).toList.isEmpty = false := by
        cases hempty : (propertyValue p).toList with
        | nil => simp [hempty] at hvalue
        | cons d cs => rfl
      exact ⟨c, by simp [hne, List.getLast?_cons, hvalue], hlast c hvalue⟩
  · unfold propertyChars
    simp only [List.mem_append, List.mem_cons, not_or]
    refine ⟨hkey, by decide, ?_⟩
    split
    · simp
    · simp [hbreak]

variable {whole : Draft} {path : String} {depth start : Nat} {n : Node}

/-- A line of pretty text: spaces, a property, and a comma if another property follows. -/
def lineChars (spaces : Nat) (p : Node) (comma : Bool) : List Char :=
  List.replicate spaces ' ' ++ propertyChars p ++ if comma then [','] else []

/-- The property has a line of the text for itself, within the bounds and with line breaks around
it; its key stands at byte `key`. -/
def HasLine (text : List Char) (bounds : Span) (key : Nat) (p : Node) : Prop :=
  ∃ before after spaces comma, text = before ++ '\n' :: lineChars spaces p comma ++ '\n' :: after ∧
    key = byteLength before + 1 + byteLength (List.replicate spaces ' ') ∧
    bounds.start ≤ byteLength before ∧
    byteLength before + 1 + byteLength (lineChars spaces p comma) < bounds.stop

theorem HasLine.mono {text : List Char} {bounds outer : Span} {key : Nat}
    (h : HasLine text bounds key p) (hstart : outer.start ≤ bounds.start)
    (hstop : bounds.stop ≤ outer.stop) : HasLine text outer key p := by
  obtain ⟨before, after, spaces, comma, htext, hkey, hbefore, hafter⟩ := h
  exact ⟨before, after, spaces, comma, htext, hkey, by omega, by omega⟩

section Pretty
variable {text rest : List Char} {width index : Nat} {ns : List Node}

theorem lead_pretty (width depth index : Nat) : (⟨width, .pretty⟩ : Options).lead depth index =
    (if index = 0 then [] else [',']) ++ '\n' :: List.replicate (depth * width) ' ' := rfl

/-- Behind a property comes a line break, or a comma and a line break. -/
theorem exists_comma (width depth index : Nat) (ns : List Node) (rest : List Char) :
    ∃ (comma : Bool) (more : List Char),
      propertiesChars ⟨width, .pretty⟩ depth (index + 1) ns ++ '\n' :: rest =
        (if comma then [','] else []) ++ '\n' :: more ∧
      byteLength (if comma then [','] else []) ≤
        byteLength (propertiesChars ⟨width, .pretty⟩ depth (index + 1) ns) := by
  cases ns with
  | nil => exact ⟨false, rest, rfl, Nat.le_refl _⟩
  | cons n ns =>
    refine ⟨true, List.replicate (depth * width) ' ' ++ propertyChars n ++
      propertiesChars ⟨width, .pretty⟩ depth (index + 2) ns ++ '\n' :: rest, ?_, ?_⟩
    · simp [propertiesChars, lead_pretty]
    · simp [propertiesChars, lead_pretty]

/-- Properties that are laid out in pretty text have lines of their own. -/
theorem exists_hasLine (h : At text start
      (propertiesChars ⟨width, .pretty⟩ depth index ns ++ '\n' :: rest)) (hp : p ∈ ns)
    (owner : String) (bounds : Span) :
    ∃ key, HasLine text
        ⟨start, start + byteLength (propertiesChars ⟨width, .pretty⟩ depth index ns) + 1⟩ key p ∧
      propertyMarks owner bounds key p ⊆
        propertiesMarks ⟨width, .pretty⟩ owner bounds depth index start ns := by
  induction ns generalizing index start with
  | nil => simp at hp
  | cons n ns ih =>
    simp only [propertiesChars, propertiesMarks] at h ⊢
    rcases List.mem_cons.1 hp with rfl | hp
    · obtain ⟨before, after, rfl, rfl⟩ := h
      obtain ⟨comma, more, hnext, hlength⟩ := exists_comma width depth index ns rest
      refine ⟨_, ⟨before ++ (if index = 0 then [] else [',']), more ++ after, depth * width, comma,
        ?_, ?_, ?_, ?_⟩, List.subset_append_left _ _⟩
      · rw [List.append_assoc _ _ ('\n' :: rest), hnext]
        simp [lead_pretty, lineChars]
      · simp only [lead_pretty, byteLength_append, byteLength_cons]
        have hsize : ('\n').utf8Size = 1 := rfl
        omega
      · simp
      · simp only [lineChars, lead_pretty, byteLength_append, byteLength_cons]
        have hsize : ('\n').utf8Size = 1 := rfl
        omega
    · have hat : At text (start + byteLength ((⟨width, .pretty⟩ : Options).lead depth index) +
          byteLength (propertyChars n))
          (propertiesChars ⟨width, .pretty⟩ depth (index + 1) ns ++ '\n' :: rest) := by
        rw [Nat.add_assoc, ← byteLength_append]
        rw [List.append_assoc _ _ ('\n' :: rest)] at h
        exact h.right
      obtain ⟨key, hline, hmarks⟩ := ih hat hp
      refine ⟨key, hline.mono ?_ ?_, List.Subset.trans hmarks (List.subset_append_right _ _)⟩
      · simp only
        omega
      · simp only [byteLength_append]
        omega

/-- The properties of an entity in pretty text have lines within it. -/
theorem Draft.Holds.property (h : whole.Holds start
      (entityDraft ⟨width, .pretty⟩ path depth start n)) (hn : n.RegularEntity path)
    (hp : p ∈ n.children) :
    let bounds : Span :=
      ⟨start, start + byteLength (entityDraft ⟨width, .pretty⟩ path depth start n).chars⟩
    ∃ key, HasLine whole.chars bounds key p ∧ propertyMarks path bounds key p ⊆ whole.marks := by
  intro bounds
  have hfilter := filter_properties fun p hp => (hn.isSpelled p hp).kind
  have hcount : n.children.length ≠ 0 := by
    intro hzero
    rw [List.length_eq_zero_iff.1 hzero] at hp
    simp at hp
  have htail : (⟨width, .pretty⟩ : Options).tail depth n.children.length =
      '\n' :: List.replicate (depth * width) ' ' := by
    rw [Options.tail, if_neg hcount]
    rfl
  have hchars : (entityDraft ⟨width, .pretty⟩ path depth start n).chars =
      (entityType n).toList ++ ['['] ++
        (propertiesChars ⟨width, .pretty⟩ (depth + 1) 0 n.children ++
          '\n' :: (List.replicate (depth * width) ' ' ++ [']'])) := by
    simp only [entityDraft, hfilter, htail]
    simp
  have hat := h.chars
  rw [hchars] at hat
  obtain ⟨key, hline, hmarks⟩ := exists_hasLine hat.right hp path bounds
  refine ⟨key, hline.mono (Nat.le_add_right _ _) ?_, fun m hm => h.marks ?_⟩
  · simp only [bounds, hchars, byteLength_append, byteLength_cons]
    have hsize : ('\n').utf8Size = 1 := rfl
    omega
  · rw [marks_entityDraft hn]
    exact List.mem_cons_of_mem _ (hmarks hm)

end Pretty

/-- The property covers a line of the text, which says its key and its value and leaves out the ends
of the entity. -/
structure CoversLine (text : List Char) (e p : Node) : Prop where
  line : ∃ before line after, text = before ++ '\n' :: line ++ '\n' :: after ∧ '\n' ∉ line ∧
    p.span = ⟨byteLength before + 1, byteLength before + 1 + byteLength line⟩
  nonempty : p.span.start < p.span.stop
  bare_eq : bare (slice text p.span) = propertyChars p
  shorter : p.span.length < e.span.length

theorem HasLine.coversLine {text : List Char} {key : Nat} {e : Node}
    (h : HasLine text e.span key p) (hfills : FillsLine (propertyChars p))
    (hspan : p.span = lineWithin text key e.span) : CoversLine text e p := by
  obtain ⟨before, after, spaces, comma, rfl, rfl, hstart, hstop⟩ := h
  have hsplit : lineChars spaces p comma =
      List.replicate spaces ' ' ++ (propertyChars p ++ if comma then [','] else []) :=
    List.append_assoc _ _ _
  obtain ⟨hbreak, hreturn⟩ := hfills.isLine spaces comma
  have hline := lineAt_between hbreak hreturn before after
  rw [← hsplit] at hbreak hline
  have hcovers : p.span =
      ⟨byteLength before + 1, byteLength before + 1 + byteLength (lineChars spaces p comma)⟩ := by
    rw [hspan, lineWithin, hline]
    simp only [Span.clampTo, Span.mk.injEq]
    omega
  refine ⟨⟨before, _, after, rfl, hbreak, hcovers⟩, ?_, ?_, ?_⟩
  · have hpos := byteLength_pos hfills.ne_nil
    rw [hcovers]
    simp only [lineChars, byteLength_append]
    omega
  · have hat : At (before ++ '\n' :: lineChars spaces p comma ++ '\n' :: after)
        (byteLength before + 1) (lineChars spaces p comma) :=
      ⟨before ++ ['\n'], '\n' :: after, by simp, by simp; rfl⟩
    rw [hcovers, hat.slice_eq]
    exact hfills.bare_eq spaces comma
  · rw [hcovers]
    simp only [Span.length]
    omega

/-- The property owns a line of the document: it covers the line from one line break to the next,
the line says its key and its value, and every offset on the line leads to it. -/
structure OwnsLine (out : Document) (T p : Node) : Prop where
  line : ∃ before line after, out.text.toList = before ++ '\n' :: line ++ '\n' :: after ∧
    '\n' ∉ line ∧ p.span = ⟨byteLength before + 1, byteLength before + 1 + byteLength line⟩
  written : ∃ key value, p.key? = some key ∧ p.value = some value ∧
    bare (slice out.text.toList p.span) =
      key.toList ++ ':' :: if value = "" then [] else ' ' :: value.toList
  found : ∀ offset, p.span.contains offset = true →
    T.pathAt? offset = some p.path ∧ out.table.pathAt? offset = some p.path

/-- The tree is the one that is read from its own pretty layout. -/
structure IsPretty (width : Nat) (T : Node) : Prop where
  regular : T.RegularOperation Path.operationWord
  level : T.IsLevel
  reads : Node.ofScript (document ⟨width, .pretty⟩ T).text = T

namespace IsPretty
variable {T e : Node} {width : Nat}

/-- The properties of an entity cover lines of the layout. -/
theorem coversLine (h : IsPretty width T) (he : e ∈ T.nodes) (hkind : e.kind.isEntityLike = true)
    (hp : p ∈ e.children) :
    p.IsSpelled e.path ∧ CoversLine (draft ⟨width, .pretty⟩ T).chars e p := by
  have hentries := (rereads_draft h.regular h.level ⟨width, .pretty⟩).entries
  rw [h.reads, Node.nodesOf, Node.nodesOf, List.append_nil] at hentries
  have hpaths := h.regular.distinctPaths.nodup
  have hwhole : (draft ⟨width, .pretty⟩ T).Holds 0
      (operationDraft ⟨width, .pretty⟩ Path.operationWord 0 0 T) := by
    rw [draft_eq h.regular]
    exact ⟨⟨[], [], by simp, rfl⟩, List.Subset.refl _⟩
  obtain ⟨owner, depth, start, hentity, hholds⟩ := hwhole.entity h.regular he hkind
  have hpath : e.path = owner := by
    obtain ⟨type, span, properties, -, -, -, rfl⟩ := hentity
    rfl
  have hspan : e.span = ⟨start, start +
      byteLength (entityDraft ⟨width, .pretty⟩ owner depth start e).chars⟩ := by
    have hmark := marks_entityDraft hentity ⟨width, .pretty⟩ owner depth start
    exact span_eq_of_mark hentries hpaths (hholds.marks (hmark ▸ List.mem_cons_self)) he hpath.symm
  have hmem := Node.mem_nodes_of_mem_children he hp
  have hlevel : p.IsLevel := fun m hm => h.level m (Node.nodes_subset hmem hm)
  have hspelled := hentity.isSpelled p hp
  obtain ⟨key, hline, hmarks⟩ := hholds.property hentity hp
  rw [← hspan] at hline hmarks
  rw [hpath]
  refine ⟨hspelled, hline.coversLine (fillsLine_propertyChars hspelled hlevel) ?_⟩
  exact span_eq_of_mark hentries hpaths (hmarks List.mem_cons_self) hmem
    (congrArg Node.path hspelled.eq).symm

theorem eq_of_path_eq (h : IsPretty width T) {q : Node} (hp : p ∈ T.nodes) (hq : q ∈ T.nodes)
    (hpath : p.path = q.path) : p = q :=
  List.inj_on_of_nodup_map h.regular.distinctPaths.nodup hp hq hpath

/-- No two properties of an entity cover the same line, because their keys differ. -/
theorem eq_of_span_eq (h : IsPretty width T) (he : e ∈ T.nodes)
    (hkind : e.kind.isEntityLike = true) (hp : p ∈ e.children) {q : Node} (hq : q ∈ e.children)
    (hspan : p.span = q.span) : p = q := by
  obtain ⟨hpspelled, hpcovers⟩ := h.coversLine he hkind hp
  obtain ⟨hqspelled, hqcovers⟩ := h.coversLine he hkind hq
  have hchars : propertyChars p = propertyChars q := by
    rw [← hpcovers.bare_eq, hspan, hqcovers.bare_eq]
  obtain ⟨key, value, -, -, hkey, hppath, hpchars⟩ := propertyChars_eq hpspelled
  obtain ⟨key', value', -, -, hkey', hqpath, hqchars⟩ := propertyChars_eq hqspelled
  -- The key is what a line says before its first colon.
  have hsplit := congrArg Value.splitKey? hchars
  rw [hpchars, hqchars, PropertyReading.splitKey?_key hkey, PropertyReading.splitKey?_key hkey',
    Option.some.injEq, Prod.mk.injEq, String.toList_inj] at hsplit
  apply h.eq_of_path_eq (Node.mem_nodes_of_mem_children he hp)
    (Node.mem_nodes_of_mem_children he hq)
  rw [hppath, hqpath, hsplit.1]

theorem rangesNest (h : IsPretty width T) : ∀ m ∈ T.nodes, m.RangesNest := by
  have hranges := Node.rangesNest_ofScript (document ⟨width, .pretty⟩ T).text
  rw [h.reads] at hranges
  exact hranges

/-- The search for an offset on the line of a property ends at the property. -/
theorem innermost_of_line (h : IsPretty width T) (he : e ∈ T.nodes)
    (hkind : e.kind.isEntityLike = true) (hp : p ∈ e.children) {offset : Nat}
    (ho : p.span.contains offset = true) :
    T.span.contains offset = true ∧ T.innermost offset = p := by
  have heo := (h.rangesNest e he).contains_of_child hp ho
  have hne : e.kind ≠ .property := by
    intro hk
    simp [hk, Kind.isEntityLike] at hkind
  have hfind : e.children.find? (·.span.contains offset) = some p := by
    obtain ⟨q, hfind⟩ : ∃ q, e.children.find? (·.span.contains offset) = some q :=
      Option.isSome_iff_exists.1 (List.find?_isSome.2 ⟨p, hp, ho⟩)
    have hq := List.mem_of_find?_eq_some hfind
    have hqo : q.span.contains offset = true := by simpa using List.find?_some hfind
    have hline := (h.rangesNest e he).line_unique hkind hq hp hqo ho
    rw [hfind, h.eq_of_span_eq he hkind hq hp hline]
  refine ⟨Node.contains_of_mem_nodes h.rangesNest he heo, ?_⟩
  have hstop := (h.coversLine he hkind hp).1.kind
  rw [Node.innermost_eq_of_mem h.rangesNest h.regular.isLabelled he hne heo, Node.innermost_eq,
    if_neg hne, Node.innermostOf_eq, hfind, Option.map_some, Option.getD_some, Node.innermost_eq,
    if_pos hstop]

/-- An offset on the line of a property leads to the property, in the tree and in the table. -/
theorem pathAt?_of_line (h : IsPretty width T) (he : e ∈ T.nodes)
    (hkind : e.kind.isEntityLike = true) (hp : p ∈ e.children) {offset : Nat}
    (ho : p.span.contains offset = true) :
    T.pathAt? offset = some p.path ∧ (RangeTable.ofTree T).pathAt? offset = some p.path := by
  obtain ⟨hTo, hinnermost⟩ := h.innermost_of_line he hkind hp ho
  constructor
  · rw [Node.pathAt?, Node.resolve?, if_pos hTo, hinnermost, Option.map_some]
  · have hnarrows := Node.narrowsTo_innermost h.rangesNest h.regular.isLabelled
      (by simp [h.regular.kind]) hTo
    rw [hinnermost] at hnarrows
    cases hnarrows with
    | outer houter => exact absurd (h.coversLine he hkind hp).1.kind houter
    | line _ _ _ _ _ hnarrowest =>
      exact Node.pathAt?_of_isNarrowest h.regular.isPlaceholder_eq_false
        h.regular.distinctPaths.nodup hnarrowest
    | entity e' he' hkind' hp' hsame =>
      have hshorter := (h.coversLine he' hkind' hp').2.shorter
      rw [hsame] at hshorter
      exact absurd hshorter (Nat.lt_irrefl _)

theorem ownsLine (h : IsPretty width T) (he : e ∈ T.nodes) (hkind : e.kind.isEntityLike = true)
    (hp : p ∈ e.children) : OwnsLine (document ⟨width, .pretty⟩ T) T p := by
  obtain ⟨hspelled, hcovers⟩ := h.coversLine he hkind hp
  obtain ⟨key, value, hkey, hvalue, -, -, hchars⟩ := propertyChars_eq hspelled
  have htext : (document ⟨width, .pretty⟩ T).text.toList = (draft ⟨width, .pretty⟩ T).chars :=
    String.toList_ofList
  have htable := (rereads_document h.regular h.level ⟨width, .pretty⟩).2
  rw [h.reads] at htable
  constructor
  · rw [htext]
    exact hcovers.line
  · exact ⟨key, value, hkey, hvalue, by rw [htext, hcovers.bare_eq, hchars]⟩
  · intro offset ho
    rw [htable]
    exact h.pathAt?_of_line he hkind hp ho

/-- Properties whose lines meet are found under one offset, so that they are the same. -/
theorem overlaps_eq_false (h : IsPretty width T) (he : e ∈ T.nodes)
    (hkind : e.kind.isEntityLike = true) (hp : p ∈ e.children) {e' q : Node} (he' : e' ∈ T.nodes)
    (hkind' : e'.kind.isEntityLike = true) (hq : q ∈ e'.children) (hne : p ≠ q) :
    p.span.overlaps q.span = false := by
  have hpne := (h.coversLine he hkind hp).2.nonempty
  have hqne := (h.coversLine he' hkind' hq).2.nonempty
  by_contra hoverlaps
  simp only [Span.overlaps, Bool.not_eq_false, Bool.and_eq_true, decide_eq_true_eq] at hoverlaps
  have hpo : p.span.contains (max p.span.start q.span.start) = true := by
    rw [Span.contains_iff]
    omega
  have hqo : q.span.contains (max p.span.start q.span.start) = true := by
    rw [Span.contains_iff]
    omega
  have hfound := (h.pathAt?_of_line he' hkind' hq hqo).1
  rw [(h.pathAt?_of_line he hkind hp hpo).1, Option.some.injEq] at hfound
  exact hne (h.eq_of_path_eq (Node.mem_nodes_of_mem_children he hp)
    (Node.mem_nodes_of_mem_children he' hq) hfound)

end IsPretty

/-- In the pretty layout of a script whose root is closed, every property of an entity owns its
line, and no two properties share a byte. -/
theorem ownsLine_document (text : String) (h : Node.RootCloses text) (width : Nat) :
    let out := document ⟨width, .pretty⟩ (Node.ofScript text)
    let T := Node.ofScript out.text
    ∀ e ∈ T.nodes, e.kind.isEntityLike = true → ∀ p ∈ e.children, p.kind = .property →
      OwnsLine out T p ∧
      ∀ e' ∈ T.nodes, e'.kind.isEntityLike = true → ∀ q ∈ e'.children, q.kind = .property →
        p ≠ q → p.span.overlaps q.span = false := by
  intro out T
  have hsettled := Node.isSettled_ofScript h
  have hself : document ⟨width, .pretty⟩ T = out := document_congr (hsettled.rereads _).1 _
  have hreads : Node.ofScript (document ⟨width, .pretty⟩ T).text = T := by rw [hself]
  have hT : T.IsSettled := hsettled.ofScript_document ⟨width, .pretty⟩
  -- All that matters of the tree is that it is settled and read from its own layout.
  clear_value T
  rw [← hself]
  intro e he hkind p hp _
  rcases hT with ⟨bytes, rfl⟩ | ⟨hregular, hlevel⟩
  · have hnone : e = Node.placeholder bytes := by
      simpa [Node.placeholder, Node.nodes, Node.nodesOf] using he
    rw [hnone] at hkind
    simp [Node.placeholder, Kind.isEntityLike] at hkind
  · have hpretty : IsPretty width T := ⟨hregular, hlevel, hreads⟩
    refine ⟨hpretty.ownsLine he hkind hp, ?_⟩
    intro e' he' hkind' q hq _ hne
    exact hpretty.overlaps_eq_false he hkind hp he' hkind' hq hne

/-- Without indent: a list with a comma in brackets, a property without name and value, and a value
that had a line break of its own. -/
theorem ownsLine_document_list :
    let text := "f(e[k: a,\r\n b (c, d), : , m: x\n  y], g(h[n: é]))"
    let out := document ⟨0, .pretty⟩ (Node.ofScript text)
    let T := Node.ofScript out.text
    let k := "operation/entities[0]/k"
    let list : Node := ⟨.property, k, ⟨6, 21⟩, some "a, b (c, d)",
      [⟨.property, k ++ "[0]", ⟨6, 21⟩, some "a", []⟩,
        ⟨.property, k ++ "[1]", ⟨6, 21⟩, some "b (c, d)", []⟩]⟩
    let unnamed : Node := ⟨.property, "operation/entities[0]/", ⟨22, 24⟩, some "", []⟩
    let last : Node := ⟨.property, "operation/entities[0]/m", ⟨25, 31⟩, some "x y", []⟩
    let e : Node := ⟨.entity, "operation/entities[0]", ⟨3, 33⟩, some "e", [list, unnamed, last]⟩
    Node.RootCloses text ∧ e ∈ T.nodes ∧
      out.text = "f(\ne[\nk: a, b (c, d),\n:,\nm: x y\n],\ng(\nh[\nn: é\n]\n)\n)" ∧
      OwnsLine out T list ∧ list.span.overlaps unnamed.span = false ∧
      T.pathAt? 12 = some k ∧ out.table.pathAt? 12 = some k := by
  intro text out T k list unnamed last e
  have hcloses : Node.RootCloses text := by decide +kernel
  have he : e ∈ T.nodes := by decide +kernel
  obtain ⟨howns, hapart⟩ := ownsLine_document text hcloses 0 e he rfl list (by simp [e]) rfl
  have hunnamed := hapart e he rfl unnamed (by simp [e]) rfl (by decide)
  exact ⟨hcloses, he, by decide +kernel, howns, hunnamed, howns.found 12 (by decide)⟩

end Layout
end ProblemScript
