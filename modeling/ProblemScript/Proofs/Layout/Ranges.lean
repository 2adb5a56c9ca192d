import ProblemScript.Proofs.Layout.Extents

/-! The ranges of a laid-out tree of any sort. A part is entered under the path of its place, which
is a stretch of the paths of what it holds and of nothing else, so that a look-up finds the part
itself. Repeated keys share a path, and the last of them counts; all their lines are within the
entity. -/
namespace ProblemScript.Layout
open Text

/-- The nodes that take up the slots of an operation. -/
def slots (n : Node) : List Node := n.children.filter (·.kind != .property)

/-- The path of the node in slot `i` of the operation written `owner`. -/
def slotPath (owner : String) (i : Nat) (n : Node) : String :=
  if n.kind = .operation then Path.operationIn (Path.slotIn owner i) else Path.slotIn owner i

def slotPaths (owner : String) (n : Node) : List String := (slots n).mapIdx (slotPath owner)

/-- The paths of a property and of its items. -/
def propertyPaths (owner : String) (p : Node) : List String :=
  let path := Path.propertyIn owner (p.key?.getD "")
  path :: (List.range p.children.length).map (Path.itemIn path)

/-- The operations and entities of a tree under the paths of their places. -/
inductive IsPart (tree : Node) : String → Node → Prop
  | root : IsPart tree Path.operationWord tree
  | slot {path : String} {n c : Node} {i : Nat} (h : IsPart tree path n)
    (hkind : n.kind = .operation) (hc : (slots n)[i]? = some c) : IsPart tree (slotPath path i c) c

/-- What an operation or an entity is written with: its name and its brackets. -/
def frame (n : Node) : String × Char × Char :=
  if n.kind = .operation then (n.value.getD "", '(', ')') else (entityType n, '[', ']')

/-- An operation or an entity at the given path and nesting level. -/
def partDraft (o : Options) (path : String) (depth start : Nat) (n : Node) : Draft :=
  if n.kind = .operation then operationDraft o path depth start n
  else entityDraft o path depth start n

variable {o : Options} {whole : Draft} {path : String} {depth start : Nat} {n : Node}

theorem partDraft_of_operation (h : n.kind = .operation) :
    partDraft o path depth start n = operationDraft o path depth start n := if_pos h

theorem partDraft_of_entity (h : n.kind ≠ .operation) :
    partDraft o path depth start n = entityDraft o path depth start n := if_neg h

theorem PlacedSlot.draft_eq (o : Options) (owner : String) (depth : Nat) (s : PlacedSlot) :
    s.draft o owner depth = partDraft o (slotPath owner s.index s.node) depth s.start s.node := by
  unfold draft slotDraft partDraft slotPath
  split
  · rfl
  · rfl

/-- A part is written in its brackets. -/
theorem exists_chars_partDraft (o : Options) (path : String) (depth start : Nat) (n : Node) :
    ∃ inner, (partDraft o path depth start n).chars =
      (frame n).1.toList ++ (frame n).2.1 :: (inner ++ [(frame n).2.2]) := by
  unfold partDraft frame
  split
  · rw [operationDraft_eq]
    exact ⟨(slotsDraft o path (depth + 1) 0 (start + byteLength ((n.value.getD "").toList ++ ['(']))
      n.children).chars ++ o.tail depth (slotCount n.children), by simp⟩
  · unfold entityDraft
    exact ⟨propertiesChars o (depth + 1) 0 (n.children.filter (·.kind == .property)) ++
      o.tail depth (n.children.filter (·.kind == .property)).length, by simp⟩

section Paths

theorem not_slash_prefix_self (path : String) : ¬path.toList ++ ['/'] <+: path.toList := by
  intro h
  have hlength := h.length_le
  rw [List.length_append, List.length_singleton] at hlength
  omega

theorem slash_slotIn (owner : String) (i : Nat) :
    owner.toList ++ ['/'] <+: (Path.slotIn owner i).toList :=
  ⟨(Path.indexed Path.entitiesWord i).toList, by simp [Path.slotIn]⟩

theorem slotIn_prefix_slotPath (owner : String) (i : Nat) (n : Node) :
    (Path.slotIn owner i).toList <+: (slotPath owner i n).toList := by
  unfold slotPath
  split
  · exact Path.prefix_operationIn _
  · exact List.prefix_refl _

theorem slash_propertyPaths {owner q : String} {p : Node} (h : q ∈ propertyPaths owner p) :
    owner.toList ++ ['/'] <+: q.toList := by
  have hproperty : owner.toList ++ ['/'] <+: (Path.propertyIn owner (p.key?.getD "")).toList :=
    ⟨(p.key?.getD "").toList, by simp [Path.propertyIn]⟩
  rcases List.mem_cons.1 h with rfl | h
  · exact hproperty
  · obtain ⟨j, -, rfl⟩ := List.mem_map.1 h
    refine hproperty.trans ?_
    simp only [Path.itemIn, Path.toList_indexed]
    exact List.prefix_append _ _

theorem map_path_propertyMarks (owner : String) (bounds : Span) (key : Nat) (p : Node) :
    (propertyMarks owner bounds key p).map (·.path) = propertyPaths owner p := by
  unfold propertyMarks propertyPaths
  rw [List.map_cons]
  congr 1
  apply List.ext_getElem
  · simp
  · intro j h₁ h₂
    simp

theorem slash_propertiesMarks {owner : String} {bounds : Span} {index : Nat} {ns : List Node}
    {m : Mark} (h : m ∈ propertiesMarks o owner bounds depth index start ns) :
    owner.toList ++ ['/'] <+: m.path.toList := by
  induction ns generalizing index start with
  | nil => simp [propertiesMarks] at h
  | cons p ns ih =>
    unfold propertiesMarks at h
    rcases List.mem_append.1 h with h | h
    · have hpath := List.mem_map_of_mem (f := (·.path)) h
      rw [map_path_propertyMarks] at hpath
      exact slash_propertyPaths hpath
    · exact ih h

/-- A mark of a part is its own one, or has a longer path. -/
theorem cases_of_mem_partDraft {m : Mark} (h : m ∈ (partDraft o path depth start n).marks) :
    (m.path = path ∧ m.extent =
        .exact ⟨start, start + byteLength (partDraft o path depth start n).chars⟩) ∨
      path.toList ++ ['/'] <+: m.path.toList := by
  induction n using Node.children_induction generalizing path depth start with
  | node n ih =>
    by_cases hkind : n.kind = .operation
    · rw [partDraft_of_operation hkind] at h ⊢
      rw [marks_operationDraft] at h
      rcases List.mem_cons.1 h with rfl | h
      · exact .inl ⟨rfl, rfl⟩
      · obtain ⟨s, hs, hm⟩ := List.mem_flatMap.1 h
        rw [s.draft_eq] at hm
        have hslot := (slash_slotIn path s.index).trans
          (slotIn_prefix_slotPath path s.index s.node)
        rcases ih s.node (node_mem_of_mem_placedSlots hs) hm with ⟨hpath, -⟩ | hlonger
        · rw [hpath]
          exact .inr hslot
        · exact .inr (hslot.trans ((List.prefix_append _ _).trans hlonger))
    · rw [partDraft_of_entity hkind] at h ⊢
      rcases List.mem_cons.1 h with rfl | h
      · exact .inl ⟨rfl, rfl⟩
      · exact .inr (slash_propertiesMarks h)

theorem prefix_of_mem_partDraft {m : Mark} (h : m ∈ (partDraft o path depth start n).marks) :
    path.toList <+: m.path.toList := by
  rcases cases_of_mem_partDraft h with ⟨rfl, -⟩ | hlonger
  · exact List.prefix_refl _
  · exact (List.prefix_append _ _).trans hlonger

end Paths

/-- The draft holds a part, and the marks under its path are all its own. -/
structure Draft.Shows (whole : Draft) (o : Options) (path : String) (depth start : Nat) (n : Node) :
    Prop where
  holds : whole.Holds start (partDraft o path depth start n)
  only : ∀ m ∈ whole.marks, path.toList <+: m.path.toList →
    m ∈ (partDraft o path depth start n).marks

/-- The slots of an operation are told apart by their numbers. -/
theorem Draft.Shows.slot (h : whole.Shows o path depth start n) (hkind : n.kind = .operation)
    {s : PlacedSlot} (hs : s ∈ placedSlots o (depth + 1) 0 (bodyStart start n) n.children) :
    whole.Shows o (slotPath path s.index s.node) (depth + 1) s.start s.node := by
  have hholds := h.holds
  rw [partDraft_of_operation hkind] at hholds
  have hslot := slotIn_prefix_slotPath path s.index s.node
  constructor
  · rw [← s.draft_eq]
    exact hholds.placed hs
  · intro m hm hprefix
    have howner := (slash_slotIn path s.index).trans (hslot.trans hprefix)
    have hmine := h.only m hm ((List.prefix_append _ _).trans howner)
    rw [partDraft_of_operation hkind, marks_operationDraft] at hmine
    rcases List.mem_cons.1 hmine with rfl | hmine
    · exact absurd howner (not_slash_prefix_self path)
    · obtain ⟨t, ht, hmark⟩ := List.mem_flatMap.1 hmine
      rw [t.draft_eq] at hmark
      have hother := (slotIn_prefix_slotPath path t.index t.node).trans
        (prefix_of_mem_partDraft hmark)
      -- The number of the slot can be read off the path of the mark.
      have hindex : t.index = s.index := by
        have hthis := hslot.trans hprefix
        rw [Path.slotIn_eq] at hthis hother
        exact Path.index_inj hother hthis
      rw [eq_of_index_placedSlots ht hs hindex] at hmark
      exact hmark

theorem Draft.Shows.exact (h : whole.Shows o path depth start n) {m : Mark} (hm : m ∈ whole.marks)
    (hpath : m.path = path) :
    m.extent = .exact ⟨start, start + byteLength (partDraft o path depth start n).chars⟩ := by
  subst hpath
  have hmine := h.only m hm (List.prefix_refl _)
  rcases cases_of_mem_partDraft hmine with ⟨-, hextent⟩ | hlonger
  · exact hextent
  · exact absurd hlonger (not_slash_prefix_self _)

theorem exists_mark_partDraft (o : Options) (path : String) (depth start : Nat) (n : Node) :
    ∃ m ∈ (partDraft o path depth start n).marks, m.path = path := by
  unfold partDraft
  split
  · rw [marks_operationDraft]
    exact ⟨_, List.mem_cons_self, rfl⟩
  · exact ⟨_, List.mem_cons_self, rfl⟩

/-- A path that is marked leads to the range of one of its marks. -/
theorem exists_range?_ofDraft {P : Span → Prop} (hmarked : ∃ m ∈ whole.marks, m.path = path)
    (h : ∀ m ∈ whole.marks, m.path = path → P (m.extent.range whole.chars)) :
    ∃ r, (Document.ofDraft whole).table.range? path = some r ∧ P r := by
  obtain ⟨m, hm, rfl⟩ := hmarked
  have hentered : m.path ∈ (whole.marks.map fun m =>
      (m.path, (⟨m.extent.range whole.chars, m.value⟩ : RangeEntry))).map Prod.fst := by
    rw [List.map_map]
    exact List.mem_map_of_mem (f := fun m : Mark => m.path) hm
  obtain ⟨entry, hentry, hget⟩ := RangeTable.exists_get?_ofList hentered
  obtain ⟨m', hm', heq⟩ := List.mem_map.1 hentry
  obtain ⟨hpath, rfl⟩ := Prod.mk.inj heq
  refine ⟨m'.extent.range whole.chars, ?_, h m' hm' hpath⟩
  unfold Document.ofDraft RangeTable.range?
  rw [hget]
  rfl

/-- The look-up of a part finds all that is written of it. -/
theorem Draft.Shows.range? (h : whole.Shows o path depth start n) :
    (Document.ofDraft whole).table.range? path =
      some ⟨start, start + byteLength (partDraft o path depth start n).chars⟩ := by
  obtain ⟨m, hm, hpath⟩ := exists_mark_partDraft o path depth start n
  obtain ⟨r, hr, rfl⟩ := exists_range?_ofDraft
    (P := (· = ⟨start, start + byteLength (partDraft o path depth start n).chars⟩))
    ⟨m, h.holds.marks hm, hpath⟩ fun m' hm' hpath' => by
      rw [h.exact hm' hpath']
      rfl
  exact hr

theorem exists_propertyMarks_subset {owner : String} {bounds : Span} {index : Nat}
    {ns : List Node} {p : Node} (hp : p ∈ ns) :
    ∃ key, propertyMarks owner bounds key p ⊆
      propertiesMarks o owner bounds depth index start ns := by
  induction ns generalizing index start with
  | nil => simp at hp
  | cons n ns ih =>
    unfold propertiesMarks
    rcases List.mem_cons.1 hp with rfl | hp
    · exact ⟨_, List.subset_append_left _ _⟩
    · obtain ⟨key, hkey⟩ := ih hp
      exact ⟨key, List.subset_append_of_subset_right _ hkey⟩

theorem exists_mark_entityDraft {p : Node} (hp : p ∈ n.children) (hkind : p.kind = .property)
    {q : String} (hq : q ∈ propertyPaths path p) :
    ∃ m ∈ (entityDraft o path depth start n).marks, m.path = q := by
  have hmem : p ∈ n.children.filter (·.kind == .property) := by simp [hp, hkind]
  obtain ⟨key, hsubset⟩ := exists_propertyMarks_subset hmem
  rw [← map_path_propertyMarks path _ key] at hq
  obtain ⟨m, hm, hpath⟩ := List.mem_map.1 hq
  exact ⟨m, List.mem_cons_of_mem _ (hsubset hm), hpath⟩

theorem line_of_mem_entityDraft {m : Mark} (h : m ∈ (entityDraft o path depth start n).marks)
    (hpath : m.path ≠ path) :
    ∃ key, m.extent =
      .line key ⟨start, start + byteLength (entityDraft o path depth start n).chars⟩ := by
  rcases List.mem_cons.1 h with rfl | h
  · exact absurd rfl hpath
  · obtain ⟨before, -, -, hextent, -⟩ := exists_of_mem_propertiesMarks h
    exact ⟨_, hextent⟩

/-- The properties of an entity and their items are found within it. -/
theorem Draft.Shows.property (h : whole.Shows o path depth start n) (hkind : n.kind ≠ .operation)
    {p : Node} (hp : p ∈ n.children) (hproperty : p.kind = .property) {q : String}
    (hq : q ∈ propertyPaths path p) :
    ∃ r, (Document.ofDraft whole).table.range? q = some r ∧
      (Span.mk start (start + byteLength (partDraft o path depth start n).chars)).encloses r =
        true := by
  obtain ⟨hholds, honly⟩ := h
  rw [partDraft_of_entity hkind] at hholds honly ⊢
  obtain ⟨m, hm, hpath⟩ := exists_mark_entityDraft hp hproperty hq
  refine exists_range?_ofDraft ⟨m, hholds.marks hm, hpath⟩ fun m' hm' hpath' => ?_
  have hslash := slash_propertyPaths hq
  rw [← hpath'] at hslash
  have hlonger : m'.path ≠ path := by
    intro hself
    rw [hself] at hslash
    exact not_slash_prefix_self path hslash
  have hmine := honly m' hm' ((List.prefix_append _ _).trans hslash)
  obtain ⟨key, hextent⟩ := line_of_mem_entityDraft hmine hlonger
  rw [hextent]
  exact encloses_lineWithin _ _ _

/-- The slots of an operation are its placed ones, in order. -/
theorem getElem?_slots (o : Options) (depth start i : Nat) (n : Node) :
    (slots n)[i]? = ((placedSlots o depth 0 start n.children)[i]?).map (·.node) := by
  have hslots : slots n = (placedSlots o depth 0 start n.children).map (·.node) :=
    map_node_placedSlots.symm
  rw [hslots, List.getElem?_map]

theorem exists_placedSlot {i : Nat} {c : Node} (h : (slots n)[i]? = some c) (o : Options)
    (depth start : Nat) :
    ∃ s ∈ placedSlots o depth 0 start n.children, s.index = i ∧ s.node = c := by
  rw [getElem?_slots o depth start, Option.map_eq_some_iff] at h
  obtain ⟨s, hs, hnode⟩ := h
  have hindex := index_of_placedSlots hs
  exact ⟨s, List.mem_of_getElem? hs, by omega, hnode⟩

theorem slotPaths_eq (o : Options) (owner : String) (depth start : Nat) (n : Node) :
    slotPaths owner n = (placedSlots o depth 0 start n.children).map fun s =>
      slotPath owner s.index s.node := by
  apply List.ext_getElem?
  intro i
  unfold slotPaths
  rw [List.getElem?_mapIdx, List.getElem?_map, getElem?_slots o depth start, Option.map_map]
  refine Option.map_congr fun s hs => ?_
  have hindex := index_of_placedSlots hs
  rw [Nat.zero_add] at hindex
  rw [hindex]
  rfl

theorem IsPart.placed {tree : Node} (h : IsPart tree path n) (hkind : n.kind = .operation)
    {s : PlacedSlot} (hs : s ∈ placedSlots o depth 0 start n.children) :
    IsPart tree (slotPath path s.index s.node) s.node := by
  obtain ⟨i, hi⟩ := List.mem_iff_getElem?.1 hs
  have hindex := index_of_placedSlots hi
  rw [Nat.zero_add] at hindex
  rw [hindex]
  refine .slot h hkind ?_
  rw [getElem?_slots o depth start, hi]
  rfl

theorem shows_root {tree : Node} (hkind : tree.kind = .operation) (o : Options) :
    (operationDraft o Path.operationWord 0 0 tree).Shows o Path.operationWord 0 0 tree := by
  constructor
  · rw [partDraft_of_operation hkind]
    exact ⟨At.whole _, List.Subset.refl _⟩
  · rw [partDraft_of_operation hkind]
    exact fun m hm _ => hm

/-- What the tree holds, its draft shows. -/
theorem IsPart.exists_shows {tree : Node} (hkind : tree.kind = .operation)
    (h : IsPart tree path n) :
    ∃ depth start, (operationDraft o Path.operationWord 0 0 tree).Shows o path depth start n := by
  induction h with
  | root => exact ⟨0, 0, shows_root hkind o⟩
  | @slot path n c i _ hop hc ih =>
    obtain ⟨depth, start, hshows⟩ := ih
    obtain ⟨s, hs, rfl, rfl⟩ := exists_placedSlot hc o (depth + 1) (bodyStart start n)
    exact ⟨depth + 1, s.start, hshows.slot hop hs⟩

/-- Each line is looked for within an entity of the tree. -/
theorem Draft.Shows.line {tree : Node} (h : whole.Shows o path depth start n)
    (hpart : IsPart tree path n) {m : Mark} (hm : m ∈ (partDraft o path depth start n).marks)
    {key : Nat} {bounds : Span} (hline : m.extent = .line key bounds) :
    ∃ path n, IsPart tree path n ∧ n.kind ≠ .operation ∧
      (Document.ofDraft whole).table.range? path = some bounds := by
  induction n using Node.children_induction generalizing path depth start with
  | node n ih =>
    by_cases hkind : n.kind = .operation
    · rw [partDraft_of_operation hkind, marks_operationDraft] at hm
      rcases List.mem_cons.1 hm with rfl | hm
      · simp at hline
      · obtain ⟨s, hs, hm⟩ := List.mem_flatMap.1 hm
        rw [s.draft_eq] at hm
        exact ih s.node (node_mem_of_mem_placedSlots hs) (h.slot hkind hs)
          (hpart.placed hkind hs) hm
    · refine ⟨path, n, hpart, hkind, ?_⟩
      rw [h.range?]
      rw [partDraft_of_entity hkind] at hm ⊢
      rcases List.mem_cons.1 hm with rfl | hm
      · simp at hline
      · obtain ⟨before, -, -, hextent, -⟩ := exists_of_mem_propertiesMarks hm
        rw [hextent] at hline
        exact congrArg some (Extent.line.inj hline).2

/-- The table of a document fits its text and the tree that is laid out there. -/
structure Document.Fits (tree : Node) (out : Document) : Prop where
  /-- The root is the whole text. -/
  root : out.table.range? Path.operationWord = some ⟨0, byteLength out.text.toList⟩
  /-- Every range is a stretch of the text. -/
  ranges : ∀ e ∈ out.table.entries, e.2.range.start ≤ e.2.range.stop ∧
    e.2.range.stop ≤ byteLength out.text.toList ∧
    IsBoundary out.text.toList e.2.range.start ∧ IsBoundary out.text.toList e.2.range.stop
  /-- Operations and entities are found with their names in front and their brackets. -/
  bracketed : ∀ path n, IsPart tree path n → ∃ r, out.table.range? path = some r ∧
    r.isEmpty = false ∧ ∃ inner, slice out.text.toList r =
      (frame n).1.toList ++ (frame n).2.1 :: (inner ++ [(frame n).2.2])
  /-- The slots of an operation are found one behind the other within it. -/
  slots : ∀ path n, IsPart tree path n → n.kind = .operation →
    ∃ (r : Span) (rs : List Span), out.table.range? path = some r ∧
      (slotPaths path n).map out.table.range? = rs.map some ∧
      rs.Pairwise (fun s t => s.stop ≤ t.start) ∧ ∀ s ∈ rs, r.encloses s = true
  /-- The properties of an entity and their items are found within it. -/
  properties : ∀ path n, IsPart tree path n → n.kind ≠ .operation →
    ∃ r, out.table.range? path = some r ∧ ∀ p ∈ n.children, p.kind = .property →
      ∀ q ∈ propertyPaths path p, ∃ s, out.table.range? q = some s ∧ r.encloses s = true

theorem range_of_mem_ofDraft {e : String × RangeEntry}
    (h : e ∈ (Document.ofDraft whole).table.entries) :
    ∃ m ∈ whole.marks, e.2.range = m.extent.range whole.chars := by
  obtain ⟨m, hm, rfl⟩ := List.mem_map.1 (RangeTable.mem_of_mem_ofList h)
  exact ⟨m, hm, rfl⟩

/-- An operation encloses what is written of its slots. -/
theorem encloses_placedSlot {s : PlacedSlot}
    (hs : s ∈ placedSlots o (depth + 1) 0 (bodyStart start n) n.children) (path : String) :
    (Span.mk start (start + byteLength (operationDraft o path depth start n).chars)).encloses
      ⟨s.start, s.stop o (depth + 1)⟩ = true := by
  obtain ⟨before, after, hchars, hstart⟩ := exists_of_mem_placedSlots hs path
  unfold bodyStart at hchars hstart
  rw [Span.encloses_iff, operationDraft_eq, PlacedSlot.stop, hstart]
  simp only [hchars]
  simp only [byteLength_append]
  omega

/-- The slots of an operation are looked up one by one. -/
theorem Draft.Shows.slots (h : whole.Shows o path depth start n) (hkind : n.kind = .operation) :
    ∃ (r : Span) (rs : List Span), (Document.ofDraft whole).table.range? path = some r ∧
      (slotPaths path n).map (Document.ofDraft whole).table.range? = rs.map some ∧
      rs.Pairwise (fun s t => s.stop ≤ t.start) ∧ ∀ s ∈ rs, r.encloses s = true := by
  refine ⟨_, (placedSlots o (depth + 1) 0 (bodyStart start n) n.children).map fun s =>
    ⟨s.start, s.stop o (depth + 1)⟩, h.range?, ?_, ?_, ?_⟩
  · rw [slotPaths_eq o path (depth + 1) (bodyStart start n), List.map_map, List.map_map]
    refine List.map_congr_left fun s hs => ?_
    have hrange := (h.slot hkind hs).range?
    rw [← s.draft_eq, s.chars_draft] at hrange
    exact hrange
  · exact List.pairwise_map.2 pairwise_placedSlots
  · intro t ht
    obtain ⟨s, hs, rfl⟩ := List.mem_map.1 ht
    rw [partDraft_of_operation hkind]
    exact encloses_placedSlot hs path

theorem Draft.Shows.bracketed (h : whole.Shows o path depth start n) :
    ∃ r, (Document.ofDraft whole).table.range? path = some r ∧ r.isEmpty = false ∧
      ∃ inner, slice whole.chars r =
        (frame n).1.toList ++ (frame n).2.1 :: (inner ++ [(frame n).2.2]) := by
  obtain ⟨inner, hchars⟩ := exists_chars_partDraft o path depth start n
  refine ⟨_, h.range?, ?_, inner, ?_⟩
  · have hpos : 0 < byteLength (partDraft o path depth start n).chars :=
      byteLength_pos (by simp [hchars])
    simp only [Span.isEmpty, decide_eq_false_iff_not]
    omega
  · rw [h.holds.chars.slice_eq, hchars]

/-- Any operation can be laid out, whatever stands in its nodes. The table fits the text, and the
line of each key is asked for at a place of the text that is written when its entity is closed. -/
theorem fits_document {tree : Node} (hkind : tree.kind = .operation)
    (hplaceholder : tree.isPlaceholder = false) (o : Options) :
    (document o tree).Fits tree ∧
      ∀ m ∈ (draft o tree).marks, ∀ key bounds, m.extent = .line key bounds →
        (∃ path n, IsPart tree path n ∧ n.kind ≠ .operation ∧
          (document o tree).table.range? path = some bounds) ∧
        lineWithin? (cutAt bounds.stop (document o tree).text.toList).1 key bounds =
          .ok (m.extent.range (document o tree).text.toList) := by
  have hdraft : draft o tree = operationDraft o Path.operationWord 0 0 tree := by
    simp [draft, hkind, hplaceholder]
  have htext : (Document.ofDraft (operationDraft o Path.operationWord 0 0 tree)).text.toList =
      (operationDraft o Path.operationWord 0 0 tree).chars := String.toList_ofList
  have hshows := shows_root hkind o
  have hholds := hshows.holds
  rw [partDraft_of_operation hkind] at hholds
  have hlies := hholds.liesIn
  rw [document, hdraft]
  refine ⟨⟨?_, ?_, ?_, ?_, ?_⟩, ?_⟩
  · rw [hshows.range?, partDraft_of_operation hkind, htext, Nat.zero_add]
  · intro e he
    obtain ⟨m, hm, hrange⟩ := range_of_mem_ofDraft he
    obtain ⟨hle, hstart, hstop⟩ := (hlies m hm).range
    rw [htext, hrange]
    exact ⟨hle, hstop.le, hstart, hstop⟩
  · intro path n hpart
    obtain ⟨depth, start, hshows⟩ := hpart.exists_shows hkind
    rw [htext]
    exact hshows.bracketed
  · intro path n hpart hoperation
    obtain ⟨depth, start, hshows⟩ := hpart.exists_shows hkind
    exact hshows.slots hoperation
  · intro path n hpart hentity
    obtain ⟨depth, start, hshows⟩ := hpart.exists_shows hkind
    exact ⟨_, hshows.range?, fun p hp hproperty q hq => hshows.property hentity hp hproperty hq⟩
  · intro m hm key bounds hline
    have hlie := hlies m hm
    rw [hline] at hlie
    rw [← partDraft_of_operation hkind] at hm
    rw [htext, hline]
    exact ⟨hshows.line .root hm hline, hlie.lineWithin?.2⟩

/-- A tree that no text is read as: the root has no name and holds a property, a key is repeated,
and keys, types and values have line breaks and brackets in them. -/
theorem fits_document_unreadable :
    let property (key : String) (value : Option String) (items : List (Option String)) : Node :=
      ⟨.property, "x/" ++ key, ⟨9, 3⟩, value,
        items.map fun item => ⟨.property, "", ⟨7, 0⟩, item, []⟩⟩
    let tree : Node := ⟨.operation, "?", ⟨5, 2⟩, none,
      [property "p" none [],
        ⟨.container, "", ⟨0, 0⟩, none,
          [property "k\r" (some "(\r\n]é") [], property "k\r" none [some "1\n", none]]⟩,
        ⟨.operation, "", ⟨1, 0⟩, some "f)\n", []⟩,
        ⟨.entity, "", ⟨1, 0⟩, some "e[\r", [property "" none []]⟩]⟩
    tree.kind = .operation ∧ tree.isPlaceholder = false ∧ (document .minified tree).Fits tree ∧
      (document .minified tree).text =
        "(result_container[k\r: (\r\n]é, k\r: 1\n, ], f)\n(), e[\r[:])" ∧
      (document .minified tree).table.entries.map (fun e => (e.1, e.2.range)) =
        [("operation", ⟨0, 55⟩), ("operation/entities[0]", ⟨1, 39⟩),
          ("operation/entities[0]/k\r", ⟨25, 35⟩), ("operation/entities[0]/k\r[0]", ⟨25, 35⟩),
          ("operation/entities[0]/k\r[1]", ⟨25, 35⟩),
          ("operation/entities[1]/operation", ⟨41, 46⟩), ("operation/entities[2]", ⟨48, 54⟩),
          ("operation/entities[2]/", ⟨48, 54⟩)] := by
  intro property tree
  have hplaceholder : tree.isPlaceholder = false := by decide
  exact ⟨rfl, hplaceholder, (fits_document rfl hplaceholder .minified).1, by decide +kernel,
    by decide +kernel⟩

end ProblemScript.Layout
