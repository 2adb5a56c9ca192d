import ProblemScript.Proofs.Grammar.Tree
import ProblemScript.Proofs.Layout.Draft
import ProblemScript.Proofs.RangeTable
import ProblemScript.Proofs.Tree.Paths

/-! A level tree is read back from its own layout: with the same shape, and with the ranges that the
marks of the layout stand for. Level or not, the table of the layout has the paths and values of the
tree. -/
namespace ProblemScript
open Text ProblemScript.Bracket Segment

namespace PropertyReading
open Layout

theorem splitKey?_key {key : List Char} (hkey : Field.isUsableKey key = true) (value : List Char) :
    Value.splitKey? (key ++ ':' :: value) = some (key, value) := by
  have hsplit := Field.splitKey?_of_isUsableKey hkey allBlank_nil value
  rwa [List.append_nil] at hsplit

/-- A property is made of the segments of its cells. -/
theorem isMadeOf_propertyCells (gap : List Char) {key : List Char}
    (hkey : Field.isUsableKey key = true) {items : List String} (h : Value.IsItemList items)
    (k : Nat) :
    IsMadeOf ⟨key, k + byteLength gap, items⟩ (Cell.segments k (propertyCells gap key items)) := by
  cases items with
  | nil => exact ⟨_, [], [], rfl, rfl, splitKey?_key hkey [], by simp, rfl⟩
  | cons x xs =>
    refine ⟨_, _, ' ' :: x.toList, rfl, rfl, splitKey?_key hkey _, fun t ht => ?_, ?_⟩
    · obtain ⟨c, hc, hchars⟩ := Cell.exists_of_mem_segments ht
      obtain ⟨y, hy, rfl⟩ := List.mem_map.1 hc
      rw [hchars]
      exact h.keyless y (by simpa using hy)
    · have hxs : xs.map (fun y => String.ofList (collapse y.toList)) = xs := by
        refine (List.map_congr_left fun y hy => ?_).trans (List.map_id xs)
        rw [(h.item y (by simp [hy])).collapsed, String.ofList_toList, id]
      have hchars := congrArg (List.map fun cs => String.ofList (collapse cs))
        (Cell.map_chars_segments
          (k + byteLength gap + byteLength (key ++ ':' :: ' ' :: x.toList) + 1)
          (xs.map fun y => ⟨[' '], y.toList⟩))
      simp only [List.map_map, Function.comp_def, hxs] at hchars
      have hfirst : Value.items (' ' :: x.toList) = [x] :=
        (h.item x (by simp)).items_append allBlank_space
      rw [hfirst, itemsOf]
      exact congrArg (x :: ·) hchars

/-- The readings of properties that are laid out from byte `k` on. -/
def laidOut (o : Options) (depth : Nat) : (index k : Nat) → List Node → List PropertyReading
  | _, _, [] => []
  | index, k, n :: ns =>
    let key := k + byteLength (o.gap depth index)
    ⟨n.keyText.toList, key, n.itemTexts⟩ ::
      laidOut o depth (index + 1) (key + byteLength (propertyChars n) + 1) ns

theorem forall₂_laidOut {owner : String} {ns : List Node} (h : ∀ n ∈ ns, n.IsSpelled owner)
    (o : Options) (depth index k : Nat) :
    ∃ parts, List.Forall₂ IsMadeOf (laidOut o depth index k ns) parts ∧
      Cell.segments k (propertiesCells o depth index ns) = parts.flatten := by
  induction ns generalizing index k with
  | nil => exact ⟨[], .nil, rfl⟩
  | cons n ns ih =>
    have hn := h n (by simp)
    obtain ⟨parts, hparts, hflat⟩ := ih (fun m hm => h m (by simp [hm])) (index + 1)
      (k + byteLength (o.gap depth index) + byteLength (propertyChars n) + 1)
    have hoffset : k + byteLength (Cell.led (propertyCells (o.gap depth index) n.keyText.toList
        n.itemTexts)) = k + byteLength (o.gap depth index) + byteLength (propertyChars n) + 1 := by
      have hrow := row_propertyCells_of_isSpelled hn (o.gap depth index)
      obtain ⟨c, cs, hcells⟩ := List.exists_cons_of_ne_nil
        (propertyCells_ne_nil (o.gap depth index) n.keyText.toList n.itemTexts)
      rw [hcells] at hrow ⊢
      rw [Cell.led_cons, hrow, byteLength_cons, byteLength_append,
        show (',').utf8Size = 1 from rfl]
      omega
    refine ⟨_, .cons (isMadeOf_propertyCells _ hn.key hn.items k) hparts, ?_⟩
    rw [propertiesCells, Cell.segments_append, hoffset, hflat, List.flatten_cons]

theorem map_key_laidOut (o : Options) (depth index k : Nat) (ns : List Node) :
    (laidOut o depth index k ns).map (·.key) = ns.map (·.keyText.toList) := by
  induction ns generalizing index k with
  | nil => rfl
  | cons n ns ih => rw [laidOut, List.map_cons, ih, List.map_cons]

/-- Properties are read back from their cells. -/
theorem group_propertiesCells {owner : String} {ns : List Node}
    (h : ∀ n ∈ ns, n.IsSpelled owner) (hpair : ns.Pairwise fun n m => n.keyText ≠ m.keyText)
    (o : Options) (depth index k : Nat) :
    group [] (Cell.segments k (propertiesCells o depth index ns)) =
      laidOut o depth index k ns := by
  obtain ⟨parts, hparts, hflat⟩ := forall₂_laidOut h o depth index k
  have hkeys := map_key_laidOut o depth index k ns
  rw [hflat]
  apply group_flatten hparts
  · rw [hkeys]
    simpa using fun n hn => (h n hn).key
  · rw [hkeys]
    exact List.pairwise_map.2 (hpair.imp fun hne he => hne (String.toList_inj.1 he))
  · simp

end PropertyReading

theorem Node.RegularEntity.pairwise_keyText {path : String} {n : Node} (h : n.RegularEntity path) :
    n.children.Pairwise fun p q => p.keyText ≠ q.keyText := by
  obtain ⟨type, span, properties, -, hprops, hpair, rfl⟩ := h
  refine hpair.imp_of_mem fun {p q} hp hq hpq hkey => hpq.2 ?_
  have hp := congrArg Node.path (hprops p hp).isSpelled.eq
  have hq := congrArg Node.path (hprops q hq).isSpelled.eq
  simp only at hp hq
  rw [hp, hq, hkey]

/-- What a table holds of a node. -/
def Node.entry (n : Node) : String × RangeEntry := (n.path, ⟨n.span, n.value⟩)

namespace Layout

/-- What a table holds of a part of a finished text. -/
def Mark.entry (text : List Char) (m : Mark) : String × RangeEntry :=
  (m.path, ⟨m.extent.range text, m.value⟩)

/-- The nodes `rs` read from `text` are those laid out, with the ranges that their marks say. -/
structure Rereads (text : List Char) (rs ns : List Node) (marks : List Mark) : Prop where
  shape : rs.map Node.shape = ns.map Node.shape
  entries : (Node.nodesOf rs).map Node.entry = marks.map (Mark.entry text)

variable {text : List Char} {owner path : String} {n : Node} {ns : List Node}

theorem Rereads.append {rs rs' ns' : List Node} {marks marks' : List Mark}
    (h : Rereads text rs ns marks) (h' : Rereads text rs' ns' marks') :
    Rereads text (rs ++ rs') (ns ++ ns') (marks ++ marks') := by
  constructor
  · rw [List.map_append, List.map_append, h.shape, h'.shape]
  · rw [Node.nodesOf_eq_flatMap, List.flatMap_append, List.map_append, List.map_append,
      ← Node.nodesOf_eq_flatMap, ← Node.nodesOf_eq_flatMap, h.entries, h'.entries]

/-- A node is read back if its children are, and its own range is the one marked. -/
theorem rereads_node {r : Node} {mark : Mark} {marks : List Mark}
    (hkind : r.kind = n.kind) (hpath : r.path = n.path) (hvalue : r.value = n.value)
    (hmark : r.entry = mark.entry text) (hchildren : Rereads text r.children n.children marks) :
    Rereads text [r] [n] (mark :: marks) := by
  constructor
  · simp only [List.map_cons, List.map_nil, List.cons.injEq, and_true]
    rw [Node.shape_eq r, Node.shape_eq n, hkind, hpath, hvalue, hchildren.shape]
  · rw [Node.nodesOf, Node.nodesOf, List.append_nil, Node.nodes_eq, List.map_cons, List.map_cons,
      hmark, hchildren.entries]

theorem nodesOf_of_leaves (h : ∀ n ∈ ns, n.children = []) : Node.nodesOf ns = ns := by
  induction ns with
  | nil => rfl
  | cons n ns ih =>
    rw [Node.nodesOf, Node.nodes_eq, h n (by simp), ih fun m hm => h m (by simp [hm])]
    rfl

theorem rereads_property (h : n.IsSpelled owner) (bounds : Span) (key : Nat) :
    Rereads text
      [(⟨n.keyText.toList, key, n.itemTexts⟩ : PropertyReading).node text
        (Path.propertyIn owner n.keyText) bounds] [n]
      (propertyMarks owner bounds key n) := by
  have hchildren : n.children =
      Node.itemsOf (Path.propertyIn owner n.keyText) n.span n.itemTexts :=
    congrArg Node.children h.eq
  refine rereads_node h.kind.symm (congrArg Node.path h.eq).symm (congrArg Node.value h.eq).symm
    ?_ ⟨?_, ?_⟩
  · simp only [Mark.entry, propertyValue_eq]
    rfl
  · rw [hchildren, Node.itemsOf_shape]
    exact Node.itemsOf_shape _ _ _
  · have hleaves : ∀ c ∈ Node.itemsOf (Path.propertyIn owner n.keyText)
        (lineWithin text key bounds) n.itemTexts, c.children = [] := by
      intro c hc
      obtain ⟨j, x, -, rfl⟩ := Node.mem_itemsOf hc
      rfl
    rw [PropertyReading.node, nodesOf_of_leaves hleaves, hchildren, Node.itemsOf, Node.itemsOf]
    split
    · rfl
    · apply List.ext_getElem?
      intro j
      cases hj : n.itemTexts[j]? with
      | none => simp [hj]
      | some x => simp [hj, Node.entry, Mark.entry, Extent.range, Node.keyText]

theorem rereads_properties (h : ∀ n ∈ ns, n.IsSpelled owner) (o : Options) (bounds : Span)
    (depth index start : Nat) :
    Rereads text
      ((PropertyReading.laidOut o depth index (start + Options.commaLength index) ns).map fun r =>
        r.node text (Path.propertyIn owner (.ofList r.key)) bounds) ns
      (propertiesMarks o owner bounds depth index start ns) := by
  induction ns generalizing index start with
  | nil => exact ⟨rfl, rfl⟩
  | cons n ns ih =>
    have hkey : start + Options.commaLength index + byteLength (o.gap depth index) =
        start + byteLength (o.lead depth index) := by
      rw [o.byteLength_lead, Nat.add_assoc]
    have hrest := ih (fun m hm => h m (by simp [hm])) (index + 1)
      (start + byteLength (o.lead depth index) + byteLength (propertyChars n))
    have hproperty : Rereads text _ _ _ := rereads_property (h n (by simp)) bounds
      (start + byteLength (o.lead depth index))
    simp only [PropertyReading.laidOut, List.map_cons, hkey, String.ofList_toList, propertiesMarks]
    exact hproperty.append hrest

/-- An entity is read back from its own text. -/
theorem rereads_entity (h : n.RegularEntity path) (text : List Char) (o : Options)
    (depth start : Nat) :
    ∃ e, EntitySource.ofSegment? start (entityDraft o path depth start n).chars = some e ∧
      Rereads text [e.node text path] [n] (entityDraft o path depth start n).marks := by
  have htype := isIdentifier_entityType h
  obtain ⟨hproper, -⟩ :=
    areProper_propertiesCells h.isSpelled h.pairwise_isLevel o (depth + 1) 0
  have hchars := chars_entityDraft h o path depth start
  have hread := EntitySource.ofSegment?_of_type htype allBlank_nil start
    (Cell.row (propertiesCells o (depth + 1) 0 n.children) ++ o.tail depth n.children.length)
  rw [List.append_nil, ← hchars] at hread
  refine ⟨_, hread, ?_⟩
  rw [EntitySource.node_eq, PropertySource.map_reading_ofBody,
    hproper.splitFrom_row (o.allBlank_tail depth n.children.length),
    PropertyReading.group_propertiesCells h.isSpelled h.pairwise_keyText,
    marks_entityDraft h]
  have hvalue :
      n.value = some (entityType n) ∧ n.kind = .ofType (entityType n) ∧ n.path = path := by
    obtain ⟨type, span, properties, -, -, -, rfl⟩ := h
    exact ⟨rfl, rfl, rfl⟩
  refine rereads_node ?_ hvalue.2.2.symm ?_ ?_ ?_
  · simp [hvalue.2.1]
  · simp [hvalue.1]
  · simp [Node.entry, Mark.entry, Extent.range, hchars]
  · rw [hchars]
    exact rereads_properties h.isSpelled o _ (depth + 1) 0 _

/-- A slot is read back from its own text. -/
def SlotRereads (text : List Char) (o : Options) (path : String) (depth i : Nat) (n : Node) :
    Prop :=
  ∀ start, ∃ slot, Slot.ofSegment? ⟨start, slotChars o depth n⟩ = some slot ∧
    Rereads text [slot.node text path i] [n] (slotDraft o path depth i start n).marks

theorem rereads_slots {o : Options} {depth : Nat}
    (hread : ∀ i, ∀ c ∈ ns, c.RegularSlot path i → SlotRereads text o path depth i c)
    {index : Nat} (h : Node.RegularSlots path index ns) (start : Nat) :
    Rereads text
      (((Cell.segments (start + Options.commaLength index) (slotsCells o depth index ns)).filterMap
        Slot.ofSegment?).mapIdx fun j => Slot.node text path (index + j)) ns
      (slotsDraft o path depth index start ns).marks := by
  induction ns generalizing index start with
  | nil => exact ⟨rfl, by simp [slotsCells, Cell.segments, slotsDraft, Node.nodesOf]⟩
  | cons n ns ih =>
    obtain ⟨hn, hns⟩ := (Node.regularSlots_cons _ _ _ _).1 h
    have hhere : start + Options.commaLength index + byteLength (o.gap depth index) =
        start + byteLength (o.lead depth index) := by
      rw [o.byteLength_lead, Nat.add_assoc]
    obtain ⟨slot, hslot, hhead⟩ :=
      hread index n (by simp) hn (start + byteLength (o.lead depth index))
    have hrest := ih (fun i c hc => hread i c (by simp [hc])) hns
      (start + byteLength (o.lead depth index) + byteLength (slotChars o depth n))
    rw [slotsDraft_cons _ _ _ _ _ _ hn.kind_ne]
    simp only [slotsCells, Cell.segments, hhere, List.filterMap_cons, hslot,
      Slot.mapIdx_node_cons, chars_slotDraft]
    exact hhead.append hrest

/-- The call that an operation written at byte `start` is read as, with `junk` behind it. -/
def laidOutCall (o : Options) (depth start : Nat) (n : Node) (junk : List Char) : Call where
  name := (n.value.getD "").toList
  start := start
  bodyStart := start + byteLength ((n.value.getD "").toList ++ ['('])
  rest := Cell.row (slotsCells o (depth + 1) 0 n.children) ++ o.tail depth (slotCount n.children) ++
    ')' :: junk

theorem ofSegment?_slotChars (h : n.RegularOperation path) {junk : List Char}
    (hjunk : (')' :: junk).getLast? = some ')') (o : Options) (depth start : Nat) :
    Call.ofSegment? start (slotChars o depth n ++ junk) =
      some (laidOutCall o depth start n junk) := by
  rw [slotChars, slotDraft, if_pos h.kind, chars_operationDraft h, List.append_assoc,
    List.append_assoc, List.singleton_append, List.cons_append]
  have hlast : (Cell.row (slotsCells o (depth + 1) 0 n.children) ++
      o.tail depth (slotCount n.children) ++ ')' :: junk).getLast? = some ')' := by
    rw [List.getLast?_append, hjunk]
    rfl
  have hread := Call.ofSegment?_of_name h.isIdentifier_value allBlank_nil hlast start
  rw [List.append_nil] at hread
  exact hread

theorem root?_operationDraft (h : n.RegularOperation path) (o : Options) (path' : String) :
    Call.root? (operationDraft o path' 0 0 n).chars = some (laidOutCall o 0 0 n []) := by
  rw [chars_operationDraft h, List.append_assoc, List.cons_append,
    Call.root?_of_name h.isIdentifier_value]
  simp only [laidOutCall, Nat.zero_add]

/-- A level operation is read back if its slots are. -/
theorem rereads_call (h : n.RegularOperation path) (hl : n.IsLevel) {o : Options} {depth : Nat}
    (hread : ∀ i, ∀ c ∈ n.children, c.RegularSlot path i → SlotRereads text o path (depth + 1) i c)
    (start : Nat) :
    Rereads text [(laidOutCall o depth start n []).node text path] [n]
      (operationDraft o path depth start n).marks := by
  obtain ⟨hproper, hlevel⟩ := areProper_slots h o (depth + 1)
  have hblank := o.allBlank_tail depth (slotCount n.children)
  obtain ⟨hwithin, hdepth⟩ := hproper.within_row_append (by omega) hblank
  have hzero : Bracket.depth (Cell.row (slotsCells o (depth + 1) 0 n.children)) = 0 :=
    hproper.depth_row.2.2 (hlevel.2 hl)
  have henclosed := enclosed_eq hwithin (by rw [hdepth, hzero])
    (show isClosing ')' = true from rfl) []
  obtain ⟨hkind, hpath, ⟨name, hname, -⟩, -, hslots⟩ := (Node.regularOperation_iff path n).1 h
  have hrest := rereads_slots hread hslots (start + byteLength ((n.value.getD "").toList ++ ['(']))
  rw [Call.node_eq, Call.slots_eq]
  simp only [laidOutCall, Call.body, henclosed, hproper.splitFrom_row hblank]
  rw [operationDraft_eq]
  refine rereads_node hkind.symm hpath.symm ?_ ?_ ?_
  · simp [hname]
  · rw [chars_slotsDraft_zero h.kind_ne_of_mem]
    simp only [Node.entry, Mark.entry, Extent.range, Call.span, Call.body, Call.isClosed, henclosed,
      hname, Option.getD_some, String.ofList_toList, if_true, byteLength_append, byteLength_cons,
      byteLength_nil, show (')').utf8Size = 1 from rfl]
    congr 3
    omega
  · simpa [Options.commaLength] using hrest

/-- A level slot is read back from its own text. -/
theorem slotRereads {i : Nat} (h : n.RegularSlot path i) (hl : n.IsLevel) (text : List Char)
    (o : Options) (depth : Nat) : SlotRereads text o path depth i n := by
  induction n using Node.children_induction generalizing path i depth with
  | node n ih =>
    intro start
    rcases h with h | h
    · have hread : ∀ j, ∀ c ∈ n.children,
          c.RegularSlot (Path.operationIn (Path.slotIn path i)) j →
            SlotRereads text o (Path.operationIn (Path.slotIn path i)) (depth + 1) j c :=
        fun j c hc hj => ih c hc hj (((Node.isLevel_iff n).1 hl).2 c hc) (depth + 1)
      have hcall := rereads_call h hl hread start
      have hsegment :=
        ofSegment?_slotChars h (show [')'].getLast? = some ')' from rfl) o depth start
      rw [List.append_nil] at hsegment
      refine ⟨.call (laidOutCall o depth start n []), by rw [Slot.ofSegment?, hsegment]; rfl, ?_⟩
      rw [slotDraft, if_pos h.kind]
      exact hcall
    · obtain ⟨e, he, hentity⟩ := rereads_entity h text o depth start
      have hchars : slotChars o depth n =
          (entityDraft o (Path.slotIn path i) depth start n).chars := by
        rw [slotChars, slotDraft, if_neg h.kind_ne_operation]
        rfl
      have hcall : Call.ofSegment? start (slotChars o depth n) = none := by
        have hsquare := Call.ofSegment?_of_square (isIdentifier_entityType h) allBlank_nil
        rw [List.append_nil] at hsquare
        rw [hchars, chars_entityDraft h, List.append_assoc, List.cons_append]
        exact hsquare _ start
      refine ⟨.entity e, by rw [Slot.ofSegment?, hcall, hchars, he]; rfl, ?_⟩
      rw [slotDraft, if_neg h.kind_ne_operation]
      exact hentity

/-- Marks and nodes have the same paths and values, in the same order. -/
def SameLabels (ns : List Node) (marks : List Mark) : Prop :=
  marks.map (fun m => (m.path, m.value)) = (Node.nodesOf ns).map fun n => (n.path, n.value)

theorem SameLabels.append {ns ns' : List Node} {marks marks' : List Mark}
    (h : SameLabels ns marks) (h' : SameLabels ns' marks') :
    SameLabels (ns ++ ns') (marks ++ marks') := by
  simp only [SameLabels, Node.nodesOf_eq_flatMap, List.flatMap_append, List.map_append] at h h' ⊢
  rw [h, h']

theorem Rereads.sameLabels {rs : List Node} {marks : List Mark} (h : Rereads text rs ns marks) :
    SameLabels ns marks := by
  have hlabels : ∀ ms : List Node, (Node.nodesOf ms).map (fun m => (m.path, m.value)) =
      (Node.nodesOf (ms.map Node.shape)).map fun m => (m.path, m.value) := by
    intro ms
    simp only [Node.nodesOf_eq_flatMap, List.flatMap_map, List.map_flatMap, Node.nodes_shape,
      List.map_map, Function.comp_def, Node.path_shape, Node.value_shape]
  have hentries := congrArg (List.map fun e : String × RangeEntry => (e.1, e.2.value)) h.entries
  rw [List.map_map, List.map_map] at hentries
  calc marks.map (fun m => (m.path, m.value))
      = (Node.nodesOf rs).map (fun m => (m.path, m.value)) := hentries.symm
    _ = (Node.nodesOf ns).map (fun m => (m.path, m.value)) := by rw [hlabels rs, h.shape, ← hlabels]

/-- The marks of a regular operation are labelled as its nodes are. -/
theorem sameLabels_operationDraft (h : n.RegularOperation path) (o : Options) (depth start : Nat) :
    SameLabels [n] (operationDraft o path depth start n).marks := by
  induction n using Node.children_induction generalizing path depth start with
  | node n ih =>
    obtain ⟨-, hpath, -, -, hslots⟩ := (Node.regularOperation_iff path n).1 h
    have hslot : ∀ c ∈ n.children, ∀ i start, c.RegularSlot path i →
        SameLabels [c] (slotDraft o path (depth + 1) i start c).marks := by
      intro c hc i start hi
      unfold slotDraft
      rcases hi with hi | hi
      · rw [if_pos hi.kind]
        exact ih c hc hi (depth + 1) start
      · rw [if_neg hi.kind_ne_operation]
        obtain ⟨e, -, hread⟩ := rereads_entity hi [] o (depth + 1) start
        exact hread.sameLabels
    have hall : ∀ ns index start, (∀ c ∈ ns, c ∈ n.children) → Node.RegularSlots path index ns →
        SameLabels ns (slotsDraft o path (depth + 1) index start ns).marks := by
      intro ns
      induction ns with
      | nil =>
        intro index start _ _
        simp [SameLabels, slotsDraft, Node.nodesOf]
      | cons c ns ihns =>
        intro index start hns hregular
        obtain ⟨hc, hrest⟩ := (Node.regularSlots_cons _ _ _ _).1 hregular
        rw [slotsDraft_cons _ _ _ _ _ _ hc.kind_ne]
        exact (hslot c (hns c (by simp)) index _ hc).append
          (ihns _ _ (fun d hd => hns d (by simp [hd])) hrest)
    have hchildren := hall n.children 0
      (start + byteLength ((n.value.getD "").toList ++ ['('])) (fun c hc => hc) hslots
    rw [operationDraft_eq]
    simp only [SameLabels, Node.nodesOf, List.append_nil, Node.nodes_eq n, List.map_cons,
      List.cons.injEq] at hchildren ⊢
    exact ⟨by rw [hpath], hchildren⟩

theorem draft_eq (h : n.RegularOperation path) (o : Options) :
    draft o n = operationDraft o Path.operationWord 0 0 n := by
  simp [draft, h.isPlaceholder_eq_false, h.kind]

/-- The table of a layout has an entry for every node of the tree, in the order of the tree. -/
theorem labels_document (h : n.RegularOperation Path.operationWord) (o : Options) :
    (document o n).table.entries.map (fun e => (e.1, e.2.value)) =
      n.nodes.map fun m => (m.path, m.value) := by
  have hlabels := sameLabels_operationDraft h o 0 0
  rw [SameLabels, Node.nodesOf, Node.nodesOf, List.append_nil] at hlabels
  have hpaths := congrArg (List.map Prod.fst) hlabels
  rw [List.map_map, List.map_map] at hpaths
  have hnodup := h.distinctPaths.nodup
  rw [document, Document.ofDraft, draft_eq h, RangeTable.entries_ofList]
  · rw [List.map_map]
    exact hlabels
  · -- No two nodes of a regular tree have the same path, so no entry replaces another.
    rw [List.map_map]
    exact hpaths ▸ hnodup

theorem ofScript_document (h : n.RegularOperation path) (o : Options) :
    Node.ofScript (document o n).text =
      (laidOutCall o 0 0 n []).node (draft o n).chars Path.operationWord := by
  rw [document, Document.ofDraft, Node.ofScript, String.toList_ofList, draft_eq h,
    root?_operationDraft h]

/-- A level tree is read back from its own draft. -/
theorem rereads_draft (h : n.RegularOperation Path.operationWord) (hl : n.IsLevel) (o : Options) :
    Rereads (draft o n).chars [Node.ofScript (document o n).text] [n] (draft o n).marks := by
  have hread := rereads_call h hl (fun i c hc hi =>
    slotRereads hi (((Node.isLevel_iff n).1 hl).2 c hc) (draft o n).chars o 1) 0
  rw [ofScript_document h]
  rw [draft_eq h] at hread ⊢
  exact hread

theorem rereads_document (h : n.RegularOperation Path.operationWord) (hl : n.IsLevel)
    (o : Options) :
    (Node.ofScript (document o n).text).shape = n.shape ∧
      (document o n).table = .ofTree (Node.ofScript (document o n).text) := by
  have hread := rereads_draft h hl o
  have hentries := hread.entries
  rw [Node.nodesOf, Node.nodesOf, List.append_nil] at hentries
  refine ⟨by simpa using hread.shape, ?_⟩
  have hplaceholder : (Node.ofScript (document o n).text).isPlaceholder = false := by
    rw [ofScript_document h, Call.node_eq]
    rfl
  rw [RangeTable.ofTree, hplaceholder, if_neg (by simp)]
  exact congrArg RangeTable.ofList hentries.symm

end Layout
end ProblemScript
