import ProblemScript.Proofs.Layout.Reread

/-! A tree that is not level does not come back from its layout. Its last item leaves a bracket
open, which swallows the closing parentheses behind it: the entity of that item then ends in a
parenthesis and is passed over, so that fewer nodes are read than were laid out. -/
namespace ProblemScript.Layout
open Text ProblemScript.Bracket Segment

/-- White space and closing parentheses. -/
def IsJunk (cs : List Char) : Prop := ∀ c ∈ cs, isBlank c = true ∨ c = ')'

theorem IsJunk.not_mem_comma {cs : List Char} (h : IsJunk cs) : ',' ∉ cs := by
  intro hc
  rcases h ',' hc with h | h
  · exact absurd h (by decide)
  · exact absurd h (by decide)

theorem isJunk_append {xs ys : List Char} (hx : IsJunk xs) (hy : IsJunk ys) :
    IsJunk (xs ++ ys) := by
  intro c hc
  rcases List.mem_append.1 hc with hc | hc
  · exact hx c hc
  · exact hy c hc

theorem isJunk_of_allBlank {b : List Char} (h : AllBlank b) : IsJunk b := fun c hc => .inl (h c hc)

/-- Junk with a parenthesis in it ends in one, apart from white space. -/
theorem IsJunk.exists_getLast {cs : List Char} (h : IsJunk cs) (hmem : ')' ∈ cs) :
    ∃ front b, cs = front ++ b ∧ AllBlank b ∧ IsJunk front ∧ front.getLast? = some ')' := by
  obtain ⟨b, hb, hcs⟩ := exists_trim cs
  have hne : trim cs ≠ [] := by
    intro hnil
    exact absurd ((trim_eq_nil_iff cs).1 hnil ')' hmem) (by decide)
  have hfront : IsJunk (cs.takeWhile isBlank ++ trim cs) := by
    intro c hc
    exact h c (by rw [hcs]; exact List.mem_append_left _ hc)
  refine ⟨cs.takeWhile isBlank ++ trim cs, b, hcs, hb, hfront, ?_⟩
  have hlast := List.getLast?_eq_some_getLast hne
  have hblank := getLast?_trim cs _ hlast
  rw [List.getLast?_append_of_ne_nil _ hne, hlast]
  rcases hfront _ (List.mem_append_right _ (List.getLast_mem hne)) with h' | h'
  · rw [hblank] at h'
    simp at h'
  · rw [h']

/-- What stands before the closing bracket of junk is junk. -/
theorem IsJunk.enclosed {cs : List Char} (h : IsJunk cs) (n : Nat) :
    IsJunk (Bracket.enclosed n cs).1 := by
  obtain ⟨rest, hcs, -⟩ := enclosed_append n cs
  intro c hc
  exact h c (by rw [hcs]; exact List.mem_append_left _ hc)

/-- The first parenthesis behind an open bracket closes nothing but that bracket. -/
theorem enclosed_junk {body b junk : List Char} (hbody : Within 0 0 0 body) (hd : 0 < depth body)
    (hb : AllBlank b) :
    (enclosed 1 (body ++ b ++ ')' :: junk)).1 =
      body ++ b ++ ')' :: (enclosed (depth body).toNat junk).1 := by
  have hneutral := neutral_of_allBlank hb
  have hclosing : weight ')' = -1 := rfl
  have hdepth : depth (body ++ b ++ [')']) = depth body - 1 := by
    rw [depth_append, depth_append, depth_of_neutral hneutral, depth_cons, depth_nil, hclosing]
    omega
  have hwithin : Within 1 1 (1 : Nat) (body ++ b ++ [')']) := by
    refine within_append.2 ⟨within_append.2 ⟨(within_add 1).2 hbody, ?_⟩, ?_⟩
    · exact within_of_neutral hneutral (by omega)
    · rw [depth_append, depth_of_neutral hneutral]
      exact ⟨fun h => absurd h (by decide), by rw [hclosing]; omega, trivial⟩
  have hopen : ((1 : Nat) + (depth body - 1)).toNat = (depth body).toNat := by omega
  have hsplit : body ++ b ++ ')' :: junk = body ++ b ++ [')'] ++ junk := by simp
  rw [hsplit, enclosed_append_of_within (by omega) hwithin, hdepth, hopen]
  simp

/-- The last cell of a row takes the junk behind it. -/
theorem Cell.IsProper.splitFrom_junk {lo : Int} {c : Cell} (hc : c.IsProper lo)
    {front b : List Char} (hfront : IsJunk front) (hlast : front.getLast? = some ')')
    (hb : AllBlank b) (k : Nat) :
    splitFrom k (c.gap ++ c.chars ++ (front ++ b)) =
      [⟨k + byteLength c.gap, c.chars ++ front⟩] := by
  have hsolid := hc.solid_append.append_of_not_mem
    (isJunk_append hfront (isJunk_of_allBlank hb)).not_mem_comma
  have hne : c.chars ++ front ≠ [] := by simp [hc.nonempty]
  have htrim : trim (c.chars ++ front) = c.chars ++ front := by
    apply trim_eq_self
    · intro d hd
      have hhead := head?_trim c.chars
      rw [hc.trimmed] at hhead
      rw [List.head?_append_of_ne_nil _ hc.nonempty] at hd
      exact hhead d hd
    · intro d hd
      rw [List.getLast?_append, hlast] at hd
      obtain rfl : ')' = d := by simpa using hd
      decide
  rw [hsolid.splitFrom_eq, ← List.append_assoc, List.append_assoc c.gap,
    locate_singleton hc.gap htrim hne hb]

variable {path : String} {n : Node}

/-- An entity with junk behind it is passed over. -/
theorem ofSegment?_entity_junk (h : n.RegularEntity path) {junk : List Char}
    (hlast : junk.getLast? = some ')') (o : Options) (depth start : Nat) :
    Slot.ofSegment? ⟨start, slotChars o depth n ++ junk⟩ = none := by
  have hchars : slotChars o depth n ++ junk =
      (entityType n).toList ++ '[' :: (Cell.row (propertiesCells o (depth + 1) 0 n.children) ++
        o.tail depth n.children.length ++ [']'] ++ junk) := by
    rw [slotChars, slotDraft, if_neg h.kind_ne_operation, chars_entityDraft h]
    simp
  have hcall : Call.ofSegment? start (slotChars o depth n ++ junk) = none := by
    have hsquare := Call.ofSegment?_of_square (isIdentifier_entityType h) allBlank_nil
    rw [List.append_nil] at hsquare
    rw [hchars]
    exact hsquare _ start
  have hentity : EntitySource.ofSegment? start (slotChars o depth n ++ junk) = none := by
    cases he : EntitySource.ofSegment? start (slotChars o depth n ++ junk) with
    | none => rfl
    | some e =>
      obtain ⟨-, -, b, body, -, hraw, -⟩ := EntitySource.ofSegment?_eq_some he
      have hend := congrArg List.getLast? hraw
      rw [List.getLast?_append, hlast, List.getLast?_concat] at hend
      simp at hend
  rw [Slot.ofSegment?, hcall, hentity]
  rfl

theorem ofSegment?_operation_junk (h : n.RegularOperation path) {junk : List Char}
    (hlast : junk.getLast? = some ')') (o : Options) (depth start : Nat) :
    Slot.ofSegment? ⟨start, slotChars o depth n ++ junk⟩ =
      some (.call (laidOutCall o depth start n junk)) := by
  have hjunk : (')' :: junk).getLast? = some ')' := by
    rw [List.getLast?_cons, hlast]
    rfl
  rw [Slot.ofSegment?, ofSegment?_slotChars h hjunk]
  rfl

theorem slotsCells_append (o : Options) (depth index : Nat) (ms ns : List Node) :
    slotsCells o depth index (ms ++ ns) =
      slotsCells o depth index ms ++ slotsCells o depth (index + ms.length) ns := by
  induction ms generalizing index with
  | nil => rfl
  | cons m ms ih =>
    rw [List.cons_append, slotsCells, ih, slotsCells, List.cons_append, List.length_cons,
      Nat.add_assoc, Nat.add_comm 1]

theorem length_nodes_eq_of_shape_eq {ms ns : List Node}
    (h : ms.map Node.shape = ns.map Node.shape) :
    (Node.nodesOf ms).length = (Node.nodesOf ns).length := by
  have hlength : ∀ rs : List Node,
      (Node.nodesOf rs).length = (Node.nodesOf (rs.map Node.shape)).length := by
    intro rs
    simp [Node.nodesOf_eq_flatMap, List.flatMap_map, Node.nodes_shape]
  rw [hlength ms, h, ← hlength]

/-- A regular operation that is not level has such a slot at its end, and level ones before it. -/
theorem exists_last_slot (h : n.RegularOperation path) (hl : ¬n.IsLevel) :
    ∃ init last, n.children = init ++ [last] ∧ (∀ c ∈ init, c.IsLevel) ∧ ¬last.IsLevel ∧
      Node.RegularSlots path 0 init ∧ last.RegularSlot path init.length := by
  rw [Node.isLevel_iff_of_ne (by simp [h.kind])] at hl
  have hpair := h.pairwise_isLevel
  obtain ⟨-, -, -, -, hslots⟩ := (Node.regularOperation_iff path n).1 h
  rcases List.eq_nil_or_concat n.children with hnil | ⟨init, last, hchildren⟩
  · exact absurd (by simp [hnil]) hl
  · rw [List.concat_eq_append] at hchildren
    rw [hchildren] at hl hpair hslots
    have hinit : ∀ c ∈ init, c.IsLevel := fun c hc =>
      (List.pairwise_append.1 hpair).2.2 c hc last (by simp)
    obtain ⟨hregular, hlast⟩ := (Node.regularSlots_append _ _ _ _).1 hslots
    rw [Node.regularSlots_cons, Nat.zero_add] at hlast
    refine ⟨init, last, hchildren, hinit, fun hlevel => hl fun c hc => ?_, hregular, hlast.1⟩
    rcases List.mem_append.1 hc with hc | hc
    · exact hinit c hc
    · rwa [List.mem_singleton.1 hc]

/-- The slots read from the layout of an operation that is not level: those before the last, and
whatever the last one becomes with the junk behind it. -/
theorem slots_laidOutCall (h : n.RegularOperation path) (hl : ¬n.IsLevel) {init : List Node}
    {last : Node} (hchildren : n.children = init ++ [last]) (o : Options)
    (depth start : Nat) {junk : List Char} (hjunk : IsJunk junk) :
    ∃ front pos, IsJunk front ∧ front.getLast? = some ')' ∧
      (laidOutCall o depth start n junk).slots =
        (Cell.segments (start + byteLength ((n.value.getD "").toList ++ ['(']))
          (slotsCells o (depth + 1) 0 init)).filterMap Slot.ofSegment? ++
        [⟨pos, slotChars o (depth + 1) last ++ front⟩].filterMap Slot.ofSegment? := by
  obtain ⟨hproper, hlevel⟩ := areProper_slots h o (depth + 1)
  have hblank := o.allBlank_tail depth (slotCount n.children)
  have hdepth : 0 < Bracket.depth (Cell.row (slotsCells o (depth + 1) 0 n.children)) := by
    have hne := mt hproper.depth_row.2.1 (mt hlevel.1 hl)
    have := hproper.depth_row.1
    omega
  have hbody : (laidOutCall o depth start n junk).body = _ :=
    enclosed_junk (hproper.within_row (by omega)) hdepth hblank
  generalize hrest : (enclosed (Bracket.depth (Cell.row (slotsCells o (depth + 1) 0
    n.children))).toNat junk).1 = rest at hbody
  have hjunk' : IsJunk (o.tail depth (slotCount n.children) ++ ')' :: rest) := by
    refine isJunk_append (isJunk_of_allBlank hblank) fun c hc => ?_
    rcases List.mem_cons.1 hc with rfl | hc
    · exact .inr rfl
    · rw [← hrest] at hc
      exact hjunk.enclosed _ c hc
  obtain ⟨front, b, hsplit, hb, hfront, hend⟩ := hjunk'.exists_getLast (by simp)
  have hcells : slotsCells o (depth + 1) 0 n.children =
      slotsCells o (depth + 1) 0 init ++
        [⟨o.gap (depth + 1) init.length, slotChars o (depth + 1) last⟩] := by
    rw [hchildren, slotsCells_append, Nat.zero_add]
    rfl
  have hlast : Cell.IsProper 0 ⟨o.gap (depth + 1) init.length, slotChars o (depth + 1) last⟩ :=
    hproper.proper _ (by simp [hcells])
  have hbefore : ∀ c ∈ slotsCells o (depth + 1) 0 init,
      c.IsProper 0 ∧ Bracket.depth c.chars = 0 := by
    intro c hc
    have hpair := hproper.level
    rw [hcells] at hpair
    exact ⟨hproper.proper c (by simp [hcells, hc]),
      (List.pairwise_append.1 hpair).2.2 c hc _ (List.mem_singleton_self _)⟩
  have hslots := (laidOutCall o depth start n junk).slots_eq
  rw [hbody, List.append_assoc, hsplit, hcells, Cell.splitFrom_row_concat hbefore,
    hlast.splitFrom_junk hfront hend hb, List.filterMap_append] at hslots
  exact ⟨front, _, hfront, hend, hslots⟩

/-- Fewer nodes are read from the layout of a tree that is not level than it has. -/
theorem length_nodes_laidOutCall_lt (h : n.RegularOperation path) (hl : ¬n.IsLevel)
    (text : List Char) (o : Options) (depth start : Nat) {junk : List Char} (hjunk : IsJunk junk) :
    ((laidOutCall o depth start n junk).node text path).nodes.length < n.nodes.length := by
  induction n using Node.children_induction generalizing path depth start junk with
  | node n ih =>
    obtain ⟨init, last, hchildren, hinit, hlast, hregular, hslot⟩ := exists_last_slot h hl
    obtain ⟨front, pos, hfront, hend, hslots⟩ :=
      slots_laidOutCall h hl hchildren o depth start hjunk
    have hread : Rereads text _ init _ := rereads_slots
      (fun i c hc hi => slotRereads hi (hinit c hc) text o (depth + 1)) hregular
      (start + byteLength ((n.value.getD "").toList ++ ['(']))
    simp only [Options.commaLength, if_true, Nat.add_zero, Nat.zero_add] at hread
    generalize hbefore : (Cell.segments (start + byteLength ((n.value.getD "").toList ++ ['(']))
      (slotsCells o (depth + 1) 0 init)).filterMap Slot.ofSegment? = before at hslots hread
    have hcount := length_nodes_eq_of_shape_eq hread.shape
    have hlength : before.length = init.length := by
      simpa using congrArg List.length hread.shape
    rw [Call.node_eq, hslots, Node.nodes_eq, Node.nodes_eq n, hchildren, List.mapIdx_append]
    simp only [Node.nodesOf_eq_flatMap, List.flatMap_append, List.length_cons, List.length_append]
      at hcount ⊢
    rw [hcount, hlength]
    have hfewer : (([⟨pos, slotChars o (depth + 1) last ++ front⟩].filterMap
        Slot.ofSegment?).mapIdx (fun i => Slot.node text path (i + init.length))
        |>.flatMap Node.nodes).length < last.nodes.length := by
      rcases hslot with hslot | hslot
      · have := ih last (by simp [hchildren]) hslot hlast (depth + 1) pos hfront
        simpa [ofSegment?_operation_junk hslot hend, Slot.node] using this
      · simp [ofSegment?_entity_junk hslot hend, Node.nodes_eq last]
    simp only [List.flatMap_cons, List.flatMap_nil, List.append_nil]
    omega

/-- The table of a layout is the one that reading its text gives exactly when the tree is level. -/
theorem table_document_eq_iff (h : n.RegularOperation Path.operationWord) (o : Options) :
    (document o n).table = .ofTree (Node.ofScript (document o n).text) ↔ n.IsLevel := by
  constructor
  · intro htable
    by_contra hl
    have hjunk : IsJunk [] := isJunk_of_allBlank allBlank_nil
    have hfewer := length_nodes_laidOutCall_lt h hl (draft o n).chars o 0 0 hjunk
    have hsize := congrArg List.length (labels_document h o)
    rw [List.length_map, List.length_map] at hsize
    have hle : (RangeTable.ofTree (Node.ofScript (document o n).text)).entries.length ≤
        (Node.ofScript (document o n).text).nodes.length := by
      unfold RangeTable.ofTree
      split
      · simp [RangeTable.empty]
      · exact (RangeTable.size_ofList_le _).trans (by simp)
    rw [htable] at hsize
    rw [ofScript_document h] at hle hsize
    omega
  · exact fun hl => (rereads_document h hl o).2

end ProblemScript.Layout
