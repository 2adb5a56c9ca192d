import ProblemScript.Proofs.Layout.Parts

/-! Where the marks of a layout lie, for trees of any sort. Keys and values may hold line breaks,
carriage returns and brackets, and may be missing; still each part is a stretch of the text, and
the line of a key can be told as soon as the bracket of its entity is written. -/
namespace ProblemScript
open Text

namespace Text

theorem IsBoundary.le {text : List Char} {n : Nat} (h : IsBoundary text n) :
    n ≤ byteLength text := by
  obtain ⟨before, after, rfl, rfl⟩ := isBoundary_iff.1 h
  simp

/-- Unless a carriage return stands before it, a place is within its line. -/
theorem lineAt_around {before : List Char} (h : before.getLast? ≠ some '\r') (after : List Char) :
    (lineAt (before ++ after) (byteLength before)).start ≤ byteLength before ∧
      byteLength before ≤ (lineAt (before ++ after) (byteLength before)).stop := by
  obtain ⟨pre, hpre⟩ := exists_line_before before after
  have hbefore := congrArg byteLength hpre
  rw [byteLength_append] at hbefore
  have hhead : byteLength (lineParts before after).1 ≤
      byteLength (dropReturn ((lineParts before after).1 ++ (lineParts before after).2)) := by
    cases htail : (lineParts before after).2 with
    | cons c cs =>
      apply byteLength_le_of_prefix
      unfold dropReturn
      split
      · rw [List.dropLast_append_of_ne_nil (by simp)]
        exact List.prefix_append _ _
      · exact List.prefix_append _ _
    | nil =>
      have hlast : (lineParts before after).1.getLast? ≠ some '\r' := by
        intro hreturn
        rw [hpre, List.getLast?_append, hreturn] at h
        exact h rfl
      rw [List.append_nil, dropReturn, if_neg hlast]
  rw [lineAt_append]
  simp only
  omega

/-- The line of a place within bounds that end in a bracket is known once the bracket is written. -/
theorem lineWithin_of_closed (before mid after : List Char) (k : Nat) :
    lineWithin (before ++ (mid ++ [']']) ++ after) (byteLength before)
        ⟨k, byteLength (before ++ (mid ++ [']']))⟩ =
      lineWithin (before ++ (mid ++ [']'])) (byteLength before)
        ⟨k, byteLength (before ++ (mid ++ [']']))⟩ := by
  have hassoc : before ++ (mid ++ [']']) ++ after = before ++ (mid ++ ']' :: after) := by simp
  obtain ⟨pre, hpre⟩ := exists_line_before before after
  have hbefore := congrArg byteLength hpre
  rw [byteLength_append] at hbefore
  unfold lineWithin
  rw [hassoc, lineAt_append, lineAt_append]
  unfold lineParts at hpre hbefore ⊢
  by_cases hbreak : '\n' ∈ mid
  · -- The line ends in front of the bracket, so nothing behind it matters.
    obtain ⟨m, m', rfl⟩ := List.append_of_mem hbreak
    have htail : ∀ rest, (m ++ '\n' :: m' ++ rest).takeWhile (· != '\n') =
        m.takeWhile (· != '\n') := by
      intro rest
      rw [List.append_assoc, List.cons_append, takeWhile_append_cons (by decide)]
    simp only [htail]
  · -- The line goes on over the bracket, so both are cut down to it.
    have hmid : ∀ c ∈ mid, (c != '\n') = true := by
      intro c hc
      rw [bne_iff_ne]
      rintro rfl
      exact hbreak hc
    have htail : ∀ rest, (mid ++ ']' :: rest).takeWhile (· != '\n') =
        mid ++ ']' :: rest.takeWhile (· != '\n') := by
      intro rest
      rw [List.takeWhile_append_of_pos hmid]
      rfl
    generalize (before.reverse.takeWhile (· != '\n')).reverse = head at hbefore ⊢
    have hlong : ∀ rest, byteLength (head ++ (mid ++ [']'])) ≤
        byteLength (dropReturn (head ++ (mid ++ ']' :: rest))) := by
      intro rest
      have hprefix := dropReturn_append_cons (show ']' ≠ '\r' by decide) (head ++ mid) rest
      rw [List.append_assoc, List.append_assoc] at hprefix
      exact byteLength_le_of_prefix hprefix
    have hafter := hlong (after.takeWhile (· != '\n'))
    have hnone := hlong []
    simp only [htail, List.takeWhile_nil, Span.clampTo, Span.mk.injEq, true_and,
      byteLength_append] at hafter hnone ⊢
    omega

end Text

namespace Layout

/-- The extent is a stretch of the text. That of a line has its key behind a character other than
a carriage return, and a bracket closes its bounds. -/
inductive Extent.LiesIn (text : List Char) : Extent → Prop
  | exact {k : Nat} {part : List Char} (h : At text k part) :
    LiesIn text (.exact ⟨k, k + byteLength part⟩)
  | line {k : Nat} {head rest : List Char} (h : At text k (head ++ (rest ++ [']'])))
    (hne : head ≠ []) (hlast : head.getLast? ≠ some '\r') :
    LiesIn text (.line (k + byteLength head) ⟨k, k + byteLength (head ++ (rest ++ [']']))⟩)

/-- The range that an extent takes up is one of the text. -/
theorem Extent.LiesIn.range {text : List Char} {e : Extent} (h : e.LiesIn text) :
    (e.range text).start ≤ (e.range text).stop ∧
      IsBoundary text (e.range text).start ∧ IsBoundary text (e.range text).stop := by
  cases h with
  | exact h => exact ⟨Nat.le_add_right _ _, h.isBoundary, h.isBoundary_stop⟩
  | @line k head rest h hne hlast =>
    have hkey := h.left.isBoundary_stop
    refine ⟨?_, isBoundary_lineWithin hkey h.isBoundary h.isBoundary_stop⟩
    obtain ⟨before, after, rfl, rfl⟩ := h
    have hreturn : (before ++ head).getLast? ≠ some '\r' := by
      rwa [List.getLast?_append_of_ne_nil _ hne]
    have hline := lineAt_around hreturn (rest ++ [']'] ++ after)
    have hcat : before ++ (head ++ (rest ++ [']'])) ++ after =
        before ++ head ++ (rest ++ [']'] ++ after) := by simp
    simp only [Extent.range, lineWithin, Span.clampTo, hcat]
    simp only [byteLength_append] at hline ⊢
    omega

/-- The line of a key is found in the text up to the bracket of its entity, and stays the same in
the finished text. -/
theorem Extent.LiesIn.lineWithin? {text : List Char} {key : Nat} {bounds : Span}
    (h : (Extent.line key bounds).LiesIn text) :
    IsBoundary text bounds.stop ∧
      Text.lineWithin? (cutAt bounds.stop text).1 key bounds =
        .ok (lineWithin text key bounds) := by
  cases h with
  | @line k head rest h hne hlast =>
    refine ⟨h.isBoundary_stop, ?_⟩
    obtain ⟨before, after, rfl, rfl⟩ := h
    have hclosed : before ++ (head ++ (rest ++ [']'])) = before ++ head ++ (rest ++ [']']) := by
      simp
    have hstop : byteLength before + byteLength (head ++ (rest ++ [']'])) =
        byteLength (before ++ head ++ (rest ++ [']'])) := by
      rw [← hclosed, byteLength_append before]
    have hkey : byteLength before + byteLength head = byteLength (before ++ head) := by
      rw [byteLength_append]
    have hboundary : IsBoundary (before ++ head ++ (rest ++ [']'])) (byteLength (before ++ head)) :=
      isBoundary_iff.2 ⟨_, _, rfl, rfl⟩
    rw [hclosed, hstop, hkey, cutAt_byteLength, Text.lineWithin?, if_pos hboundary,
      lineWithin_of_closed]

variable {o : Options}

/-- No lead ends in a carriage return, and only the first may be empty. -/
theorem Options.getLast?_lead (o : Options) (depth index : Nat) :
    (o.lead depth index).getLast? ≠ some '\r' ∧ (index ≠ 0 → o.lead depth index ≠ []) := by
  have hnone : '\r' ∉ o.lead depth index := by
    cases hs : o.style <;> by_cases hi : index = 0 <;>
      simp [lead, separator, newline, hs, hi]
  refine ⟨fun hlast => hnone (List.mem_of_getLast? hlast), fun hindex => ?_⟩
  obtain ⟨i, rfl⟩ := Nat.exists_eq_succ_of_ne_zero hindex
  rw [Nat.succ_eq_add_one, o.lead_succ]
  simp

theorem extent_of_mem_propertyMarks {owner : String} {bounds : Span} {key : Nat} {n : Node}
    {m : Mark} (h : m ∈ propertyMarks owner bounds key n) : m.extent = .line key bounds := by
  unfold propertyMarks at h
  rcases List.mem_cons.1 h with rfl | h
  · rfl
  · obtain ⟨j, hj, rfl⟩ := List.mem_mapIdx.1 h
    rfl

/-- Each mark of properties is the line of a key among them. -/
theorem exists_of_mem_propertiesMarks {owner : String} {bounds : Span} {depth index start : Nat}
    {ns : List Node} {m : Mark}
    (h : m ∈ propertiesMarks o owner bounds depth index start ns) :
    ∃ before after, propertiesChars o depth index ns = before ++ after ∧
      m.extent = .line (start + byteLength before) bounds ∧ before.getLast? ≠ some '\r' ∧
      (index ≠ 0 → before ≠ []) := by
  induction ns generalizing index start with
  | nil => simp [propertiesMarks] at h
  | cons n ns ih =>
    unfold propertiesMarks at h
    unfold propertiesChars
    rcases List.mem_append.1 h with h | h
    · obtain ⟨hlast, hne⟩ := o.getLast?_lead depth index
      refine ⟨o.lead depth index, propertyChars n ++ propertiesChars o depth (index + 1) ns,
        by simp, extent_of_mem_propertyMarks h, hlast, hne⟩
    · obtain ⟨before, after, hchars, hextent, hlast, hne⟩ := ih h
      have hne := hne (Nat.succ_ne_zero index)
      refine ⟨o.lead depth index ++ propertyChars n ++ before, after, by simp [hchars], ?_, ?_, ?_⟩
      · rw [hextent]
        simp only [byteLength_append, Nat.add_assoc]
      · rwa [List.getLast?_append_of_ne_nil _ hne]
      · simp [hne]

theorem liesIn_entityDraft {text : List Char} {path : String} {depth start : Nat} {n : Node}
    (h : At text start (entityDraft o path depth start n).chars) :
    ∀ m ∈ (entityDraft o path depth start n).marks, m.extent.LiesIn text := by
  intro m hm
  unfold entityDraft at h hm
  simp only at h hm
  rcases List.mem_cons.1 hm with rfl | hm
  · exact .exact h
  · obtain ⟨before, after, hchars, hextent, hlast, -⟩ := exists_of_mem_propertiesMarks hm
    rw [hextent]
    generalize o.tail depth (n.children.filter (·.kind == .property)).length = tail at h ⊢
    have hcat : (entityType n).toList ++ ['['] ++ propertiesChars o (depth + 1) 0
        (n.children.filter (·.kind == .property)) ++ tail ++ [']'] =
        (entityType n).toList ++ ['['] ++ before ++ (after ++ tail ++ [']']) := by
      simp [hchars]
    have hline : (Extent.line (start + byteLength ((entityType n).toList ++ ['['] ++ before))
        ⟨start, start + byteLength ((entityType n).toList ++ ['['] ++ before ++
          (after ++ tail ++ [']']))⟩).LiesIn text := by
      refine .line (hcat ▸ h) (by simp) ?_
      rw [List.getLast?_append]
      cases hb : before.getLast? with
      | none => simp
      | some c => simpa [hb] using hlast
    rw [hcat]
    rwa [byteLength_append _ before, ← Nat.add_assoc] at hline

/-- A slot of an operation with its number and the byte from which on it is written. -/
structure PlacedSlot where
  index : Nat
  start : Nat
  node : Node

namespace PlacedSlot

def stop (o : Options) (depth : Nat) (s : PlacedSlot) : Nat :=
  s.start + byteLength (slotChars o depth s.node)

def draft (o : Options) (owner : String) (depth : Nat) (s : PlacedSlot) : Draft :=
  slotDraft o owner depth s.index s.start s.node

theorem chars_draft (o : Options) (owner : String) (depth : Nat) (s : PlacedSlot) :
    (s.draft o owner depth).chars = slotChars o depth s.node :=
  chars_slotDraft o owner depth s.index s.start s.node

end PlacedSlot

/-- Where the slots among nodes are written, the first of which has number `index`. -/
def placedSlots (o : Options) (depth : Nat) : (index start : Nat) → List Node → List PlacedSlot
  | _, _, [] => []
  | index, start, n :: ns =>
    if n.kind = .property then placedSlots o depth index start ns
    else
      let here := start + byteLength (o.lead depth index)
      ⟨index, here, n⟩ ::
        placedSlots o depth (index + 1) (here + byteLength (slotChars o depth n)) ns

section Slots
variable {depth index start : Nat} {ns : List Node}

theorem map_node_placedSlots :
    (placedSlots o depth index start ns).map (·.node) = ns.filter (·.kind != .property) := by
  induction ns generalizing index start with
  | nil => rfl
  | cons n ns ih =>
    unfold placedSlots
    by_cases hn : n.kind = .property
    · simp [hn, ih]
    · simp [hn, ih]

theorem node_mem_of_mem_placedSlots {s : PlacedSlot} (h : s ∈ placedSlots o depth index start ns) :
    s.node ∈ ns := by
  have hmem := List.mem_map_of_mem (f := (·.node)) h
  rw [map_node_placedSlots] at hmem
  exact (List.mem_filter.1 hmem).1

theorem index_of_placedSlots {i : Nat} {s : PlacedSlot}
    (h : (placedSlots o depth index start ns)[i]? = some s) : s.index = index + i := by
  induction ns generalizing index start i with
  | nil => simp [placedSlots] at h
  | cons n ns ih =>
    unfold placedSlots at h
    split at h
    · exact ih h
    · cases i with
      | zero =>
        obtain rfl := Option.some.inj h
        rfl
      | succ i =>
        have hlater := ih h
        omega

theorem eq_of_index_placedSlots {s t : PlacedSlot} (hs : s ∈ placedSlots o depth index start ns)
    (ht : t ∈ placedSlots o depth index start ns) (h : s.index = t.index) : s = t := by
  obtain ⟨i, hi⟩ := List.mem_iff_getElem?.1 hs
  obtain ⟨j, hj⟩ := List.mem_iff_getElem?.1 ht
  have hs' := index_of_placedSlots hi
  have ht' := index_of_placedSlots hj
  obtain rfl : i = j := by omega
  exact Option.some.inj (hi.symm.trans hj)

theorem start_le_of_mem_placedSlots {s : PlacedSlot}
    (h : s ∈ placedSlots o depth index start ns) : start ≤ s.start := by
  induction ns generalizing index start with
  | nil => simp [placedSlots] at h
  | cons n ns ih =>
    unfold placedSlots at h
    split at h
    · exact ih h
    · rcases List.mem_cons.1 h with rfl | h
      · exact Nat.le_add_right _ _
      · have hlater := ih h
        omega

/-- Slots are written one behind the other. -/
theorem pairwise_placedSlots :
    (placedSlots o depth index start ns).Pairwise fun s t => s.stop o depth ≤ t.start := by
  induction ns generalizing index start with
  | nil => simp [placedSlots]
  | cons n ns ih =>
    unfold placedSlots
    split
    · exact ih
    · exact List.pairwise_cons.2 ⟨fun t ht => start_le_of_mem_placedSlots ht, ih⟩

theorem marks_slotsDraft (o : Options) (owner : String) (depth index start : Nat)
    (ns : List Node) :
    (slotsDraft o owner depth index start ns).marks =
      (placedSlots o depth index start ns).flatMap fun s => (s.draft o owner depth).marks := by
  induction ns generalizing index start with
  | nil => simp [slotsDraft, placedSlots]
  | cons n ns ih =>
    by_cases hn : n.kind = .property
    · rw [slotsDraft, placedSlots, if_pos hn, if_pos hn, ih]
    · rw [slotsDraft_cons _ _ _ _ _ _ hn, placedSlots, if_neg hn]
      simp only [chars_slotDraft, ih, List.flatMap_cons]
      rfl

/-- A slot is a stretch of what is written of all of them. -/
theorem exists_of_mem_placedSlots {s : PlacedSlot} (h : s ∈ placedSlots o depth index start ns)
    (owner : String) :
    ∃ before after, (slotsDraft o owner depth index start ns).chars =
      before ++ slotChars o depth s.node ++ after ∧ s.start = start + byteLength before := by
  induction ns generalizing index start with
  | nil => simp [placedSlots] at h
  | cons n ns ih =>
    by_cases hn : n.kind = .property
    · rw [placedSlots, if_pos hn] at h
      rw [slotsDraft, if_pos hn]
      exact ih h
    · rw [placedSlots, if_neg hn] at h
      rw [slotsDraft_cons _ _ _ _ _ _ hn]
      simp only [chars_slotDraft]
      rcases List.mem_cons.1 h with rfl | h
      · exact ⟨_, _, rfl, rfl⟩
      · obtain ⟨before, after, hchars, hstart⟩ := ih h
        refine ⟨o.lead depth index ++ slotChars o depth n ++ before, after, by simp [hchars], ?_⟩
        rw [hstart]
        simp only [byteLength_append, Nat.add_assoc]

end Slots

/-- The byte at which the slots of an operation start that is written from `start` on. -/
def bodyStart (start : Nat) (n : Node) : Nat :=
  start + byteLength ((n.value.getD "").toList ++ ['('])

/-- What is written of the slots of an operation, each a stretch of its text. -/
theorem Draft.Holds.placed {whole : Draft} {path : String} {depth start : Nat} {n : Node}
    (h : whole.Holds start (operationDraft o path depth start n)) {s : PlacedSlot}
    (hs : s ∈ placedSlots o (depth + 1) 0 (bodyStart start n) n.children) :
    whole.Holds s.start (s.draft o path (depth + 1)) := by
  obtain ⟨before, after, hchars, hstart⟩ := exists_of_mem_placedSlots hs path
  have hslots := h.slots
  rw [← bodyStart] at hslots
  constructor
  · have hat := hslots.chars
    rw [hchars] at hat
    rw [s.chars_draft, hstart]
    exact hat.left.right
  · intro m hm
    apply hslots.marks
    rw [marks_slotsDraft]
    exact List.mem_flatMap.2 ⟨s, hs, hm⟩

theorem marks_operationDraft (o : Options) (path : String) (depth start : Nat) (n : Node) :
    (operationDraft o path depth start n).marks =
      ⟨path, .exact ⟨start, start + byteLength (operationDraft o path depth start n).chars⟩,
        n.value⟩ :: (placedSlots o (depth + 1) 0 (bodyStart start n) n.children).flatMap fun s =>
          (s.draft o path (depth + 1)).marks := by
  rw [operationDraft_eq]
  simp only [marks_slotsDraft, bodyStart]

/-- The parts of an operation all lie in the text that it is written in. -/
theorem Draft.Holds.liesIn {whole : Draft} {path : String} {depth start : Nat} {n : Node}
    (h : whole.Holds start (operationDraft o path depth start n)) :
    ∀ m ∈ (operationDraft o path depth start n).marks, m.extent.LiesIn whole.chars := by
  induction n using Node.children_induction generalizing path depth start with
  | node n ih =>
    intro m hm
    rw [marks_operationDraft] at hm
    rcases List.mem_cons.1 hm with rfl | hm
    · exact .exact h.chars
    · obtain ⟨s, hs, hm⟩ := List.mem_flatMap.1 hm
      have hslot := h.placed hs
      unfold PlacedSlot.draft slotDraft at hslot hm
      by_cases hkind : s.node.kind = .operation
      · rw [if_pos hkind] at hslot hm
        exact ih s.node (node_mem_of_mem_placedSlots hs) hslot m hm
      · rw [if_neg hkind] at hslot hm
        exact liesIn_entityDraft hslot.chars m hm

end Layout
end ProblemScript
