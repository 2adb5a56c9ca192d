import ProblemScript.Proofs.Grammar.Slices

/-! Scripts by byte offsets. The search for the root and the descent through calls cut their names
and bodies out of the text; how far a call may extend is handed down to it. No cut fails in any
text, wherever its brackets and its white space are, and what is read is the tree of the script. -/
namespace ProblemScript
open Text ProblemScript.Bracket Segment

namespace Call

theorem body_eq_rest {c : Call} (h : c.isClosed = false) : c.body = c.rest := by
  obtain ⟨rest, hbody, hopen⟩ := enclosed_append 1 c.rest
  unfold isClosed at h
  obtain rfl : rest = [] := by simpa [h] using hopen
  rw [List.append_nil] at hbody
  exact hbody.symm

theorem ofLaterLine?_eq_none {line : List Char} (h : '\n' ∉ line) (start : Nat) :
    ofLaterLine? start line = none := by
  by_contra hne
  obtain ⟨c, hc⟩ := Option.ne_none_iff_exists'.1 hne
  exact h (mem_of_ofLaterLine? hc)

theorem exists_ofLine?_of_ofLaterLine? {start : Nat} {cs : List Char} {c : Call}
    (h : ofLaterLine? start cs = some c) :
    ∃ before line, cs = before ++ line ∧ ofLine? (start + byteLength before) line = some c := by
  induction cs generalizing start with
  | nil => simp [ofLaterLine?] at h
  | cons d cs ih =>
    unfold ofLaterLine? at h
    rw [Option.orElse_eq_orElse, Option.orElse_eq_or] at h
    rcases Option.or_eq_some_iff.1 h with hhere | ⟨-, hlater⟩
    · split at hhere
      · exact ⟨[d], cs, rfl, by simpa using hhere⟩
      · simp at hhere
    · obtain ⟨before, line, rfl, hline⟩ := ih hlater
      exact ⟨d :: before, line, rfl, by rwa [byteLength_cons, ← Nat.add_assoc]⟩

/-- The root is the call of some line. -/
theorem exists_ofLine?_of_root? {text : List Char} {c : Call} (h : root? text = some c) :
    ∃ before line, text = before ++ line ∧ ofLine? (byteLength before) line = some c := by
  rw [root?, Option.orElse_eq_orElse, Option.orElse_eq_or] at h
  rcases Option.or_eq_some_iff.1 h with hline | ⟨-, hlater⟩
  · exact ⟨[], text, rfl, hline⟩
  · obtain ⟨before, line, htext, hline⟩ := exists_ofLine?_of_ofLaterLine? hlater
    exact ⟨before, line, htext, by rwa [Nat.zero_add] at hline⟩

end Call

namespace Slicing

/-- The offset of the bracket that closes the one at `opening`, if it does so before `limit`. -/
def closeOf (text : List Char) (opening limit : Nat) : Except OutsideText (Option Nat) := do
  let scanned ← slice? text ⟨opening, limit⟩
  let (inner, closed) := enclosed 0 scanned
  .ok (if closed then some (opening + byteLength inner) else none)

/-- The offset of the parenthesis, if the segment is a whole call. -/
def parenOf (segment : List Char) : Except OutsideText (Option Nat) :=
  let size := byteLength (leadingName segment)
  if size = 0 ∨ segment.getLast? ≠ some ')' then .ok none
  else do
    let rest := trimStart (← slice? segment ⟨size, byteLength segment⟩)
    .ok (if rest.head? = some '(' then some (byteLength segment - byteLength rest) else none)

/-- Reads calls: where one starts, its name, where its parenthesis is, where it ends at the latest,
and its path. -/
abbrev CallReader :=
  (start : Nat) → (name : List Char) → (opening limit : Nat) → (path : String) →
    Except OutsideText Node

/-- Reads a segment as an entity: its text, its slot, where it starts and the operation. -/
abbrev EntityReader :=
  (raw : List Char) → (index start : Nat) → (parent : String) → Except OutsideText (Option Node)

/-- Adds the slot that a segment of the body at byte `bodyStart` holds, if it holds one. -/
def pushSlot (call : CallReader) (entity : EntityReader) (bodyStart : Nat) (path : String)
    (children : List Node) (s : Segment) : Except OutsideText (List Node) := do
  let start := bodyStart + s.offset
  let slot := Path.slotIn path children.length
  match ← parenOf s.chars with
  | some paren =>
    let name ← slice? s.chars ⟨0, byteLength (leadingName s.chars)⟩
    let child ←
      call start name (start + paren) (start + byteLength s.chars) (Path.operationIn slot)
    .ok (children ++ [child])
  | none =>
    let child ← entity s.chars children.length start path
    .ok (children ++ child.toList)

/-- The tree of a call, with at most `fuel` operations inside one another. -/
def callWithin (entity : EntityReader) (text : List Char) : (fuel : Nat) → CallReader
  | 0, _, _, opening, _, _ => .error ⟨opening⟩
  | fuel + 1, start, name, opening, limit, path => do
    let close ← closeOf text opening limit
    let inner ← slice? text ⟨opening + 1, close.getD limit⟩
    let segments ← split inner
    let children ← segments.foldlM
      (pushSlot (callWithin entity text fuel) entity (opening + 1) path) []
    .ok ⟨.operation, path, ⟨start, (close.map (· + 1)).getD limit⟩, some (.ofList name), children⟩

/-- The first line that opens a call, by the start and the end of the name and the offset of the
parenthesis. The first of the lines is at byte `start`. -/
def findRoot (start : Nat) : List (List Char) → Except OutsideText (Option (Nat × Nat × Nat))
  | [] => .ok none
  | line :: lines => do
    let rest := line.dropWhile Call.isIndent
    let nameStart := start + (byteLength line - byteLength rest)
    let size := byteLength (leadingName rest)
    if size = 0 then findRoot (start + byteLength line + 1) lines
    else
      let after := (← slice? rest ⟨size, byteLength rest⟩).dropWhile Call.isIndent
      if after.head? = some '(' then
        .ok (some (nameStart, nameStart + size, start + (byteLength line - byteLength after)))
      else findRoot (start + byteLength line + 1) lines

/-- The tree of a script, with entities read by `entity`. -/
def script (entity : EntityReader) (text : List Char) : Except OutsideText Node := do
  match ← findRoot 0 (text.splitOn '\n') with
  | some (nameStart, nameStop, opening) =>
    let name ← slice? text ⟨nameStart, nameStop⟩
    callWithin entity text text.length nameStart name opening (byteLength text) Path.operationWord
  | none => .ok (.placeholder (byteLength text))

/-- The entities of a text are read without fail. -/
def ReadsEntities (text : List Char) (entity : EntityReader) : Prop :=
  ∀ raw index start parent, At text start raw → entity raw index start parent =
    .ok ((EntitySource.ofSegment? start raw).map (·.node text (Path.slotIn parent index)))

/-- The parenthesis of the call stands at byte `opening`. -/
structure Opens (text : List Char) (opening : Nat) (c : Call) : Prop where
  bodyStart : c.bodyStart = opening + 1
  stands : At text opening ('(' :: c.rest)

theorem parenOf_of_none {start : Nat} {raw : List Char} (h : Call.ofSegment? start raw = none) :
    parenOf raw = .ok none := by
  unfold parenOf
  simp only [slice?_drop_leadingName, ok_bind]
  split
  · rfl
  · rename_i hsize
    rw [not_or, not_not] at hsize
    have hform : (trimStart (raw.drop (leadingName raw).length)).head? ≠ some '(' := by
      intro hopen
      obtain ⟨rest, hrest⟩ := List.head?_eq_some_iff.1 hopen
      cases hname : leadingName raw with
      | nil => simp [hname] at hsize
      | cons c cs =>
        rw [hname, List.length_cons] at hrest
        simp [Call.ofSegment?, hname, hrest, hsize.2] at h
    rw [if_neg hform]

/-- A call in a segment is found by the offset of its parenthesis. -/
theorem exists_parenOf {text raw : List Char} {start : Nat} {c : Call} (hat : At text start raw)
    (h : Call.ofSegment? start raw = some c) :
    ∃ paren, parenOf raw = .ok (some paren) ∧ leadingName raw = c.name ∧ c.start = start ∧
      Opens text (start + paren) c ∧ start + byteLength raw = c.bodyStart + byteLength c.rest := by
  obtain ⟨hname, hlast, b, hb, rfl⟩ := Call.ofSegment?_eq_some h
  obtain ⟨hlead, hdrop⟩ := leadingName_bracket hname hb (show isOpening '(' = true from rfl) c.rest
  have hend : c.rest.getLast? = some ')' := by
    rw [List.getLast?_append, List.getLast?_cons] at hlast
    cases hrest : c.rest.getLast? <;> simp_all
  have hcall := Call.ofSegment?_of_name hname hb hend start
  rw [h, Option.some.injEq] at hcall
  have hsize : byteLength (leadingName (c.name ++ b ++ '(' :: c.rest)) ≠ 0 := by
    obtain ⟨d, ds, hcons, -⟩ := exists_of_isIdentifier hname
    have hne : c.name ≠ [] := by simp [hcons]
    have hpos := byteLength_pos hne
    rw [hlead]
    omega
  have hbodyStart := congrArg Call.bodyStart hcall
  simp only [byteLength_append, byteLength_cons, byteLength_nil, show ('(').utf8Size = 1 from rfl]
    at hbodyStart
  refine ⟨byteLength (c.name ++ b), ?_, hlead, congrArg Call.start hcall, ⟨?_, hat.right⟩, ?_⟩
  · have hparen : byteLength (c.name ++ b ++ '(' :: c.rest) - byteLength ('(' :: c.rest) =
        byteLength (c.name ++ b) := by
      rw [byteLength_append]
      omega
    unfold parenOf
    simp only [slice?_drop_leadingName, ok_bind, hdrop, hparen]
    rw [if_neg fun hor => hor.elim hsize fun hne => hne hlast]
    rfl
  · rw [hbodyStart, byteLength_append]
    omega
  · rw [hbodyStart]
    simp only [byteLength_append, byteLength_cons, show ('(').utf8Size = 1 from rfl]
    omega

theorem pushSlot_eq {text : List Char} {entity : EntityReader} (hentity : ReadsEntities text entity)
    {call : CallReader} {bodyStart : Nat} {s : Segment}
    (hat : At text (bodyStart + s.offset) s.chars)
    (hcall : ∀ c opening path, Call.ofSegment? (bodyStart + s.offset) s.chars = some c →
      Opens text opening c →
      call c.start c.name opening (c.bodyStart + byteLength c.rest) path = .ok (c.node text path))
    (path : String) (children : List Node) :
    pushSlot call entity bodyStart path children s =
      .ok (children ++ ((Slot.ofSegment? (s.moved bodyStart)).map
        (Slot.node text path children.length)).toList) := by
  unfold pushSlot Slot.ofSegment?
  simp only [Segment.moved, Option.orElse_eq_orElse, Option.orElse_eq_or]
  cases hread : Call.ofSegment? (bodyStart + s.offset) s.chars with
  | none =>
    rw [parenOf_of_none hread, ok_bind]
    simp only [hentity _ _ _ _ hat, ok_bind, Option.map_none, Option.none_or]
    cases EntitySource.ofSegment? (bodyStart + s.offset) s.chars <;> rfl
  | some c =>
    obtain ⟨paren, hparen, hname, hstart, hopens, hlimit⟩ := exists_parenOf hat hread
    have hchild := hcall c _ (Path.operationIn (Path.slotIn path children.length)) hread hopens
    rw [hstart, ← hlimit, ← hname] at hchild
    rw [hparen, ok_bind]
    simp only [slice?_leadingName, ok_bind, hchild]
    rfl

theorem foldlM_pushSlot {text : List Char} {call : CallReader} {entity : EntityReader}
    {bodyStart : Nat} {path : String} {segs : List Segment}
    (h : ∀ s ∈ segs, ∀ children, pushSlot call entity bodyStart path children s =
      .ok (children ++ ((Slot.ofSegment? (s.moved bodyStart)).map
        (Slot.node text path children.length)).toList))
    (children : List Node) :
    segs.foldlM (pushSlot call entity bodyStart path) children =
      .ok (children ++ ((segs.map (Segment.moved bodyStart)).filterMap Slot.ofSegment?).mapIdx
        fun i => Slot.node text path (children.length + i)) := by
  induction segs generalizing children with
  | nil => simp; rfl
  | cons s segs ih =>
    rw [List.foldlM_cons, h s (by simp), ok_bind, ih fun t ht => h t (by simp [ht])]
    rw [List.map_cons, List.filterMap_cons]
    cases hslot : Slot.ofSegment? (s.moved bodyStart) with
    | none => simp
    | some slot =>
      simp only [Option.map_some, Option.toList_some, Slot.mapIdx_node_cons, List.length_append,
        List.length_singleton, List.append_assoc, List.singleton_append]

/-- The closing parenthesis is found where the call is closed. -/
theorem closeOf_eq {text : List Char} {opening : Nat} {c : Call} (h : Opens text opening c) :
    closeOf text opening (c.bodyStart + byteLength c.rest) =
      .ok (if c.isClosed then some (c.bodyStart + byteLength c.body) else none) := by
  have hlimit : c.bodyStart + byteLength c.rest = opening + byteLength ('(' :: c.rest) := by
    rw [h.bodyStart, byteLength_cons, Nat.add_assoc]
    rfl
  have hscan : enclosed 0 ('(' :: c.rest) = ('(' :: c.body, c.isClosed) := by
    simp [enclosed, isClosing, isOpening, Call.body, Call.isClosed]
  unfold closeOf
  rw [hlimit, h.stands.slice?_eq, ok_bind, hscan]
  simp only [byteLength_cons, h.bodyStart, Nat.add_assoc]
  rfl

theorem Opens.at_body {text : List Char} {opening : Nat} {c : Call} (h : Opens text opening c) :
    At text c.bodyStart c.body := by
  have hcat : '(' :: c.rest = ['('] ++ c.rest := rfl
  obtain ⟨tail, after, hbody, -⟩ := c.exists_tail
  have hstands := h.stands
  rw [hcat, hbody] at hstands
  rw [h.bodyStart]
  exact hstands.right.left.left

theorem slice?_body {text : List Char} {opening : Nat} {c : Call} (h : Opens text opening c) :
    slice? text ⟨opening + 1, (if c.isClosed then some (c.bodyStart + byteLength c.body)
      else none).getD (c.bodyStart + byteLength c.rest)⟩ = .ok c.body := by
  rw [← h.bodyStart]
  cases hclosed : c.isClosed with
  | true => exact h.at_body.slice?_eq
  | false =>
    rw [← Call.body_eq_rest hclosed]
    exact h.at_body.slice?_eq

theorem span_eq (c : Call) :
    (⟨c.start, ((if c.isClosed then some (c.bodyStart + byteLength c.body) else none).map
      (· + 1)).getD (c.bodyStart + byteLength c.rest)⟩ : Span) = c.span := by
  unfold Call.span
  cases hclosed : c.isClosed with
  | true => simp
  | false => simp [Call.body_eq_rest hclosed]

/-- No cut fails in a call that stands in the text. -/
theorem callWithin_eq {text : List Char} {entity : EntityReader}
    (hentity : ReadsEntities text entity) {fuel : Nat} {opening : Nat} {c : Call}
    (h : Opens text opening c) (hfuel : c.rest.length < fuel) (path : String) :
    callWithin entity text fuel c.start c.name opening (c.bodyStart + byteLength c.rest) path =
      .ok (c.node text path) := by
  induction fuel generalizing opening c path with
  | zero => omega
  | succ fuel ih =>
    unfold callWithin
    have hat : ∀ s ∈ Segment.split c.body, At text (opening + 1 + s.offset) s.chars := by
      intro s hs
      rw [← h.bodyStart]
      refine at_of_mem_splitFrom (s := s.moved c.bodyStart) h.at_body ?_
      rw [splitFrom_eq_map]
      exact List.mem_map_of_mem hs
    have hslots : ∀ s ∈ Segment.split c.body, ∀ children,
        pushSlot (callWithin entity text fuel) entity (opening + 1) path children s =
          .ok (children ++ ((Slot.ofSegment? (s.moved (opening + 1))).map
            (Slot.node text path children.length)).toList) := by
      intro s hs
      refine pushSlot_eq hentity (hat s hs) ?_ path
      intro c' opening' path' hread hopens
      have hmem : Slot.call c' ∈ c.slots := by
        rw [← h.bodyStart] at hread
        exact List.mem_filterMap.2 ⟨s, hs, by rw [hread]; rfl⟩
      have hshorter := Call.length_rest_lt hmem
      exact ih hopens (by omega) path'
    rw [closeOf_eq h, ok_bind, slice?_body h, ok_bind, split_eq, ok_bind, foldlM_pushSlot hslots,
      ok_bind, span_eq, Call.node_eq, Call.slots_eq, splitFrom_eq_map, h.bodyStart]
    simp

/-- The places of a call that the search for the root gives. -/
def placesOf (c : Call) : Nat × Nat × Nat := (c.start, c.start + byteLength c.name, c.bodyStart - 1)

/-- One line opens the root, or the search goes on behind it. -/
theorem findRoot_cons (start : Nat) (line : List Char) (lines : List (List Char)) :
    findRoot start (line :: lines) =
      match Call.ofLine? start line with
      | some c => .ok (some (placesOf c))
      | none => findRoot (start + byteLength line + 1) lines := by
  have hparen : ('(').utf8Size = 1 := rfl
  rw [findRoot, Call.ofLine?]
  simp only [slice?_drop_leadingName, ok_bind]
  cases hname : leadingName (line.dropWhile Call.isIndent) with
  | nil => simp
  | cons a as =>
    have hsize : byteLength (a :: as) ≠ 0 := by
      have hpos := a.utf8Size_pos
      rw [byteLength_cons]
      omega
    rw [if_neg hsize]
    cases hrest : ((line.dropWhile Call.isIndent).drop (a :: as).length).dropWhile
      Call.isIndent with
    | nil => simp
    | cons d ds =>
      by_cases hd : d = '('
      · subst hd
        obtain ⟨pre, hpre⟩ := (List.dropWhile_suffix _).trans ((List.drop_suffix _ _).trans
          (List.dropWhile_suffix (l := line) Call.isIndent))
        rw [hrest] at hpre
        have hlength := congrArg byteLength hpre
        rw [byteLength_append, byteLength_cons, hparen] at hlength
        have hopening : start + (byteLength line - byteLength ('(' :: ds)) =
            start + (byteLength line - byteLength ds) - 1 := by
          rw [byteLength_cons, hparen]
          omega
        simp only [List.head?_cons, if_true, hopening, placesOf]
      · simp [hd]

theorem findRoot_eq (start : Nat) (text : List Char) :
    findRoot start (text.splitOn '\n') =
      .ok (((Call.ofLine? start text).or (Call.ofLaterLine? start text)).map placesOf) := by
  induction hn : text.length using Nat.strong_induction_on generalizing start text with
  | _ n ih =>
    by_cases hbreak : '\n' ∈ text
    · obtain ⟨line, rest, rfl, hline⟩ := List.eq_append_cons_of_mem hbreak
      have hlater := Call.ofLaterLine?_eq_none hline start
      rw [List.splitOn_append_cons_self_of_not_mem hline, findRoot_cons]
      cases hc : Call.ofLine? start line with
      | some c =>
        rw [Call.ofLine?_followedBy hc, Option.some_or]
        rfl
      | none =>
        rw [Call.ofLine?_append hc, Call.ofLaterLine?_append hlater, Option.none_or]
        refine ih rest.length ?_ _ rest rfl
        rw [← hn]
        simp
        omega
    · rw [List.splitOn_eq_singleton hbreak, findRoot_cons, Call.ofLaterLine?_eq_none hbreak,
        Option.or_none]
      cases Call.ofLine? start text <;> rfl

theorem root?_opens {text : List Char} {c : Call} (h : Call.root? text = some c) :
    At text c.start c.name ∧ Opens text (c.bodyStart - 1) c ∧
      c.bodyStart + byteLength c.rest = byteLength text := by
  obtain ⟨before, line, rfl, hc⟩ := Call.exists_ofLine?_of_root? h
  obtain ⟨-, indent, gap, -, -, rfl, hstart, hbody⟩ := Call.ofLine?_eq_some hc
  have hparen : ('(').utf8Size = 1 := rfl
  simp only [byteLength_append, byteLength_cons, byteLength_nil] at hbody
  refine ⟨⟨before ++ indent, gap ++ '(' :: c.rest, by simp, by simp [hstart]⟩, ⟨?_, ?_⟩, ?_⟩
  · omega
  · refine ⟨before ++ indent ++ c.name ++ gap, [], by simp, ?_⟩
    simp only [byteLength_append]
    omega
  · simp only [byteLength_append, byteLength_cons]
    omega

/-- No cut fails, and what is read is the tree of the script. -/
theorem script_eq {entity : EntityReader} {text : String}
    (h : ReadsEntities text.toList entity) :
    script entity text.toList = .ok (Node.ofScript text) := by
  have hroot : (Call.ofLine? 0 text.toList).or (Call.ofLaterLine? 0 text.toList) =
      Call.root? text.toList := by
    rw [Call.root?, Option.orElse_eq_orElse, Option.orElse_eq_or]
  unfold script Node.ofScript
  rw [findRoot_eq, ok_bind, hroot]
  cases hc : Call.root? text.toList with
  | none => rfl
  | some c =>
    obtain ⟨hname, hopens, hlimit⟩ := root?_opens hc
    have hfuel : c.rest.length < text.toList.length := hopens.stands.length_le
    have hread := callWithin_eq h hopens hfuel Path.operationWord
    rw [hlimit] at hread
    simp only [Option.map_some, placesOf, hname.slice?_eq, ok_bind, hread]

end Slicing

/-- An entity within the first 2 ^ 64 bytes keeps its offsets. -/
theorem EntitySource.LiesIn.wrapped_eq {text : List Char} {e : EntitySource} (h : e.LiesIn text)
    (hshort : byteLength text < Span.wordBound) : e.wrapped = e := by
  obtain ⟨raw, hat, hstop, -⟩ := id h
  have hle := hat.stop_le
  have hprops : e.properties.map (fun p => { p with position := p.position % Span.wordBound }) =
      e.properties := by
    rw [List.map_congr_left, List.map_id]
    intro p hp
    have hwithin := (h.properties.1 p hp).within
    rw [Span.contains_iff] at hwithin
    rw [Nat.mod_eq_of_lt (by omega)]
    rfl
  unfold wrapped
  rw [hprops, Nat.mod_eq_of_lt (by omega), Nat.mod_eq_of_lt (by omega)]

/-- An entity that stands in the text has no key outside of it. -/
theorem Node.ofEntity_of_at {raw : List Char} {text : String} {start : Nat}
    (hat : At text.toList start raw) (hshort : byteLength text.toList < Span.wordBound)
    (index : Nat) (parent : String) :
    ofEntity (.ofList raw) index start parent text =
      .ok ((EntitySource.ofSegment? start raw).map
        (·.node text.toList (Path.slotIn parent index))) := by
  unfold ofEntity
  rw [String.toList_ofList]
  cases hread : EntitySource.ofSegment? start raw with
  | none => rfl
  | some e =>
    have hlies := EntitySource.ofSegment?_liesIn hread hat
    have hstray : e.strayKey? text.toList = none := by
      unfold EntitySource.strayKey?
      rw [List.find?_eq_none]
      intro pos hpos
      obtain ⟨p, hp, rfl⟩ := List.mem_map.1 hpos
      simpa using (hlies.properties.1 p hp).isBoundary
    simp only [hlies.wrapped_eq hshort, hstray]
    rfl

/-- Every slice of a text that reading a script takes is one: the cuts are at boundaries and in
order. Entities and lines that are read on their own do not fail either, as they may for offsets
that come from elsewhere. -/
theorem Slicing.script_eq_ofScript (text : String) :
    script (entity text.toList) text.toList = .ok (Node.ofScript text) ∧
      (∀ pos bounds,
        lineWithin text.toList pos bounds = lineWithin? text.toList pos bounds) ∧
      (byteLength text.toList < Span.wordBound →
        script (fun raw index start parent => Node.ofEntity (.ofList raw) index start parent text)
          text.toList = .ok (Node.ofScript text)) := by
  refine ⟨script_eq fun raw index start parent hat => entity_eq hat index parent,
    lineWithin_eq text.toList, fun hshort => script_eq fun raw index start parent hat => ?_⟩
  exact Node.ofEntity_of_at hat hshort index parent

/-- A call and a bracket that are not closed, among characters of two bytes. An entity that is said
to start inside one of them fails. -/
theorem Slicing.script_eq_ofScript_unclosed :
    let text := "é\n add(é, e[ü, k: é ,\r\n x: (], ] , f(é"
    byteLength text.toList < Span.wordBound ∧
      script (fun raw index start parent => Node.ofEntity (.ofList raw) index start parent text)
        text.toList = .ok (Node.ofScript text) ∧
      (Node.ofScript text).outline.length = 4 ∧
      Node.ofEntity "e[k: é]" 0 7 "operation" text = .error ⟨9⟩ := by
  intro text
  have hshort : byteLength text.toList < Span.wordBound := by decide +kernel
  have hread := (script_eq_ofScript text).2.2 hshort
  exact ⟨hshort, hread, by decide +kernel, by decide +kernel⟩

end ProblemScript
