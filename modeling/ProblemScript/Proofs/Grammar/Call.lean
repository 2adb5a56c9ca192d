import ProblemScript.Grammar.Script
import ProblemScript.Proofs.Grammar.Reading

/-! What a segment has to look like to be read as a call or as an entity, and the recursion that
the tree of a call satisfies. -/
namespace ProblemScript
open Text ProblemScript.Bracket Segment

namespace Text

theorem leadingName_prefix (cs : List Char) :
    cs = leadingName cs ++ cs.drop (leadingName cs).length := by
  cases cs with
  | nil => rfl
  | cons c cs =>
    simp only [leadingName]
    split
    · simp [drop_length_takeWhile]
    · simp

theorem isIdentifier_leadingName {cs : List Char} (h : leadingName cs ≠ []) :
    isIdentifier (leadingName cs) = true := by
  cases cs with
  | nil => simp [leadingName] at h
  | cons c cs =>
    simp only [leadingName] at h ⊢
    split at h
    · rename_i hc
      simp [hc, isIdentifier, leadingName, List.takeWhile_idem]
    · simp at h

theorem exists_of_isIdentifier {name : List Char} (h : isIdentifier name = true) :
    ∃ c cs, name = c :: cs ∧ isNameStart c = true ∧ ∀ d ∈ cs, isNameChar d = true := by
  cases name with
  | nil => simp [isIdentifier] at h
  | cons c cs =>
    simp only [isIdentifier, leadingName, Bool.and_eq_true, beq_iff_eq] at h
    have hl := h.2
    split at hl
    · rename_i hc
      refine ⟨c, cs, rfl, hc, ?_⟩
      exact List.takeWhile_eq_self_iff.1 (by simpa using hl)
    · simp at hl

theorem isNameChar_of_isIdentifier {name : List Char} (h : isIdentifier name = true) :
    ∀ c ∈ name, isNameChar c = true := by
  obtain ⟨c, cs, rfl, hc, hcs⟩ := exists_of_isIdentifier h
  intro d hd
  rcases List.mem_cons.1 hd with rfl | hd
  · exact isNameChar_of_isNameStart hc
  · exact hcs d hd

theorem head?_of_isIdentifier {name : List Char} (h : isIdentifier name = true)
    (rest : List Char) : ∀ c ∈ (name ++ rest).head?, isBlank c = false := by
  obtain ⟨d, cs, rfl, -⟩ := exists_of_isIdentifier h
  intro c hc
  obtain rfl : d = c := by simpa using hc
  exact isBlank_eq_false_of_isNameChar (isNameChar_of_isIdentifier h d (by simp))

/-- An identifier is read up to the first character that cannot go on with it. -/
theorem leadingName_append {name : List Char} (h : isIdentifier name = true) {c : Char}
    (hc : isNameChar c = false) (rest : List Char) : leadingName (name ++ c :: rest) = name := by
  obtain ⟨d, cs, rfl, hd, hcs⟩ := exists_of_isIdentifier h
  simp only [List.cons_append, leadingName, hd, if_true]
  rw [List.takeWhile_append_of_pos hcs]
  simp [hc]

theorem neutral_of_isIdentifier {name : List Char} (h : isIdentifier name = true) :
    Neutral name :=
  fun c hc => neutral_of_isNameChar (isNameChar_of_isIdentifier h c hc)

/-- A name, white space and a bracket at the start of a text. -/
theorem eq_of_trimStart {cs rest : List Char} {c : Char}
    (h : trimStart (cs.drop (leadingName cs).length) = c :: rest) :
    ∃ b, AllBlank b ∧ cs = leadingName cs ++ b ++ c :: rest := by
  refine ⟨(cs.drop (leadingName cs).length).takeWhile isBlank, allBlank_takeWhile _, ?_⟩
  rw [← h, List.append_assoc, trimStart, List.takeWhile_append_dropWhile]
  exact leadingName_prefix cs

end Text

theorem Call.ofSegment?_eq_some {start : Nat} {raw : List Char} {c : Call}
    (h : Call.ofSegment? start raw = some c) :
    isIdentifier c.name = true ∧ raw.getLast? = some ')' ∧
      ∃ b, AllBlank b ∧ raw = c.name ++ b ++ '(' :: c.rest := by
  simp only [Call.ofSegment?] at h
  split at h
  · rename_i a as rest hname hrest
    split at h
    · rename_i hlast
      simp only [Option.some.injEq] at h
      subst h
      exact ⟨isIdentifier_leadingName (by simp [hname]), hlast, eq_of_trimStart hrest⟩
    · simp at h
  · simp at h

theorem EntitySource.ofSegment?_eq_some {start : Nat} {raw : List Char} {e : EntitySource}
    (h : EntitySource.ofSegment? start raw = some e) :
    isIdentifier e.type = true ∧ e.span = ⟨start, start + byteLength raw⟩ ∧
      ∃ b body, AllBlank b ∧ raw = e.type ++ b ++ '[' :: body ++ [']'] ∧
        e.properties = PropertySource.ofBody
          (start + byteLength (e.type ++ b ++ ['['])) body := by
  simp only [EntitySource.ofSegment?] at h
  split at h
  · rename_i a as rest hname hrest
    split at h
    · rename_i hlast
      simp only [Option.some.injEq] at h
      obtain ⟨b, hb, hraw⟩ := eq_of_trimStart hrest
      have hbracket : rest.dropLast ++ [']'] = rest := by
        rw [hraw, List.getLast?_append, List.getLast?_cons] at hlast
        cases hr : rest with
        | nil => rw [hr] at hlast; simp at hlast
        | cons d ds =>
          have hne : rest ≠ [] := by simp [hr]
          rw [List.getLast?_eq_some_getLast hne] at hlast
          have hl : rest.getLast hne = ']' := by simpa using hlast
          rw [← hr, ← hl, List.dropLast_concat_getLast]
      subst h
      refine ⟨isIdentifier_leadingName (by simp [hname]), rfl, b, rest.dropLast, hb, ?_, ?_⟩
      · rw [List.append_assoc, List.cons_append, hbracket]
        exact hraw
      · have hlen := congrArg byteLength hraw
        simp only [byteLength_append, byteLength_cons, byteLength_nil] at hlen ⊢
        congr 1
        omega
    · simp at h
  · simp at h

/-- A name with a bracket behind it is read as such, with or without white space between them. -/
theorem Text.leadingName_bracket {name b : List Char} (h : isIdentifier name = true)
    (hb : AllBlank b) {c : Char} (hc : isOpening c = true) (rest : List Char) :
    leadingName (name ++ b ++ c :: rest) = name ∧
      trimStart ((name ++ b ++ c :: rest).drop (leadingName (name ++ b ++ c :: rest)).length) =
        c :: rest := by
  have hopening : isNameChar c = false ∧ isBlank c = false := by
    simp only [isOpening, Bool.or_eq_true, beq_iff_eq] at hc
    rcases hc with rfl | rfl <;> decide
  have hlead : leadingName (name ++ b ++ c :: rest) = name := by
    rw [List.append_assoc]
    cases b with
    | nil => exact leadingName_append h hopening.1 rest
    | cons d b =>
      refine leadingName_append h ?_ _
      cases hd : isNameChar d with
      | false => rfl
      | true =>
        have hblank := hb d (by simp)
        rw [isBlank_eq_false_of_isNameChar hd] at hblank
        simp at hblank
  refine ⟨hlead, ?_⟩
  rw [hlead, List.append_assoc, List.drop_left, trimStart_append hb, trimStart_cons hopening.2]

theorem Call.ofSegment?_of_name {name b rest : List Char} (h : isIdentifier name = true)
    (hb : AllBlank b) (hlast : rest.getLast? = some ')') (start : Nat) :
    Call.ofSegment? start (name ++ b ++ '(' :: rest) =
      some ⟨name, start, start + byteLength (name ++ b ++ ['(']), rest⟩ := by
  obtain ⟨hlead, hdrop⟩ := leadingName_bracket h hb (show isOpening '(' = true from rfl) rest
  obtain ⟨c, cs, hcons, -⟩ := exists_of_isIdentifier h
  have hend : (name ++ b ++ '(' :: rest).getLast? = some ')' := by
    rw [List.getLast?_append, List.getLast?_cons, hlast]
    rfl
  rw [hcons] at hlead hdrop hend ⊢
  simp only [Call.ofSegment?, hlead, hend, if_true]
  rw [hlead] at hdrop
  simp only [hdrop, byteLength_append, byteLength_cons]
  congr 2
  simp
  omega

theorem Call.ofSegment?_of_square {name b : List Char} (h : isIdentifier name = true)
    (hb : AllBlank b) (rest : List Char) (start : Nat) :
    Call.ofSegment? start (name ++ b ++ '[' :: rest) = none := by
  obtain ⟨hlead, hdrop⟩ := leadingName_bracket h hb (show isOpening '[' = true from rfl) rest
  unfold Call.ofSegment?
  simp only [hdrop]
  split
  · rename_i heq
    simp at heq
  · rfl

theorem EntitySource.ofSegment?_of_type {type b : List Char} (h : isIdentifier type = true)
    (hb : AllBlank b) (start : Nat) (body : List Char) :
    EntitySource.ofSegment? start (type ++ b ++ '[' :: body ++ [']']) =
      some
        { type, span := ⟨start, start + byteLength (type ++ b ++ '[' :: body ++ [']'])⟩,
          properties := PropertySource.ofBody (start + byteLength (type ++ b ++ ['['])) body } := by
  obtain ⟨hlead, hdrop⟩ := leadingName_bracket h hb (show isOpening '[' = true from rfl)
    (body ++ [']'])
  obtain ⟨c, cs, hcons, -⟩ := exists_of_isIdentifier h
  have hassoc : type ++ b ++ '[' :: body ++ [']'] = type ++ b ++ '[' :: (body ++ [']']) := by simp
  have hend : (type ++ b ++ '[' :: (body ++ [']'])).getLast? = some ']' := by
    rw [← hassoc, List.getLast?_concat]
  rw [hassoc]
  rw [hcons] at hlead hdrop hend ⊢
  simp only [EntitySource.ofSegment?, hlead, hend, if_true]
  rw [hlead] at hdrop
  simp only [hdrop, List.dropLast_concat, byteLength_append, byteLength_cons]
  congr 3
  simp
  omega

namespace Slot

/-- What a segment holds, by its absolute offset. -/
def ofSegment? (s : Segment) : Option Slot :=
  (Call.ofSegment? s.offset s.chars).map .call <|>
    (EntitySource.ofSegment? s.offset s.chars).map .entity

/-- The node of the slot with number `i` of the operation written `path`. -/
def node (text : List Char) (path : String) (i : Nat) : Slot → Node
  | call c => c.node text (Path.operationIn (Path.slotIn path i))
  | entity e => e.node text (Path.slotIn path i)

theorem mapIdx_node_cons (text : List Char) (path : String) (k : Nat) (slot : Slot)
    (slots : List Slot) :
    (slot :: slots).mapIdx (fun i => node text path (k + i)) =
      slot.node text path k :: slots.mapIdx fun i => node text path (k + 1 + i) := by
  have hshift : (fun i => node text path (k + (i + 1))) = fun i => node text path (k + 1 + i) := by
    funext i
    rw [Nat.add_assoc k 1 i, Nat.add_comm 1 i]
  rw [List.mapIdx_cons, hshift, Nat.add_zero]

end Slot

namespace Call

theorem slots_eq (c : Call) :
    c.slots = (splitFrom c.bodyStart c.body).filterMap Slot.ofSegment? := by
  rw [splitFrom_eq_map, List.filterMap_map]
  rfl

theorem length_body_le (c : Call) : c.body.length ≤ c.rest.length := by
  obtain ⟨rest, h, -⟩ := enclosed_append 1 c.rest
  have := congrArg List.length h
  rw [List.length_append] at this
  unfold body
  omega

theorem length_rest_lt {c c' : Call} (h : Slot.call c' ∈ c.slots) :
    c'.rest.length < c.rest.length := by
  rw [slots_eq, List.mem_filterMap] at h
  obtain ⟨s, hs, hcall⟩ := h
  have hc : Call.ofSegment? s.offset s.chars = some c' := by
    cases ho : Call.ofSegment? s.offset s.chars with
    | none =>
      cases he : EntitySource.ofSegment? s.offset s.chars <;>
        simp [Slot.ofSegment?, ho, he] at hcall
    | some d => simpa [Slot.ofSegment?, ho] using hcall
  obtain ⟨-, -, b, -, hraw⟩ := ofSegment?_eq_some hc
  have hlen := congrArg List.length hraw
  have hseg := (isSegmentOf_of_mem hs).length_le
  have hbody := c.length_body_le
  simp only [List.length_append, List.length_cons] at hlen
  omega

private theorem mapIdx_congr_of_mem {α β : Type} {f g : Nat → α → β} {l : List α}
    (h : ∀ i, ∀ a ∈ l, f i a = g i a) : l.mapIdx f = l.mapIdx g := by
  apply List.ext_getElem
  · simp
  · intro i h1 h2
    simp only [List.getElem_mapIdx]
    exact h i _ (List.getElem_mem _)

/-- More fuel than the call has characters changes nothing. -/
theorem nodeWithin_eq_node (text : List Char) {fuel : Nat} {path : String} {c : Call}
    (h : c.rest.length < fuel) : nodeWithin text fuel path c = c.node text path := by
  suffices key : ∀ fuel fuel' path (c : Call), c.rest.length < fuel → c.rest.length < fuel' →
      nodeWithin text fuel path c = nodeWithin text fuel' path c from
    key _ _ path c h (Nat.lt_succ_self _)
  clear h
  intro fuel
  induction fuel with
  | zero => intro fuel' path c hf; omega
  | succ fuel ih =>
    intro fuel' path c hf hf'
    obtain ⟨fuel', rfl⟩ : ∃ m, fuel' = m + 1 := ⟨fuel' - 1, by omega⟩
    simp only [nodeWithin]
    congr 1
    apply mapIdx_congr_of_mem
    intro i slot hslot
    cases slot with
    | call c' =>
      have := length_rest_lt hslot
      exact ih _ _ _ (by omega) (by omega)
    | entity e => rfl

/-- The tree of a call has the trees of its slots as its children. -/
theorem node_eq (text : List Char) (path : String) (c : Call) :
    c.node text path =
      ⟨.operation, path, c.span, some (.ofList c.name), c.slots.mapIdx (Slot.node text path)⟩ := by
  rw [node, nodeWithin]
  congr 1
  apply mapIdx_congr_of_mem
  intro i slot hslot
  cases slot with
  | call c' => exact nodeWithin_eq_node text (length_rest_lt hslot)
  | entity e => rfl

/-- A call opens a line with its name and its parenthesis, with spaces and tabulators before and
between them. -/
theorem ofLine?_eq_some {start : Nat} {cs : List Char} {c : Call} (h : ofLine? start cs = some c) :
    isIdentifier c.name = true ∧ ∃ indent gap,
      (∀ d ∈ indent, isIndent d = true) ∧ (∀ d ∈ gap, isIndent d = true) ∧
        cs = indent ++ c.name ++ gap ++ '(' :: c.rest ∧ c.start = start + byteLength indent ∧
        c.bodyStart = start + byteLength (indent ++ c.name ++ gap ++ ['(']) := by
  simp only [ofLine?] at h
  split at h
  · rename_i a as rest hname hrest
    simp only [Option.some.injEq] at h
    have hindent := List.takeWhile_append_dropWhile (p := isIndent) (l := cs)
    have hline := leadingName_prefix (cs.dropWhile isIndent)
    have hgap := List.takeWhile_append_dropWhile (p := isIndent)
      (l := (cs.dropWhile isIndent).drop (leadingName (cs.dropWhile isIndent)).length)
    rw [hrest] at hgap
    rw [← hgap] at hline
    have hlen := congrArg byteLength hindent
    have hlen' := congrArg byteLength hline
    subst h
    refine ⟨isIdentifier_leadingName (by simp [hname]), cs.takeWhile isIndent,
      ((cs.dropWhile isIndent).drop (leadingName (cs.dropWhile isIndent)).length).takeWhile
        isIndent,
      fun d hd => List.mem_takeWhile_imp hd, fun d hd => List.mem_takeWhile_imp hd, ?_, ?_, ?_⟩
    · rw [List.append_assoc, List.append_assoc, ← hline, hindent]
    · simp only [byteLength_append] at hlen ⊢
      omega
    · simp only [byteLength_append, byteLength_cons, byteLength_nil] at hlen hlen' ⊢
      omega
  · simp at h

/-- A line that starts with a name and a parenthesis opens a call, whatever spaces and tabulators
stand before and between them. -/
theorem ofLine?_of_name {indent name gap : List Char} (hi : ∀ c ∈ indent, isIndent c = true)
    (h : isIdentifier name = true) (hg : ∀ c ∈ gap, isIndent c = true) (start : Nat)
    (rest : List Char) :
    ofLine? start (indent ++ name ++ gap ++ '(' :: rest) =
      some ⟨name, start + byteLength indent, start + byteLength (indent ++ name ++ gap ++ ['(']),
        rest⟩ := by
  have hblank : ∀ {c : Char}, isIndent c = true → isBlank c = true := by
    intro c hc
    simp only [isIndent, Bool.or_eq_true, beq_iff_eq] at hc
    rcases hc with rfl | rfl <;> decide
  have hlead := (leadingName_bracket h (fun c hc => hblank (hg c hc))
    (show isOpening '(' = true from rfl) rest).1
  obtain ⟨c, cs, hcons, hstart, -⟩ := exists_of_isIdentifier h
  have hc : isIndent c = false := by
    cases hi : isIndent c with
    | false => rfl
    | true =>
      simp only [isIndent, Bool.or_eq_true, beq_iff_eq] at hi
      rcases hi with rfl | rfl <;> exact absurd hstart (by decide)
  have hline : (indent ++ name ++ gap ++ '(' :: rest).dropWhile isIndent =
      name ++ gap ++ '(' :: rest := by
    rw [List.append_assoc, List.append_assoc, List.dropWhile_append_of_pos hi, hcons]
    simp [hc]
  have hrest : (gap ++ '(' :: rest).dropWhile isIndent = '(' :: rest := by
    rw [List.dropWhile_append_of_pos hg]
    simp [isIndent]
  have hdrop : (name ++ gap ++ '(' :: rest).drop name.length = gap ++ '(' :: rest := by
    rw [List.append_assoc, List.drop_left]
  simp only [ofLine?, hline, hlead, hdrop, hrest]
  rw [hcons]
  simp only [byteLength_append, byteLength_cons]
  congr 2
  · omega
  · simp only [byteLength_nil]
    omega

/-- A script that starts with a name and a parenthesis has its root there. -/
theorem root?_of_name {name : List Char} (h : isIdentifier name = true) (rest : List Char) :
    root? (name ++ '(' :: rest) = some ⟨name, 0, byteLength (name ++ ['(']), rest⟩ := by
  have hnone : ∀ c ∈ ([] : List Char), isIndent c = true := by simp
  have hofLine := ofLine?_of_name hnone h hnone 0 rest
  simp only [List.nil_append, List.append_nil, byteLength_nil, Nat.zero_add] at hofLine
  rw [root?, hofLine]
  rfl

end Call
end ProblemScript
