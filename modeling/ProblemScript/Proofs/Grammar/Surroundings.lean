import ProblemScript.Proofs.Grammar.Recovery
import ProblemScript.Proofs.Grammar.Source

/-! A script with other text around it. Lines without a call in front of a text, and anything behind
its closed root, leave the tree as it is but for the ranges, which move by what stands in front.
Each reader is shown to move with its start; lines are cut down to entities, which end before the
root does, so that no line looks past the root. -/
namespace ProblemScript
open Text ProblemScript.Bracket Segment

/-- The range in a text with `k` more bytes before it. -/
def Span.moved (k : Nat) (s : Span) : Span := ⟨k + s.start, k + s.stop⟩

theorem Span.moved_zero (s : Span) : s.moved 0 = s := by
  rw [moved, Nat.zero_add, Nat.zero_add]

theorem Span.clampTo_moved (k : Nat) (s outer : Span) :
    (s.moved k).clampTo (outer.moved k) = (s.clampTo outer).moved k := by
  simp only [clampTo, moved, Nat.add_max_add_left, Nat.add_min_add_left]

namespace Node

mutual

/-- The tree with all its ranges moved by `k` bytes. -/
def moved (k : Nat) : Node → Node
  | ⟨kind, path, span, value, children⟩ => ⟨kind, path, span.moved k, value, allMoved k children⟩

def allMoved (k : Nat) : List Node → List Node
  | [] => []
  | n :: ns => n.moved k :: allMoved k ns

end

theorem allMoved_eq_map (k : Nat) (ns : List Node) : allMoved k ns = ns.map (moved k) := by
  induction ns with
  | nil => rfl
  | cons n ns ih => rw [allMoved, ih, List.map_cons]

theorem moved_eq (k : Nat) (n : Node) :
    n.moved k = ⟨n.kind, n.path, n.span.moved k, n.value, n.children.map (moved k)⟩ := by
  cases n
  rw [moved, allMoved_eq_map]

theorem moved_zero (n : Node) : n.moved 0 = n := by
  induction n using children_induction with
  | node n ih =>
    have hchildren : n.children.map (moved 0) = n.children := by
      rw [List.map_congr_left ih, List.map_id']
    cases n
    rw [moved_eq, hchildren, Span.moved_zero]

theorem itemsOf_moved (k : Nat) (path : String) (span : Span) (items : List String) :
    itemsOf path (span.moved k) items = (itemsOf path span items).map (moved k) := by
  unfold itemsOf
  split
  · rfl
  · apply List.ext_getElem
    · simp
    · intro j _ _
      simp [moved_eq]

end Node

/-- The property in a text with `k` more bytes before it. -/
def PropertySource.moved (k : Nat) (p : PropertySource) : PropertySource :=
  { p with position := k + p.position }

theorem PropertySource.ofBody_moved (k start : Nat) (body : List Char) :
    ofBody (k + start) body = (ofBody start body).map (moved k) := by
  unfold ofBody
  rw [List.map_map]
  simp only [Function.comp_def, moved, Nat.add_assoc]

/-- The entity in a text with `k` more bytes before it. -/
def EntitySource.moved (k : Nat) (e : EntitySource) : EntitySource :=
  { e with span := e.span.moved k, properties := e.properties.map (PropertySource.moved k) }

theorem EntitySource.ofSegment?_moved (k start : Nat) (raw : List Char) :
    ofSegment? (k + start) raw = (ofSegment? start raw).map (moved k) := by
  unfold ofSegment?
  simp only [Nat.add_assoc, PropertySource.ofBody_moved]
  split
  · split
    · rfl
    · rfl
  · rfl

namespace Call

/-- The call in a text with `k` more bytes before it. -/
def moved (k : Nat) (c : Call) : Call :=
  { c with start := k + c.start, bodyStart := k + c.bodyStart }

/-- The call in a text with `after` behind it. -/
def followedBy (after : List Char) (c : Call) : Call := { c with rest := c.rest ++ after }

theorem ofSegment?_moved (k start : Nat) (raw : List Char) :
    ofSegment? (k + start) raw = (ofSegment? start raw).map (moved k) := by
  unfold ofSegment?
  simp only [Nat.add_assoc]
  split
  · split
    · rfl
    · rfl
  · rfl

theorem ofLine?_moved (k start : Nat) (cs : List Char) :
    ofLine? (k + start) cs = (ofLine? start cs).map (moved k) := by
  unfold ofLine?
  simp only [Nat.add_assoc]
  split
  · rfl
  · rfl

theorem ofLaterLine?_moved (k start : Nat) (cs : List Char) :
    ofLaterLine? (k + start) cs = (ofLaterLine? start cs).map (moved k) := by
  induction cs generalizing start with
  | nil => rfl
  | cons d cs ih =>
    simp only [ofLaterLine?, Nat.add_assoc, ih, ofLine?_moved, Option.orElse_eq_orElse,
      Option.orElse_eq_or, Option.map_or]
    split
    · rfl
    · rfl

/-- Lines without a call move the root. -/
theorem root?_moved {before : List Char} (h : root? before = none) (text : List Char) :
    root? (before ++ '\n' :: text) = (root? text).map (moved (byteLength before + 1)) := by
  rw [root?, Option.orElse_eq_orElse, Option.orElse_eq_or, Option.or_eq_none_iff] at h
  have hline := ofLine?_moved (byteLength before + 1) 0 text
  have hlater := ofLaterLine?_moved (byteLength before + 1) 0 text
  rw [Nat.add_zero] at hline hlater
  rw [root?, root?, ofLine?_append h.1, ofLaterLine?_append h.2, Nat.zero_add, hline, hlater]
  simp only [Option.orElse_eq_orElse, Option.orElse_eq_or, Option.map_or, Option.none_or]

theorem ofLine?_followedBy {start : Nat} {cs : List Char} {c : Call}
    (h : ofLine? start cs = some c) (after : List Char) :
    ofLine? start (cs ++ after) = some (c.followedBy after) := by
  obtain ⟨hname, indent, gap, hindent, hgap, rfl, hstart, hbody⟩ := ofLine?_eq_some h
  rw [List.append_assoc, List.cons_append, ofLine?_of_name hindent hname hgap, ← hstart, ← hbody]
  rfl

/-- A whole line that opens no call goes on doing so. -/
theorem ofLine?_eq_none_of_mem {start : Nat} {cs : List Char} (h : ofLine? start cs = none)
    (hbreak : '\n' ∈ cs) (after : List Char) : ofLine? start (cs ++ after) = none := by
  obtain ⟨line, rest, rfl⟩ := List.append_of_mem hbreak
  have hline : ofLine? start line = none := by
    by_contra hne
    obtain ⟨c, hc⟩ := Option.ne_none_iff_exists'.1 hne
    rw [ofLine?_followedBy hc] at h
    simp at h
  rw [List.append_assoc, List.cons_append, ofLine?_append hline]

theorem mem_of_ofLaterLine? {start : Nat} {cs : List Char} {c : Call}
    (h : ofLaterLine? start cs = some c) : '\n' ∈ cs := by
  by_contra hbreak
  have hnone : ∀ k, ofLaterLine? k cs = none := by
    clear h
    induction cs with
    | nil => exact fun _ => rfl
    | cons d cs ih =>
      intro k
      rw [List.mem_cons, not_or] at hbreak
      have hd : (d == '\n') = false := beq_eq_false_iff_ne.2 (Ne.symm hbreak.1)
      unfold ofLaterLine?
      rw [hd, ih hbreak.2]
      rfl
  rw [hnone] at h
  simp at h

theorem ofLaterLine?_followedBy {start : Nat} {cs : List Char} {c : Call}
    (h : ofLaterLine? start cs = some c) (after : List Char) :
    ofLaterLine? start (cs ++ after) = some (c.followedBy after) := by
  induction cs generalizing start with
  | nil => simp [ofLaterLine?] at h
  | cons d cs ih =>
    unfold ofLaterLine? at h
    rw [Option.orElse_eq_orElse, Option.orElse_eq_or] at h
    rw [List.cons_append, ofLaterLine?, Option.orElse_eq_orElse, Option.orElse_eq_or]
    rcases Option.or_eq_some_iff.1 h with hhere | ⟨hhere, hlater⟩
    · split at hhere
      · rename_i hd
        rw [if_pos hd, ofLine?_followedBy hhere, Option.some_or]
      · simp at hhere
    · have hskip : (if d == '\n' then ofLine? (start + d.utf8Size) (cs ++ after) else none) =
          none := by
        split at hhere
        · rename_i hd
          rw [if_pos hd, ofLine?_eq_none_of_mem hhere (mem_of_ofLaterLine? hlater)]
        · rename_i hd
          rw [if_neg hd]
      rw [hskip, Option.none_or, ih hlater]

/-- What stands behind a text does not change which call is its root. -/
theorem root?_followedBy {text : List Char} {c : Call} (h : root? text = some c)
    (after : List Char) : root? (text ++ after) = some (c.followedBy after) := by
  unfold root? at h ⊢
  rw [Option.orElse_eq_orElse, Option.orElse_eq_or] at h ⊢
  rcases Option.or_eq_some_iff.1 h with hline | ⟨hline, hlater⟩
  · rw [ofLine?_followedBy hline, Option.some_or]
  · rw [ofLine?_eq_none_of_mem hline (mem_of_ofLaterLine? hlater), Option.none_or,
      ofLaterLine?_followedBy hlater]

end Call

/-- Once the closing bracket has been found, nothing behind it matters. -/
theorem Bracket.enclosed_of_closed {n : Nat} {cs : List Char} (h : (enclosed n cs).2 = true)
    (after : List Char) : enclosed n (cs ++ after) = enclosed n cs := by
  induction cs generalizing n with
  | nil => simp [enclosed] at h
  | cons c cs ih =>
    simp only [List.cons_append, enclosed] at h ⊢
    split
    · rfl
    · rename_i hc
      rw [if_neg hc] at h
      simp only at h
      rw [ih h]

namespace Slot

/-- The slot in a text with `k` more bytes before it. -/
def moved (k : Nat) : Slot → Slot
  | call c => call (c.moved k)
  | entity e => entity (e.moved k)

theorem ofSegment?_moved (k : Nat) (s : Segment) :
    ofSegment? (s.moved k) = (ofSegment? s).map (moved k) := by
  simp only [ofSegment?, Segment.moved, Call.ofSegment?_moved, EntitySource.ofSegment?_moved,
    Option.orElse_eq_orElse, Option.orElse_eq_or, Option.map_or, Option.map_map]
  rfl

end Slot

namespace Call

theorem slots_moved (k : Nat) (c : Call) : (c.moved k).slots = c.slots.map (Slot.moved k) := by
  have hsegments : splitFrom (k + c.bodyStart) c.body =
      (splitFrom c.bodyStart c.body).map (Segment.moved k) := locate_add k _ _
  calc (c.moved k).slots
      = (splitFrom (k + c.bodyStart) c.body).filterMap Slot.ofSegment? := slots_eq _
    _ = (splitFrom c.bodyStart c.body).filterMap fun s =>
          (Slot.ofSegment? s).map (Slot.moved k) := by
        rw [hsegments, List.filterMap_map]
        simp only [Function.comp_def, Slot.ofSegment?_moved]
    _ = c.slots.map (Slot.moved k) := by
        rw [slots_eq, List.map_filterMap]

/-- The tree of a closed call ends with its parenthesis. -/
theorem node_followedBy {c : Call} (h : c.isClosed = true) (text after : List Char)
    (path : String) : (c.followedBy after).node text path = c.node text path := by
  have henclosed : enclosed 1 (c.followedBy after).rest = enclosed 1 c.rest :=
    enclosed_of_closed h after
  have hbody : (c.followedBy after).body = c.body := congrArg Prod.fst henclosed
  have hclosed : (c.followedBy after).isClosed = c.isClosed := congrArg Prod.snd henclosed
  have hspan : (c.followedBy after).span = c.span := by
    unfold span
    rw [hbody, hclosed]
    rfl
  have hslots : (c.followedBy after).slots = c.slots := by
    unfold slots
    rw [hbody]
    rfl
  rw [node_eq, node_eq, hspan, hslots]
  rfl

end Call

namespace Text

theorem byteLength_le_dropReturn (line : List Char) :
    byteLength line ≤ byteLength (dropReturn line) + 1 := by
  unfold dropReturn
  split
  · rename_i hlast
    obtain ⟨front, rfl⟩ := List.getLast?_eq_some_iff.1 hlast
    rw [List.dropLast_concat, byteLength_append]
    exact Nat.le_refl _
  · omega

/-- Line breaks part a line from what stands before and behind it. -/
theorem lineParts_surrounded {pre : List Char} (hpre : ∀ c ∈ pre.getLast?, c = '\n')
    (before after post : List Char) :
    (lineParts (pre ++ before) (after ++ post)).1 = (lineParts before after).1 ∧
      ('\n' ∈ after → (lineParts (pre ++ before) (after ++ post)).2 =
        (lineParts before after).2) := by
  unfold lineParts
  constructor
  · cases hlast : pre.getLast? with
    | none =>
      obtain rfl := List.getLast?_eq_none_iff.1 hlast
      rfl
    | some d =>
      obtain rfl := hpre d hlast
      obtain ⟨lines, rfl⟩ := List.getLast?_eq_some_iff.1 hlast
      simp only [List.reverse_append, List.reverse_cons, List.reverse_nil, List.nil_append,
        List.singleton_append]
      rw [takeWhile_append_cons (by decide)]
  · intro hmem
    obtain ⟨line, rest, rfl⟩ := List.append_of_mem hmem
    rw [List.append_assoc, List.cons_append, takeWhile_append_cons (by decide),
      takeWhile_append_cons (by decide)]

/-- Where the text starts a line of a longer one, a place on it has the same line, if that is cut
down to what ends before the text does. -/
theorem lineWithin_moved {pre text : List Char} (hpre : ∀ c ∈ pre.getLast?, c = '\n')
    (post : List Char) {pos : Nat} (hpos : IsBoundary text pos) {bounds : Span}
    (hstop : bounds.stop < byteLength text) :
    lineWithin (pre ++ text ++ post) (byteLength pre + pos) (bounds.moved (byteLength pre)) =
      (lineWithin text pos bounds).moved (byteLength pre) := by
  obtain ⟨before, after, rfl, rfl⟩ := isBoundary_iff.1 hpos
  obtain ⟨hhead, htail⟩ := lineParts_surrounded hpre before after post
  obtain ⟨front, hfront⟩ := exists_line_before before after
  have hbefore := congrArg byteLength hfront
  rw [byteLength_append] at hbefore
  have hcat : pre ++ (before ++ after) ++ post = pre ++ before ++ (after ++ post) := by simp
  rw [hcat, ← byteLength_append, lineWithin, lineWithin, lineAt_append, lineAt_append]
  simp only [hhead]
  by_cases hmem : '\n' ∈ after
  · rw [htail hmem, ← Span.clampTo_moved]
    simp only [Span.moved, byteLength_append]
    congr 2
    · omega
    · omega
  · -- Both lines reach the last byte of the text at least, which is behind the bounds.
    obtain ⟨-, hline⟩ := lineParts_of_not_mem hmem before []
    obtain ⟨-, hlonger⟩ := lineParts_of_not_mem hmem (pre ++ before) post
    have h1 := byteLength_le_dropReturn
      ((lineParts before after).1 ++ (lineParts before after).2)
    have h2 := byteLength_le_dropReturn
      ((lineParts before after).1 ++ (lineParts (pre ++ before) (after ++ post)).2)
    rw [List.append_nil] at hline
    rw [hline] at h1 ⊢
    rw [hlonger] at h2 ⊢
    simp only [Span.clampTo, Span.moved, byteLength_append, Span.mk.injEq] at hstop h1 h2 ⊢
    omega

end Text

section Moved
variable {pre text : List Char}

theorem EntitySource.LiesIn.node_moved (hpre : ∀ d ∈ pre.getLast?, d = '\n') (post : List Char)
    {e : EntitySource} (h : e.LiesIn text) (hstop : e.span.stop < byteLength text)
    (path : String) :
    (e.moved (byteLength pre)).node (pre ++ text ++ post) path =
      (e.node text path).moved (byteLength pre) := by
  have hproperty : ∀ p ∈ e.properties, ∀ path,
      (p.moved (byteLength pre)).node (pre ++ text ++ post) path (e.span.moved (byteLength pre)) =
        (p.node text path e.span).moved (byteLength pre) := by
    intro p hp path
    have hline := lineWithin_moved hpre post ((h.properties.1 p hp).isBoundary) hstop
    simp only [PropertySource.node, PropertySource.moved, hline, Node.itemsOf_moved, Node.moved_eq]
  unfold EntitySource.node EntitySource.moved
  rw [Node.moved_eq, List.map_map, List.map_map]
  congr 1
  apply List.map_congr_left
  intro p hp
  exact hproperty p hp _

/-- The tree moves with its text, if it ends before the text does. -/
theorem Call.LiesIn.node_moved (hpre : ∀ d ∈ pre.getLast?, d = '\n') (post : List Char) {c : Call}
    (h : c.LiesIn text) (hstop : c.bodyStart + byteLength c.body < byteLength text)
    (path : String) :
    (c.moved (byteLength pre)).node (pre ++ text ++ post) path =
      (c.node text path).moved (byteLength pre) := by
  have hspan : (c.moved (byteLength pre)).span = c.span.moved (byteLength pre) := by
    unfold span Span.moved
    rw [← Nat.add_assoc, ← Nat.add_assoc]
    rfl
  rw [node_eq, node_eq, Node.moved_eq, hspan, slots_moved]
  congr 1
  apply List.ext_getElem
  · simp
  · intro i h1 h2
    simp only [List.getElem_map, List.getElem_mapIdx]
    have hi : i < c.slots.length := by simpa using h2
    have hmem := List.getElem_mem hi
    obtain ⟨hlies, -, hend⟩ := h.slot hmem
    cases hs : c.slots[i] with
    | call c' =>
      rw [hs] at hmem hlies hend
      have hlt := length_rest_lt hmem
      have hinner : c'.bodyStart + byteLength c'.body ≤ (Slot.call c').span.stop :=
        Nat.le_add_right _ _
      exact LiesIn.node_moved hpre post hlies (by omega) _
    | entity e =>
      rw [hs] at hlies hend
      exact EntitySource.LiesIn.node_moved hpre post hlies (Nat.lt_of_le_of_lt hend hstop) _
termination_by c.rest.length

end Moved

namespace Call

/-- A closed call ends before its text does. -/
theorem LiesIn.body_lt {text : List Char} {c : Call} (h : c.LiesIn text)
    (hclosed : c.isClosed = true) : c.bodyStart + byteLength c.body < byteLength text := by
  obtain ⟨opening, -, hbody, hat⟩ := h
  obtain ⟨behind, hrest, hclosing⟩ := enclosed_append 1 c.rest
  unfold isClosed at hclosed
  rw [if_pos hclosed] at hclosing
  obtain ⟨d, tail, rfl, -⟩ := hclosing
  have hlength := congrArg byteLength hrest
  have hstop := hat.stop_le
  have hsize := d.utf8Size_pos
  simp only [byteLength_append, byteLength_cons] at hlength hstop
  unfold body
  omega

end Call

namespace Node

/-- The tree of a script within another, where the root of the longer one is that of the script. -/
theorem ofScript_eq_moved {script text : String} (pre post : List Char)
    (hscript : script.toList = pre ++ text.toList ++ post) (hpre : ∀ d ∈ pre.getLast?, d = '\n')
    {c : Call} (hroot : Call.root? text.toList = some c) (hclosed : c.isClosed = true)
    (hmoved : Call.root? (pre ++ text.toList) = some (c.moved (byteLength pre))) :
    ofScript script = (ofScript text).moved (byteLength pre) := by
  have hlies := Call.root?_liesIn hroot
  have hlonger : (c.moved (byteLength pre)).isClosed = true := hclosed
  rw [ofScript, ofScript, hscript, Call.root?_followedBy hmoved, hroot]
  exact (Call.node_followedBy hlonger _ _ _).trans
    (hlies.node_moved hpre post (hlies.body_lt hclosed) _)

/-- Text around a script only moves its ranges: lines without a call may stand in front of it, and
anything may stand behind it, once its root is closed. -/
theorem ofScript_surrounded {text : String} {c : Call} (hroot : Call.root? text.toList = some c)
    (hclosed : c.isClosed = true) :
    (∀ before after : String, Call.root? before.toList = none →
      ofScript (before ++ "\n" ++ text ++ after) =
        (ofScript text).moved (byteLength before.toList + 1)) ∧
      ∀ after : String, ofScript (text ++ after) = ofScript text := by
  constructor
  · intro before after hbefore
    have hmoved := Call.root?_moved hbefore text.toList
    have hlength : byteLength (before.toList ++ ['\n']) = byteLength before.toList + 1 :=
      byteLength_append _ _
    rw [hroot, Option.map_some, ← hlength, ← List.singleton_append, ← List.append_assoc] at hmoved
    rw [← hlength]
    exact ofScript_eq_moved _ after.toList (by simp) (by simp) hroot hclosed hmoved
  · intro after
    have hmoved : Call.root? ([] ++ text.toList) = some (c.moved 0) := by
      rw [List.nil_append, hroot]
      simp only [Call.moved, Nat.zero_add]
    have hscript : ofScript (text ++ after) = (ofScript text).moved 0 :=
      ofScript_eq_moved [] after.toList (by simp) (by simp) hroot hclosed hmoved
    rw [hscript, moved_zero]

/-- An answer in prose around a script, with line ends of two bytes and a second call behind. -/
theorem ofScript_surrounded_prose :
    let text := "f(\r\n  a[k: é,\r\n    n: 1, 2],\r\n  g(b[]))"
    let before := "Sure — see (below):\r"
    (Call.root? text.toList).isSome = true ∧ RootCloses text ∧ Call.root? before.toList = none ∧
      ofScript (before ++ "\n" ++ text ++ ")\r\nh(b[k: 0]") = (ofScript text).moved 23 ∧
      ofScript (text ++ ", h(") = ofScript text := by
  intro text before
  have hsome : (Call.root? text.toList).isSome = true := by decide +kernel
  have hcloses : RootCloses text := by decide +kernel
  have hbefore : Call.root? before.toList = none := by decide +kernel
  have hlength : byteLength before.toList + 1 = 23 := by decide +kernel
  obtain ⟨c, hroot⟩ := Option.isSome_iff_exists.1 hsome
  obtain ⟨hmoved, hsame⟩ := ofScript_surrounded hroot (hcloses c hroot)
  rw [← hlength]
  exact ⟨hsome, hcloses, hbefore, hmoved before _ hbefore, hsame _⟩

end Node
end ProblemScript
