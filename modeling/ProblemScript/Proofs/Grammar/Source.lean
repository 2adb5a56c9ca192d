import ProblemScript.Proofs.Grammar.Tree
import ProblemScript.Proofs.Text.Place

/-! Where the parts of a script stand. Every segment, call and entity that is found is a stretch of
the text at the offset that it carries; segments of one text follow each other. What holds of every
call, entity and property that lies in a text holds of every node of the tree. -/
namespace ProblemScript
open Text ProblemScript.Bracket Segment

namespace Segment

/-- A segment is a stretch of the text that was split, and its offset counts the bytes before. -/
theorem exists_of_mem_splitFrom {k : Nat} {cs : List Char} {s : Segment}
    (hs : s ∈ splitFrom k cs) :
    ∃ before after, cs = before ++ s.chars ++ after ∧ s.offset = k + byteLength before := by
  have hcomma : (',').utf8Size = 1 := rfl
  refine splitFrom_induction (P := fun k cs segs => ∀ s ∈ segs, ∃ before after,
    cs = before ++ s.chars ++ after ∧ s.offset = k + byteLength before)
    ?blank ?last ?skip ?cons k cs s hs
  case blank => simp
  case last =>
    intro k b x b' _ _ _ _ _ s hs
    obtain rfl := List.mem_singleton.1 hs
    exact ⟨b, b', rfl, rfl⟩
  case skip =>
    intro k b ys _ ih s hs
    obtain ⟨before, after, rfl, hoffset⟩ := ih s hs
    refine ⟨b ++ ',' :: before, after, by simp, ?_⟩
    simp only [hoffset, byteLength_append, byteLength_cons]
    omega
  case cons =>
    intro k b x b' ys _ _ _ _ _ _ ih s hs
    rcases List.mem_cons.1 hs with rfl | hs
    · exact ⟨b, b' ++ ',' :: ys, by simp, rfl⟩
    · obtain ⟨before, after, rfl, hoffset⟩ := ih s hs
      refine ⟨b ++ x ++ b' ++ ',' :: before, after, by simp, ?_⟩
      simp only [hoffset, byteLength_append, byteLength_cons]
      omega

theorem extent_of_mem_splitFrom {k : Nat} {cs : List Char} {s : Segment}
    (hs : s ∈ splitFrom k cs) : k ≤ s.offset ∧ s.stop ≤ k + byteLength cs := by
  obtain ⟨before, after, rfl, hoffset⟩ := exists_of_mem_splitFrom hs
  simp only [Segment.stop, hoffset, byteLength_append]
  omega

theorem at_of_mem_splitFrom {text cs : List Char} {k : Nat} (h : At text k cs) {s : Segment}
    (hs : s ∈ splitFrom k cs) : At text s.offset s.chars := by
  obtain ⟨before, after, rfl, hoffset⟩ := exists_of_mem_splitFrom hs
  rw [hoffset]
  exact h.left.right

/-- The segments of a text follow each other. -/
theorem pairwise_stop_lt (k : Nat) (cs : List Char) :
    (splitFrom k cs).Pairwise fun s t => s.stop < t.offset := by
  refine splitFrom_induction (P := fun _ _ segs => segs.Pairwise fun s t => s.stop < t.offset)
    ?blank ?last ?skip ?cons k cs
  case blank => simp
  case last => simp
  case skip => exact fun _ _ _ _ ih => ih
  case cons =>
    intro k b x b' ys _ _ _ _ _ _ ih
    refine List.pairwise_cons.2 ⟨fun t ht => ?_, ih⟩
    have := (extent_of_mem_splitFrom ht).1
    simp only [Segment.stop, byteLength_append] at this ⊢
    omega

/-- A segment takes up a character at least. -/
theorem length_splitFrom_le (k : Nat) (cs : List Char) : (splitFrom k cs).length ≤ cs.length := by
  refine splitFrom_induction (P := fun _ cs segs => segs.length ≤ cs.length)
    ?blank ?last ?skip ?cons k cs
  case blank => simp
  case last =>
    intro k b x b' _ _ _ hne _
    have := List.length_pos_iff.2 hne
    simp only [List.length_append, List.length_singleton]
    omega
  case skip =>
    intro k b ys _ ih
    simp only [List.length_append, List.length_cons]
    omega
  case cons =>
    intro k b x b' ys _ _ _ _ _ _ ih
    simp only [List.length_append, List.length_cons]
    omega

end Segment

/-- The key of a segment with its offset, if it has one. -/
def Segment.key? (s : Segment) : Option (Nat × List Char) :=
  (Value.splitKey? s.chars).map fun kv => (s.offset, kv.1)

/-- The properties take up keys of segments, in the order of the text. -/
theorem PropertyReading.sublist_group (seen : List (List Char)) (segs : List Segment) :
    ((group seen segs).map fun r => (r.position, r.key)).Sublist (segs.filterMap Segment.key?) := by
  induction segs generalizing seen with
  | nil => exact List.Sublist.refl _
  | cons s segs ih =>
    unfold group
    cases hkey : Value.splitKey? s.chars with
    | none => simpa [Segment.key?, hkey] using ih seen
    | some kv =>
      simp only [List.filterMap_cons, Segment.key?, hkey, Option.map_some]
      split
      · exact (ih seen).cons _
      · exact (ih _).cons_cons _

namespace Call

/-- The call stands in the text: what opens it at its start, the rest behind that. -/
def LiesIn (text : List Char) (c : Call) : Prop :=
  ∃ opening, opening ≠ [] ∧ c.bodyStart = c.start + byteLength opening ∧
    At text c.start (opening ++ c.rest)

/-- The range of a call covers what opens it, its body, and the closing parenthesis if it has
one. -/
theorem exists_tail (c : Call) :
    ∃ tail after, c.rest = c.body ++ tail ++ after ∧
      c.span = ⟨c.start, c.bodyStart + byteLength (c.body ++ tail)⟩ := by
  obtain ⟨rest, hrest, hclosing⟩ := enclosed_append 1 c.rest
  unfold span isClosed
  cases hclosed : (enclosed 1 c.rest).2 with
  | false => exact ⟨[], rest, by simpa [body] using hrest, by simp [body]⟩
  | true =>
    rw [hclosed, if_pos rfl] at hclosing
    obtain ⟨d, after, rfl, hd⟩ := hclosing
    have hsize : d.utf8Size = 1 := by
      simp only [isClosing, Bool.or_eq_true, beq_iff_eq] at hd
      rcases hd with rfl | rfl <;> rfl
    exact ⟨[d], after, by simpa [body] using hrest, by simp [body, hsize, Nat.add_assoc]⟩

theorem ofSegment?_liesIn {text raw : List Char} {start : Nat} {c : Call}
    (h : ofSegment? start raw = some c) (hat : At text start raw) :
    c.LiesIn text ∧ c.start = start ∧ c.span.stop ≤ start + byteLength raw := by
  have hstart : c.start = start ∧ c.bodyStart = start + (byteLength raw - byteLength c.rest) := by
    simp only [ofSegment?] at h
    split at h
    · split at h
      · simp only [Option.some.injEq] at h
        subst h
        exact ⟨rfl, rfl⟩
      · simp at h
    · simp at h
  obtain ⟨-, -, b, -, hraw⟩ := ofSegment?_eq_some h
  obtain ⟨tail, after, hrest, hspan⟩ := c.exists_tail
  have hlen := congrArg byteLength hraw
  have hlen' := congrArg byteLength hrest
  refine ⟨⟨c.name ++ b ++ ['('], by simp, ?_, ?_⟩, hstart.1, ?_⟩
  · rw [hstart.1, hstart.2]
    simp only [byteLength_append, byteLength_cons, byteLength_nil] at hlen ⊢
    omega
  · rw [hstart.1, List.append_assoc, List.singleton_append, ← hraw]
    exact hat
  · rw [hspan, hstart.2]
    simp only [byteLength_append, byteLength_cons] at hlen hlen' ⊢
    omega

theorem ofLine?_liesIn {text cs : List Char} {start : Nat} {c : Call}
    (h : ofLine? start cs = some c) (hat : At text start cs) : c.LiesIn text := by
  obtain ⟨-, indent, gap, -, -, rfl, hstart, hbody⟩ := ofLine?_eq_some h
  refine ⟨c.name ++ gap ++ ['('], by simp, ?_, ?_⟩
  · rw [hstart, hbody]
    simp only [byteLength_append]
    omega
  · rw [hstart]
    simp only [List.append_assoc, List.singleton_append] at hat ⊢
    exact hat.right

theorem ofLaterLine?_liesIn {text cs : List Char} {start : Nat} {c : Call}
    (h : ofLaterLine? start cs = some c) (hat : At text start cs) : c.LiesIn text := by
  induction cs generalizing start with
  | nil => simp [ofLaterLine?] at h
  | cons d cs ih =>
    have htail : At text (start + byteLength [d]) cs := At.right hat
    rw [byteLength_cons, byteLength_nil, Nat.add_zero] at htail
    unfold ofLaterLine? at h
    rw [Option.orElse_eq_orElse, Option.orElse_eq_or] at h
    rcases Option.or_eq_some_iff.1 h with h | ⟨-, h⟩
    · split at h
      · exact ofLine?_liesIn h htail
      · simp at h
    · exact ih h htail

theorem root?_liesIn {text : List Char} {c : Call} (h : root? text = some c) : c.LiesIn text := by
  have hat := At.whole text
  rw [root?, Option.orElse_eq_orElse, Option.orElse_eq_or] at h
  rcases Option.or_eq_some_iff.1 h with h | ⟨-, h⟩
  · exact ofLine?_liesIn h hat
  · exact ofLaterLine?_liesIn h hat

end Call

/-- The entity stands in the text: what its range covers reads as the entity. -/
def EntitySource.LiesIn (text : List Char) (e : EntitySource) : Prop :=
  ∃ raw, At text e.span.start raw ∧ e.span.stop = e.span.start + byteLength raw ∧
    EntitySource.ofSegment? e.span.start raw = some e

theorem EntitySource.ofSegment?_liesIn {text raw : List Char} {start : Nat} {e : EntitySource}
    (h : ofSegment? start raw = some e) (hat : At text start raw) : e.LiesIn text := by
  obtain ⟨-, hspan, -⟩ := ofSegment?_eq_some h
  unfold LiesIn
  rw [hspan]
  exact ⟨raw, hat, rfl, h⟩

/-- A property of an entity with the range `bounds`: its key stands in the text, within those
bounds, with a colon behind it. -/
structure PropertySource.LiesIn (text : List Char) (bounds : Span) (p : PropertySource) : Prop where
  usable : Field.isUsableKey p.key = true
  within : bounds.contains p.position = true
  written : ∃ b, AllBlank b ∧ At text p.position (p.key ++ b ++ [':'])
  unspaced : ∃ c rest, isBlank c = false ∧ At text p.position (c :: rest)

theorem PropertySource.LiesIn.isBoundary {text : List Char} {bounds : Span} {p : PropertySource}
    (h : p.LiesIn text bounds) : IsBoundary text p.position := by
  obtain ⟨b, -, hat⟩ := h.written
  exact hat.isBoundary

theorem Value.exists_of_splitKey? {seg key value : List Char} (ht : trim seg = seg)
    (h : splitKey? seg = some (key, value)) :
    ∃ b, AllBlank b ∧ seg = key ++ b ++ [':'] ++ value := by
  obtain ⟨head, rfl, -, rfl⟩ := splitKey?_eq_some_iff.1 h
  obtain ⟨b, hb, he⟩ := exists_trim head
  have hlead : head.takeWhile isBlank = [] := by
    cases head with
    | nil => rfl
    | cons c head =>
      have hc := head?_trim (c :: head ++ ':' :: value)
      rw [ht] at hc
      simp [hc c (by simp)]
  rw [hlead, List.nil_append] at he
  exact ⟨b, hb, by simp [← he]⟩

/-- The properties of an entity stand within it, in order. -/
theorem EntitySource.LiesIn.properties {text : List Char} {e : EntitySource}
    (h : e.LiesIn text) : (∀ p ∈ e.properties, p.LiesIn text e.span) ∧
      e.properties.Pairwise fun p q => p.position ≤ q.position := by
  obtain ⟨raw, hat, hstop, hread⟩ := h
  obtain ⟨-, -, b, body, -, rfl, hprops⟩ := ofSegment?_eq_some hread
  have hbody : At text (e.span.start + byteLength (e.type ++ b ++ ['['])) body := by
    have hcat : e.type ++ b ++ '[' :: body ++ [']'] = e.type ++ b ++ ['['] ++ body ++ [']'] := by
      simp
    rw [hcat] at hat
    exact hat.left.right
  generalize hk : e.span.start + byteLength (e.type ++ b ++ ['[']) = k at hbody hprops
  have hsub := PropertyReading.sublist_group [] (splitFrom k body)
  rw [← PropertySource.map_reading_ofBody, ← hprops, List.map_map] at hsub
  constructor
  · intro p hp
    have hmem := hsub.subset (List.mem_map_of_mem hp)
    obtain ⟨s, hs, hkey⟩ := List.mem_filterMap.1 hmem
    obtain ⟨⟨key, value⟩, hsplit, heq⟩ := Option.map_eq_some_iff.1 hkey
    obtain ⟨hposition, rfl⟩ : s.offset = p.position ∧ key = p.key := by
      simpa [PropertySource.reading] using heq
    have hseg := isSegmentOf_of_mem hs
    have hlies := at_of_mem_splitFrom hbody hs
    have hextent := extent_of_mem_splitFrom hs
    have hpos := byteLength_pos hseg.nonempty
    rw [hposition] at hlies
    constructor
    · have hmem : p.reading ∈ PropertyReading.group [] (splitFrom k body) := by
        rw [← PropertySource.map_reading_ofBody, ← hprops]
        exact List.mem_map_of_mem hp
      obtain ⟨-, -, -, -, -, -, husable, -⟩ := PropertyReading.exists_of_mem_group hmem
      exact husable
    · rw [Span.contains_iff, hstop]
      simp only [Segment.stop, byteLength_append, byteLength_cons, byteLength_nil] at hextent hk ⊢
      omega
    · obtain ⟨b', hb', hchars⟩ := Value.exists_of_splitKey? hseg.trimmed hsplit
      rw [hchars] at hlies
      exact ⟨b', hb', hlies.left⟩
    · obtain ⟨c, rest, hcons⟩ := List.exists_cons_of_ne_nil hseg.nonempty
      refine ⟨c, rest, ?_, hcons ▸ hlies⟩
      have hc := head?_trim s.chars
      rw [hseg.trimmed, hcons] at hc
      exact hc c (by simp)
  · have hkeys : ((splitFrom k body).filterMap Segment.key?).Pairwise fun x y => x.1 ≤ y.1 := by
      rw [List.pairwise_filterMap]
      refine (pairwise_stop_lt k body).imp ?_
      rintro s t hlt x hx y hy
      obtain ⟨-, -, rfl⟩ := Option.map_eq_some_iff.1 hx
      obtain ⟨-, -, rfl⟩ := Option.map_eq_some_iff.1 hy
      unfold Segment.stop at hlt
      show s.offset ≤ t.offset
      omega
    have hpairs := hkeys.sublist hsub
    rw [List.pairwise_map] at hpairs
    exact hpairs

namespace Slot

def LiesIn (text : List Char) : Slot → Prop
  | call c => c.LiesIn text
  | entity e => e.LiesIn text

def span : Slot → Span
  | call c => c.span
  | entity e => e.span

@[simp] theorem span_node (text : List Char) (path : String) (i : Nat) (slot : Slot) :
    (slot.node text path i).span = slot.span := by
  cases slot with
  | call c => rw [node, Call.node_eq, span]
  | entity e => rfl

/-- A slot lies within the segment that it is read from, and starts with it. -/
theorem ofSegment?_liesIn {text : List Char} {s : Segment} {slot : Slot}
    (h : ofSegment? s = some slot) (hat : At text s.offset s.chars) :
    slot.LiesIn text ∧ slot.span.start = s.offset ∧ slot.span.stop ≤ s.stop := by
  rw [ofSegment?, Option.orElse_eq_orElse, Option.orElse_eq_or] at h
  rcases Option.or_eq_some_iff.1 h with h | ⟨-, h⟩
  · obtain ⟨c, hc, rfl⟩ := Option.map_eq_some_iff.1 h
    exact Call.ofSegment?_liesIn hc hat
  · obtain ⟨e, he, rfl⟩ := Option.map_eq_some_iff.1 h
    obtain ⟨-, hspan, -⟩ := EntitySource.ofSegment?_eq_some he
    refine ⟨EntitySource.ofSegment?_liesIn he hat, ?_, ?_⟩
    · rw [span, hspan]
    · rw [span, hspan, Segment.stop]

end Slot

namespace Call
variable {text : List Char} {c : Call}

theorem LiesIn.at_body (h : c.LiesIn text) : At text c.bodyStart c.body := by
  obtain ⟨opening, -, hbody, hat⟩ := h
  obtain ⟨tail, after, hrest, -⟩ := c.exists_tail
  rw [hbody]
  rw [hrest] at hat
  exact hat.right.left.left

/-- The slots of a call stand in the text, behind what opens the call and before its end. -/
theorem LiesIn.slot (h : c.LiesIn text) {slot : Slot} (hslot : slot ∈ c.slots) :
    slot.LiesIn text ∧ c.bodyStart ≤ slot.span.start ∧
      slot.span.stop ≤ c.bodyStart + byteLength c.body := by
  rw [slots_eq] at hslot
  obtain ⟨s, hs, hread⟩ := List.mem_filterMap.1 hslot
  obtain ⟨hlies, hstart, hstop⟩ := Slot.ofSegment?_liesIn hread (at_of_mem_splitFrom h.at_body hs)
  have hextent := extent_of_mem_splitFrom hs
  exact ⟨hlies, by omega, by omega⟩

theorem LiesIn.pairwise_slots (h : c.LiesIn text) :
    c.slots.Pairwise fun s t => s.span.stop ≤ t.span.start := by
  rw [slots_eq, List.pairwise_filterMap]
  refine (pairwise_stop_lt c.bodyStart c.body).imp_of_mem ?_
  intro s t hs ht hlt slot hslot slot' hslot'
  have h1 := Slot.ofSegment?_liesIn hslot (at_of_mem_splitFrom h.at_body hs)
  have h2 := Slot.ofSegment?_liesIn hslot' (at_of_mem_splitFrom h.at_body ht)
  omega

/-- What holds of the nodes of all calls, entities, properties and items of a text holds of every
node of a tree. -/
theorem LiesIn.forall_nodes {P : Node → Prop}
    (call : ∀ c path, Call.LiesIn text c → P (c.node text path))
    (entity : ∀ e path, EntitySource.LiesIn text e → P (e.node text path))
    (property : ∀ e p path, EntitySource.LiesIn text e → p ∈ e.properties →
      P (p.node text path e.span))
    (item : ∀ e p path value, EntitySource.LiesIn text e → p ∈ e.properties →
      P ⟨.property, path, lineWithin text p.position e.span, value, []⟩)
    {c : Call} (h : c.LiesIn text) (path : String) : ∀ m ∈ (c.node text path).nodes, P m := by
  have hproperty : ∀ e p path, EntitySource.LiesIn text e → p ∈ e.properties →
      ∀ m ∈ (p.node text path e.span).nodes, P m := by
    intro e p path he hp m hm
    rw [Node.nodes_eq] at hm
    rcases List.mem_cons.1 hm with rfl | hm
    · exact property e p path he hp
    · obtain ⟨n, hn, hmn⟩ := Node.mem_nodesOf.1 hm
      obtain ⟨j, x, -, rfl⟩ := Node.mem_itemsOf hn
      obtain rfl : m = _ := by simpa [Node.nodes, Node.nodesOf] using hmn
      exact item e p _ _ he hp
  have hentity : ∀ e path, EntitySource.LiesIn text e → ∀ m ∈ (e.node text path).nodes, P m := by
    intro e path he m hm
    rw [Node.nodes_eq] at hm
    rcases List.mem_cons.1 hm with rfl | hm
    · exact entity e path he
    · obtain ⟨n, hn, hmn⟩ := Node.mem_nodesOf.1 hm
      obtain ⟨p, hp, rfl⟩ := List.mem_map.1 hn
      exact hproperty e p _ he hp m hmn
  intro m hm
  rw [Node.nodes_eq] at hm
  rcases List.mem_cons.1 hm with rfl | hm
  · exact call c path h
  · obtain ⟨n, hn, hmn⟩ := Node.mem_nodesOf.1 hm
    rw [node_eq] at hn
    obtain ⟨i, hi, rfl⟩ := List.mem_mapIdx.1 hn
    have hmem := List.getElem_mem hi
    have hslot := (h.slot hmem).1
    cases hs : c.slots[i] with
    | call c' =>
      rw [hs] at hmem hmn hslot
      have hlt := length_rest_lt hmem
      exact LiesIn.forall_nodes call entity property item hslot _ m hmn
    | entity e =>
      rw [hs] at hmn hslot
      exact hentity e _ hslot m hmn
termination_by c.rest.length

end Call

theorem PropertySource.length_value_le {k : Nat} {body : List Char} {p : PropertySource}
    (h : p ∈ ofBody k body) : p.value.length ≤ body.length := by
  obtain ⟨f, -, rfl⟩ := List.mem_map.1 h
  have h1 := congrArg List.length (cutAt_append f.valueStart body)
  have h2 := congrArg List.length
    (cutAt_append (f.valueStop - f.valueStart) (cutAt f.valueStart body).2)
  simp only [List.length_append] at h1 h2
  show (f.rawValue body).length ≤ body.length
  unfold Field.rawValue
  omega

theorem PropertySource.length_ofBody_le (k : Nat) (body : List Char) :
    (ofBody k body).length ≤ body.length := by
  have hsub := (PropertyReading.sublist_group [] (splitFrom k body)).length_le
  have hkeys := List.length_filterMap_le Segment.key? (splitFrom k body)
  have hsegs := length_splitFrom_le k body
  rw [← map_reading_ofBody, List.length_map, List.length_map] at hsub
  omega

theorem Node.length_itemsOf_le (path : String) (span : Span) (items : List String) :
    (itemsOf path span items).length ≤ items.length := by
  unfold itemsOf
  split
  · simp
  · simp

/-- No node of a script has more children than the script has characters. -/
theorem Node.length_children_le {text : String} {n : Node} (h : n ∈ (ofScript text).nodes) :
    n.children.length ≤ text.toList.length := by
  cases hroot : Call.root? text.toList with
  | none =>
    obtain rfl : n = placeholder (byteLength text.toList) := by
      simpa [ofScript, hroot, placeholder, nodes, nodesOf] using h
    simp [placeholder]
  | some c =>
    simp only [ofScript, hroot] at h
    have hbody : ∀ e, EntitySource.LiesIn text.toList e → ∃ k body,
        body.length ≤ text.toList.length ∧ e.properties = PropertySource.ofBody k body := by
      rintro e ⟨raw, hat, -, hread⟩
      obtain ⟨-, -, b, body, -, hraw, hprops⟩ := EntitySource.ofSegment?_eq_some hread
      have hlong := hat.length_le
      rw [hraw] at hlong
      simp only [List.length_append, List.length_cons] at hlong
      exact ⟨_, body, by omega, hprops⟩
    refine (Call.root?_liesIn hroot).forall_nodes (P := fun n => n.children.length ≤ _)
      ?call ?entity ?property ?item _ n h
    case call =>
      intro c path hc
      have hlong := hc.at_body.length_le
      have hsegs := length_splitFrom_le c.bodyStart c.body
      have hslots := List.length_filterMap_le Slot.ofSegment? (splitFrom c.bodyStart c.body)
      rw [Call.node_eq, Call.slots_eq]
      simp only [List.length_mapIdx]
      omega
    case entity =>
      intro e path he
      obtain ⟨k, body, hlong, hprops⟩ := hbody e he
      have := PropertySource.length_ofBody_le k body
      unfold EntitySource.node
      rw [hprops, List.length_map]
      omega
    case property =>
      intro e p path he hp
      obtain ⟨k, body, hlong, hprops⟩ := hbody e he
      rw [hprops] at hp
      have hvalue := PropertySource.length_value_le hp
      have hitems := length_itemsOf_le path (lineWithin text.toList p.position e.span)
        (Value.items p.value)
      have hsegs : (Value.items p.value).length ≤ p.value.length := by
        unfold Value.items
        rw [List.length_map]
        exact length_splitFrom_le 0 p.value
      unfold PropertySource.node
      simp only
      omega
    case item =>
      intro e p path value _ _
      simp

end ProblemScript
