import ProblemScript.Proofs.Tree.Address
import ProblemScript.Proofs.Tree.Placement

/-! The node under an offset is the innermost one. Going down through the first child that holds
the offset misses nothing, because no other slot holds it, and because properties that hold it
share one range. -/
namespace ProblemScript
open Text

namespace Node

/-- The children of a node lie in its range. Slots are shorter than their operation and follow each
other, properties are on lines of their entity, and items have the range of their property. -/
structure RangesNest (n : Node) : Prop where
  encloses : ∀ c ∈ n.children, n.span.encloses c.span = true
  shorter : n.kind = .operation → ∀ c ∈ n.children, c.span.length < n.span.length
  disjoint : n.kind = .operation → n.children.Pairwise fun c d => c.span.stop ≤ d.span.start
  lines : n.kind.isEntityLike = true →
    n.children.Pairwise fun p q => p.span = q.span ∨ p.span.stop ≤ q.span.start
  items : n.kind = .property → ∀ c ∈ n.children, c.span = n.span

theorem IsPlaced.rangesNest {text : List Char} {n : Node} (h : n.IsPlaced text) : n.RangesNest :=
  ⟨h.encloses, h.shorter, h.disjoint, h.lines, h.items⟩

theorem rangesNest_of_items {path : String} {span : Span} {value : Option String}
    {children : List Node} (h : ∀ c ∈ children, c.span = span) :
    RangesNest ⟨.property, path, span, value, children⟩ where
  encloses c hc := by
    simp [h c hc, Span.encloses_iff]
  shorter := by simp
  disjoint := by simp
  lines := by simp [Kind.isEntityLike]
  items _ := h

/-- The ranges of a script nest, also those of the placeholder. -/
theorem rangesNest_ofScript (text : String) : ∀ n ∈ (ofScript text).nodes, n.RangesNest := by
  cases hroot : Call.root? text.toList with
  | none =>
    intro n hn
    rw [eq_placeholder_of_mem_nodes hroot hn]
    constructor <;> simp [placeholder]
  | some c =>
    simp only [ofScript, hroot]
    refine (Call.root?_liesIn hroot).forall_nodes ?call ?entity ?property ?item _
    case call => exact fun c path hc => (hc.isPlaced path).rangesNest
    case entity => exact fun e path he => (he.isPlaced path).rangesNest
    case property =>
      intro e p path _ _
      refine rangesNest_of_items fun c hc => ?_
      obtain ⟨j, x, -, rfl⟩ := mem_itemsOf hc
      rfl
    case item => exact fun e p path value _ _ => rangesNest_of_items (by simp)

/-- Two nodes of a list that hold one offset are the same, or they are related, if of any two the
first ends before the second or they are related. -/
theorem eq_or_of_contains {P : Node → Node → Prop} [Std.Symm P] {ns : List Node}
    (h : ns.Pairwise fun c d => P c d ∨ c.span.stop ≤ d.span.start) {c d : Node} (hc : c ∈ ns)
    (hd : d ∈ ns) {offset : Nat} (hco : c.span.contains offset = true)
    (hdo : d.span.contains offset = true) : c = d ∨ P c d := by
  have hsymm : Std.Symm fun c d : Node =>
      c.span.contains offset = true → d.span.contains offset = true → P c d :=
    ⟨fun c d hcd hdo hco => symm (hcd hco hdo)⟩
  have hpair : ns.Pairwise fun c d =>
      c.span.contains offset = true → d.span.contains offset = true → P c d := by
    refine h.imp fun {c d} hcd hco hdo => ?_
    rcases hcd with hcd | hcd
    · exact hcd
    · rw [Span.contains_iff] at hco hdo
      omega
  by_cases hne : c = d
  · exact .inl hne
  · exact .inr (hpair.forall hc hd hne hco hdo)

namespace RangesNest
variable {n c d : Node} {offset : Nat}

theorem contains_of_child (h : n.RangesNest) (hc : c ∈ n.children)
    (ho : c.span.contains offset = true) : n.span.contains offset = true := by
  have hencloses := (Span.encloses_iff _ _).1 (h.encloses c hc)
  rw [Span.contains_iff] at ho ⊢
  omega

/-- At most one slot of an operation holds an offset. -/
theorem slot_unique (h : n.RangesNest) (hn : n.kind = .operation) (hc : c ∈ n.children)
    (hd : d ∈ n.children) (hco : c.span.contains offset = true)
    (hdo : d.span.contains offset = true) : c = d := by
  have hsymm : Std.Symm fun _ _ : Node => False := ⟨fun _ _ => id⟩
  have hpair : n.children.Pairwise fun c d => False ∨ c.span.stop ≤ d.span.start :=
    (h.disjoint hn).imp .inr
  exact (eq_or_of_contains hpair hc hd hco hdo).resolve_right id

/-- Properties of an entity that hold an offset have the same range. -/
theorem line_unique (h : n.RangesNest) (hn : n.kind.isEntityLike = true) (hc : c ∈ n.children)
    (hd : d ∈ n.children) (hco : c.span.contains offset = true)
    (hdo : d.span.contains offset = true) : c.span = d.span := by
  have hsymm : Std.Symm fun c d : Node => c.span = d.span := ⟨fun _ _ => Eq.symm⟩
  rcases eq_or_of_contains (h.lines hn) hc hd hco hdo with rfl | hspan
  · rfl
  · exact hspan

end RangesNest

theorem innermostOf_eq (offset : Nat) (ns : List Node) :
    innermostOf offset ns = (ns.find? (·.span.contains offset)).map (innermost offset) := by
  induction ns with
  | nil => rfl
  | cons n ns ih =>
    rw [innermostOf, List.find?_cons]
    cases n.span.contains offset
    · exact ih
    · rfl

/-- The search for an offset stops at a property, or where no child holds the offset; else it goes
down through the first child that does. -/
@[elab_as_elim]
theorem innermost_induction (offset : Nat) {P : Node → Node → Prop}
    (property : ∀ n, n.kind = .property → P n n)
    (here : ∀ n, n.kind ≠ .property → (∀ c ∈ n.children, c.span.contains offset = false) → P n n)
    (down : ∀ n c, n.kind ≠ .property → n.children.find? (·.span.contains offset) = some c →
      P c (c.innermost offset) → P n (c.innermost offset))
    (n : Node) : P n (n.innermost offset) := by
  induction n using children_induction with
  | node n ih =>
    rw [innermost_eq]
    by_cases hn : n.kind = .property
    · rw [if_pos hn]
      exact property n hn
    · rw [if_neg hn, innermostOf_eq]
      cases hfind : n.children.find? (·.span.contains offset) with
      | none => exact here n hn (by simpa using hfind)
      | some c => exact down n c hn hfind (ih c (List.mem_of_find?_eq_some hfind))

theorem contains_innermost {offset : Nat} {n : Node} (h : n.span.contains offset = true) :
    (n.innermost offset).span.contains offset = true := by
  induction n using innermost_induction offset with
  | property n hn => exact h
  | here n hn hc => exact h
  | down n c hn hfind ih => exact ih (by simpa using List.find?_some hfind)

/-- Above a property the search has nothing left, and elsewhere no child holds the offset. -/
theorem not_contains_of_innermost (offset : Nat) (n : Node) :
    (n.innermost offset).kind ≠ .property →
      ∀ c ∈ (n.innermost offset).children, c.span.contains offset = false := by
  induction n using innermost_induction offset with
  | property n hn => exact fun hne => absurd hn hne
  | here n hn hc => exact fun _ => hc
  | down n c hn hfind ih => exact ih

/-- The node `n` is the innermost node of the tree that holds the offset, where of the properties
that hold it the first stands for all of them and for their items. -/
structure IsInnermost (T : Node) (offset : Nat) (n : Node) : Prop where
  mem : n ∈ T.nodes
  contains : n.span.contains offset = true
  above : ∀ q ∈ T.nodes, Path.descends q.path n.path = true → q.span.contains offset = true
  /-- Operations and entities that hold the offset have the node below them. -/
  below : ∀ q ∈ T.nodes, q.kind ≠ .property → q.span.contains offset = true →
    q = n ∨ n ∈ nodesOf q.children
  ends : n.kind ≠ .property → ∀ c ∈ n.children, c.span.contains offset = false
  property : n.kind = .property → ∃ e ∈ T.nodes, e.kind.isEntityLike = true ∧
    e.children.find? (fun p => p.kind == .property && p.span.contains offset) = some n
  not_item : ∀ p ∈ T.nodes, p.kind = .property → n ∉ p.children

section Nesting
variable {n : Node} {offset : Nat} (hranges : ∀ m ∈ n.nodes, m.RangesNest)
  (hlabels : ∀ m ∈ n.nodes, m.IsLabelled)

include hranges in
/-- What holds an offset lies in nodes that hold it. -/
theorem contains_of_mem_nodes {m : Node} (hm : m ∈ n.nodes)
    (ho : m.span.contains offset = true) : n.span.contains offset = true := by
  induction n using children_induction with
  | node n ih =>
    rw [nodes_eq] at hm
    rcases List.mem_cons.1 hm with rfl | hm
    · exact ho
    · obtain ⟨c, hc, hmc⟩ := mem_nodesOf.1 hm
      have hbelow := ih c hc (forall_nodes_child hranges hc) hmc
      exact (hranges n n.mem_nodes_self).contains_of_child hc hbelow

include hranges in
/-- Nothing below children that do not hold the offset holds it. -/
theorem not_contains_of_mem_nodesOf {ns : List Node} (hns : ns ⊆ n.children)
    (h : ∀ c ∈ ns, c.span.contains offset = false) :
    ∀ m ∈ nodesOf ns, ¬m.span.contains offset = true := by
  intro m hm hmo
  obtain ⟨c, hc, hmc⟩ := mem_nodesOf.1 hm
  have hco := contains_of_mem_nodes (forall_nodes_child hranges (hns hc)) hmc hmo
  rw [h c hc] at hco
  simp at hco

include hranges hlabels in
/-- There are only properties below a property, and they have its range. -/
theorem kind_span_of_mem_property (hn : n.kind = .property) :
    ∀ m ∈ n.nodes, m.kind = .property ∧ m.span = n.span := by
  induction n using children_induction with
  | node n ih =>
    intro m hm
    rw [nodes_eq] at hm
    rcases List.mem_cons.1 hm with rfl | hm
    · exact ⟨hn, rfl⟩
    · obtain ⟨c, hc, hmc⟩ := mem_nodesOf.1 hm
      obtain ⟨i, hi⟩ := List.mem_iff_getElem?.1 hc
      have hkind := ((hlabels n n.mem_nodes_self).item hn i c hi).1
      have hspan := (hranges n n.mem_nodes_self).items hn c hc
      obtain ⟨hmkind, hmspan⟩ := ih c hc (forall_nodes_child hranges hc)
        (forall_nodes_child hlabels hc) hkind m hmc
      exact ⟨hmkind, hmspan.trans hspan⟩

include hranges hlabels in
/-- The search passes through every operation and entity that holds the offset. -/
theorem innermost_eq_of_mem {q : Node} (hq : q ∈ n.nodes) (hkind : q.kind ≠ .property)
    (ho : q.span.contains offset = true) : n.innermost offset = q.innermost offset := by
  induction n using children_induction with
  | node n ih =>
    rw [nodes_eq] at hq
    rcases List.mem_cons.1 hq with rfl | hq
    · rfl
    · obtain ⟨d, hd, hqd⟩ := mem_nodesOf.1 hq
      have hranges' := forall_nodes_child hranges hd
      have hlabels' := forall_nodes_child hlabels hd
      -- A child with an operation or entity in it is a slot, and only one slot holds the offset.
      have hdkind : d.kind ≠ .property := fun hp =>
        hkind (kind_span_of_mem_property hranges' hlabels' hp q hqd).1
      have hoperation := (hlabels n n.mem_nodes_self).kind_eq_operation hd hdkind
      have hdo := contains_of_mem_nodes hranges' hqd ho
      obtain ⟨c, hfind⟩ : ∃ c, n.children.find? (·.span.contains offset) = some c :=
        Option.isSome_iff_exists.1 (List.find?_isSome.2 ⟨d, hd, hdo⟩)
      obtain rfl : c = d := (hranges n n.mem_nodes_self).slot_unique hoperation
        (List.mem_of_find?_eq_some hfind) hd (by simpa using List.find?_some hfind) hdo
      rw [innermost_eq, if_neg (by simp [hoperation]), innermostOf_eq, hfind]
      exact ih c hd hranges' hlabels' hqd

include hranges hlabels in
theorem innermost_below {q : Node} (hq : q ∈ n.nodes) (hkind : q.kind ≠ .property)
    (ho : q.span.contains offset = true) :
    q = n.innermost offset ∨ n.innermost offset ∈ nodesOf q.children := by
  rw [innermost_eq_of_mem hranges hlabels hq hkind ho]
  have hmem := innermost_mem_nodes offset q
  rw [nodes_eq, List.mem_cons] at hmem
  exact hmem.imp_left Eq.symm

include hlabels in
/-- A property that the search ends at is the first in its entity that holds the offset. -/
theorem find?_innermost (hn : n.kind ≠ .property)
    (hproperty : (n.innermost offset).kind = .property) :
    ∃ e ∈ n.nodes, e.kind.isEntityLike = true ∧
      e.children.find? (·.span.contains offset) = some (n.innermost offset) := by
  induction n using innermost_induction offset with
  | property n hp => exact absurd hp hn
  | here n _ hc => exact absurd hproperty hn
  | down n c _ hfind ih =>
    have hc := List.mem_of_find?_eq_some hfind
    by_cases hckind : c.kind = .property
    · rw [innermost_eq, if_pos hckind]
      exact ⟨n, n.mem_nodes_self, (hlabels n n.mem_nodes_self).isEntityLike hn hc hckind, hfind⟩
    · obtain ⟨e, he, hentity, hfirst⟩ :=
        ih (forall_nodes_child hlabels hc) hckind hproperty
      exact ⟨e, nodes_subset_of_mem_children hc he, hentity, hfirst⟩

include hranges hlabels in
/-- The search ends at the innermost node. -/
theorem isInnermost_innermost (hpaths : ∀ m ∈ n.nodes, m.PathsNest) (hn : n.kind ≠ .property)
    (ho : n.span.contains offset = true) : n.IsInnermost offset (n.innermost offset) := by
  have hmem := innermost_mem_nodes offset n
  have hcontains := contains_innermost ho
  constructor
  · exact hmem
  · exact hcontains
  · intro q hq hdescends
    have hbelow := (descends_iff_mem_nodesOf hpaths hmem hq).1 hdescends
    have hdown : n.innermost offset ∈ q.nodes := by
      rw [nodes_eq]
      exact List.mem_cons_of_mem _ hbelow
    exact contains_of_mem_nodes (fun k hk => hranges k (nodes_subset hq hk)) hdown hcontains
  · exact fun q hq hkind hqo => innermost_below hranges hlabels hq hkind hqo
  · exact not_contains_of_innermost offset n
  · intro hproperty
    obtain ⟨e, he, hentity, hfind⟩ := find?_innermost hlabels hn hproperty
    obtain ⟨-, before, after, hsplit, hbefore⟩ := List.find?_eq_some_iff_append.1 hfind
    have hfirst : ∀ c ∈ before, (!(c.kind == .property && c.span.contains offset)) = true := by
      intro c hc
      simp [show c.span.contains offset = false by simpa using hbefore c hc]
    exact ⟨e, he, hentity, List.find?_eq_some_iff_append.2
      ⟨by simp [hproperty, hcontains], before, after, hsplit, hfirst⟩⟩
  · intro p hp hpkind hitem
    obtain ⟨i, hi⟩ := List.mem_iff_getElem?.1 hitem
    have hproperty := ((hlabels p hp).item hpkind i _ hi).1
    obtain ⟨e, he, hentity, hfind⟩ := find?_innermost hlabels hn hproperty
    have hchild := List.mem_of_find?_eq_some hfind
    exact (hlabels p hp).not_item hpkind (hlabels e he) hentity hchild hitem

end Nesting

/-- No tree reaches past the end of its text. -/
theorem stop_ofScript_le (text : String) : (ofScript text).span.stop ≤ byteLength text.toList := by
  cases hroot : Call.root? text.toList with
  | none => simp [ofScript, hroot, placeholder]
  | some c =>
    simp only [ofScript, hroot]
    exact ((Call.root?_liesIn hroot).isPlaced _).stop_le

/-- A script has nothing under an offset exactly if its root does not hold the offset, as none does
at the end of the text or behind it; what it has there is the innermost node. -/
theorem resolve?_innermost (text : String) (offset : Nat) :
    let T := ofScript text
    (T.pathAt? offset = none ↔ T.span.contains offset = false) ∧
      (byteLength text.toList ≤ offset → T.pathAt? offset = none) ∧
      ∀ n, T.resolve? offset = some n → T.IsInnermost offset n := by
  intro T
  have hnone : T.pathAt? offset = none ↔ T.span.contains offset = false := by
    simp [pathAt?, resolve?]
  refine ⟨hnone, ?_, ?_⟩
  · intro hend
    have hstop : T.span.stop ≤ byteLength text.toList := stop_ofScript_le text
    rw [hnone, Bool.eq_false_iff, Ne, Span.contains_iff]
    omega
  · intro n hn
    obtain ⟨ho, hn⟩ := Option.ite_none_right_eq_some.1 hn
    obtain rfl := Option.some.inj hn
    have hkind : T.kind ≠ .property := by simp [T, (kind_path_ofScript text).1]
    exact isInnermost_innermost (rangesNest_ofScript text) (isLabelled_ofScript text)
      (pathsNest_ofScript text) hkind ho

/-- A line with two properties inside one entity, a property with items on another line, and an
operation; the offsets are in a key, in an item, at a comma between slots and at the end. -/
theorem resolve?_innermost_lines :
    let text := "f(e[a: 1, b: 2,\n  k: x, y], g(h[]))"
    let T := ofScript text
    T.pathAt? 4 = some "operation/entities[0]/a" ∧ T.pathAt? 10 = some "operation/entities[0]/a" ∧
      T.pathAt? 24 = some "operation/entities[0]/k" ∧ T.pathAt? 27 = some "operation" ∧
      byteLength text.toList ≤ 37 ∧ T.pathAt? 37 = none ∧
      (∃ n, T.resolve? 24 = some n ∧ T.IsInnermost 24 n) := by
  intro text T
  obtain ⟨-, hend, -⟩ := resolve?_innermost text 37
  obtain ⟨-, -, hinner⟩ := resolve?_innermost text 24
  have hlength : byteLength text.toList ≤ 37 := by decide +kernel
  have hsome : ∃ n, T.resolve? 24 = some n := Option.isSome_iff_exists.1 (by decide +kernel)
  obtain ⟨n, hn⟩ := hsome
  exact ⟨by decide +kernel, by decide +kernel, by decide +kernel, by decide +kernel, hlength,
    hend hlength, n, hn, hinner n hn⟩

end Node
end ProblemScript
