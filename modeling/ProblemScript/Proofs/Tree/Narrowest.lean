import ProblemScript.Proofs.RangeTable
import ProblemScript.Proofs.Tree.Cursor

/-! The table of a tree and the tree itself lead an offset to the same path. Of the nodes that hold
the offset each is shorter than those above it, down to the entity; only a property may be as long
as its entity, and the table then prefers the entity, which it lists first. -/
namespace ProblemScript

/-- A range that is as long as one around it, and not empty, is the same. -/
theorem Span.eq_of_encloses {s t : Span} (h : s.encloses t = true) (hlength : s.length ≤ t.length)
    {offset : Nat} (ho : t.contains offset = true) : t = s := by
  obtain ⟨start, stop⟩ := t
  rw [encloses_iff] at h
  rw [contains_iff] at ho
  simp only [length] at h hlength ho
  have hstart : start = s.start := by omega
  have hstop : stop = s.stop := by omega
  rw [hstart, hstop]

namespace Node

/-- The node `m` is the first of the shortest among the nodes that hold the offset. -/
def IsNarrowest (offset : Nat) (ns : List Node) (m : Node) : Prop :=
  ∃ before after, ns.filter (·.span.contains offset) = before ++ m :: after ∧
    (∀ x ∈ before, m.span.length < x.span.length) ∧ ∀ x ∈ after, m.span.length ≤ x.span.length

namespace IsNarrowest
variable {offset : Nat} {ms ns : List Node} {m n : Node}

theorem length_le (h : IsNarrowest offset ns m) (hn : n ∈ ns)
    (ho : n.span.contains offset = true) : m.span.length ≤ n.span.length := by
  obtain ⟨before, after, hfilter, hbefore, hafter⟩ := h
  have hmem : n ∈ before ++ m :: after := by
    rw [← hfilter]
    exact List.mem_filter.2 ⟨hn, ho⟩
  rcases List.mem_append.1 hmem with hn | hn
  · exact Nat.le_of_lt (hbefore n hn)
  · rcases List.mem_cons.1 hn with rfl | hn
    · exact Nat.le_refl _
    · exact hafter n hn

/-- The first node is chosen if it holds the offset and no other is shorter. -/
theorem head (ho : n.span.contains offset = true)
    (h : ∀ x ∈ ns, x.span.contains offset = true → n.span.length ≤ x.span.length) :
    IsNarrowest offset (n :: ns) n := by
  refine ⟨[], ns.filter (·.span.contains offset), by simp [ho], by simp, fun x hx => ?_⟩
  obtain ⟨hx, hxo⟩ := List.mem_filter.1 hx
  exact h x hx hxo

/-- Longer nodes in front change nothing, and neither do nodes that do not hold the offset. -/
theorem append_left (h : IsNarrowest offset ns m)
    (hlonger : ∀ x ∈ ms, x.span.contains offset = true → m.span.length < x.span.length) :
    IsNarrowest offset (ms ++ ns) m := by
  obtain ⟨before, after, hfilter, hbefore, hafter⟩ := h
  refine ⟨ms.filter (·.span.contains offset) ++ before, after, ?_, ?_, hafter⟩
  · rw [List.filter_append, hfilter, List.append_assoc]
  · intro x hx
    rcases List.mem_append.1 hx with hx | hx
    · obtain ⟨hx, hxo⟩ := List.mem_filter.1 hx
      exact hlonger x hx hxo
    · exact hbefore x hx

/-- Behind a node there may be others as long. -/
theorem append_right (h : IsNarrowest offset ns m)
    (hle : ∀ x ∈ ms, x.span.contains offset = true → m.span.length ≤ x.span.length) :
    IsNarrowest offset (ns ++ ms) m := by
  obtain ⟨before, after, hfilter, hbefore, hafter⟩ := h
  refine ⟨before, after ++ ms.filter (·.span.contains offset), ?_, hbefore, ?_⟩
  · rw [List.filter_append, hfilter, List.append_assoc, List.cons_append]
  · intro x hx
    rcases List.mem_append.1 hx with hx | hx
    · exact hafter x hx
    · obtain ⟨hx, hxo⟩ := List.mem_filter.1 hx
      exact hle x hx hxo

end IsNarrowest

section Nesting
variable {n c : Node} {offset : Nat} (hranges : ∀ m ∈ n.nodes, m.RangesNest)
  (hlabels : ∀ m ∈ n.nodes, m.IsLabelled)

include hranges in
/-- Up to the first child that holds the offset only the node above does, so that the narrowest from
there on is the narrowest of all if it is shorter than the node above. -/
theorem exists_isNarrowest (hfind : n.children.find? (·.span.contains offset) = some c) :
    ∃ before after, n.children = before ++ c :: after ∧
      ∀ m : Node, m.span.length < n.span.length →
        IsNarrowest offset (c.nodes ++ nodesOf after) m → IsNarrowest offset n.nodes m := by
  obtain ⟨-, before, after, hsplit, hbefore⟩ := List.find?_eq_some_iff_append.1 hfind
  have hfront : ∀ x ∈ nodesOf before, ¬x.span.contains offset = true :=
    not_contains_of_mem_nodesOf hranges (by simp [hsplit]) (by simpa using hbefore)
  have hnodes : n.nodes = (n :: nodesOf before) ++ (c.nodes ++ nodesOf after) := by
    rw [nodes_eq, hsplit]
    simp [nodesOf_eq_flatMap]
  refine ⟨before, after, hsplit, fun m hshorter h => ?_⟩
  rw [hnodes]
  apply h.append_left
  intro x hx hxo
  rcases List.mem_cons.1 hx with rfl | hx
  · exact hshorter
  · exact absurd hxo (hfront x hx)

include hranges in
/-- What is narrowest in the slot that holds the offset is narrowest in the operation. -/
theorem isNarrowest_of_slot {m : Node} (hn : n.kind = .operation)
    (hfind : n.children.find? (·.span.contains offset) = some c)
    (h : IsNarrowest offset c.nodes m) : IsNarrowest offset n.nodes m := by
  have hself := hranges n n.mem_nodes_self
  have hco : c.span.contains offset = true := by simpa using List.find?_some hfind
  obtain ⟨before, after, hsplit, hnarrowest⟩ := exists_isNarrowest hranges hfind
  have hafter : ∀ d ∈ after, d.span.contains offset = false := by
    intro d hd
    have hdisjoint := hself.disjoint hn
    rw [hsplit] at hdisjoint
    have hstop := (List.pairwise_cons.1 (List.pairwise_append.1 hdisjoint).2.1).1 d hd
    rw [Bool.eq_false_iff, Ne, Span.contains_iff]
    rw [Span.contains_iff] at hco
    omega
  have hbehind := not_contains_of_mem_nodesOf hranges
    (show after ⊆ n.children by simp [hsplit]) hafter
  have hshorter : m.span.length < n.span.length :=
    Nat.lt_of_le_of_lt (h.length_le c.mem_nodes_self hco)
      (hself.shorter hn c (List.mem_of_find?_eq_some hfind))
  exact hnarrowest m hshorter (h.append_right fun x hx hxo => absurd hxo (hbehind x hx))

include hranges hlabels in
/-- Everything in an entity that holds the offset has the range of the first property there. -/
theorem span_of_mem_entity (hn : n.kind.isEntityLike = true)
    (hfind : n.children.find? (·.span.contains offset) = some c) :
    ∀ m ∈ nodesOf n.children, m.span.contains offset = true → m.span = c.span := by
  intro m hm hmo
  obtain ⟨d, hd, hmd⟩ := mem_nodesOf.1 hm
  have hdkind := ((hlabels n n.mem_nodes_self).property hn d hd).1
  have hspan := (kind_span_of_mem_property (forall_nodes_child hranges hd)
    (forall_nodes_child hlabels hd) hdkind m hmd).2
  rw [hspan] at hmo ⊢
  exact (hranges n n.mem_nodes_self).line_unique hn hd (List.mem_of_find?_eq_some hfind) hmo
    (by simpa using List.find?_some hfind)

/-- Where a search for the narrowest node in `n` ends if the search downwards ends at `m`. -/
inductive NarrowsTo (n : Node) (offset : Nat) (m : Node) : Prop
  /-- The node is an operation or an entity. -/
  | outer (kind : m.kind ≠ .property) (narrowest : IsNarrowest offset n.nodes m)
  /-- The node is a property, on one of the lines of its entity. -/
  | line (e : Node) (mem : e ∈ n.nodes) (entity : e.kind.isEntityLike = true)
      (child : m ∈ e.children) (shorter : m.span.length < e.span.length)
      (narrowest : IsNarrowest offset n.nodes m)
  /-- The node is a property of an entity on one line, and the entity is found in its place. -/
  | entity (e : Node) (mem : e ∈ n.nodes) (entity : e.kind.isEntityLike = true)
      (child : m ∈ e.children) (same : m.span = e.span) (narrowest : IsNarrowest offset n.nodes e)

include hranges hlabels in
/-- In an entity the first property that holds the offset is narrowest, unless it is as long as the
entity. -/
theorem narrowsTo_of_line (hn : n.kind.isEntityLike = true)
    (hfind : n.children.find? (·.span.contains offset) = some c) : n.NarrowsTo offset c := by
  have hc := List.mem_of_find?_eq_some hfind
  have hco : c.span.contains offset = true := by simpa using List.find?_some hfind
  have hspans := span_of_mem_entity hranges hlabels hn hfind
  by_cases hshorter : c.span.length < n.span.length
  · obtain ⟨before, after, hsplit, hnarrowest⟩ := exists_isNarrowest hranges hfind
    have hbehind : ∀ x ∈ nodesOf c.children ++ nodesOf after, x ∈ nodesOf n.children := by
      intro x hx
      rw [hsplit]
      simp only [nodesOf_eq_flatMap, List.flatMap_append, List.flatMap_cons, nodes_eq c,
        List.mem_append, List.mem_cons] at hx ⊢
      tauto
    have hhead : IsNarrowest offset (c.nodes ++ nodesOf after) c := by
      rw [nodes_eq, List.cons_append]
      exact .head hco fun x hx hxo => by rw [hspans x (hbehind x hx) hxo]
    exact .line n n.mem_nodes_self hn hc hshorter (hnarrowest c hshorter hhead)
  · have hspan : c.span = n.span := Span.eq_of_encloses
      ((hranges n n.mem_nodes_self).encloses c hc) (Nat.le_of_not_lt hshorter) hco
    apply NarrowsTo.entity n n.mem_nodes_self hn hc hspan
    rw [nodes_eq]
    exact .head (hspan ▸ hco) fun x hx hxo => by rw [hspans x hx hxo, hspan]

include hranges hlabels in
/-- The search downwards ends where the search for the narrowest node does, but for the properties
with the range of their entity. -/
theorem narrowsTo_innermost (hn : n.kind ≠ .property) (ho : n.span.contains offset = true) :
    n.NarrowsTo offset (n.innermost offset) := by
  induction n using innermost_induction offset with
  | property n hp => exact absurd hp hn
  | here n _ hc =>
    have hnone := not_contains_of_mem_nodesOf hranges (List.Subset.refl _) hc
    apply NarrowsTo.outer hn
    rw [nodes_eq]
    exact .head ho fun x hx hxo => absurd hxo (hnone x hx)
  | down n c _ hfind ih =>
    have hc := List.mem_of_find?_eq_some hfind
    by_cases hckind : c.kind = .property
    · have hentity := (hlabels n n.mem_nodes_self).isEntityLike hn hc hckind
      rw [innermost_eq, if_pos hckind]
      exact narrowsTo_of_line hranges hlabels hentity hfind
    · have hoperation := (hlabels n n.mem_nodes_self).kind_eq_operation hc hckind
      have hsub := nodes_subset_of_mem_children hc
      have hslot := fun m => isNarrowest_of_slot (m := m) hranges hoperation hfind
      have hbelow := ih (forall_nodes_child hranges hc) (forall_nodes_child hlabels hc) hckind
        (by simpa using List.find?_some hfind)
      cases hbelow with
      | outer hkind h => exact .outer hkind (hslot _ h)
      | line e he hentity hm hshorter h =>
        exact .line e (hsub he) hentity hm hshorter (hslot _ h)
      | entity e he hentity hm hsame h => exact .entity e (hsub he) hentity hm hsame (hslot _ h)

end Nesting

section Table
variable {T : Node} (h : T.isPlaceholder = false) (hpaths : T.paths.Nodup) {offset : Nat}

include h hpaths in
theorem pathAt?_of_isNarrowest {m : Node} (hm : IsNarrowest offset T.nodes m) :
    (RangeTable.ofTree T).pathAt? offset = some m.path := by
  obtain ⟨before, after, hfilter, hbefore, hafter⟩ := hm
  unfold RangeTable.pathAt?
  rw [RangeTable.entries_ofTree h hpaths, List.filter_map]
  simp only [Function.comp_def, hfilter, List.map_append, List.map_cons]
  rw [RangeTable.foldl_narrower_eq (by simpa using hbefore) (by simpa using hafter)]
  rfl

include h hpaths in
theorem pathAt?_eq_none (hnone : ∀ m ∈ T.nodes, ¬m.span.contains offset = true) :
    (RangeTable.ofTree T).pathAt? offset = none := by
  unfold RangeTable.pathAt?
  rw [RangeTable.entries_ofTree h hpaths, List.filter_map]
  simp [Function.comp_def, List.filter_eq_nil_iff.2 hnone]

end Table

/-- The table of a script finds nothing under an offset exactly if the tree has nothing there. It
finds the path of the node under the offset, unless that is a property with the range of its entity;
then it finds the path of the entity. -/
theorem pathAt?_ofTree {text : String} (h : (ofScript text).isPlaceholder = false) (offset : Nat) :
    let T := ofScript text
    let M := RangeTable.ofTree T
    (M.pathAt? offset = none ↔ T.pathAt? offset = none) ∧
      ∀ n, T.resolve? offset = some n →
        (n.kind ≠ .property → M.pathAt? offset = T.pathAt? offset) ∧
        (n.kind = .property → ∃ e ∈ T.nodes, e.kind.isEntityLike = true ∧ n ∈ e.children ∧
          ((n.span.length < e.span.length ∧ M.pathAt? offset = T.pathAt? offset) ∨
            (n.span = e.span ∧ M.pathAt? offset = some e.path))) := by
  intro T M
  have hranges : ∀ m ∈ T.nodes, m.RangesNest := rangesNest_ofScript text
  have hlabels : ∀ m ∈ T.nodes, m.IsLabelled := isLabelled_ofScript text
  by_cases ho : T.span.contains offset = true
  · have hkind : T.kind ≠ .property := by simp [T, (kind_path_ofScript text).1]
    have hresolve : T.resolve? offset = some (T.innermost offset) := by
      rw [resolve?, if_pos ho]
    have hpath : T.pathAt? offset = some (T.innermost offset).path := by
      rw [pathAt?, hresolve, Option.map_some]
    have hfound : ∀ m, IsNarrowest offset T.nodes m → M.pathAt? offset = some m.path :=
      fun m => pathAt?_of_isNarrowest h (nodup_paths_ofScript text)
    rw [hresolve, hpath]
    simp only [Option.some.injEq, forall_eq']
    cases narrowsTo_innermost hranges hlabels hkind ho with
    | outer hne hm =>
      have hM := hfound _ hm
      exact ⟨by simp [hM], fun _ => hM, fun hp => absurd hp hne⟩
    | line e he hentity hchild hshorter hm =>
      have hM := hfound _ hm
      exact ⟨by simp [hM], fun _ => hM, fun _ => ⟨e, he, hentity, hchild, .inl ⟨hshorter, hM⟩⟩⟩
    | entity e he hentity hchild hsame hm =>
      have hM := hfound _ hm
      have hproperty := ((hlabels e he).property hentity _ hchild).1
      exact ⟨by simp [hM], fun hne => absurd hproperty hne,
        fun _ => ⟨e, he, hentity, hchild, .inr ⟨hsame, hM⟩⟩⟩
  · have hnone : ∀ m ∈ T.nodes, ¬m.span.contains offset = true :=
      fun m hm hmo => ho (contains_of_mem_nodes hranges hm hmo)
    have hM : M.pathAt? offset = none := pathAt?_eq_none h (nodup_paths_ofScript text) hnone
    have hT : T.resolve? offset = none := by rw [resolve?, if_neg ho]
    exact ⟨by simp [hM, pathAt?, hT], by simp [hT]⟩

/-- An entity on one line, whose property has its range, and one with its properties on lines of
their own; the offsets are in a property of either, at a comma between slots and at the end. -/
theorem pathAt?_ofTree_lines :
    let T := ofScript "f(e[a: 1], g[\n  k: x, y,\n  l: 2\n])"
    let M := RangeTable.ofTree T
    T.isPlaceholder = false ∧
      T.pathAt? 7 = some "operation/entities[0]/a" ∧ M.pathAt? 7 = some "operation/entities[0]" ∧
      M.pathAt? 22 = some "operation/entities[1]/k" ∧ M.pathAt? 9 = some "operation" ∧
      M.pathAt? 35 = none ∧
      ∃ n, T.resolve? 22 = some n ∧ n.kind = .property ∧ ∃ e ∈ T.nodes, n ∈ e.children ∧
        (n.span.length < e.span.length ∧ M.pathAt? 22 = T.pathAt? 22 ∨
          n.span = e.span ∧ M.pathAt? 22 = some e.path) := by
  intro T M
  have hscript : T.isPlaceholder = false := by decide +kernel
  have hend : M.pathAt? 35 = none := (pathAt?_ofTree hscript 35).1.2 (by decide +kernel)
  have hsome : ∃ n, T.resolve? 22 = some n ∧ n.kind = .property := by
    have hkind : (T.resolve? 22).map (·.kind) = some .property := by decide +kernel
    exact Option.map_eq_some_iff.1 hkind
  obtain ⟨n, hn, hkind⟩ := hsome
  obtain ⟨e, he, -, hchild, hpath⟩ := ((pathAt?_ofTree hscript 22).2 n hn).2 hkind
  exact ⟨hscript, by decide +kernel, by decide +kernel, by decide +kernel, by decide +kernel, hend,
    n, hn, hkind, e, he, hchild, hpath⟩

end Node
end ProblemScript
