import ProblemScript.Proofs.Grammar.Source
import ProblemScript.Proofs.Tree.Lookup
import ProblemScript.Tree.Cursor

/-! The path of a node leads back to it. Hops lead to every node of a regular tree, and a node
carries the path of the hops to it. That path can be read unless one of its steps has no name; only
a property without a name is out of reach, with its items. -/
namespace ProblemScript
open Text

namespace Node

/-- The path of a node leads to the node, if it is the path of a property without a name it
cannot be read. -/
structure IsAddressed (T n : Node) : Prop where
  unnamed : n.key? = some "" → ∀ p, Path.parse n.path ≠ .ok p
  named : n.key? ≠ some "" → ∃ p, Path.parse n.path = .ok p ∧ T.find? p = some n

theorem IsAddressed.findText?_eq {T n : Node} (h : T.IsAddressed n) :
    ((∃ p, Path.parse n.path = .ok p) ↔ n.key? ≠ some "") ∧
      T.findText? n.path = if n.key? = some "" then none else some n := by
  unfold findText?
  split
  · rename_i p hp
    have hne : n.key? ≠ some "" := fun hempty => h.unnamed hempty p hp
    obtain ⟨q, hq, hfind⟩ := h.named hne
    obtain rfl : p = q := by simpa [hp] using hq
    simp [hne, hp, hfind]
  · rename_i e he
    have hempty : n.key? = some "" := by
      by_contra hne
      obtain ⟨q, hq, -⟩ := h.named hne
      simp [he] at hq
    simp [hempty, he]

/-- The key of a property leads to it. -/
theorem RegularEntity.propertyIndex?_eq {path key : String} {n p : Node} (h : RegularEntity path n)
    (hp : p ∈ n.children) (hkey : p.key? = some key) :
    ∃ k, n.propertyIndex? key = some k ∧ n.children[k]? = some p := by
  have hlike := h.isEntityLike
  obtain ⟨type, span, properties, -, hprops, hpair, rfl⟩ := h
  have hnodup : (properties.map (·.path)).Nodup := List.pairwise_map.2 (hpair.imp (·.2))
  have hpath : ∀ p' ∈ properties, p'.key? = some key → p'.path = Path.propertyIn path key := by
    intro p' hp' hkey'
    obtain ⟨key', span', items, husable, -, rfl⟩ := hprops p' hp'
    rw [key?_property husable, Option.some.injEq] at hkey'
    rw [hkey']
  cases hfind : properties.findIdx? (·.key? == some key) with
  | none =>
    have hnot := List.findIdx?_eq_none_iff.1 hfind p hp
    simp [hkey] at hnot
  | some k =>
    obtain ⟨hk, hkey', -⟩ := List.findIdx?_eq_some_iff_getElem.1 hfind
    have hmem := List.getElem_mem hk
    have hsame : properties[k].path = p.path := by
      rw [hpath _ hmem (by simpa using hkey'), hpath p hp hkey]
    have hnode := List.inj_on_of_nodup_map hnodup hmem hp hsame
    exact ⟨k, by rw [propertyIndex?, if_pos hlike, hfind], List.getElem?_eq_some_iff.2 ⟨hk, hnode⟩⟩

section Reached
variable {T n : Node} {path : String} {p : Path} {is : List Nat}

theorem RegularProperty.exists_leads {key : String} (h : RegularProperty path n)
    (hn : T.Leads (p.property key) is n) : ∀ m ∈ n.nodes, ∃ q js, T.Leads q js m := by
  obtain ⟨key', span, items, -, -, rfl⟩ := h
  intro m hm
  rw [nodes_eq] at hm
  rcases List.mem_cons.1 hm with rfl | hm
  · exact ⟨_, _, hn⟩
  · obtain ⟨c, hc, hmc⟩ := mem_nodesOf.1 hm
    obtain ⟨j, hj⟩ := List.mem_iff_getElem?.1 hc
    have hitem := hn.hop hj .item
    obtain ⟨-, x, -, rfl⟩ := getElem?_itemsOf hj
    obtain rfl : m = _ := by simpa [nodes, nodesOf] using hmc
    exact ⟨_, _, hitem⟩

theorem RegularEntity.exists_leads {i : Nat} (h : RegularEntity path n)
    (hn : T.Leads (p.entity i) is n) : ∀ m ∈ n.nodes, ∃ q js, T.Leads q js m := by
  intro m hm
  rw [nodes_eq] at hm
  rcases List.mem_cons.1 hm with rfl | hm
  · exact ⟨_, _, hn⟩
  · obtain ⟨c, hc, hmc⟩ := mem_nodesOf.1 hm
    have hregular : RegularProperty path c := by
      obtain ⟨type, span, properties, -, hprops, -, rfl⟩ := h
      exact hprops c hc
    obtain ⟨key, hkey⟩ : ∃ key, c.key? = some key := by
      obtain ⟨key, span, items, husable, -, rfl⟩ := hregular
      exact ⟨key, key?_property husable _ _ _⟩
    obtain ⟨k, hindex, hk⟩ := h.propertyIndex?_eq hc hkey
    exact hregular.exists_leads (hn.hop hk (.property hindex)) m hmc

/-- Hops lead to every node of a regular tree. -/
theorem RegularOperation.exists_leads (h : RegularOperation path n) (hn : T.Leads p is n)
    (hp : p.HasSlots) : ∀ m ∈ n.nodes, ∃ q js, T.Leads q js m := by
  induction n using children_induction generalizing path p is with
  | node n ih =>
    intro m hm
    rw [nodes_eq] at hm
    rcases List.mem_cons.1 hm with rfl | hm
    · exact ⟨p, is, hn⟩
    · obtain ⟨c, hc, hmc⟩ := mem_nodesOf.1 hm
      obtain ⟨i, hi⟩ := List.mem_iff_getElem?.1 hc
      rcases h.regularSlot hi with hregular | hregular
      · exact ih c hc hregular (hn.hop hi (.operation hp hregular.kind)) trivial m hmc
      · exact hregular.exists_leads (hn.hop hi (.entity hp hregular.isEntityLike)) m hmc

end Reached

/-- The paths of the tree are those by which its nodes are reached. -/
structure IsSearchable (T : Node) : Prop where
  path : T.path = Path.operationWord
  labelled : ∀ n ∈ T.nodes, n.IsLabelled
  reached : ∀ n ∈ T.nodes, ∃ p is, T.Leads p is n

theorem RegularOperation.isSearchable {T : Node} (h : RegularOperation Path.operationWord T) :
    T.IsSearchable :=
  ⟨((regularOperation_iff _ _).1 h).2.1, h.isLabelled, h.exists_leads (.root h.kind) trivial⟩

theorem isSearchable_placeholder (bytes : Nat) : (placeholder bytes).IsSearchable := by
  have hself : ∀ n ∈ (placeholder bytes).nodes, n = placeholder bytes := by
    simp [placeholder, nodes, nodesOf]
  constructor
  · rfl
  · intro n hn
    rw [hself n hn]
    exact isLabelled_leaf rfl
  · intro n hn
    rw [hself n hn]
    exact ⟨.root, [], .root rfl⟩

theorem isSearchable_ofScript (text : String) : (ofScript text).IsSearchable := by
  rcases ofScript_cases text with ⟨hnone, -⟩ | ⟨hregular, -⟩
  · rw [ofScript, hnone]
    exact isSearchable_placeholder _
  · exact hregular.isSearchable

/-- A node is a property without a name if the last step that leads to it has no name. -/
theorem Carries.key?_eq_iff {n : Node} {p : Path} (h : n.Carries p) :
    n.key? = some "" ↔ p.last.name = "" := by
  by_cases hproperty : p.last.isProperty = true
  · have hname : keyOfPath n.path = p.last.name := by
      induction p using Path.push_induction with
      | root => simp [Path.last, Step.isProperty] at hproperty
      | push q s _ =>
        have hs : s.IsNamed := h.named s (by simp)
        have hread := hs.takeWhile_text [] (by simp)
        rw [List.append_nil] at hread
        rw [h.path, Path.text_push, keyOfPath_append _ hs.not_mem_text, hread, Path.last_push,
          String.ofList_toList]
    rw [key?, if_pos (h.kind.2 hproperty), hname, Option.some.injEq]
  · have hkind : n.kind ≠ .property := mt h.kind.1 hproperty
    simp [key?, hkind, Step.name_ne (Bool.eq_false_iff.2 hproperty)]

theorem Leads.index_lt {T n : Node} {p : Path} {is : List Nat} (h : T.Leads p is n)
    (hsmall : ∀ m ∈ T.nodes, m.children.length ≤ Path.indexBound) :
    ∀ s ∈ p.steps, ∀ i ∈ s.index, i < Path.indexBound := by
  induction h with
  | root => simp [Path.steps, Step.index]
  | @hop p q is n c k hp hc hhop ih =>
    have hk : k < Path.indexBound := by
      have hlt := (List.getElem?_eq_some_iff.1 hc).1
      have hlength := hsmall n hp.mem_nodes
      omega
    cases hhop with
    | entity | operation => simpa [Path.steps, or_imp, forall_and, Step.index] using ⟨ih, hk⟩
    | property =>
      rw [Path.steps]
      simpa [or_imp, forall_and, Step.index] using ih
    | item =>
      simp only [Path.steps, List.forall_mem_append, List.forall_mem_singleton] at ih ⊢
      exact ⟨ih.1, by simpa [Step.index] using hk⟩

/-- Every node of a searchable tree is under its path, as long as its indices can be read. -/
theorem IsSearchable.isAddressed {T : Node} (h : T.IsSearchable)
    (hsmall : ∀ m ∈ T.nodes, m.children.length ≤ Path.indexBound) :
    ∀ n ∈ T.nodes, T.IsAddressed n := by
  intro n hn
  obtain ⟨p, is, hlead⟩ := h.reached n hn
  have hcarries := hlead.carries h.labelled h.path
  constructor
  · intro hkey q hq
    obtain ⟨hformed, htext⟩ := Path.parse_eq_ok_iff.1 hq
    obtain rfl := Path.eq_of_text_eq hformed.isNamed hcarries.named (htext.trans hcarries.path)
    have hlast := hformed.writable q.last (List.mem_of_getLast? q.getLast?_steps)
    have hname := ((Path.isWritable_iff _).1 hlast).1.1
    simp [hcarries.key?_eq_iff.1 hkey, Path.isKey] at hname
  · intro hkey
    have hname := hlead.isOrdered.name_ne (mt hcarries.key?_eq_iff.2 hkey)
    have hformed : Path.WellFormed p.steps := by
      refine ⟨by rw [Path.steps_eq_cons]; rfl, hlead.isOrdered.isChain, fun s hs => ?_⟩
      exact (hcarries.named s hs).isWritable (hname s hs) (hlead.index_lt hsmall s hs)
    exact ⟨p, Path.parse_eq_ok_iff.2 ⟨hformed, hcarries.path.symm⟩, hlead.find?_eq_some⟩

theorem innermost_eq (offset : Nat) (n : Node) :
    n.innermost offset =
      if n.kind = .property then n else (innermostOf offset n.children).getD n := by
  cases n
  rw [innermost]

theorem exists_of_innermostOf {offset : Nat} {ns : List Node} {m : Node}
    (h : innermostOf offset ns = some m) : ∃ c ∈ ns, m = c.innermost offset := by
  induction ns with
  | nil => simp [innermostOf] at h
  | cons n ns ih =>
    unfold innermostOf at h
    split at h
    · exact ⟨n, by simp, (Option.some.inj h).symm⟩
    · obtain ⟨c, hc, hm⟩ := ih h
      exact ⟨c, by simp [hc], hm⟩

theorem innermost_mem_nodes (offset : Nat) (n : Node) : n.innermost offset ∈ n.nodes := by
  induction n using children_induction with
  | node n ih =>
    rw [innermost_eq]
    split
    · exact n.mem_nodes_self
    · cases hdown : innermostOf offset n.children with
      | none => exact n.mem_nodes_self
      | some m =>
        obtain ⟨c, hc, rfl⟩ := exists_of_innermostOf hdown
        exact nodes_subset_of_mem_children hc (ih c hc)

theorem mem_nodes_of_resolve? {T n : Node} {offset : Nat} (h : T.resolve? offset = some n) :
    n ∈ T.nodes := by
  unfold resolve? at h
  split at h
  · rw [← Option.some.inj h]
    exact innermost_mem_nodes offset T
  · simp at h

/-- Every node of a script is under its path. -/
theorem isAddressed_of_mem_nodes {text : String} (h : byteLength text.toList < Span.wordBound) :
    ∀ n ∈ (ofScript text).nodes, (ofScript text).IsAddressed n := by
  apply (isSearchable_ofScript text).isAddressed
  intro m hm
  have hchildren := length_children_le hm
  have hlength := length_le_byteLength text.toList
  have hbound : Path.indexBound = Span.wordBound := rfl
  omega

/-- The path of a node can be read unless it ends in a property without a name, and then leads to
that node; so do the paths that offsets resolve to. -/
theorem findText?_path {text : String} (h : byteLength text.toList < Span.wordBound) :
    (∀ n ∈ (ofScript text).nodes,
      ((∃ p, Path.parse n.path = .ok p) ↔ n.key? ≠ some "") ∧
        (ofScript text).findText? n.path = if n.key? = some "" then none else some n) ∧
      ∀ offset n, (ofScript text).resolve? offset = some n →
        ((∃ p, Path.parse n.path = .ok p) ↔ n.key? ≠ some "") ∧
          (ofScript text).findText? n.path = if n.key? = some "" then none else some n := by
  constructor
  · intro n hn
    exact (isAddressed_of_mem_nodes h n hn).findText?_eq
  · intro offset n hn
    exact (isAddressed_of_mem_nodes h n (mem_nodes_of_resolve? hn)).findText?_eq

/-- A property without a name and one with a name, both with items, beside an operation. -/
theorem findText?_path_items :
    let text := "f(e[: 1, 2, k: 3, 4], g(h[]))"
    let T := ofScript text
    byteLength text.toList < Span.wordBound ∧ T.nodes.length = 10 ∧
      (T.nodes.filter (·.key? == some "")).length = 3 ∧
      (∀ n ∈ T.nodes, ((∃ p, Path.parse n.path = .ok p) ↔ n.key? ≠ some "") ∧
        T.findText? n.path = if n.key? = some "" then none else some n) ∧
      ∀ offset n, T.resolve? offset = some n →
        ((∃ p, Path.parse n.path = .ok p) ↔ n.key? ≠ some "") ∧
          T.findText? n.path = if n.key? = some "" then none else some n := by
  intro text T
  have hbytes : byteLength text.toList < Span.wordBound := by decide +kernel
  obtain ⟨hnodes, hresolved⟩ := findText?_path hbytes
  exact ⟨hbytes, by decide +kernel, by decide +kernel, hnodes, hresolved⟩

/-- The property under an offset whose path is refused and leads nowhere. -/
theorem findText?_path_unnamed :
    let T := ofScript "f(e[: 1])"
    let n : Node := ⟨.property, "operation/entities[0]/", ⟨2, 8⟩, some "1", []⟩
    n ∈ T.nodes ∧ T.resolve? 4 = some n ∧ Path.parse n.path = .error (.badStep "") ∧
      T.findText? n.path = none := by
  decide +kernel

end Node
end ProblemScript
