import ProblemScript.Proofs.Path.Ancestry
import ProblemScript.Proofs.Tree.Leads
import ProblemScript.Proofs.Tree.Spelling

/-! What a look-up finds carries the path that was looked up. The path of a child is the path of its
parent with the step that leads to the child, so that the hops to a node spell out its path. -/
namespace ProblemScript
open Text

namespace Node

/-- The children of a node are of the kinds that belong there, and are written with the steps that
lead to them. -/
structure IsLabelled (n : Node) : Prop where
  slot : n.kind = .operation → ∀ i c, n.children[i]? = some c →
    c.kind = .operation ∧ c.path = Path.operationIn (Path.slotIn n.path i) ∨
      c.kind.isEntityLike = true ∧ c.path = Path.slotIn n.path i
  property : n.kind.isEntityLike = true → ∀ c ∈ n.children, c.kind = .property ∧
    ∃ key, Field.isUsableKey key.toList = true ∧ c.path = Path.propertyIn n.path key
  item : n.kind = .property → ∀ i c, n.children[i]? = some c →
    c.kind = .property ∧ c.path = Path.itemIn n.path i

theorem isLabelled_leaf {n : Node} (h : n.children = []) : n.IsLabelled :=
  ⟨by simp [h], by simp [h], by simp [h]⟩

theorem RegularOperation.isLabelled_self {path : String} {n : Node} (h : RegularOperation path n) :
    n.IsLabelled := by
  obtain ⟨hkind, hpath, -⟩ := (regularOperation_iff path n).1 h
  constructor
  · intro _ i c hc
    rw [hpath]
    rcases h.regularSlot hc with hslot | hslot
    · exact .inl ⟨hslot.kind, ((regularOperation_iff _ c).1 hslot).2.1⟩
    · refine .inr ⟨hslot.isEntityLike, ?_⟩
      obtain ⟨type, span, properties, -, -, -, rfl⟩ := hslot
      rfl
  · simp [hkind, Kind.isEntityLike]
  · simp [hkind]

theorem RegularEntity.isLabelled_self {path : String} {n : Node} (h : RegularEntity path n) :
    n.IsLabelled := by
  constructor
  · intro hkind
    exact absurd hkind h.kind_ne_operation
  · obtain ⟨type, span, properties, -, hprops, -, rfl⟩ := h
    intro _ c hc
    obtain ⟨key, span', items, hkey, -, rfl⟩ := hprops c hc
    exact ⟨rfl, key, hkey, rfl⟩
  · intro hkind
    exact absurd hkind h.kind_ne

theorem RegularProperty.isLabelled_self {owner : String} {n : Node} (h : RegularProperty owner n) :
    n.IsLabelled := by
  obtain ⟨key, span, items, -, -, rfl⟩ := h
  constructor
  · simp
  · simp [Kind.isEntityLike]
  · intro _ i c hc
    obtain ⟨-, x, -, rfl⟩ := getElem?_itemsOf hc
    exact ⟨rfl, rfl⟩

/-- Regular trees are labelled throughout. -/
theorem RegularOperation.isLabelled {path : String} {n : Node} (h : RegularOperation path n) :
    ∀ m ∈ n.nodes, m.IsLabelled :=
  h.forall_nodes (fun _ _ h => h.isLabelled_self) (fun _ _ h => h.isLabelled_self)
    (fun _ _ h => h.isLabelled_self) fun _ _ _ => isLabelled_leaf rfl

/-- The root of a script is an operation with the root path. -/
theorem kind_path_ofScript (text : String) :
    (ofScript text).kind = .operation ∧ (ofScript text).path = Path.operationWord := by
  unfold ofScript
  cases Call.root? text.toList with
  | none => exact ⟨rfl, rfl⟩
  | some c =>
    simp only [Call.node_eq, and_self]

theorem isLabelled_ofScript (text : String) : ∀ n ∈ (ofScript text).nodes, n.IsLabelled := by
  rcases ofScript_cases text with ⟨hnone, -⟩ | ⟨hregular, -⟩
  · intro n hn
    rw [eq_placeholder_of_mem_nodes hnone hn]
    exact isLabelled_leaf rfl
  · exact hregular.isLabelled

namespace IsLabelled
variable {n c : Node}

/-- Only operations have children other than properties. -/
theorem kind_eq_operation (h : n.IsLabelled) (hc : c ∈ n.children) (hkind : c.kind ≠ .property) :
    n.kind = .operation := by
  cases hn : n.kind with
  | operation => rfl
  | entity | container => exact absurd (h.property (by rw [hn]; rfl) c hc).1 hkind
  | property =>
    obtain ⟨i, hi⟩ := List.mem_iff_getElem?.1 hc
    exact absurd (h.item hn i c hi).1 hkind

/-- Only entities and properties have properties. -/
theorem isEntityLike (h : n.IsLabelled) (hn : n.kind ≠ .property) (hc : c ∈ n.children)
    (hkind : c.kind = .property) : n.kind.isEntityLike = true := by
  cases hkind' : n.kind with
  | operation =>
    obtain ⟨i, hi⟩ := List.mem_iff_getElem?.1 hc
    rcases h.slot hkind' i c hi with ⟨hslot, -⟩ | ⟨hslot, -⟩
    · simp [hkind] at hslot
    · simp [hkind, Kind.isEntityLike] at hslot
  | entity | container => rfl
  | property => exact absurd hkind' hn

theorem path_of_operation (h : n.IsLabelled) {i : Nat} (hc : n.children[i]? = some c)
    (hkind : c.kind = .operation) : c.path = Path.operationIn (Path.slotIn n.path i) := by
  have hn := h.kind_eq_operation (List.mem_of_getElem? hc) (by simp [hkind])
  obtain ⟨-, hpath⟩ | ⟨hentity, -⟩ := h.slot hn i c hc
  · exact hpath
  · simp [hkind, Kind.isEntityLike] at hentity

theorem path_of_entity (h : n.IsLabelled) {i : Nat} (hc : n.children[i]? = some c)
    (hkind : c.kind.isEntityLike = true) : c.path = Path.slotIn n.path i := by
  have hne : c.kind ≠ .property := by
    intro hproperty
    simp [hproperty, Kind.isEntityLike] at hkind
  have hn := h.kind_eq_operation (List.mem_of_getElem? hc) hne
  obtain ⟨hoperation, -⟩ | ⟨-, hpath⟩ := h.slot hn i c hc
  · simp [hoperation, Kind.isEntityLike] at hkind
  · exact hpath

theorem path_of_key? (h : n.IsLabelled) (hn : n.kind.isEntityLike = true) (hc : c ∈ n.children)
    {key : String} (hkey : c.key? = some key) :
    Field.isUsableKey key.toList = true ∧ c.path = Path.propertyIn n.path key := by
  obtain ⟨hkind, key', husable, hpath⟩ := h.property hn c hc
  have hname := keyOfPath_propertyIn n.path (Field.isNameChar_of_isUsableKey husable)
  rw [key?, if_pos hkind, hpath, hname, Option.some.injEq] at hkey
  exact hkey ▸ ⟨husable, hpath⟩

/-- An item of a property is no property of an entity. -/
theorem not_item {p : Node} (hp : p.IsLabelled) (hpkind : p.kind = .property) (h : n.IsLabelled)
    (hn : n.kind.isEntityLike = true) (hc : c ∈ n.children) : c ∉ p.children := by
  intro hitem
  obtain ⟨-, key, hkey, hpath⟩ := h.property hn c hc
  obtain ⟨i, hi⟩ := List.mem_iff_getElem?.1 hitem
  obtain ⟨-, hpath'⟩ := hp.item hpkind i c hi
  apply Path.getLast?_propertyIn_ne n.path (Field.isNameChar_of_isUsableKey hkey)
  rw [← hpath, hpath', Path.itemIn, Path.toList_indexed, ← List.cons_append, ← List.append_assoc]
  exact List.getLast?_concat

end IsLabelled

/-- The node is written with the steps of the path, and is a property if they lead to one. -/
structure Carries (n : Node) (p : Path) : Prop where
  path : n.path = p.text
  kind : n.kind = .property ↔ p.last.isProperty = true
  named : ∀ s ∈ p.steps, s.IsNamed

/-- Hops keep nodes and paths together. -/
theorem Hop.carries {p q : Path} {n c : Node} {k : Nat} (h : Hop p n k q c)
    (hc : n.children[k]? = some c) (hlabelled : n.IsLabelled) (hn : n.Carries p) : c.Carries q := by
  cases h with
  | entity _ hkind =>
    constructor
    · rw [hlabelled.path_of_entity hc hkind, hn.path, Path.text]
    · have hne : c.kind ≠ .property := by
        intro hproperty
        simp [hproperty, Kind.isEntityLike] at hkind
      simp [Path.last, Step.isProperty, hne]
    · simpa [Path.steps, or_imp, forall_and] using ⟨hn.named, Step.isNamed_entity k⟩
  | operation _ hkind =>
    constructor
    · rw [hlabelled.path_of_operation hc hkind, hn.path, Path.text, Path.text]
    · simp [Path.last, Step.isProperty, hkind]
    · simpa [Path.steps, or_imp, forall_and] using
        ⟨hn.named, Step.isNamed_entity k, Step.isNamed_operation⟩
  | property hindex =>
    obtain ⟨hlike, hkey⟩ := propertyIndex?_eq_some hindex hc
    have hchild := List.mem_of_getElem? hc
    obtain ⟨husable, hpath⟩ := hlabelled.path_of_key? hlike hchild hkey
    constructor
    · rw [hpath, hn.path]
      rfl
    · simp [Path.last, Step.isProperty, (hlabelled.property hlike c hchild).1]
    · rw [Path.steps]
      simpa [or_imp, forall_and] using ⟨hn.named, Step.isNamed_property husable none⟩
  | item =>
    obtain ⟨hkind, hpath⟩ := hlabelled.item (hn.kind.2 rfl) k c hc
    have hnamed := hn.named
    constructor
    · rw [hpath, hn.path, Path.text, Path.text]
    · simp [Path.last, Step.isProperty, hkind]
    · simp only [Path.steps, List.forall_mem_append, List.forall_mem_singleton] at hnamed ⊢
      exact ⟨hnamed.1, hnamed.2.chars, hnamed.2.property⟩

theorem Leads.mem_nodes {T n : Node} {p : Path} {is : List Nat} (h : T.Leads p is n) :
    n ∈ T.nodes := by
  induction h with
  | root => exact T.mem_nodes_self
  | @hop p q is n c k _ hc _ ih =>
    have hbelow := nodes_subset_of_mem_children (List.mem_of_getElem? hc) c.mem_nodes_self
    exact nodes_subset ih hbelow

/-- In a tree that is labelled throughout a path leads to a node that carries it. -/
theorem Leads.carries {T n : Node} {p : Path} {is : List Nat} (hn : T.Leads p is n)
    (h : ∀ k ∈ T.nodes, k.IsLabelled) (hroot : T.path = Path.operationWord) : n.Carries p := by
  induction hn with
  | root hkind =>
    refine ⟨hroot, by simp [hkind, Path.last, Step.isProperty], ?_⟩
    simpa [Path.steps] using Step.isNamed_operation
  | hop hp hc hhop ih => exact hhop.carries hc (h _ hp.mem_nodes) ih

/-- A look-up finds a node of the tree, and one that carries the path looked up. -/
theorem path_of_findText? {T n : Node} {path : String} (h : ∀ k ∈ T.nodes, k.IsLabelled)
    (hroot : T.path = Path.operationWord) (hfind : T.findText? path = some n) :
    n ∈ T.nodes ∧ n.path = path := by
  unfold findText? at hfind
  split at hfind
  · rename_i p hp
    obtain ⟨hformed, rfl⟩ := Path.parse_eq_ok_iff.1 hp
    obtain ⟨is, hlead⟩ := (find?_eq_some_iff hformed).1 hfind
    exact ⟨hlead.mem_nodes, (hlead.carries h hroot).path⟩
  · simp at hfind

end Node
end ProblemScript
