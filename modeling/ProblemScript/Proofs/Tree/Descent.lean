import Mathlib.Data.List.Pairwise
import ProblemScript.Proofs.Grammar.Tree
import ProblemScript.Proofs.RangeTable
import ProblemScript.Proofs.Tree.Paths

/-! Descent read off the paths is descent in the tree. The children of a node continue its path,
and what is written below one child does not continue what is written below another; the rest holds
of any tree in which this is so at every node. -/
namespace ProblemScript
open Text

namespace Path

theorem descends_iff {a p : String} :
    descends a p = true ↔ ∃ c rest, p.toList = a.toList ++ c :: rest ∧
      (c = '/' ∨ (c = '[' ∧ a.toList.getLast? ≠ some ']')) := by
  unfold descends
  constructor
  · intro h
    obtain ⟨hstem, hnext⟩ := Bool.and_eq_true_iff.1 h
    obtain ⟨rest, hrest⟩ := List.isPrefixOf_iff_prefix.1 hstem
    rw [← hrest, List.drop_left] at hnext
    split at hnext
    · exact ⟨'/', _, hrest.symm, .inl rfl⟩
    · exact ⟨'[', _, hrest.symm, .inr ⟨rfl, by simpa using hnext⟩⟩
    · simp at hnext
  · rintro ⟨c, rest, hp, hc⟩
    have hstem : a.toList.isPrefixOf (a.toList ++ c :: rest) = true :=
      List.isPrefixOf_iff_prefix.2 ⟨c :: rest, rfl⟩
    simp only [hp, hstem, List.drop_left, Bool.true_and]
    rcases hc with rfl | ⟨rfl, hlast⟩
    · rfl
    · simpa using hlast

theorem prefix_of_descends {a p : String} (h : descends a p = true) :
    a.toList <+: p.toList := by
  obtain ⟨c, rest, hp, -⟩ := descends_iff.1 h
  exact ⟨c :: rest, hp.symm⟩

theorem length_lt_of_descends {a p : String} (h : descends a p = true) :
    a.toList.length < p.toList.length := by
  obtain ⟨c, rest, hp, -⟩ := descends_iff.1 h
  simp [hp]

/-- What continues a descendant is a descendant. -/
theorem descends_of_prefix {a p q : String} (h : descends a p = true)
    (hq : p.toList <+: q.toList) : descends a q = true := by
  obtain ⟨c, rest, hp, hc⟩ := descends_iff.1 h
  obtain ⟨more, hmore⟩ := hq
  refine descends_iff.2 ⟨c, rest ++ more, ?_, hc⟩
  simp [← hmore, hp]

theorem descends_slash {a p : String} (h : (a ++ "/").toList <+: p.toList) :
    descends a p = true := by
  obtain ⟨rest, hp⟩ := h
  exact descends_iff.2 ⟨'/', rest, by simp [← hp], .inl rfl⟩

/-- The path of a property does not end like that of an item. -/
theorem getLast?_propertyIn_ne (owner : String) {key : String}
    (h : ∀ c ∈ key.toList, isNameChar c = true) :
    (propertyIn owner key).toList.getLast? ≠ some ']' := by
  intro hlast
  have hmem : ']' ∈ '/' :: key.toList := by
    refine List.mem_of_getLast? (l := '/' :: key.toList) ?_
    rw [← hlast, ← List.getLast?_append_of_ne_nil owner.toList (by simp)]
    simp [propertyIn]
  rcases List.mem_cons.1 hmem with hmem | hmem
  · simp at hmem
  · exact absurd (h _ hmem) (by decide)

/-- Neither path lies below the other. -/
def Apart (p q : String) : Prop := descends p q = false ∧ descends q p = false

theorem apart_of_not_prefix {p q : String} (hpq : ¬p.toList <+: q.toList)
    (hqp : ¬q.toList <+: p.toList) : Apart p q := by
  constructor
  · exact Bool.eq_false_iff.2 fun h => hpq (prefix_of_descends h)
  · exact Bool.eq_false_iff.2 fun h => hqp (prefix_of_descends h)

/-- Paths with different numbers in the same place are apart. -/
theorem apart_of_index {name p q : String} {i j : Nat} (hij : i ≠ j)
    (hp : (indexed name i).toList <+: p.toList) (hq : (indexed name j).toList <+: q.toList) :
    Apart p q := by
  apply apart_of_not_prefix
  · intro h
    exact hij (index_inj (hp.trans h) hq)
  · intro h
    exact hij (index_inj hp (hq.trans h))

end Path

namespace Node

/-- No path of one tree lies below a path of the other. -/
def ApartBelow (c d : Node) : Prop := ∀ p ∈ c.paths, ∀ q ∈ d.paths, Path.Apart p q

instance : Std.Symm ApartBelow where
  symm _ _ h p hp q hq := ⟨(h q hq p hp).2, (h q hq p hp).1⟩

/-- The children of a node continue its path, each in its own way. -/
structure PathsNest (n : Node) : Prop where
  child : ∀ c ∈ n.children, Path.descends n.path c.path = true
  apart : n.children.Pairwise ApartBelow

theorem mem_nodes_self (n : Node) : n ∈ n.nodes := by
  rw [nodes_eq]
  exact List.mem_cons_self

theorem nodes_subset_of_mem_children {n c : Node} (hc : c ∈ n.children) : c.nodes ⊆ n.nodes := by
  intro m hm
  rw [nodes_eq n]
  exact List.mem_cons_of_mem _ (mem_nodesOf.2 ⟨c, hc, hm⟩)

/-- What holds throughout a tree holds throughout its subtrees. -/
theorem forall_nodes_child {P : Node → Prop} {n c : Node} (h : ∀ m ∈ n.nodes, P m)
    (hc : c ∈ n.children) : ∀ m ∈ c.nodes, P m :=
  fun m hm => h m (nodes_subset_of_mem_children hc hm)

theorem nodes_subset {n m : Node} (hm : m ∈ n.nodes) : m.nodes ⊆ n.nodes := by
  induction n using children_induction with
  | node n ih =>
    rw [nodes_eq] at hm
    rcases List.mem_cons.1 hm with rfl | hm
    · exact List.Subset.refl _
    · obtain ⟨c, hc, hmc⟩ := mem_nodesOf.1 hm
      exact List.Subset.trans (ih c hc hmc) (nodes_subset_of_mem_children hc)

theorem mem_nodes_of_mem_children {n m c : Node} (hm : m ∈ n.nodes) (hc : c ∈ m.children) :
    c ∈ n.nodes :=
  nodes_subset hm (nodes_subset_of_mem_children hc c.mem_nodes_self)

section PathsNest
variable {T : Node} (h : ∀ n ∈ T.nodes, n.PathsNest)
include h

/-- Every node of the tree continues the path of the root. -/
theorem path_prefix_of_mem {m : Node} (hm : m ∈ T.nodes) : T.path.toList <+: m.path.toList := by
  induction T using children_induction with
  | node T ih =>
    rw [nodes_eq] at hm
    rcases List.mem_cons.1 hm with rfl | hm
    · exact List.prefix_refl _
    · obtain ⟨c, hc, hmc⟩ := mem_nodesOf.1 hm
      have hdown := (h T T.mem_nodes_self).child c hc
      have hrest := ih c hc (fun n hn => h n (nodes_subset_of_mem_children hc hn)) hmc
      exact (Path.prefix_of_descends hdown).trans hrest

/-- What lies below a node is written as its descendant. -/
theorem descends_of_mem_nodesOf {m : Node} (hm : m ∈ nodesOf T.children) :
    Path.descends T.path m.path = true := by
  obtain ⟨c, hc, hmc⟩ := mem_nodesOf.1 hm
  have hdown := (h T T.mem_nodes_self).child c hc
  have hstem := path_prefix_of_mem (fun n hn => h n (nodes_subset_of_mem_children hc hn)) hmc
  exact Path.descends_of_prefix hdown hstem

/-- What is written as the descendant of a node lies below it. -/
theorem mem_nodesOf_of_descends {p q : Node} (hp : p ∈ T.nodes) (hq : q ∈ T.nodes)
    (hpq : Path.descends q.path p.path = true) : p ∈ nodesOf q.children := by
  induction T using children_induction with
  | node T ih =>
    have hlong := Path.length_lt_of_descends hpq
    rw [nodes_eq] at hp hq
    -- Each of the two is the root or lies below a child; below two children they are apart.
    rcases List.mem_cons.1 hq with rfl | hq
    · rcases List.mem_cons.1 hp with rfl | hp
      · omega
      · exact hp
    · rcases List.mem_cons.1 hp with rfl | hp
      · have := Path.length_lt_of_descends (descends_of_mem_nodesOf h hq)
        omega
      · obtain ⟨c, hc, hqc⟩ := mem_nodesOf.1 hq
        obtain ⟨d, hd, hpd⟩ := mem_nodesOf.1 hp
        by_cases hcd : c = d
        · subst hcd
          exact ih c hc (fun n hn => h n (nodes_subset_of_mem_children hc hn)) hpd hqc
        · have hapart := (h T T.mem_nodes_self).apart.forall hc hd hcd
          have hfalse := (hapart q.path (List.mem_map_of_mem hqc) p.path
            (List.mem_map_of_mem hpd)).1
          rw [hpq] at hfalse
          simp at hfalse

/-- Being written below a node and lying below it are the same. -/
theorem descends_iff_mem_nodesOf {p q : Node} (hp : p ∈ T.nodes) (hq : q ∈ T.nodes) :
    Path.descends q.path p.path = true ↔ p ∈ nodesOf q.children := by
  constructor
  · exact mem_nodesOf_of_descends h hp hq
  · exact descends_of_mem_nodesOf fun n hn => h n (nodes_subset hq hn)

end PathsNest

/-- What holds of operations, entities, properties and items holds of every node of a regular
tree. -/
theorem RegularOperation.forall_nodes {P : Node → Prop}
    (operation : ∀ path n, RegularOperation path n → P n)
    (entity : ∀ path n, RegularEntity path n → P n)
    (property : ∀ owner n, RegularProperty owner n → P n)
    (item : ∀ path span value, P ⟨.property, path, span, value, []⟩)
    {path : String} {n : Node} (h : RegularOperation path n) : ∀ m ∈ n.nodes, P m := by
  have hproperty : ∀ owner p, RegularProperty owner p → ∀ m ∈ p.nodes, P m := by
    intro owner p hp m hm
    rw [nodes_eq] at hm
    rcases List.mem_cons.1 hm with rfl | hm
    · exact property owner m hp
    · obtain ⟨c, hc, hmc⟩ := mem_nodesOf.1 hm
      obtain ⟨key, span, items, -, -, rfl⟩ := hp
      obtain ⟨j, x, -, rfl⟩ := mem_itemsOf hc
      obtain rfl : m = _ := by simpa [nodes, nodesOf] using hmc
      exact item _ _ _
  have hentity : ∀ path e, RegularEntity path e → ∀ m ∈ e.nodes, P m := by
    intro path e he m hm
    rw [nodes_eq] at hm
    rcases List.mem_cons.1 hm with rfl | hm
    · exact entity path m he
    · obtain ⟨c, hc, hmc⟩ := mem_nodesOf.1 hm
      obtain ⟨type, span, properties, -, hprops, -, rfl⟩ := he
      exact hproperty path c (hprops c hc) m hmc
  induction n using children_induction generalizing path with
  | node n ih =>
    intro m hm
    rw [nodes_eq] at hm
    rcases List.mem_cons.1 hm with rfl | hm
    · exact operation path m h
    · obtain ⟨c, hc, hmc⟩ := mem_nodesOf.1 hm
      obtain ⟨i, hi⟩ := List.mem_iff_getElem?.1 hc
      rcases h.regularSlot hi with hslot | hslot
      · exact ih c hc hslot m hmc
      · exact hentity _ c hslot m hmc

theorem RegularOperation.pathsNest_self {path : String} {n : Node} (h : RegularOperation path n) :
    n.PathsNest := by
  obtain ⟨-, hpath, -, -, -⟩ := (regularOperation_iff path n).1 h
  constructor
  · intro c hc
    obtain ⟨i, hi⟩ := List.mem_iff_getElem?.1 hc
    have hstart := (h.regularSlot hi).distinctPaths.starts c.path
      (List.mem_map_of_mem c.mem_nodes_self)
    have hslash : (path ++ "/").toList <+: (Path.slotIn path i).toList :=
      ⟨(Path.indexed Path.entitiesWord i).toList, by simp [Path.slotIn]⟩
    rw [hpath]
    exact Path.descends_slash (hslash.trans hstart)
  · rw [List.pairwise_iff_getElem]
    intro i j hi hj hij p hp q hq
    have hstart := (h.regularSlot (List.getElem?_eq_getElem hi)).distinctPaths.starts p hp
    have hstart' := (h.regularSlot (List.getElem?_eq_getElem hj)).distinctPaths.starts q hq
    rw [Path.slotIn_eq] at hstart hstart'
    exact Path.apart_of_index (by omega) hstart hstart'

/-- What continues a path of one property does not continue the paths of another. -/
theorem RegularProperty.apartBelow {owner : String} {m n : Node} (hm : RegularProperty owner m)
    (hn : RegularProperty owner n) (hne : m.path ≠ n.path) : ApartBelow m n := by
  have key : ∀ {m n : Node}, RegularProperty owner m → RegularProperty owner n →
      m.path ≠ n.path → ∀ p ∈ m.paths, ∀ q ∈ n.paths, Path.descends p q = false := by
    intro m n hm hn hne p hp q hq
    obtain ⟨key, span, items, hkey, -, rfl⟩ := hm
    obtain ⟨key', span', items', hkey', -, rfl⟩ := hn
    obtain ⟨rest, he, hrest⟩ := exists_of_mem_paths_property hp
    obtain ⟨rest', he', hrest'⟩ := exists_of_mem_paths_property hq
    apply Bool.eq_false_iff.2
    intro hpq
    obtain ⟨c, more, hmore, hc⟩ := Path.descends_iff.1 hpq
    -- The step that leads on from the first path ends its key there.
    have hnext : ∀ d ∈ (rest ++ c :: more).head?, isNameChar d = false := by
      cases rest with
      | nil =>
        intro d hd
        obtain rfl : c = d := by simpa using hd
        rcases hc with rfl | ⟨rfl, -⟩ <;> decide
      | cons d rest => simpa using hrest
    have hread := takeWhile_key owner.toList hkey hnext
    have hsame : q.toList = owner.toList ++ ['/'] ++ (key.toList ++ (rest ++ c :: more)) := by
      simp [hmore, he]
    rw [← hsame, he', takeWhile_key _ hkey' hrest'] at hread
    exact hne (by rw [String.toList_inj.1 hread])
  intro p hp q hq
  exact ⟨key hm hn hne p hp q hq, key hn hm hne.symm q hq p hp⟩

theorem RegularEntity.pathsNest_self {path : String} {n : Node} (h : RegularEntity path n) :
    n.PathsNest := by
  obtain ⟨type, span, properties, -, hprops, hpair, rfl⟩ := h
  constructor
  · intro p hp
    obtain ⟨key, span', items, -, -, rfl⟩ := hprops p hp
    apply Path.descends_slash
    exact ⟨key.toList, by simp [Path.propertyIn]⟩
  · exact hpair.imp_of_mem fun hp hq hpq => (hprops _ hp).apartBelow (hprops _ hq) hpq.2

theorem RegularProperty.pathsNest_self {owner : String} {n : Node} (h : RegularProperty owner n) :
    n.PathsNest := by
  obtain ⟨key, span, items, hkey, -, rfl⟩ := h
  constructor
  · intro c hc
    obtain ⟨j, x, -, rfl⟩ := mem_itemsOf hc
    have hlast := Path.getLast?_propertyIn_ne owner (Field.isNameChar_of_isUsableKey hkey)
    exact Path.descends_iff.2 ⟨'[', _, Path.toList_indexed _ j, .inr ⟨rfl, hlast⟩⟩
  · simp only [itemsOf]
    split
    · simp
    · rw [List.pairwise_iff_getElem]
      intro i j hi hj hij p hp q hq
      simp only [List.getElem_mapIdx, paths, nodes, nodesOf, List.map_cons, List.map_nil,
        List.mem_singleton] at hp hq
      subst hp hq
      exact Path.apart_of_index (Nat.ne_of_lt hij) (List.prefix_refl _) (List.prefix_refl _)

/-- The paths of a regular tree nest. -/
theorem RegularOperation.pathsNest {path : String} {n : Node} (h : RegularOperation path n) :
    ∀ m ∈ n.nodes, m.PathsNest :=
  h.forall_nodes (fun _ _ h => h.pathsNest_self) (fun _ _ h => h.pathsNest_self)
    (fun _ _ h => h.pathsNest_self) fun _ _ _ => ⟨by simp, by simp⟩

/-- The tree of a text without a root operation is the placeholder alone. -/
theorem eq_placeholder_of_mem_nodes {text : String} (h : Call.root? text.toList = none) {n : Node}
    (hn : n ∈ (ofScript text).nodes) : n = placeholder (byteLength text.toList) := by
  simpa [ofScript, h, placeholder, nodes, nodesOf] using hn

theorem pathsNest_ofScript (text : String) : ∀ n ∈ (ofScript text).nodes, n.PathsNest := by
  rcases ofScript_cases text with ⟨hnone, -⟩ | ⟨hregular, -⟩
  · intro n hn
    rw [eq_placeholder_of_mem_nodes hnone hn]
    exact ⟨by simp [placeholder], by simp [placeholder]⟩
  · exact hregular.pathsNest

/-- No two nodes of a script have the same path. -/
theorem nodup_paths_ofScript (text : String) : (ofScript text).paths.Nodup := by
  rcases ofScript_cases text with ⟨hnone, -⟩ | ⟨hregular, -⟩
  · simp [ofScript, hnone, placeholder, paths, nodes, nodesOf]
  · exact hregular.distinctPaths.nodup

/-- The paths of a script are distinct, they show which node lies below which, and the table of a
script that is not the placeholder lists every node with its own range and value, in order. -/
theorem paths_ofScript (text : String) :
    (ofScript text).paths.Nodup ∧
      (∀ p ∈ (ofScript text).nodes, ∀ q ∈ (ofScript text).nodes,
        (Path.descends q.path p.path = true ↔ p ∈ nodesOf q.children)) ∧
      ((ofScript text).isPlaceholder = false →
        (RangeTable.ofTree (ofScript text)).entries =
          (ofScript text).nodes.map fun n => (n.path, ⟨n.span, n.value⟩)) := by
  rcases ofScript_cases text with ⟨hnone, hplaceholder⟩ | ⟨hregular, -⟩
  · have hleaf : ofScript text = placeholder (byteLength text.toList) := by
      rw [ofScript, hnone]
    refine ⟨by simp [hleaf, placeholder, paths, nodes, nodesOf], ?_, fun h => ?_⟩
    · rw [hleaf]
      refine fun p hp q hq => descends_iff_mem_nodesOf (fun n hn => ?_) hp hq
      obtain rfl : n = placeholder _ := by simpa [placeholder, nodes, nodesOf] using hn
      exact ⟨by simp [placeholder], by simp [placeholder]⟩
    · rw [hplaceholder] at h
      simp at h
  · have hnodup := hregular.distinctPaths.nodup
    refine ⟨hnodup, fun p hp q hq => descends_iff_mem_nodesOf hregular.pathsNest hp hq,
      fun h => ?_⟩
    rw [RangeTable.ofTree, if_neg (by simp [h])]
    apply RangeTable.entries_ofList
    rw [List.map_map]
    exact hnodup

/-- Keys that start alike, an item beside its property, and an operation in a slot. -/
theorem paths_ofScript_alike :
    let T := ofScript "f(e[k: a, b, k_x: 1, : c], g(e[k: 2]))"
    T.isPlaceholder = false ∧ T.nodes.length = 10 ∧ T.paths.Nodup ∧
      (∀ p ∈ T.nodes, ∀ q ∈ T.nodes,
        (Path.descends q.path p.path = true ↔ p ∈ nodesOf q.children)) ∧
      (RangeTable.ofTree T).entries = T.nodes.map fun n => (n.path, ⟨n.span, n.value⟩) := by
  intro T
  have hplaceholder : T.isPlaceholder = false := by decide +kernel
  obtain ⟨hnodup, hdescends, hentries⟩ := paths_ofScript "f(e[k: a, b, k_x: 1, : c], g(e[k: 2]))"
  exact ⟨hplaceholder, by decide +kernel, hnodup, hdescends, hentries hplaceholder⟩

end Node
end ProblemScript
