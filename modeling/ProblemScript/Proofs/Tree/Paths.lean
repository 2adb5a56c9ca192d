import Mathlib.Data.List.Nodup
import ProblemScript.Proofs.Tree.Shape
import ProblemScript.Text.Decimal

/-! No two nodes of a regular tree have the same path. Paths below different slots differ in the
number of the slot, and paths below different properties in the key. -/
namespace ProblemScript
open Text

theorem Text.decimal_toDigits (n : Nat) : decimal (Nat.toDigits 10 n) = n := by
  rw [decimal, ← Nat.ofDigitChars_eq_foldl, Nat.ofDigitChars_toDigits (by omega) (by omega)]

/-- A run of characters ends where the first other one stands. -/
theorem Text.takeWhile_append_of_head {p : Char → Bool} {xs rest : List Char}
    (hx : ∀ c ∈ xs, p c = true) (hrest : ∀ c ∈ rest.head?, p c = false) :
    (xs ++ rest).takeWhile p = xs := by
  rw [List.takeWhile_append_of_pos hx]
  cases rest with
  | nil => simp
  | cons c rest => simp [hrest c (by simp)]

namespace Path

theorem toList_indexed (name : String) (i : Nat) :
    (indexed name i).toList = name.toList ++ '[' :: (Nat.toDigits 10 i ++ [']']) := by
  simp [indexed, Nat.toString_eq_repr]

/-- A number in a path can be read off again. -/
theorem index_inj {name : String} {i j : Nat} {q : List Char}
    (hi : (indexed name i).toList <+: q) (hj : (indexed name j).toList <+: q) : i = j := by
  obtain ⟨r, rfl⟩ := hi
  obtain ⟨r', hr⟩ := hj
  rw [toList_indexed, toList_indexed] at hr
  simp only [List.append_assoc, List.cons_append, List.append_cancel_left_eq, List.cons.injEq,
    true_and, List.nil_append] at hr
  have hdigits : ∀ (k : Nat) (rest : List Char),
      (Nat.toDigits 10 k ++ ']' :: rest).takeWhile Char.isDigit = Nat.toDigits 10 k := by
    intro k rest
    refine takeWhile_append_of_head
      (fun c hc => Nat.isDigit_of_mem_toDigits (by omega) (by omega) hc) fun c hc => ?_
    obtain rfl : ']' = c := by simpa using hc
    rfl
  have hij := congrArg (List.takeWhile Char.isDigit) hr
  rw [hdigits, hdigits] at hij
  rw [← decimal_toDigits i, ← hij, decimal_toDigits]

theorem slotIn_eq (owner : String) (i : Nat) :
    slotIn owner i = indexed (owner ++ "/" ++ entitiesWord) i := by
  simp [slotIn, indexed, String.append_assoc]

theorem prefix_operationIn (slot : String) : slot.toList <+: (operationIn slot).toList :=
  ⟨'/' :: operationWord.toList, by simp [operationIn]⟩

end Path

namespace Node

theorem paths_eq (n : Node) : n.paths = n.path :: n.children.flatMap paths := by
  rw [paths, nodes_eq, List.map_cons, nodesOf_eq_flatMap, List.map_flatMap]
  rfl

/-- The paths of a tree are distinct, and start with the same stretch. -/
structure DistinctPaths (stem : List Char) (n : Node) : Prop where
  nodup : n.paths.Nodup
  starts : ∀ q ∈ n.paths, stem <+: q.toList

theorem DistinctPaths.mono {stem stem' : List Char} {n : Node} (h : DistinctPaths stem n)
    (hs : stem' <+: stem) : DistinctPaths stem' n :=
  ⟨h.nodup, fun q hq => hs.trans (h.starts q hq)⟩

/-- A node adds its own path to those of its children, which are longer. -/
theorem distinctPaths_node {n : Node} (hnodup : (n.children.flatMap paths).Nodup)
    (hlonger : ∀ q ∈ n.children.flatMap paths, ∃ c, n.path.toList ++ [c] <+: q.toList) :
    DistinctPaths n.path.toList n := by
  refine ⟨?_, fun q hq => ?_⟩
  · rw [paths_eq]
    refine List.nodup_cons.2 ⟨fun hmem => ?_, hnodup⟩
    obtain ⟨c, hc⟩ := hlonger _ hmem
    have := hc.length_le
    rw [List.length_append, List.length_singleton] at this
    omega
  · rw [paths_eq] at hq
    rcases List.mem_cons.1 hq with rfl | hq
    · exact List.prefix_refl _
    · obtain ⟨c, hc⟩ := hlonger q hq
      exact (List.prefix_append _ _).trans hc

/-- The paths of a property: its own, and those of its items. -/
theorem mem_paths_property {path : String} {span : Span} {value : Option String}
    {items : List String} {q : String}
    (h : q ∈ paths ⟨.property, path, span, value, itemsOf path span items⟩) :
    q = path ∨ ∃ j, q = Path.itemIn path j := by
  rw [paths_eq] at h
  rcases List.mem_cons.1 h with rfl | h
  · exact .inl rfl
  · obtain ⟨c, hc, hq⟩ := List.mem_flatMap.1 h
    obtain ⟨j, x, -, rfl⟩ := mem_itemsOf hc
    exact .inr ⟨j, by simpa [paths, nodes, nodesOf] using hq⟩

theorem nodup_paths_itemsOf (path : String) (span : Span) (items : List String) :
    ((itemsOf path span items).flatMap paths).Nodup := by
  have hleaf : ∀ c ∈ itemsOf path span items, paths c = [c.path] := by
    intro c hc
    obtain ⟨j, x, -, rfl⟩ := mem_itemsOf hc
    rfl
  rw [List.flatMap_congr hleaf, ← List.map_eq_flatMap, itemsOf]
  split
  · simp
  · rw [List.nodup_iff_injective_getElem]
    intro i j hij
    simp only [List.getElem_map, List.getElem_mapIdx, Path.itemIn] at hij
    have hstart := List.prefix_refl (Path.indexed path i).toList
    exact Fin.ext (Path.index_inj hstart (hij ▸ hstart))

theorem RegularProperty.distinctPaths {owner : String} {n : Node} (h : RegularProperty owner n) :
    DistinctPaths n.path.toList n := by
  obtain ⟨key, span, items, -, -, rfl⟩ := h
  refine distinctPaths_node (nodup_paths_itemsOf _ _ _) fun q hq => ?_
  obtain ⟨c, hc, hq⟩ := List.mem_flatMap.1 hq
  obtain ⟨j, x, -, rfl⟩ := mem_itemsOf hc
  obtain rfl : q = Path.itemIn (Path.propertyIn owner key) j := by
    simpa [paths, nodes, nodesOf] using hq
  refine ⟨'[', ?_⟩
  rw [Path.itemIn, Path.toList_indexed]
  exact ⟨Nat.toDigits 10 j ++ [']'], by simp⟩

/-- The paths of a property and of its items go on with its key. -/
theorem exists_of_mem_paths_property {owner key : String} {span : Span} {value : Option String}
    {items : List String} {q : String}
    (h : q ∈ paths ⟨.property, Path.propertyIn owner key, span, value,
      itemsOf (Path.propertyIn owner key) span items⟩) :
    ∃ rest, q.toList = owner.toList ++ ['/'] ++ (key.toList ++ rest) ∧
      ∀ c ∈ rest.head?, isNameChar c = false := by
  rcases mem_paths_property h with rfl | ⟨j, rfl⟩
  · exact ⟨[], by simp [Path.propertyIn], by simp⟩
  · refine ⟨'[' :: (Nat.toDigits 10 j ++ [']']), ?_, fun c hc => ?_⟩
    · rw [Path.itemIn, Path.toList_indexed]
      simp [Path.propertyIn]
    · obtain rfl : '[' = c := by simpa using hc
      decide

/-- The key of a property can be read off the paths below its owner. -/
theorem takeWhile_key (owner : List Char) {key rest : List Char}
    (h : Field.isUsableKey key = true) (hrest : ∀ c ∈ rest.head?, isNameChar c = false) :
    ((owner ++ ['/'] ++ (key ++ rest)).drop (owner ++ ['/']).length).takeWhile isNameChar =
      key := by
  rw [List.drop_left]
  exact takeWhile_append_of_head (Field.isNameChar_of_isUsableKey h) hrest

/-- Paths of properties with different keys differ. -/
theorem RegularProperty.disjoint_paths {owner : String} {m n : Node} (hm : RegularProperty owner m)
    (hn : RegularProperty owner n) (h : m.path ≠ n.path) : List.Disjoint m.paths n.paths := by
  obtain ⟨key, span, items, hkey, -, rfl⟩ := hm
  obtain ⟨key', span', items', hkey', -, rfl⟩ := hn
  intro q hq hq'
  obtain ⟨rest, he, hrest⟩ := exists_of_mem_paths_property hq
  obtain ⟨rest', he', hrest'⟩ := exists_of_mem_paths_property hq'
  have hread := takeWhile_key owner.toList hkey hrest
  rw [← he, he', takeWhile_key _ hkey' hrest'] at hread
  exact h (by rw [String.toList_inj.1 hread])

theorem RegularEntity.distinctPaths {path : String} {n : Node} (h : RegularEntity path n) :
    DistinctPaths path.toList n := by
  obtain ⟨type, span, properties, -, hprops, hpair, rfl⟩ := h
  have hnodup : (properties.flatMap paths).Nodup := by
    refine List.nodup_flatMap.2 ⟨fun p hp => (hprops p hp).distinctPaths.nodup, ?_⟩
    exact hpair.imp_of_mem fun hp hq h => (hprops _ hp).disjoint_paths (hprops _ hq) h.2
  refine distinctPaths_node (n := ⟨.ofType type, path, span, some type, properties⟩) hnodup
    fun q hq => ?_
  obtain ⟨p, hp, hq⟩ := List.mem_flatMap.1 hq
  have hstart := (hprops p hp).distinctPaths.starts q hq
  obtain ⟨key, span', items, -, -, rfl⟩ := hprops p hp
  refine ⟨'/', List.IsPrefix.trans ⟨key.toList, ?_⟩ hstart⟩
  simp [Path.propertyIn]

/-- The paths below slots are distinct, and name their slots by number. -/
theorem distinctPaths_slots {path : String} {k : Nat} {ns : List Node}
    (h : RegularSlots path k ns)
    (hc : ∀ c ∈ ns, ∀ i, c.RegularSlot path i → DistinctPaths (Path.slotIn path i).toList c) :
    (ns.flatMap paths).Nodup ∧
      ∀ q ∈ ns.flatMap paths, ∃ i, k ≤ i ∧ (Path.slotIn path i).toList <+: q.toList := by
  induction ns generalizing k with
  | nil => simp
  | cons n ns ih =>
    obtain ⟨hn, hns⟩ := (regularSlots_cons _ _ _ _).1 h
    obtain ⟨ihnodup, ihstarts⟩ := ih hns fun c hm => hc c (by simp [hm])
    have hdistinct := hc n (by simp) k hn
    rw [List.flatMap_cons]
    refine ⟨List.nodup_append.2 ⟨hdistinct.nodup, ihnodup, ?_⟩, fun q hq => ?_⟩
    · rintro q hq _ hq' rfl
      obtain ⟨i, hi, hstart⟩ := ihstarts q hq'
      have hk := hdistinct.starts q hq
      rw [Path.slotIn_eq] at hstart hk
      have := Path.index_inj hk hstart
      omega
    · rcases List.mem_append.1 hq with hq | hq
      · exact ⟨k, Nat.le_refl k, hdistinct.starts q hq⟩
      · obtain ⟨i, hi, hstart⟩ := ihstarts q hq
        exact ⟨i, by omega, hstart⟩

/-- No path occurs twice in a regular tree. -/
theorem RegularOperation.distinctPaths {path : String} {n : Node} (h : RegularOperation path n) :
    DistinctPaths path.toList n := by
  induction n using children_induction generalizing path with
  | node n ih =>
    obtain ⟨-, hpath, -, -, hslots⟩ := (regularOperation_iff path n).1 h
    have hslot : ∀ c ∈ n.children, ∀ i, c.RegularSlot path i →
        DistinctPaths (Path.slotIn path i).toList c := by
      intro c hc i hi
      rcases hi with hi | hi
      · exact (ih c hc hi).mono (Path.prefix_operationIn _)
      · exact hi.distinctPaths
    obtain ⟨hnodup, hstarts⟩ := distinctPaths_slots hslots hslot
    subst hpath
    refine distinctPaths_node hnodup fun q hq => ?_
    obtain ⟨i, -, hstart⟩ := hstarts q hq
    refine ⟨'/', List.IsPrefix.trans ⟨(Path.indexed Path.entitiesWord i).toList, ?_⟩ hstart⟩
    simp [Path.slotIn]

theorem RegularSlot.distinctPaths {path : String} {i : Nat} {n : Node} (h : n.RegularSlot path i) :
    DistinctPaths (Path.slotIn path i).toList n := by
  rcases h with h | h
  · exact (RegularOperation.distinctPaths h).mono (Path.prefix_operationIn _)
  · exact h.distinctPaths

end Node
end ProblemScript
