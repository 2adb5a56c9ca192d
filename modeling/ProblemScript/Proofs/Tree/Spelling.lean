import ProblemScript.Proofs.Tree.Regular

/-! What the parts of a regular tree are written with. A property is given back by its key and its
items, whether or not the items have nodes of their own; entities and operations have a name and
children of a fixed sort. -/
namespace ProblemScript
open Text ProblemScript.Bracket

namespace Node

theorem keyOfPath_append (owner : String) {part : String} (h : '/' ∉ part.toList) :
    keyOfPath (owner ++ "/" ++ part) = .ofList (part.toList.takeWhile (· != '[')) := by
  have hpath : (owner ++ "/" ++ part).toList = owner.toList ++ '/' :: part.toList := by simp
  have hpart : part.toList.splitOnP (· == '/') = [part.toList] :=
    List.splitOnP_eq_singleton fun c hc => by
      rw [beq_eq_false_iff_ne]
      rintro rfl
      exact h hc
  have hlast : ((owner ++ "/" ++ part).toList.splitOn '/').getLastD [] = part.toList := by
    rw [hpath, List.splitOn, List.splitOnP_append_cons _ _ (by simp), hpart]
    simp
  rw [keyOfPath, hlast]

theorem keyOfPath_propertyIn (owner : String) {key : String}
    (h : ∀ c ∈ key.toList, isNameChar c = true) : keyOfPath (Path.propertyIn owner key) = key := by
  have hslash : '/' ∉ key.toList := fun hc => absurd (h _ hc) (by decide)
  have htake : key.toList.takeWhile (· != '[') = key.toList := by
    rw [List.takeWhile_eq_self_iff]
    intro c hc
    rw [bne_iff_ne]
    rintro rfl
    exact absurd (h _ hc) (by decide)
  rw [Path.propertyIn, keyOfPath_append owner hslash, htake, String.ofList_toList]

theorem key?_property {owner key : String} (h : Field.isUsableKey key.toList = true) (span : Span)
    (value : Option String) (children : List Node) :
    key? ⟨.property, Path.propertyIn owner key, span, value, children⟩ = some key := by
  rw [key?, if_pos rfl, keyOfPath_propertyIn _ (Field.isNameChar_of_isUsableKey h)]

/-- The items of a property, whether or not they have nodes of their own. -/
def itemTexts (n : Node) : List String :=
  if n.children.isEmpty then
    if n.value.getD "" = "" then [] else [n.value.getD ""]
  else n.children.map (·.value.getD "")

theorem itemTexts_property (path : String) (span : Span) {items : List String}
    (h : ∀ x ∈ items, x ≠ "") :
    itemTexts ⟨.property, path, span, some (Value.join items), itemsOf path span items⟩ =
      items := by
  by_cases hlen : items.length ≤ 1
  · have hnil : itemsOf path span items = [] := by rw [itemsOf, if_pos hlen]
    simp only [itemTexts, hnil, List.isEmpty_nil, if_true, Option.getD_some]
    cases items with
    | nil => rfl
    | cons x xs =>
      obtain rfl : xs = [] := by simpa using hlen
      have hjoin : Value.join [x] = x := by simp [Value.join]
      rw [hjoin, if_neg (h x (by simp))]
  · have hne : (itemsOf path span items).isEmpty = false := by
      rw [itemsOf, if_neg hlen]
      cases items with
      | nil => simp at hlen
      | cons x xs => simp
    simp only [itemTexts, hne, Bool.false_eq_true, if_false]
    exact map_value_itemsOf path span hlen

/-- The key that a property is written with. -/
def keyText (n : Node) : String := n.key?.getD ""

/-- A regular property is given by its key and its items. -/
structure IsSpelled (owner : String) (n : Node) : Prop where
  key : Field.isUsableKey n.keyText.toList = true
  items : Value.IsItemList n.itemTexts
  eq : n = ⟨.property, Path.propertyIn owner n.keyText, n.span, some (Value.join n.itemTexts),
    itemsOf (Path.propertyIn owner n.keyText) n.span n.itemTexts⟩

theorem RegularProperty.isSpelled {owner : String} {n : Node} (h : RegularProperty owner n) :
    IsSpelled owner n := by
  obtain ⟨key, span, items, hkey, hitems, rfl⟩ := h
  have hne : ∀ x ∈ items, x ≠ "" := by
    intro x hx he
    exact (hitems.item x hx).nonempty (by simp [he])
  have htexts := itemTexts_property (Path.propertyIn owner key) span hne
  have hk : keyText ⟨.property, Path.propertyIn owner key, span, some (Value.join items),
      itemsOf (Path.propertyIn owner key) span items⟩ = key := by
    rw [keyText, key?_property hkey, Option.getD_some]
  refine ⟨by rw [hk]; exact hkey, by rw [htexts]; exact hitems, ?_⟩
  rw [hk, htexts]

theorem IsSpelled.isLevel_iff {owner : String} {n : Node} (h : IsSpelled owner n) :
    n.IsLevel ↔ ∀ x ∈ n.itemTexts, depth x.toList = 0 := by
  conv =>
    lhs
    rw [h.eq]
  exact isLevel_property_iff fun x hx => (h.items.item x hx).depth_nonneg

theorem IsSpelled.kind {owner : String} {n : Node} (h : IsSpelled owner n) :
    n.kind = .property := by
  rw [h.eq]

theorem isLevel_iff_of_ne {n : Node} (h : n.kind ≠ .property) :
    n.IsLevel ↔ ∀ c ∈ n.children, c.IsLevel := by
  rw [Node.isLevel_iff]
  exact ⟨fun hl => hl.2, fun hl => ⟨fun hk => absurd hk h, hl⟩⟩

namespace RegularEntity

variable {path : String} {n : Node}

theorem isSpelled (h : n.RegularEntity path) : ∀ p ∈ n.children, p.IsSpelled path := by
  obtain ⟨type, span, properties, -, hprops, -, rfl⟩ := h
  exact fun p hp => (hprops p hp).isSpelled

theorem pairwise_isLevel (h : n.RegularEntity path) : n.children.Pairwise fun p _ => p.IsLevel := by
  obtain ⟨type, span, properties, -, -, hpair, rfl⟩ := h
  exact hpair.imp fun h => h.1

theorem kind_ne (h : n.RegularEntity path) : n.kind ≠ .property := by
  intro hk
  have := h.isEntityLike
  simp [hk, Kind.isEntityLike] at this

theorem kind_ne_operation (h : n.RegularEntity path) : n.kind ≠ .operation := by
  intro hk
  have := h.isEntityLike
  simp [hk, Kind.isEntityLike] at this

end RegularEntity

theorem RegularSlot.kind_ne {path : String} {i : Nat} {n : Node} (h : n.RegularSlot path i) :
    n.kind ≠ .property := by
  rcases h with h | h
  · simp [h.kind]
  · exact h.kind_ne

theorem RegularOperation.regularSlot_of_mem {path : String} {n c : Node}
    (h : n.RegularOperation path) (hc : c ∈ n.children) : ∃ i, c.RegularSlot path i := by
  obtain ⟨i, hi⟩ := List.mem_iff_getElem?.1 hc
  exact ⟨i, h.regularSlot hi⟩

theorem RegularOperation.pairwise_isLevel {path : String} {n : Node}
    (h : n.RegularOperation path) : n.children.Pairwise fun c _ => c.IsLevel :=
  ((regularOperation_iff path n).1 h).2.2.2.1

theorem RegularOperation.isIdentifier_value {path : String} {n : Node}
    (h : n.RegularOperation path) : isIdentifier (n.value.getD "").toList = true := by
  obtain ⟨name, hname, hid⟩ := ((regularOperation_iff path n).1 h).2.2.1
  rw [hname]
  exact hid

theorem RegularOperation.isPlaceholder_eq_false {path : String} {n : Node}
    (h : n.RegularOperation path) : n.isPlaceholder = false := by
  obtain ⟨name, hname, -⟩ := ((regularOperation_iff path n).1 h).2.2.1
  simp [isPlaceholder, hname]

theorem RegularOperation.kind_ne_of_mem {path : String} {n : Node} (h : n.RegularOperation path) :
    ∀ c ∈ n.children, c.kind ≠ .property := by
  intro c hc
  obtain ⟨i, hi⟩ := h.regularSlot_of_mem hc
  exact hi.kind_ne

end Node

end ProblemScript
