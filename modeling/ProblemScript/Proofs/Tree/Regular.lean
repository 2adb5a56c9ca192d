import ProblemScript.Proofs.Grammar.Call
import ProblemScript.Tree.Traversal

/-! Regular trees: those that reading a script can give. Names are identifiers, paths are given by
position, and values are lists of items. Only the very last item of a tree may have more opening
than closing brackets; a tree without such an item is level. -/
namespace ProblemScript
open Text ProblemScript.Bracket Segment

namespace Value

/-- An item as a body holds it: with single spaces, and with its commas inside brackets even when
one closing bracket too many has come first. -/
structure IsItem (item : String) : Prop where
  nonempty : item.toList ≠ []
  collapsed : collapse item.toList = item.toList
  within : Within (-1) 1 0 item.toList
  depth_nonneg : 0 ≤ depth item.toList

/-- The items of one property. Behind the first they have no key of their own, and before the last
they are level. -/
structure IsItemList (items : List String) : Prop where
  item : ∀ x ∈ items, IsItem x
  keyless : ∀ x ∈ items.tail, splitKey? x.toList = none
  level : items.Pairwise fun x _ => depth x.toList = 0

@[simp] theorem toList_join (items : List String) :
    (join items).toList = [',', ' '].intercalate (items.map (·.toList)) := by
  simp [join]

theorem toList_join_ne_nil {x : String} (h : x.toList ≠ []) (xs : List String) :
    (join (x :: xs)).toList ≠ [] := by
  rw [toList_join]
  cases xs with
  | nil => simpa using h
  | cons y ys => simp [h]

theorem depth_join_cons (x : String) (xs : List String) :
    depth (join (x :: xs)).toList = depth x.toList + depth (join xs).toList := by
  cases xs with
  | nil => simp
  | cons y ys =>
    rw [toList_join, toList_join, List.map_cons, List.map_cons, List.intercalate_cons_cons,
      depth_append, depth_append, show depth [',', ' '] = 0 from rfl, Int.add_zero]

/-- A value is level exactly when its items are. -/
theorem depth_join_eq_zero_iff {items : List String} (h : ∀ x ∈ items, 0 ≤ depth x.toList) :
    0 ≤ depth (join items).toList ∧
      (depth (join items).toList = 0 ↔ ∀ x ∈ items, depth x.toList = 0) := by
  induction items with
  | nil => simp
  | cons x xs ih =>
    obtain ⟨hx, hxs⟩ := List.forall_mem_cons.1 h
    obtain ⟨hnonneg, hiff⟩ := ih hxs
    rw [depth_join_cons, List.forall_mem_cons, ← hiff]
    omega

/-- An item is read back with white space before it. -/
theorem items_append_of_collapsed {b : List Char} (hb : AllBlank b) {x : String}
    (hne : x.toList ≠ []) (hcollapsed : collapse x.toList = x.toList) (hx : Solid x.toList) :
    items (b ++ x.toList) = [x] := by
  have hblank := neutral_of_allBlank hb
  have hsolid := (solid_of_neutral hblank).append (depth_of_neutral hblank) hx
  have htrim : trim x.toList = x.toList := hcollapsed ▸ trim_collapse x.toList
  rw [PropertyReading.items_of_trimmed hb htrim hne hsolid, hcollapsed, String.ofList_toList]

/-- Items are read back from where they are written one behind the other. -/
theorem items_append_join {b : List Char} (hb : AllBlank b) {xs : List String}
    (h : ∀ x ∈ xs, x.toList ≠ [] ∧ collapse x.toList = x.toList ∧ Solid x.toList)
    (hlevel : xs.Pairwise fun x _ => depth x.toList = 0) :
    items (b ++ (join xs).toList) = xs := by
  induction xs generalizing b with
  | nil =>
    rw [toList_join, List.map_nil, List.intercalate_nil, List.append_nil,
      items_of_solid (solid_of_neutral (neutral_of_allBlank hb)), if_pos ((trim_eq_nil_iff b).2 hb)]
  | cons x xs ih =>
    obtain ⟨⟨hne, hcollapsed, hx⟩, hxs⟩ := List.forall_mem_cons.1 h
    obtain ⟨hd, hlevel⟩ := List.pairwise_cons.1 hlevel
    have hfirst := items_append_of_collapsed hb hne hcollapsed hx
    cases xs with
    | nil => simpa using hfirst
    | cons y ys =>
      have hblank := depth_of_neutral (neutral_of_allBlank hb)
      have hsolid : Solid (b ++ x.toList) :=
        (solid_of_neutral (neutral_of_allBlank hb)).append hblank hx
      have hdepth : depth (b ++ x.toList) = 0 := by
        rw [depth_append, hblank, hd y (by simp), Int.zero_add]
      have hwritten : b ++ (join (x :: y :: ys)).toList =
          b ++ x.toList ++ ',' :: ([' '] ++ (join (y :: ys)).toList) := by
        simp [List.intercalate_cons_cons]
      rw [hwritten, items_append_comma hsolid hdepth, hfirst, ih allBlank_space hxs hlevel]
      rfl

theorem IsItem.items_append {x : String} (h : IsItem x) {b : List Char} (hb : AllBlank b) :
    items (b ++ x.toList) = [x] :=
  items_append_of_collapsed hb h.nonempty h.collapsed (solid_of_within h.within)

theorem IsItemList.items_append_join {xs : List String} (h : IsItemList xs) {b : List Char}
    (hb : AllBlank b) : items (b ++ (join xs).toList) = xs := by
  apply Value.items_append_join hb _ h.level
  intro x hx
  exact ⟨(h.item x hx).nonempty, (h.item x hx).collapsed, solid_of_within (h.item x hx).within⟩

end Value

theorem Path.propertyIn_inj {owner key key' : String} :
    propertyIn owner key = propertyIn owner key' ↔ key = key' := by
  rw [propertyIn, propertyIn, ← String.toList_inj, ← String.toList_inj]
  simp

namespace Node

theorem nodes_eq (n : Node) : n.nodes = n :: nodesOf n.children := by
  cases n
  rfl

theorem mem_nodesOf {m : Node} {ns : List Node} : m ∈ nodesOf ns ↔ ∃ n ∈ ns, m ∈ n.nodes := by
  induction ns with
  | nil => simp [nodesOf]
  | cons n ns ih => simp [nodesOf, ih]

/-- No value of the tree has more opening than closing brackets, or fewer. -/
def IsLevel (n : Node) : Prop :=
  ∀ m ∈ n.nodes, m.kind = .property → depth (m.value.getD "").toList = 0

theorem isLevel_iff (n : Node) :
    n.IsLevel ↔ (n.kind = .property → depth (n.value.getD "").toList = 0) ∧
      ∀ c ∈ n.children, c.IsLevel := by
  simp only [IsLevel, nodes_eq n, List.forall_mem_cons, mem_nodesOf]
  constructor
  · rintro ⟨h1, h2⟩
    exact ⟨h1, fun c hc m hm => h2 m ⟨c, hc, hm⟩⟩
  · rintro ⟨h1, h2⟩
    exact ⟨h1, fun m ⟨c, hc, hm⟩ => h2 c hc m hm⟩

theorem mem_itemsOf {path : String} {span : Span} {items : List String} {c : Node}
    (h : c ∈ itemsOf path span items) :
    ∃ j, ∃ x ∈ items, c = ⟨.property, Path.itemIn path j, span, some x, []⟩ := by
  unfold itemsOf at h
  split at h
  · simp at h
  · obtain ⟨j, hj, rfl⟩ := List.mem_mapIdx.1 h
    exact ⟨j, _, List.getElem_mem hj, rfl⟩

theorem getElem?_itemsOf {path : String} {span : Span} {items : List String} {j : Nat} {c : Node}
    (h : (itemsOf path span items)[j]? = some c) :
    ¬items.length ≤ 1 ∧
      ∃ x, items[j]? = some x ∧ c = ⟨.property, Path.itemIn path j, span, some x, []⟩ := by
  unfold itemsOf at h
  split at h
  · simp at h
  · rename_i hlen
    rw [List.getElem?_mapIdx, Option.map_eq_some_iff] at h
    obtain ⟨x, hx, rfl⟩ := h
    exact ⟨hlen, x, hx, rfl⟩

theorem map_value_itemsOf (path : String) (span : Span) {items : List String}
    (h : ¬items.length ≤ 1) : (itemsOf path span items).map (·.value.getD "") = items := by
  rw [itemsOf, if_neg h]
  apply List.ext_getElem?
  intro k
  cases hk : items[k]? <;> simp [hk]

/-- A property is level exactly when its items are. -/
theorem isLevel_property_iff {path : String} {span : Span} {items : List String}
    (h : ∀ x ∈ items, 0 ≤ depth x.toList) :
    IsLevel ⟨.property, path, span, some (Value.join items), itemsOf path span items⟩ ↔
      ∀ x ∈ items, depth x.toList = 0 := by
  rw [← (Value.depth_join_eq_zero_iff h).2, isLevel_iff]
  constructor
  · intro hl
    exact hl.1 rfl
  · intro hl
    refine ⟨fun _ => hl, fun c hc => ?_⟩
    obtain ⟨j, x, hx, rfl⟩ := mem_itemsOf hc
    rw [isLevel_iff]
    exact ⟨fun _ => (Value.depth_join_eq_zero_iff h).2.1 hl x hx, by simp⟩

/-- A property of the entity written `owner`. -/
def RegularProperty (owner : String) (n : Node) : Prop :=
  ∃ (key : String) (span : Span) (items : List String),
    Field.isUsableKey key.toList = true ∧ Value.IsItemList items ∧
      n = ⟨.property, Path.propertyIn owner key, span, some (Value.join items),
        itemsOf (Path.propertyIn owner key) span items⟩

/-- An entity written `path`. -/
def RegularEntity (path : String) (n : Node) : Prop :=
  ∃ (type : String) (span : Span) (properties : List Node),
    isIdentifier type.toList = true ∧ (∀ p ∈ properties, RegularProperty path p) ∧
      (properties.Pairwise fun p q => p.IsLevel ∧ p.path ≠ q.path) ∧
      n = ⟨.ofType type, path, span, some type, properties⟩

mutual

/-- An operation written `path`. -/
def RegularOperation (path : String) : Node → Prop
  | ⟨kind, p, _, value, children⟩ =>
    kind = .operation ∧ p = path ∧ (∃ name, value = some name ∧ isIdentifier name.toList = true) ∧
      (children.Pairwise fun m _ => m.IsLevel) ∧ RegularSlots path 0 children

/-- The slots from number `i` on of the operation written `path`. -/
def RegularSlots (path : String) : (i : Nat) → List Node → Prop
  | _, [] => True
  | i, n :: ns =>
    (RegularOperation (Path.operationIn (Path.slotIn path i)) n ∨
      RegularEntity (Path.slotIn path i) n) ∧ RegularSlots path (i + 1) ns

end

/-- A slot of an operation. -/
def RegularSlot (path : String) (i : Nat) (n : Node) : Prop :=
  RegularOperation (Path.operationIn (Path.slotIn path i)) n ∨ RegularEntity (Path.slotIn path i) n

theorem RegularOperation.kind {path : String} {n : Node} (h : RegularOperation path n) :
    n.kind = .operation := by
  cases n
  exact h.1

theorem RegularEntity.isEntityLike {path : String} {n : Node} (h : RegularEntity path n) :
    n.kind.isEntityLike = true := by
  obtain ⟨type, span, properties, -, -, -, rfl⟩ := h
  exact Kind.isEntityLike_ofType type

theorem regularOperation_iff (path : String) (n : Node) :
    RegularOperation path n ↔
      n.kind = .operation ∧ n.path = path ∧
        (∃ name, n.value = some name ∧ isIdentifier name.toList = true) ∧
        (n.children.Pairwise fun m _ => m.IsLevel) ∧ RegularSlots path 0 n.children := by
  cases n
  rw [RegularOperation]

theorem regularSlots_cons (path : String) (i : Nat) (n : Node) (ns : List Node) :
    RegularSlots path i (n :: ns) ↔ RegularSlot path i n ∧ RegularSlots path (i + 1) ns := by
  rw [RegularSlots, RegularSlot]

theorem regularSlots_append (path : String) (i : Nat) (ms ns : List Node) :
    RegularSlots path i (ms ++ ns) ↔
      RegularSlots path i ms ∧ RegularSlots path (i + ms.length) ns := by
  induction ms generalizing i with
  | nil => simp [RegularSlots]
  | cons m ms ih =>
    rw [List.cons_append, regularSlots_cons, regularSlots_cons, ih, and_assoc, List.length_cons,
      Nat.add_assoc, Nat.add_comm 1]

theorem regularSlots_iff (path : String) (k : Nat) (ns : List Node) :
    RegularSlots path k ns ↔ ∀ i n, ns[i]? = some n → RegularSlot path (k + i) n := by
  induction ns generalizing k with
  | nil => simp [RegularSlots]
  | cons m ns ih =>
    rw [regularSlots_cons, ih]
    constructor
    · rintro ⟨hm, hns⟩ i n hget
      cases i with
      | zero =>
        obtain rfl : m = n := by simpa using hget
        exact hm
      | succ i =>
        have := hns i n (by simpa using hget)
        rwa [Nat.add_assoc, Nat.add_comm 1 i] at this
    · intro h
      refine ⟨h 0 m (by simp), fun i n hget => ?_⟩
      have := h (i + 1) n (by simpa using hget)
      rwa [← Nat.add_assoc, Nat.add_right_comm] at this

theorem RegularOperation.regularSlot {path : String} {n : Node} (h : RegularOperation path n)
    {i : Nat} {c : Node} (hget : n.children[i]? = some c) : RegularSlot path i c := by
  have := (regularSlots_iff _ _ _).1 ((regularOperation_iff path n).1 h).2.2.2.2 i c hget
  simpa using this

end Node
end ProblemScript
