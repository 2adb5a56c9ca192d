import ProblemScript.Proofs.Tree.Change
import ProblemScript.Proofs.Tree.Spelling

/-! Edits keep a tree regular, and a level tree level. An admissible value is a list of balanced
items without keys, so that the changed node is regular, and the nodes above it are so again, hop by
hop up to the root. -/
namespace ProblemScript
open Text ProblemScript.Bracket Segment

namespace Value

/-- A plain item of a raw value is an item, level and without a key. -/
theorem isItem_of_isPlain {raw : List Char} {x : String} (hx : x ∈ items raw)
    (hp : isPlain x = true) :
    IsItem x ∧ depth x.toList = 0 ∧ splitKey? x.toList = none := by
  obtain ⟨s, hs, rfl⟩ := List.mem_map.1 hx
  have hseg := isSegmentOf_of_mem hs
  simp only [isPlain, String.toList_ofList, Bool.and_eq_true, Option.isNone_iff_eq_none] at hp ⊢
  obtain ⟨hw, hd⟩ := within_of_isBalanced hp.1
  have hin : Within 0 1 0 (collapse s.chars) :=
    (within_collapse (by omega) _).2
      (within_of_solid hseg.solid ((within_collapse (by omega) _).1 hw))
  refine ⟨⟨?_, by simp, ?_, ?_⟩, hd, hp.2⟩
  · rw [String.toList_ofList, ne_eq, collapse_eq_nil_iff, hseg.trimmed]
    exact hseg.nonempty
  · rw [String.toList_ofList]
    exact hin.mono (by omega) (by omega)
  · rw [String.toList_ofList]
    exact Int.le_of_eq hd.symm

theorem isItemList_of_isPlain {raw : List Char} (h : (items raw).all isPlain = true) :
    IsItemList (items raw) ∧ ∀ x ∈ items raw, depth x.toList = 0 := by
  have hx : ∀ x ∈ items raw, IsItem x ∧ depth x.toList = 0 ∧ splitKey? x.toList = none :=
    fun x hx => isItem_of_isPlain hx (List.all_eq_true.1 h x hx)
  refine ⟨⟨fun x h => (hx x h).1, fun x h => (hx x (List.mem_of_mem_tail h)).2.2, ?_⟩,
    fun x h => (hx x h).2.1⟩
  exact List.pairwise_of_forall_mem_list fun x h _ _ => (hx x h).2.1

end Value

private theorem mem_modify {α : Type} {l : List α} {i : Nat} {g : α → α} {y : α}
    (h : y ∈ l.modify i g) : y ∈ l ∨ ∃ x ∈ l, l[i]? = some x ∧ y = g x := by
  obtain ⟨k, hk⟩ := List.mem_iff_getElem?.1 h
  rw [List.getElem?_modify] at hk
  cases hx : l[k]? with
  | none => simp [hx] at hk
  | some x =>
    have hmem := List.mem_of_getElem? hx
    by_cases hik : i = k
    · exact .inr ⟨x, hmem, hik ▸ hx, by simpa [hx, hik, eq_comm] using hk⟩
    · obtain rfl : x = y := by simpa [hx, hik] using hk
      exact .inl hmem

private theorem pairwise_modify {α : Type} {R : α → α → Prop} {l : List α} {g : α → α}
    (h : l.Pairwise R) (i : Nat) (hl : ∀ a b, l[i]? = some a → R a b → R (g a) b)
    (hr : ∀ a b, l[i]? = some b → R a b → R a (g b)) : (l.modify i g).Pairwise R := by
  induction l generalizing i with
  | nil => simp
  | cons a l ih =>
    obtain ⟨ha, hpair⟩ := List.pairwise_cons.1 h
    cases i with
    | zero =>
      rw [List.modify_zero_cons]
      exact List.pairwise_cons.2 ⟨fun b hb => hl a b (by simp) (ha b hb), hpair⟩
    | succ i =>
      rw [List.modify_succ_cons]
      have hrest := ih hpair i (fun b c hb => hl b c (by simpa using hb))
        (fun b c hc => hr b c (by simpa using hc))
      refine List.pairwise_cons.2 ⟨fun b hb => ?_, hrest⟩
      rcases mem_modify hb with hb | ⟨x, hx, hget, rfl⟩
      · exact ha b hb
      · exact hr a x (by simpa using hget) (ha x hx)

/-- One level item in place of another leaves an item list. -/
theorem Value.IsItemList.modify {items : List String} (h : IsItemList items) {x : String}
    (hx : IsItem x) (hd : depth x.toList = 0) (hk : splitKey? x.toList = none) (j : Nat) :
    IsItemList (items.modify j fun _ => x) := by
  refine ⟨fun y hy => ?_, fun y hy => ?_, ?_⟩
  · rcases mem_modify hy with hy | ⟨-, -, -, rfl⟩
    · exact h.item y hy
    · exact hx
  · cases items with
    | nil => simp at hy
    | cons z zs =>
      cases j with
      | zero => exact h.keyless y (by simpa using hy)
      | succ j =>
        rw [List.modify_succ_cons, List.tail_cons] at hy
        rcases mem_modify hy with hy | ⟨-, -, -, rfl⟩
        · exact h.keyless y hy
        · exact hk
  · exact pairwise_modify h.level j (fun _ _ _ _ => hd) (fun _ _ _ h => h)

namespace Node

theorem itemsOf_modify (path : String) (span : Span) {items : List String}
    (h : ¬items.length ≤ 1) (j : Nat) (x : String) :
    ((itemsOf path span items).modify j fun c => { c with value := some x }) =
      itemsOf path span (items.modify j fun _ => x) := by
  rw [itemsOf, if_neg h, itemsOf, if_neg (by simpa using h)]
  apply List.ext_getElem?
  intro k
  simp only [List.getElem?_modify, List.getElem?_mapIdx]
  cases items[k]? with
  | none => simp
  | some y => by_cases hjk : j = k <;> simp [hjk]

/-- A new item is set in the list and in the value. -/
theorem apply_item_property (path : String) (span : Span) {items : List String}
    (h : ¬items.length ≤ 1) (j : Nat) (x : String) :
    (Change.item j x).apply
        ⟨.property, path, span, some (Value.join items), itemsOf path span items⟩ =
      ⟨.property, path, span, some (Value.join (items.modify j fun _ => x)),
        itemsOf path span (items.modify j fun _ => x)⟩ := by
  simp only [Change.apply]
  rw [itemsOf_modify _ _ h, map_value_itemsOf _ _ (by simpa using h)]

theorem IsLevel.modify {n : Node} (h : n.IsLevel) {i : Nat} {g : Node → Node}
    (hg : ∀ c, n.children[i]? = some c → c.IsLevel → (g c).IsLevel) :
    IsLevel { n with children := n.children.modify i g } := by
  obtain ⟨h1, h2⟩ := (isLevel_iff n).1 h
  refine (isLevel_iff _).2 ⟨h1, fun c hc => ?_⟩
  rcases mem_modify hc with hc | ⟨m, hm, hget, rfl⟩
  · exact h2 c hc
  · exact hg m hget (h2 m hm)

/-- The edited node is of the same sort as before, and level if it was. -/
structure Keeps (P : Node → Prop) (n n' : Node) : Prop where
  regular : P n'
  path : n'.path = n.path
  level : n.IsLevel → n'.IsLevel

theorem RegularProperty.kinds {owner : String} {n : Node} (h : RegularProperty owner n) :
    n.kind = .property ∧ ∀ c ∈ n.children, c.kind = .property := by
  obtain ⟨key, span, items, -, -, rfl⟩ := h
  refine ⟨rfl, fun c hc => ?_⟩
  obtain ⟨j, x, -, rfl⟩ := mem_itemsOf hc
  rfl

/-- A changed property leaves an entity regular if it keeps its path and stays a regular property
itself. -/
theorem keeps_properties {path : String} {n : Node} (h : RegularEntity path n) {k : Nat}
    {g : Node → Node}
    (hg : ∀ c, n.children[k]? = some c → Keeps (RegularProperty path) c (g c)) :
    Keeps (RegularEntity path) n { n with children := n.children.modify k g } := by
  obtain ⟨type, span, properties, htype, hprops, hpair, rfl⟩ := h
  refine ⟨⟨type, span, properties.modify k g, htype, fun p hp => ?_, ?_, rfl⟩, rfl,
    fun hl => hl.modify fun c hget => (hg c hget).level⟩
  · rcases mem_modify hp with hp | ⟨c, -, hget, rfl⟩
    · exact hprops p hp
    · exact (hg c hget).regular
  · refine pairwise_modify hpair k (fun p q hget hpq => ?_) (fun p q hget hpq => ?_)
    · exact ⟨(hg p hget).level hpq.1, (hg p hget).path ▸ hpq.2⟩
    · exact ⟨hpq.1, (hg q hget).path ▸ hpq.2⟩

/-- A changed slot leaves an operation regular if it stays a regular slot itself. -/
theorem keeps_slot {path : String} {n : Node} (h : RegularOperation path n) {i : Nat}
    {g : Node → Node} (hg : ∀ c, n.children[i]? = some c → Keeps (RegularSlot path i) c (g c)) :
    Keeps (RegularOperation path) n { n with children := n.children.modify i g } := by
  obtain ⟨hkind, hpath, hname, hlevel, hslots⟩ := (regularOperation_iff path n).1 h
  refine ⟨(regularOperation_iff _ _).2 ⟨hkind, hpath, hname, ?_, ?_⟩, rfl,
    fun hl => hl.modify fun c hget => (hg c hget).level⟩
  · exact pairwise_modify hlevel i (fun m _ hget => (hg m hget).level) (fun _ _ _ h => h)
  · refine (regularSlots_iff _ _ _).2 fun j m hm => ?_
    rw [List.getElem?_modify] at hm
    cases hget : n.children[j]? with
    | none => simp [hget] at hm
    | some c =>
      by_cases hij : i = j
      · subst hij
        obtain rfl : g c = m := by simpa [hget] using hm
        simpa using (hg c hget).regular
      · obtain rfl : c = m := by simpa [hget, hij] using hm
        exact (regularSlots_iff _ _ _).1 hslots j c hget

/-- The sort of node to which a path leads in a regular tree. -/
def RegularAs (path : String) : Path → Node → Prop
  | .root, n | .operation _, n => RegularOperation path n
  | .entity _ _, n => RegularEntity path n
  | .property _ _, n => RegularProperty path n
  | .item _ _ _, n => n.kind = .property

theorem RegularAs.operation {path : String} {p : Path} {n : Node} (h : RegularAs path p n)
    (hp : p.HasSlots) : RegularOperation path n := by
  cases p with
  | root | operation => exact h
  | entity | property | item => exact hp.elim

/-- A hop leads to a node of the sort that its path says. If this is no item and stays regular under
a change, so does the node above. -/
theorem Hop.exists_regularAs {path : String} {p q : Path} {n c : Node} {k : Nat}
    (h : Hop p n k q c) (hc : n.children[k]? = some c) (hn : RegularAs path p n) :
    ∃ path', RegularAs path' q c ∧ ((∀ owner key j, q ≠ .item owner key j) → ∀ g : Node → Node,
      Keeps (RegularAs path' q) c (g c) →
        Keeps (RegularAs path p) n { n with children := n.children.modify k g }) := by
  have hslot : p.HasSlots → RegularSlot path k c ∧ ∀ g : Node → Node,
      Keeps (RegularSlot path k) c (g c) →
        Keeps (RegularAs path p) n { n with children := n.children.modify k g } := by
    intro hp
    have hregular := hn.operation hp
    refine ⟨hregular.regularSlot hc, fun g hg => ?_⟩
    have hkeep := keeps_slot hregular (i := k) (g := g) fun c' hc' => by
      obtain rfl : c = c' := by simpa [hc] using hc'
      exact hg
    cases p with
    | root | operation => exact hkeep
    | entity | property | item => exact hp.elim
  cases h with
  | entity hp hkind =>
    obtain ⟨hregular | hregular, hkeeps⟩ := hslot hp
    · simp [hregular.kind, Kind.isEntityLike] at hkind
    · exact ⟨_, hregular, fun _ g hg => hkeeps g ⟨.inr hg.regular, hg.path, hg.level⟩⟩
  | operation hp hkind =>
    obtain ⟨hregular | hregular, hkeeps⟩ := hslot hp
    · exact ⟨_, hregular, fun _ g hg => hkeeps g ⟨.inl hg.regular, hg.path, hg.level⟩⟩
    · exact absurd hkind hregular.kind_ne_operation
  | property _ =>
    have hregular : RegularEntity path n := hn
    obtain ⟨type, span, properties, -, hprops, -, rfl⟩ := hn
    refine ⟨path, hprops c (List.mem_of_getElem? hc), fun _ g hg => ?_⟩
    exact keeps_properties hregular fun c' hc' => by
      obtain rfl : c = c' := by simpa [hc] using hc'
      exact hg
  | item =>
    have hregular : RegularProperty path n := hn
    exact ⟨path, hregular.kinds.2 c (List.mem_of_getElem? hc), fun hq => absurd rfl (hq _ _ _)⟩

namespace Leads
variable {T n : Node} {root : String} {p : Path} {is : List Nat}

theorem exists_regularAs (h : T.Leads p is n) (hT : RegularOperation root T) :
    ∃ path, RegularAs path p n := by
  induction h with
  | root => exact ⟨root, hT⟩
  | hop _ hc hhop ih =>
    obtain ⟨path, hn⟩ := ih
    obtain ⟨path', hregular, -⟩ := hhop.exists_regularAs hc hn
    exact ⟨path', hregular⟩

/-- A tree stays regular if the changed node does. -/
theorem keeps (h : T.Leads p is n) (hT : RegularOperation root T)
    (hp : ∀ owner key j, p ≠ .item owner key j) {g : Node → Node}
    (hg : ∀ path, RegularAs path p n → Keeps (RegularAs path p) n (g n)) :
    Keeps (RegularOperation root) T (Node.modifyAt g is T) := by
  induction h generalizing g with
  | root => exact hg root hT
  | @hop p q is n c k _ hc hhop ih =>
    rw [modifyAt_append]
    have hp' : ∀ owner key j, p ≠ .item owner key j := by
      rintro owner key j rfl
      cases hhop with
      | entity hslots _ | operation hslots _ => exact hslots.elim
    refine ih hp' fun path hn => ?_
    obtain ⟨path', hregular, hkeeps⟩ := hhop.exists_regularAs hc hn
    exact hkeeps hp g (hg path' hregular)

end Leads

theorem RegularOperation.keeps_name {path : String} {n : Node} (h : RegularOperation path n)
    {s : String} (hs : isIdentifier s.toList = true) :
    Keeps (RegularOperation path) n ((Change.name s).apply n) := by
  obtain ⟨hkind, hpath, -, hlevel, hslots⟩ := (regularOperation_iff path n).1 h
  have hregular : RegularOperation path ((Change.name s).apply n) := by
    simp only [Change.apply, hkind, Kind.isEntityLike]
    exact (regularOperation_iff _ _).2 ⟨rfl, hpath, ⟨s, rfl, hs⟩, hlevel, hslots⟩
  refine ⟨hregular, rfl, fun hl => ?_⟩
  rw [isLevel_iff_of_ne (by simp [hregular.kind])]
  exact ((isLevel_iff n).1 hl).2

theorem RegularEntity.keeps_name {path : String} {n : Node} (h : RegularEntity path n)
    {s : String} (hs : isIdentifier s.toList = true) :
    Keeps (RegularEntity path) n ((Change.name s).apply n) := by
  obtain ⟨type, span, properties, -, hprops, hpair, rfl⟩ := h
  have hregular : RegularEntity path
      ((Change.name s).apply ⟨.ofType type, path, span, some type, properties⟩) := by
    simp only [Change.apply, Kind.isEntityLike_ofType, if_true]
    exact ⟨s, span, properties, hs, hprops, hpair, rfl⟩
  refine ⟨hregular, rfl, fun hl => ?_⟩
  rw [isLevel_iff_of_ne hregular.kind_ne]
  exact ((isLevel_iff _).1 hl).2

theorem RegularProperty.keeps_items {owner : String} {n : Node} (h : RegularProperty owner n)
    {xs : List String} (hxs : Value.IsItemList xs) (hlevel : ∀ x ∈ xs, depth x.toList = 0) :
    Keeps (RegularProperty owner) n ((Change.items xs).apply n) := by
  obtain ⟨key, span, items, hkey, -, rfl⟩ := h
  refine ⟨⟨key, span, xs, hkey, hxs, rfl⟩, rfl, fun _ => ?_⟩
  exact (isLevel_property_iff fun x hx => (hxs.item x hx).depth_nonneg).2 hlevel

theorem RegularProperty.keeps_item {owner : String} {n : Node} (h : RegularProperty owner n)
    {j : Nat} (hj : j < n.children.length) {x : String} (hx : Value.IsItem x)
    (hlevel : depth x.toList = 0) (hkeyless : Value.splitKey? x.toList = none) :
    Keeps (RegularProperty owner) n ((Change.item j x).apply n) := by
  obtain ⟨key, span, items, hkey, hitems, rfl⟩ := h
  obtain ⟨hlen, -⟩ := getElem?_itemsOf (List.getElem?_eq_getElem hj)
  have hmod := hitems.modify hx hlevel hkeyless j
  rw [apply_item_property _ _ hlen]
  refine ⟨⟨key, span, _, hkey, hmod, rfl⟩, rfl, fun hl => ?_⟩
  have hdepth := (isLevel_property_iff fun y hy => (hitems.item y hy).depth_nonneg).1 hl
  refine (isLevel_property_iff fun y hy => (hmod.item y hy).depth_nonneg).2 fun y hy => ?_
  rcases mem_modify hy with hy | ⟨-, -, -, rfl⟩
  · exact hdepth y hy
  · exact hlevel

/-- An admissible change leaves its target regular. -/
theorem RegularAs.keeps {value path : String} {p : Path} {change : Change} {n : Node}
    (h : RegularAs path (Change.target p) n) (hmade : change.IsMade value p)
    (happlies : change.Applies n) :
    Keeps (RegularAs path (Change.target p)) n (change.apply n) := by
  cases hmade with
  | @name p hlast hvalue =>
    cases p with
    | root | operation => exact RegularOperation.keeps_name h hvalue
    | entity => exact RegularEntity.keeps_name h hvalue
    | property | item => simp [Path.last, Step.isProperty] at hlast
  | items hplain =>
    obtain ⟨hitems, hlevel⟩ := Value.isItemList_of_isPlain hplain
    exact RegularProperty.keeps_items h hitems hlevel
  | @item owner key x j hx hplain =>
    have hmem : x ∈ Value.items value.toList := by simp [hx]
    obtain ⟨hitem, hlevel, hkeyless⟩ := Value.isItem_of_isPlain hmem hplain
    exact RegularProperty.keeps_item h happlies hitem hlevel hkeyless

/-- A successful edit keeps a tree regular, and a level tree level. -/
theorem regularOperation_setValue {path : String} {n n' : Node} {p value : String}
    (h : RegularOperation path n) (hs : n.setValue p value = .ok n') :
    RegularOperation path n' ∧ (n.IsLevel → n'.IsLevel) := by
  obtain ⟨q, change, is, m, -, hmade, hm, happlies, rfl⟩ := setValue_eq_ok_iff.1 hs
  have hkeep := hm.keeps h (Change.target_ne_item q) fun path hn => hn.keeps hmade happlies
  exact ⟨hkeep.regular, hkeep.level⟩

/-- The placeholder cannot be edited. -/
theorem setValue_of_isPlaceholder {n n' : Node} {p value : String} (h : n.isPlaceholder = true) :
    n.setValue p value ≠ .ok n' := by
  intro hs
  obtain ⟨q, change, is, m, -, hmade, hm, happlies, rfl⟩ := setValue_eq_ok_iff.1 hs
  have hchildren : n.children = [] := by
    simp only [isPlaceholder, Bool.and_eq_true, List.isEmpty_iff] at h
    exact h.2
  have hdown := hm.descend?_eq
  cases is with
  | cons i is => simp [hchildren] at hdown
  | nil =>
    -- Only the root itself is left, and it takes no name.
    obtain rfl : n = m := by simpa using hdown
    have hroot := hm.eq_root
    cases hmade with
    | name _ _ => simp [Change.Applies, h] at happlies
    | items _ | item _ _ => simp [Change.target] at hroot

end Node
end ProblemScript
