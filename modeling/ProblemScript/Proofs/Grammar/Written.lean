import ProblemScript.Proofs.Grammar.Listed
import ProblemScript.Proofs.Layout.Row
import ProblemScript.Proofs.Tree.Shape
import ProblemScript.Proofs.Tree.Spelling

/-! The grammar of scripts, as a relation between trees and texts. Operations are
`name(slot, ...)`, entities `type[property, ...]` and properties `key: item, ...`; white space may
stand next to brackets, commas and colons, and commas may stand where nothing is between them. The
trees of the grammar are those whose parts have the form that the relation can write. -/
namespace ProblemScript
open Text ProblemScript.Bracket Segment

/-- An item of the grammar: words with single spaces between them, whose brackets pair up, without
a comma outside of brackets and without a key of its own. -/
structure Value.IsGrammatical (item : String) : Prop where
  words : ∃ ws : List (List Char), ws ≠ [] ∧ (∀ w ∈ ws, w ≠ [] ∧ ∀ c ∈ w, isBlank c = false) ∧
    item.toList = [' '].intercalate ws
  balanced : isBalanced item.toList = true
  comma : ∀ xs ys, item.toList = xs ++ ',' :: ys → depth xs ≠ 0
  keyless : splitKey? item.toList = none

namespace Node

/-- The property `key` of the entity written `owner`, up to its range. -/
def propertyShape (owner key : String) (items : List String) : Node :=
  ⟨.property, Path.propertyIn owner key, ⟨0, 0⟩, some (Value.join items),
    itemsOf (Path.propertyIn owner key) ⟨0, 0⟩ items⟩

/-- A property of the entity written `owner`. -/
def GrammaticalProperty (owner : String) (n : Node) : Prop :=
  ∃ (key : String) (items : List String),
    isIdentifier key.toList = true ∧ key ≠ Path.operationWord ∧ key ≠ Path.entitiesWord ∧
      (∀ x ∈ items, Value.IsGrammatical x) ∧ n.shape = propertyShape owner key items

/-- An entity written `path`. -/
def GrammaticalEntity (path : String) (n : Node) : Prop :=
  ∃ type : String, isIdentifier type.toList = true ∧ n.kind = .ofType type ∧ n.path = path ∧
    n.value = some type ∧ (∀ p ∈ n.children, GrammaticalProperty path p) ∧
    n.children.Pairwise fun p q => p.key? ≠ q.key?

/-- An operation written `path`: its slots hold operations and entities. -/
inductive GrammaticalOperation : String → Node → Prop
  | intro {path name : String} {n : Node} (hkind : n.kind = .operation) (hpath : n.path = path)
      (hvalue : n.value = some name) (hname : isIdentifier name.toList = true)
      (operations : ∀ i c, n.children[i]? = some c → c.kind = .operation →
        GrammaticalOperation (Path.operationIn (Path.slotIn path i)) c)
      (entities : ∀ i c, n.children[i]? = some c → c.kind ≠ .operation →
        GrammaticalEntity (Path.slotIn path i) c) :
      GrammaticalOperation path n

/-- The slot with number `i` of the operation written `path`. -/
def GrammaticalSlot (path : String) (i : Nat) (n : Node) : Prop :=
  GrammaticalOperation (Path.operationIn (Path.slotIn path i)) n ∨
    GrammaticalEntity (Path.slotIn path i) n

/-- An item is written as it is. -/
def ItemWritten (item : String) (cs : List Char) : Prop := cs = item.toList

/-- How a property may be written: its key, a colon, and its items as a list. -/
def PropertyWritten (n : Node) (cs : List Char) : Prop :=
  ∃ b rest, AllBlank b ∧ cs = n.keyText.toList ++ b ++ ':' :: rest ∧
    Listed ItemWritten n.itemTexts rest

/-- How an entity or an operation may be written: its name, and its children as a list in
brackets. -/
inductive Written : Node → List Char → Prop
  | entity {n : Node} {b body : List Char} (hk : n.kind.isEntityLike = true) (hb : AllBlank b)
      (h : Listed PropertyWritten n.children body) :
      Written n ((n.value.getD "").toList ++ b ++ '[' :: body ++ [']'])
  | operation {n : Node} {b body : List Char} (hk : n.kind = .operation) (hb : AllBlank b)
      (h : Listed Written n.children body) :
      Written n ((n.value.getD "").toList ++ b ++ '(' :: body ++ [')'])

/-- The text is a script of the tree. The root stands at the start of a line, and nothing before it
opens an operation; before its name and its parenthesis there may be spaces and tabulators, and
behind the parenthesis that closes it anything. -/
def IsScriptOf (T : Node) (text : List Char) : Prop :=
  ∃ preface indent gap body rest,
    text = preface ++ (indent ++ (T.value.getD "").toList ++ gap ++ '(' :: (body ++ ')' :: rest)) ∧
      (preface = [] ∨ ∃ lines, preface = lines ++ ['\n'] ∧ Call.root? lines = none) ∧
      (∀ c ∈ indent, Call.isIndent c = true) ∧ (∀ c ∈ gap, Call.isIndent c = true) ∧
      Listed Written T.children body

end Node

theorem Layout.IsElement.level {cs : List Char} (h : IsElement 0 cs) (hd : depth cs = 0) :
    Level cs :=
  ⟨h.within.mono (Int.le_refl 0) (by decide), hd⟩

namespace Value
open Layout

theorem IsGrammatical.collapsed {x : String} (h : IsGrammatical x) :
    collapse x.toList = x.toList := by
  obtain ⟨ws, -, hws, hx⟩ := h.words
  rw [hx, collapse, words_intercalate hws]

theorem IsGrammatical.ne_nil {x : String} (h : IsGrammatical x) : x.toList ≠ [] := by
  obtain ⟨ws, hne, hws, hx⟩ := h.words
  obtain ⟨w, ws, rfl⟩ := List.exists_cons_of_ne_nil hne
  have hw := (hws w (by simp)).1
  rw [hx]
  cases ws <;> simp [List.intercalate, hw]

/-- The conditions on an item as they are checked. -/
theorem isGrammatical_iff (x : String) :
    IsGrammatical x ↔ (x.toList ≠ [] ∧ collapse x.toList = x.toList) ∧
      isBalanced x.toList = true ∧
      (∀ i, i < x.toList.length → x.toList[i]? = some ',' → depth (x.toList.take i) ≠ 0) ∧
      splitKey? x.toList = none := by
  constructor
  · intro h
    refine ⟨⟨h.ne_nil, h.collapsed⟩, h.balanced, fun i hi hget => ?_, h.keyless⟩
    apply h.comma _ (x.toList.drop (i + 1))
    obtain ⟨_, he⟩ := List.getElem?_eq_some_iff.1 hget
    rw [← he, ← List.drop_eq_getElem_cons, List.take_append_drop]
  · rintro ⟨⟨hne, hcollapsed⟩, hbalanced, hcomma, hkeyless⟩
    refine ⟨⟨words x.toList, fun hnil => hne ?_, fun w hw => mem_words hw, hcollapsed.symm⟩,
      hbalanced, fun xs ys he => ?_, hkeyless⟩
    · rw [← hcollapsed, collapse, hnil]
      rfl
    · have hget := hcomma xs.length (by simp [he]) (by simp [he])
      rwa [he, List.take_left] at hget

instance (x : String) : Decidable (IsGrammatical x) := decidable_of_iff _ (isGrammatical_iff x).symm

/-- An item is one element of a list. -/
theorem IsGrammatical.isElement {x : String} (h : IsGrammatical x) :
    IsElement 0 x.toList ∧ depth x.toList = 0 := by
  obtain ⟨hwithin, hdepth⟩ := within_of_isBalanced h.balanced
  have hsolid : Solid x.toList := by
    generalize hx : x.toList = cs
    have hcomma := h.comma
    rw [hx] at hcomma
    induction cs using pieces_induction with
    | solid cs hs => exact hs
    | cut p ys _ hd _ => exact absurd hd (hcomma p ys rfl)
  refine ⟨⟨h.ne_nil, ?_, within_of_solid hsolid hwithin, Int.le_of_eq hdepth.symm⟩, hdepth⟩
  rw [← h.collapsed, trim_collapse]

theorem IsGrammatical.level {x : String} (h : IsGrammatical x) : Level x.toList :=
  h.isElement.1.level h.isElement.2

end Value

namespace Node
open Layout

theorem itemTexts_shape (n : Node) : n.shape.itemTexts = n.itemTexts := by
  unfold itemTexts
  rw [children_shape, value_shape, List.isEmpty_map, List.map_map]
  congr 1
  apply List.map_congr_left
  intro c _
  simp

/-- What a property of the grammar is written with. -/
structure Spells (owner : String) (n : Node) : Prop where
  name : isIdentifier n.keyText.toList = true
  key : Field.isUsableKey n.keyText.toList = true
  key?_eq : n.key? = some n.keyText
  item : ∀ x ∈ n.itemTexts, Value.IsGrammatical x
  shape : n.shape = propertyShape owner n.keyText n.itemTexts

theorem GrammaticalProperty.spells {owner : String} {n : Node} (h : GrammaticalProperty owner n) :
    Spells owner n := by
  obtain ⟨key, items, hid, hop, hent, hitems, hshape⟩ := h
  have husable : Field.isUsableKey key.toList = true := by
    simp only [isIdentifier, Bool.and_eq_true] at hid
    simp only [Field.isUsableKey, Bool.and_eq_true, bne_iff_ne, ne_eq, String.toList_inj]
    exact ⟨⟨hid.2, hop⟩, hent⟩
  have hkey? : n.key? = some key := by
    rw [← key?_shape, hshape, propertyShape, key?_property husable]
  have hkey : n.keyText = key := by
    rw [keyText, hkey?, Option.getD_some]
  have htexts : n.itemTexts = items := by
    rw [← itemTexts_shape, hshape, propertyShape, itemTexts_property]
    intro x hx hempty
    exact (hitems x hx).ne_nil (by simp [hempty])
  constructor
  · rwa [hkey]
  · rwa [hkey]
  · rwa [hkey]
  · rwa [htexts]
  · rw [hkey, htexts, hshape]

theorem Spells.kind {owner : String} {n : Node} (h : Spells owner n) : n.kind = .property := by
  rw [← kind_shape, h.shape]
  rfl

theorem GrammaticalEntity.isEntityLike {path : String} {n : Node} (h : GrammaticalEntity path n) :
    n.kind.isEntityLike = true := by
  obtain ⟨type, -, hkind, -⟩ := h
  rw [hkind, Kind.ofType]
  split <;> rfl

theorem GrammaticalEntity.kind_ne_operation {path : String} {n : Node}
    (h : GrammaticalEntity path n) : n.kind ≠ .operation := by
  intro hk
  simpa [hk, Kind.isEntityLike] using h.isEntityLike

theorem GrammaticalOperation.kind {path : String} {n : Node} (h : GrammaticalOperation path n) :
    n.kind = .operation := by
  cases h with
  | intro hkind => exact hkind

theorem GrammaticalOperation.slot {path : String} {n : Node} (h : GrammaticalOperation path n)
    {i : Nat} {c : Node} (hc : n.children[i]? = some c) : GrammaticalSlot path i c := by
  cases h with
  | intro _ _ _ _ operations entities =>
    by_cases hk : c.kind = .operation
    · exact .inl (operations i c hc hk)
    · exact .inr (entities i c hc hk)

theorem GrammaticalOperation.isIdentifier {path : String} {n : Node}
    (h : GrammaticalOperation path n) : isIdentifier (n.value.getD "").toList = true := by
  cases h with
  | intro _ _ hvalue hname => rwa [hvalue]

theorem GrammaticalSlot.isIdentifier {path : String} {i : Nat} {n : Node}
    (h : GrammaticalSlot path i n) : isIdentifier (n.value.getD "").toList = true := by
  rcases h with h | ⟨type, htype, -, -, hvalue, -⟩
  · exact h.isIdentifier
  · rwa [hvalue]

theorem GrammaticalSlot.kind_ne_property {path : String} {i : Nat} {n : Node}
    (h : GrammaticalSlot path i n) : n.kind ≠ .property := by
  intro hk
  rcases h with h | h
  · simp [h.kind] at hk
  · simpa [hk, Kind.isEntityLike] using h.isEntityLike

theorem PropertyWritten.level {owner : String} {n : Node} (h : Spells owner n) {cs : List Char}
    (hw : PropertyWritten n cs) : Level cs := by
  obtain ⟨b, rest, hb, rfl, hitems⟩ := hw
  have hlead : Neutral (n.keyText.toList ++ b ++ [':']) :=
    ((Field.neutral_key h.key).append (neutral_of_allBlank hb)).append neutral_colon
  have hrest : Level rest := by
    refine hitems.level fun x hx _ he => ?_
    rw [he]
    exact (h.item x hx).level
  have := (level_of_neutral hlead).append hrest
  rwa [List.append_assoc, List.singleton_append] at this

/-- What is written in brackets behind a name is one element of a list. -/
theorem isElement_named {name b body : List Char} (hname : isIdentifier name = true)
    (hb : AllBlank b) {opener closer : Char} (ho : isOpening opener = true)
    (hc : isClosing closer = true) (hbody : Level body) :
    IsElement 0 (name ++ b ++ opener :: body ++ [closer]) ∧
      depth (name ++ b ++ opener :: body ++ [closer]) = 0 := by
  obtain ⟨helement, hdepth⟩ := isElement_brackets ho hc
    (hbody.within.mono (by omega) (by omega)) (Int.le_of_eq hbody.depth_eq.symm)
  obtain ⟨hlead, hdepth'⟩ := helement.lead
    ((neutral_of_isIdentifier hname).append (neutral_of_allBlank hb))
    (head?_of_isIdentifier hname b) (by omega)
  rw [List.append_assoc]
  exact ⟨hlead, by rw [hdepth', hdepth, hbody.depth_eq]⟩

/-- A slot is written as one element of a list. -/
theorem Written.isElement {path : String} {i : Nat} {n : Node} (h : GrammaticalSlot path i n)
    {cs : List Char} (hw : Written n cs) : IsElement 0 cs ∧ depth cs = 0 := by
  induction n using children_induction generalizing path i cs with
  | node n ih =>
    have hname := h.isIdentifier
    cases hw with
    | entity hk hb hbody =>
      rcases h with h | ⟨type, -, -, -, -, hprops, -⟩
      · simp [h.kind, Kind.isEntityLike] at hk
      · refine isElement_named hname hb rfl rfl (hbody.level fun p hp x hx => ?_)
        exact hx.level (hprops p hp).spells
    | operation hk hb hbody =>
      rcases h with h | h
      · refine isElement_named hname hb rfl rfl (hbody.level fun c hc x hx => ?_)
        obtain ⟨j, hj⟩ := List.mem_iff_getElem?.1 hc
        obtain ⟨helement, hdepth⟩ := ih c hc (h.slot hj) hx
        exact helement.level hdepth
      · exact absurd hk h.kind_ne_operation

end Node
end ProblemScript
