import ProblemScript.Proofs.Path.Ancestry
import ProblemScript.Proofs.Tree.Change

/-! Edits are local, and independent ones may be made in either order. A change leaves the nodes
above its position and beside it as they are; of those below, a name leaves all and an item all but
itself. Two paths that are not a property and one of its items lead to positions where neither
change is in the way of the other. -/
namespace ProblemScript

/-- The path `q` names an item of the property `p`. -/
def Path.IsItemOf (q p : Path) : Prop :=
  ∃ owner key j, p = .property owner key ∧ q = .item owner key j

namespace Change

/-- The change leaves what it finds at a position below the changed node. -/
def SparesBelow : Change → List Nat → Prop
  | name _, rest => rest ≠ []
  | items _, _ => False
  | item j _, rest => rest ≠ [] ∧ rest ≠ [j]

theorem SparesBelow.descend?_apply {change : Change} {rest : List Nat}
    (h : change.SparesBelow rest) (n : Node) :
    (change.apply n).descend? rest = n.descend? rest := by
  cases change with
  | name s =>
    cases rest with
    | nil => exact absurd rfl h
    | cons k rest => rfl
  | items xs => exact h.elim
  | item j s =>
    cases rest with
    | nil => exact absurd rfl h.1
    | cons k rest => rw [descend?_apply_item, if_neg h.2]

theorem SparesBelow.descend?_modifyAt {change : Change} {rest : List Nat}
    (h : change.SparesBelow rest) (is : List Nat) (T : Node) :
    (Node.modifyAt change.apply is T).descend? (is ++ rest) = T.descend? (is ++ rest) := by
  rw [Node.descend?_modifyAt_append, Node.descend?_append]
  congr 1
  exact funext h.descend?_apply

/-- The change at the position `is` leaves what it finds at the position `js`. -/
structure Spares (change : Change) (is js : List Nat) : Prop where
  above : ¬js <+: is
  below : ∀ rest, js = is ++ rest → change.SparesBelow rest

namespace Spares
variable {change : Change} {is js : List Nat} {T : Node}

theorem descend?_modifyAt (h : change.Spares is js) (T : Node) :
    (Node.modifyAt change.apply is T).descend? js = T.descend? js := by
  by_cases hp : is <+: js
  · obtain ⟨rest, rfl⟩ := hp
    exact (h.below rest rfl).descend?_modifyAt is T
  · exact Node.descend?_modifyAt_of_apart _ hp h.above T

/-- A path leads to a spared position, and to the same node there, before and after the change. -/
theorem leads_modifyAt_iff (h : change.Spares is js) {q : Path} {n : Node} :
    (Node.modifyAt change.apply is T).Leads q js n ↔ T.Leads q js n := by
  have hitems : ∀ xs, change = .items xs → is <+: js → is = js := by
    rintro xs rfl ⟨rest, hrest⟩
    exact (h.below rest hrest.symm).elim
  have hsame := h.descend?_modifyAt T
  constructor
  · intro hn
    obtain ⟨n', hn'⟩ := (Node.leads_modifyAt_iff hitems).1 ⟨n, hn⟩
    rw [← hn'.node_eq (hsame.symm.trans hn.descend?_eq)]
    exact hn'
  · intro hn
    obtain ⟨n', hn'⟩ := (Node.leads_modifyAt_iff hitems).2 ⟨n, hn⟩
    rw [← hn'.node_eq (hsame.trans hn.descend?_eq)]
    exact hn'

end Spares

theorem target_mem (p : Path) : target p ∈ p :: p.ancestors := by
  cases p <;> simp [target, Path.ancestors]

/-- A change at `p` spares the nodes under all paths other than `p`, its ancestors and its items. -/
theorem IsMade.spares {T m n : Node} {value : String} {p q : Path} {change : Change}
    {is js : List Nat} (hmade : IsMade value p change) (hm : T.Leads (target p) is m)
    (hn : T.Leads q js n) (hne : q ≠ p) (hancestor : q ∉ p.ancestors) (hitem : ¬q.IsItemOf p) :
    change.Spares is js := by
  have htarget : q ≠ target p := by
    rintro rfl
    exact (List.mem_cons.1 (target_mem p)).elim hne hancestor
  have hrest : ∀ rest, js = is ++ rest → rest ≠ [] := by
    rintro rest rfl rfl
    rw [List.append_nil] at hn
    exact htarget (hn.path_unique hm)
  constructor
  · rintro ⟨rest, rfl⟩
    by_cases hnil : rest = []
    · exact hrest [] (by simp [hnil]) rfl
    · have habove := hn.mem_ancestors hm hnil
      rcases List.mem_cons.1 (target_mem p) with heq | hmem
      · exact hancestor (heq ▸ habove)
      · exact hancestor (Path.ancestors_subset hmem habove)
  · rintro rest rfl
    have hnil := hrest rest rfl
    cases hmade with
    | name => exact hnil
    | items =>
      obtain ⟨j, rfl⟩ := hm.eq_item_of_below hn hnil
      exact hitem ⟨_, _, j, rfl, rfl⟩
    | @item owner key x j =>
      refine ⟨hnil, ?_⟩
      rintro rfl
      obtain ⟨p', m', hp', hc, -⟩ := hn.exists_hop
      obtain rfl := hm.node_unique hp'
      exact hne (hn.path_unique (Node.leads_item_iff.2 ⟨is, m, rfl, hm, hc⟩))

/-- Neither of two changes is in the way of the other: their positions are apart, or the upper one
is a name, or they set different items of one list. -/
inductive Independent : Change → List Nat → Change → List Nat → Prop
  | apart {c c' : Change} {is js : List Nat} : ¬is <+: js → ¬js <+: is → Independent c is c' js
  | above {c' : Change} {is : List Nat} (s : String) (k : Nat) (rest : List Nat) :
    Independent (.name s) is c' (is ++ k :: rest)
  | below {c : Change} {is : List Nat} (s : String) (k : Nat) (rest : List Nat) :
    Independent c (is ++ k :: rest) (.name s) is
  | items {x x' : String} {j j' : Nat} {is : List Nat} : j ≠ j' →
    Independent (.item j x) is (.item j' x') is

theorem Independent.symm {c c' : Change} {is js : List Nat} (h : Independent c is c' js) :
    Independent c' js c is := by
  cases h with
  | apart h h' => exact .apart h' h
  | above s k rest => exact .below s k rest
  | below s k rest => exact .above s k rest
  | items h => exact .items h.symm

section Pair
variable {T m n : Node} {value value' : String} {p q : Path} {c c' : Change} {is js : List Nat}

/-- Changes are independent if the first stands above the second, or at the same position. -/
theorem IsMade.independent_of_upper (hc : IsMade value p c) (hc' : IsMade value' q c')
    (hm : T.Leads (target p) is m) (hn : T.Leads (target q) js n) (hne : p ≠ q)
    (hitem : ¬q.IsItemOf p) (hitem' : ¬p.IsItemOf q) (hp : is <+: js) :
    Independent c is c' js := by
  obtain ⟨_ | ⟨k, rest⟩, rfl⟩ := hp
  · -- The changes are made to the same node.
    rw [List.append_nil] at hn ⊢
    have htarget := hm.path_unique hn
    cases hc with
    | name hlast =>
      rw [target_of_isProperty_eq_false hlast] at htarget
      cases hc' with
      | name hlast' =>
        rw [target_of_isProperty_eq_false hlast'] at htarget
        exact absurd htarget hne
      | items | item => simp [htarget, target, Path.last, Step.isProperty] at hlast
    | items =>
      cases hc' with
      | name hlast' =>
        rw [target_of_isProperty_eq_false hlast'] at htarget
        simp [← htarget, target, Path.last, Step.isProperty] at hlast'
      | items => exact absurd htarget hne
      | item => exact absurd ⟨_, _, _, htarget, rfl⟩ hitem
    | item =>
      cases hc' with
      | name hlast' =>
        rw [target_of_isProperty_eq_false hlast'] at htarget
        simp [← htarget, target, Path.last, Step.isProperty] at hlast'
      | items => exact absurd ⟨_, _, _, htarget.symm, rfl⟩ hitem'
      | item =>
        obtain ⟨rfl, rfl⟩ := Path.property.inj htarget
        apply Independent.items
        rintro rfl
        exact hne rfl
  · cases hc with
    | name => exact .above _ k rest
    | items | item =>
      -- Below a property there are only items, and an item is no target.
      obtain ⟨j, hj⟩ := hm.eq_item_of_below hn (by simp)
      exact absurd hj (target_ne_item q _ _ _)

/-- Changes at two paths that are not a property and one of its items are independent. -/
theorem IsMade.independent (hc : IsMade value p c) (hc' : IsMade value' q c')
    (hm : T.Leads (target p) is m) (hn : T.Leads (target q) js n) (hne : p ≠ q)
    (hitem : ¬q.IsItemOf p) (hitem' : ¬p.IsItemOf q) : Independent c is c' js := by
  by_cases hp : is <+: js
  · exact hc.independent_of_upper hc' hm hn hne hitem hitem' hp
  · by_cases hp' : js <+: is
    · exact (hc'.independent_of_upper hc hn hm hne.symm hitem' hitem hp').symm
    · exact .apart hp hp'

/-- A change still applies after another one that is not in its way. -/
theorem Independent.exists_leads (h : Independent c is c' js) (hn : T.Leads q js n)
    (happlies : c'.Applies n) :
    ∃ n', (Node.modifyAt c.apply is T).Leads q js n' ∧ c'.Applies n' := by
  cases h with
  | apart hp hp' =>
    have hspares : c.Spares is js := ⟨hp', fun rest hrest => absurd ⟨rest, hrest.symm⟩ hp⟩
    exact ⟨n, hspares.leads_modifyAt_iff.2 hn, happlies⟩
  | above s k rest =>
    have hspares : (name s).Spares is (is ++ k :: rest) := by
      constructor
      · intro hp
        have hlen : is.length + (rest.length + 1) ≤ is.length := by simpa using hp.length_le
        omega
      · intro rest' hrest'
        simp [SparesBelow, ← List.append_cancel_left hrest']
    exact ⟨n, hspares.leads_modifyAt_iff.2 hn, happlies⟩
  | below s k rest =>
    have hitems : ∀ xs, c = .items xs → js ++ k :: rest <+: js → js ++ k :: rest = js := by
      intro xs _ hp
      exact hp.eq_of_length_le (by simp)
    obtain ⟨n', hn'⟩ := (Node.leads_modifyAt_iff hitems).2 ⟨n, hn⟩
    have hnode := Node.descend?_modifyAt_of_append c.apply js (k :: rest) T
    rw [hn.descend?_eq, Option.map_some] at hnode
    obtain rfl := hn'.node_eq hnode
    exact ⟨_, hn', by simpa [Applies, Node.isPlaceholder, Node.modifyAt_cons] using happlies⟩
  | items hne => exact ⟨_, hn.modifyAt _, by simpa [Applies, apply] using happlies⟩

/-- Independent changes may be made in either order. -/
theorem Independent.modifyAt_comm (h : Independent c is c' js) (hm : T.Leads p is m)
    (hn : T.Leads q js n) :
    Node.modifyAt c'.apply js (Node.modifyAt c.apply is T) =
      Node.modifyAt c.apply is (Node.modifyAt c'.apply js T) := by
  cases h with
  | apart hp hp' => exact Node.modifyAt_comm_of_apart _ _ hp hp' T
  | above s k rest => exact Node.modifyAt_comm_of_append _ _ hm.descend?_eq rfl
  | below s k rest =>
    have hcomm : Node.modifyAt c.apply (js ++ k :: rest) (Node.modifyAt (name s).apply js T) = _ :=
      Node.modifyAt_comm_of_append _ _ hn.descend?_eq rfl
    exact hcomm.symm
  | items hne =>
    rw [Node.modifyAt_modifyAt, Node.modifyAt_modifyAt]
    apply Node.modifyAt_congr hm.descend?_eq
    simp [apply, List.modify_modify_ne _ _ _ hne]

end Pair
end Change

namespace Node

/-- What an edit at the path `p`, which leads to the position `pos`, leaves as it was. The target
keeps its path and range, and its kind unless an entity becomes a container or the other way round;
the property around an item keeps all but its value; and the other nodes keep what is their own, but
for the items of a property that is set as a whole. -/
structure ChangesOnly (p : Path) (pos : List Nat) (T T' : Node) : Prop where
  target : ∃ n n', T.descend? pos = some n ∧ T'.descend? pos = some n' ∧ n'.path = n.path ∧
    n'.span = n.span ∧
    (n'.kind = n.kind ∨ n.kind.isEntityLike = true ∧ n'.kind.isEntityLike = true)
  owner : ∀ owner key j, p = .item owner key j →
    ∃ m m', T.descend? pos.dropLast = some m ∧ T'.descend? pos.dropLast = some m' ∧
      m'.bare = { m.bare with value := m'.value }
  elsewhere : ∀ js, js ≠ pos → (∀ owner key, p = .property owner key → ¬pos <+: js) →
    (∀ owner key j, p = .item owner key j → js ≠ pos.dropLast) → T'.bareAt? js = T.bareAt? js

/-- A change leaves what is a node's own at every position above, beside and, where it spares them,
below it. -/
theorem bareAt?_modifyAt_apply {change : Change} {is js : List Nat} (T : Node)
    (h : ∀ rest, js = is ++ rest → change.SparesBelow rest) :
    (modifyAt change.apply is T).bareAt? js = T.bareAt? js := by
  by_cases hp : is <+: js
  · obtain ⟨rest, rfl⟩ := hp
    rw [bareAt?, (h rest rfl).descend?_modifyAt is T, bareAt?]
  · exact bareAt?_modifyAt T hp

theorem changesOnly_modifyAt {T m : Node} {value : String} {p : Path} {change : Change}
    {is : List Nat} (hmade : change.IsMade value p) (hm : T.Leads (Change.target p) is m)
    (happlies : change.Applies m) :
    ∃ pos, T.locate? p = some pos ∧ ChangesOnly p pos T (modifyAt change.apply is T) := by
  have hm' := hm.modifyAt change
  cases hmade with
  | @name p hlast _ =>
    rw [Change.target_of_isProperty_eq_false hlast] at hm hm'
    refine ⟨is, hm.locate?_eq, ⟨m, _, hm.descend?_eq, hm'.descend?_eq, rfl, rfl, ?_⟩, ?_, ?_⟩
    · cases hkind : m.kind.isEntityLike with
      | false => exact .inl (by simp [Change.apply, hkind])
      | true => exact .inr ⟨rfl, by simp [Change.apply, hkind]⟩
    · rintro owner key j rfl
      simp [Path.last, Step.isProperty] at hlast
    · intro js hjs _ _
      apply bareAt?_modifyAt_apply
      rintro rest rfl rfl
      exact hjs (List.append_nil is)
  | items _ =>
    refine ⟨is, hm.locate?_eq, ⟨m, _, hm.descend?_eq, hm'.descend?_eq, rfl, rfl, .inl rfl⟩, ?_, ?_⟩
    · simp
    · intro js _ hbelow _
      apply bareAt?_modifyAt_apply
      rintro rest rfl
      exact hbelow _ _ rfl (is.prefix_append rest)
  | @item owner key x j _ _ =>
    obtain ⟨c, hc⟩ : ∃ c, m.children[j]? = some c := ⟨_, List.getElem?_eq_getElem happlies⟩
    have hc' : ((Change.item j x).apply m).children[j]? = some { c with value := some x } := by
      simp [Change.apply, hc]
    have hlead := leads_item_iff.2 ⟨is, m, rfl, hm, hc⟩
    have hlead' := leads_item_iff.2 ⟨is, _, rfl, hm', hc'⟩
    refine ⟨is ++ [j], hlead.locate?_eq,
      ⟨c, _, hlead.descend?_eq, hlead'.descend?_eq, rfl, rfl, .inl rfl⟩, ?_, ?_⟩
    · intro _ _ _ _
      rw [List.dropLast_concat]
      exact ⟨m, _, hm.descend?_eq, hm'.descend?_eq, rfl⟩
    · intro js hjs _ howner
      have hjs' := howner owner key j rfl
      rw [List.dropLast_concat] at hjs'
      apply bareAt?_modifyAt_apply
      rintro rest rfl
      constructor
      · rintro rfl
        exact hjs' (List.append_nil is)
      · rintro rfl
        exact hjs rfl

/-- A path finds the same before and after an edit, if it is neither that of the edit, nor one of
its ancestors, nor one of its items. -/
theorem find?_modifyAt {T m : Node} {value : String} {p q : Path} {change : Change} {is : List Nat}
    (hmade : change.IsMade value p) (hm : T.Leads (Change.target p) is m)
    (hq : Path.WellFormed q.steps) (hne : q ≠ p) (hancestor : q ∉ p.ancestors)
    (hitem : ¬q.IsItemOf p) : (modifyAt change.apply is T).find? q = T.find? q := by
  have hm' := hm.modifyAt change
  apply Option.ext
  intro n
  rw [find?_eq_some_iff hq, find?_eq_some_iff hq]
  constructor
  · rintro ⟨js, hn⟩
    have hspares := hmade.spares hm' hn hne hancestor hitem
    exact ⟨js, hspares.leads_modifyAt_iff.1 hn⟩
  · rintro ⟨js, hn⟩
    have hspares := hmade.spares hm hn hne hancestor hitem
    exact ⟨js, hspares.leads_modifyAt_iff.2 hn⟩

/-- Edits are local, and edits at two paths that are not a property and one of its items may be made
in either order. -/
theorem setValue_local :
    (∀ (T T' : Node) (path value : String), T.setValue path value = .ok T' →
      ∃ p pos, Path.parse path = .ok p ∧ T.locate? p = some pos ∧ ChangesOnly p pos T T' ∧
        ∀ path', path' ≠ path →
          (∀ q, Path.parse path' = .ok q → q.isAncestorOf p = false ∧ ¬q.IsItemOf p) →
          T'.findText? path' = T.findText? path') ∧
      ∀ (T T₁ T₂ : Node) (path₁ path₂ value₁ value₂ : String) (p₁ p₂ : Path),
        Path.parse path₁ = .ok p₁ → Path.parse path₂ = .ok p₂ → path₁ ≠ path₂ →
        ¬p₁.IsItemOf p₂ → ¬p₂.IsItemOf p₁ →
        T.setValue path₁ value₁ = .ok T₁ → T.setValue path₂ value₂ = .ok T₂ →
        ∃ T', T₁.setValue path₂ value₂ = .ok T' ∧ T₂.setValue path₁ value₁ = .ok T' := by
  have hdistinct : ∀ {s s' : String} {p p' : Path}, Path.parse s = .ok p → Path.parse s' = .ok p' →
      s ≠ s' → p ≠ p' := by
    rintro s s' p p' hp hp' hne rfl
    apply hne
    rw [← (Path.parse_eq_ok_iff.1 hp).2, (Path.parse_eq_ok_iff.1 hp').2]
  constructor
  · intro T T' path value h
    obtain ⟨p, change, is, m, hp, hmade, hm, happlies, rfl⟩ := setValue_eq_ok_iff.1 h
    obtain ⟨pos, hpos, hchanges⟩ := changesOnly_modifyAt hmade hm happlies
    refine ⟨p, pos, hp, hpos, hchanges, ?_⟩
    intro path' hne hapart
    unfold findText?
    cases hq : Path.parse path' with
    | error cause => rfl
    | ok q =>
      obtain ⟨hancestor, hitem⟩ := hapart q hq
      have hformed := (Path.parse_eq_ok_iff.1 hq).1
      have hmem : q ∉ p.ancestors := by
        intro hmem
        simp [Path.isAncestorOf, hmem] at hancestor
      exact find?_modifyAt hmade hm hformed (hdistinct hq hp hne) hmem hitem
  · intro T T₁ T₂ path₁ path₂ value₁ value₂ p₁ p₂ hp₁ hp₂ hne hitem₁ hitem₂ h₁ h₂
    obtain ⟨p, c₁, is, m, hp, hmade₁, hm, happlies₁, rfl⟩ := setValue_eq_ok_iff.1 h₁
    obtain ⟨q, c₂, js, n, hq, hmade₂, hn, happlies₂, rfl⟩ := setValue_eq_ok_iff.1 h₂
    obtain rfl : p₁ = p := by simpa [hp₁] using hp
    obtain rfl : p₂ = q := by simpa [hp₂] using hq
    have hindependent :=
      hmade₁.independent hmade₂ hm hn (hdistinct hp₁ hp₂ hne) hitem₂ hitem₁
    obtain ⟨n', hn', happlies₂'⟩ := hindependent.exists_leads hn happlies₂
    obtain ⟨m', hm', happlies₁'⟩ := hindependent.symm.exists_leads hm happlies₁
    refine ⟨_, setValue_eq_ok_iff.2 ⟨p₂, c₂, js, n', hp₂, hmade₂, hn', happlies₂', rfl⟩, ?_⟩
    apply setValue_eq_ok_iff.2
    exact ⟨p₁, c₁, is, m', hp₁, hmade₁, hm', happlies₁', hindependent.modifyAt_comm hm hn⟩

/-- Two items of one list are set: both edits write the value of the list, and neither is seen at
the other item. -/
theorem setValue_local_items :
    let T := ofScript "f(e[k: a, b], g(h[m: 1]))"
    let path₁ := "operation/entities[0]/k[0]"
    let path₂ := "operation/entities[0]/k[1]"
    let T₁ := (T.setValue path₁ "x").toOption.getD default
    let T₂ := (T.setValue path₂ "y").toOption.getD default
    T.setValue path₁ "x" = .ok T₁ ∧ T.setValue path₂ "y" = .ok T₂ ∧
      (T₁.findText? path₂ = T.findText? path₂ ∧ (T₁.findText? path₂).isSome = true) ∧
      ∃ T', T₁.setValue path₂ "y" = .ok T' ∧ T₂.setValue path₁ "x" = .ok T' := by
  intro T path₁ path₂ T₁ T₂
  have h₁ : T.setValue path₁ "x" = .ok T₁ := by decide +kernel
  have h₂ : T.setValue path₂ "y" = .ok T₂ := by decide +kernel
  have hp₁ : Path.parse path₁ = .ok ((Path.root.entity 0).item "k" 0) := by decide +kernel
  have hp₂ : Path.parse path₂ = .ok ((Path.root.entity 0).item "k" 1) := by decide +kernel
  have hitem : ∀ q owner key j, ¬Path.IsItemOf q (.item owner key j) := by
    rintro q owner key j ⟨owner', key', j', hproperty, -⟩
    simp at hproperty
  obtain ⟨hlocal, hcomm⟩ := setValue_local
  obtain ⟨p, pos, hp, -, -, hsame⟩ := hlocal T T₁ path₁ "x" h₁
  obtain rfl : p = (Path.root.entity 0).item "k" 0 := by simpa [hp₁] using hp.symm
  refine ⟨h₁, h₂, ⟨hsame path₂ (by decide) ?_, by decide +kernel⟩, ?_⟩
  · intro q hq
    obtain rfl : q = (Path.root.entity 0).item "k" 1 := by simpa [hp₂] using hq.symm
    exact ⟨by decide, hitem _ _ _ _⟩
  · exact hcomm T T₁ T₂ path₁ path₂ "x" "y" _ _ hp₁ hp₂ (by decide) (hitem _ _ _ _)
      (hitem _ _ _ _) h₁ h₂

end Node
end ProblemScript
