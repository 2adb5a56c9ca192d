import ProblemScript.Proofs.Tree.Role
import ProblemScript.Tree.Edit

/-! What an edit does to a tree. An admissible value makes a change of one of three sorts, and the
edit makes it at the position to which the path leads. No change is seen in the roles of nodes, but
for new items, so that paths lead where they have led before. -/
namespace ProblemScript
open Text

namespace Change

/-- The change that a value makes at a path where it is admissible. -/
inductive IsMade (value : String) : Path → Change → Prop
  | name {p : Path} : p.last.isProperty = false → isIdentifier (trimmed value).toList = true →
    IsMade value p (.name (trimmed value))
  | items {owner : Path} {key : String} : (Value.items value.toList).all Value.isPlain = true →
    IsMade value (owner.property key) (.items (Value.items value.toList))
  | item {owner : Path} {key x : String} {j : Nat} : Value.items value.toList = [x] →
    Value.isPlain x = true → IsMade value (owner.item key j) (.item j x)

theorem ofValue?_eq_some_iff {p : Path} {value : String} {change : Change} :
    ofValue? p value = some change ↔ IsMade value p change := by
  constructor
  · intro h
    have hname : p.last.isProperty = false → isIdentifier (trimmed value).toList = true ∧
        Change.name (trimmed value) = change → IsMade value p change := by
      rintro hlast ⟨hvalue, rfl⟩
      exact .name hlast hvalue
    cases p with
    | root | entity | operation => exact hname rfl (by simpa [ofValue?, Path.last] using h)
    | property owner key =>
      obtain ⟨hplain, rfl⟩ : (Value.items value.toList).all Value.isPlain = true ∧
          Change.items (Value.items value.toList) = change := by
        simpa [ofValue?, Path.last] using h
      exact .items hplain
    | item owner key j =>
      simp only [ofValue?, Path.last] at h
      split at h
      · rename_i x hx
        obtain ⟨hplain, rfl⟩ : Value.isPlain x = true ∧ Change.item j x = change := by
          simpa using h
        exact .item hx hplain
      · simp at h
  · intro h
    cases h with
    | @name p hlast hvalue =>
      cases p with
      | root | entity | operation => simp [ofValue?, Path.last, hvalue]
      | property | item => simp [Path.last, Step.isProperty] at hlast
    | items hplain => simp only [ofValue?, Path.last, hplain, if_true]
    | item hx hplain => simp [ofValue?, Path.last, hx, hplain]

theorem target_of_isProperty_eq_false {p : Path} (h : p.last.isProperty = false) :
    target p = p := by
  cases p with
  | item => simp [Path.last, Step.isProperty] at h
  | root | entity | operation | property => rfl

theorem target_ne_item (p owner : Path) (key : String) (j : Nat) :
    target p ≠ .item owner key j := by
  cases p <;> simp [target]

/-- The change can be made to the node. -/
def Applies : Change → Node → Prop
  | name _, n => n.isPlaceholder = false
  | items _, _ => True
  | item j _, n => j < n.children.length

theorem role_apply (change : Change) (n : Node) : (change.apply n).role = n.role := by
  cases change with
  | name s =>
    have hof : Kind.ofType s = .container ∨ Kind.ofType s = .entity := ite_eq_or_eq _ _ _
    cases hkind : n.kind with
    | operation | property => simp [apply, Node.role, Node.key?, hkind, Kind.isEntityLike]
    | entity | container =>
      rcases hof with hof | hof <;>
        simp [apply, Node.role, Node.key?, hkind, hof, Kind.isEntityLike]
  | items xs => rfl
  | item j s => rfl

/-- Below a node with a new item stands what stood there before, but for the value of the item. -/
theorem descend?_apply_item (j : Nat) (s : String) (n : Node) (k : Nat) (rest : List Nat) :
    ((item j s).apply n).descend? (k :: rest) =
      if k :: rest = [j] then n.children[j]?.map fun c => { c with value := some s }
      else n.descend? (k :: rest) := by
  simp only [apply, Node.descend?_cons, List.getElem?_modify]
  by_cases hjk : j = k
  · subst hjk
    cases n.children[j]? with
    | none => simp
    | some c => cases rest <;> simp
  · simp [hjk, Ne.symm hjk]

/-- Only new items are seen in the roles below a node. -/
theorem roleAt?_apply_cons {change : Change} (h : ∀ xs, change ≠ .items xs) (n : Node) (k : Nat)
    (rest : List Nat) : (change.apply n).roleAt? (k :: rest) = n.roleAt? (k :: rest) := by
  cases change with
  | name s => rfl
  | items xs => exact absurd rfl (h xs)
  | item j s =>
    rw [Node.roleAt?, descend?_apply_item]
    split
    · rename_i hpos
      rw [hpos, Node.roleAt?, Node.descend?_cons, Option.map_map]
      cases n.children[j]? <;> rfl
    · rfl

end Change

namespace Node
variable {T T' : Node} {change : Change} {is js : List Nat}

/-- A change is seen in the roles of the nodes below it only if it sets new items. -/
theorem roleAt?_modifyAt_apply (T : Node)
    (h : ∀ xs, change = .items xs → is <+: js → is = js) :
    (modifyAt change.apply is T).roleAt? js = T.roleAt? js := by
  by_cases hitems : ∃ xs, change = .items xs
  · obtain ⟨xs, hxs⟩ := hitems
    exact roleAt?_modifyAt change.role_apply T (h xs hxs)
  · by_cases hp : is <+: js
    · obtain ⟨_ | ⟨k, rest⟩, rfl⟩ := hp
      · exact roleAt?_modifyAt change.role_apply T (by simp)
      · rw [roleAt?, roleAt?, descend?_modifyAt_append, descend?_append]
        cases T.descend? is with
        | none => rfl
        | some m =>
          exact Change.roleAt?_apply_cons (fun xs hxs => hitems ⟨xs, hxs⟩) m k rest
    · exact roleAt?_modifyAt change.role_apply T fun hp' => absurd hp' hp

/-- A path leads to the same position before and after a change, unless it has led to an item below
new items. -/
theorem leads_modifyAt_iff {q : Path} (h : ∀ xs, change = .items xs → is <+: js → is = js) :
    (∃ n, (modifyAt change.apply is T).Leads q js n) ↔ ∃ n, T.Leads q js n := by
  have hroot : (modifyAt change.apply is T).role = T.role := by
    have hnil : (modifyAt change.apply is T).roleAt? [] = T.roleAt? [] :=
      roleAt?_modifyAt_apply T (by simp)
    simpa [roleAt?] using hnil
  have hroles : ∀ as k, as ++ [k] <+: js → ∀ i,
      (modifyAt change.apply is T).roleAt? (as ++ [i]) = T.roleAt? (as ++ [i]) := by
    intro as k has i
    apply roleAt?_modifyAt_apply
    intro xs hxs hp
    rcases List.prefix_concat_iff.1 hp with heq | hp
    · exact heq
    · have hjs := h xs hxs ((hp.trans (as.prefix_append [k])).trans has)
      have hshort := hp.length_le
      have hlong := has.length_le
      simp only [hjs, List.length_append, List.length_singleton] at hshort hlong
      omega
  constructor
  · rintro ⟨n, hn⟩
    obtain ⟨n', hn', -⟩ := hn.of_roles hroot.symm fun as k has i => (hroles as k has i).symm
    exact ⟨n', hn'⟩
  · rintro ⟨n, hn⟩
    obtain ⟨n', hn', -⟩ := hn.of_roles hroot hroles
    exact ⟨n', hn'⟩

/-- The path of a change leads to the changed node. -/
theorem Leads.modifyAt {p : Path} {m : Node} (h : T.Leads p is m) (change : Change) :
    (modifyAt change.apply is T).Leads p is (change.apply m) := by
  have hitems : ∀ xs, change = .items xs → is <+: is → is = is := by simp
  obtain ⟨n, hn⟩ := (leads_modifyAt_iff hitems).2 ⟨m, h⟩
  have hnode : (Node.modifyAt change.apply is T).descend? is = some (change.apply m) := by
    rw [descend?_modifyAt, h.descend?_eq, Option.map_some]
  rw [← hn.node_eq hnode]
  exact hn

/-- The way to an item goes through its property. -/
theorem leads_item_iff {owner : Path} {key : String} {j : Nat} {n : Node} :
    T.Leads (owner.item key j) js n ↔
      ∃ is m, js = is ++ [j] ∧ T.Leads (owner.property key) is m ∧ m.children[j]? = some n := by
  constructor
  · intro h
    cases h with
    | @hop p q is m c k hp hc hhop =>
      cases hhop with
      | item => exact ⟨is, m, rfl, hp, hc⟩
  · rintro ⟨is, m, rfl, hm, hn⟩
    exact .hop hm hn .item

/-- Behind the change of an item the path of the item leads to what stood there, with its new
value. -/
theorem Leads.modifyAt_item {owner : Path} {key : String} {j : Nat} {m n : Node}
    (h : T.Leads (owner.property key) is m) (hn : m.children[j]? = some n) (x : String) :
    (Node.modifyAt (Change.item j x).apply is T).Leads (owner.item key j) (is ++ [j])
      { n with value := some x } := by
  have hchild : ((Change.item j x).apply m).children[j]? = some { n with value := some x } := by
    simp [Change.apply, hn]
  exact leads_item_iff.2 ⟨is, _, rfl, h.modifyAt (Change.item j x), hchild⟩

/-- Looking for the node and asking whether it takes the change comes to going to the target and
asking whether the change applies there. -/
theorem exists_leads_target_iff {p : Path} {value : String} (hp : Path.WellFormed p.steps)
    (hmade : change.IsMade value p) :
    (∃ n, T.find? p = some n ∧ change.isRefusedBy n = false) ↔
      ∃ is m, T.Leads (Change.target p) is m ∧ change.Applies m := by
  simp only [find?_eq_some_iff hp]
  cases hmade with
  | name hlast _ =>
    rw [Change.target_of_isProperty_eq_false hlast]
    constructor
    · rintro ⟨n, ⟨is, hn⟩, htakes⟩
      exact ⟨is, n, hn, htakes⟩
    · rintro ⟨is, n, hn, htakes⟩
      exact ⟨n, ⟨is, hn⟩, htakes⟩
  | items _ =>
    constructor
    · rintro ⟨n, ⟨is, hn⟩, -⟩
      exact ⟨is, n, hn, trivial⟩
    · rintro ⟨is, n, hn, -⟩
      exact ⟨n, ⟨is, hn⟩, rfl⟩
  | item _ _ =>
    constructor
    · rintro ⟨n, ⟨js, hn⟩, -⟩
      obtain ⟨is, m, -, hm, hc⟩ := leads_item_iff.1 hn
      exact ⟨is, m, hm, (List.getElem?_eq_some_iff.1 hc).1⟩
    · rintro ⟨is, m, hm, hlt⟩
      exact ⟨_, ⟨_, leads_item_iff.2 ⟨is, m, rfl, hm, List.getElem?_eq_getElem hlt⟩⟩, rfl⟩

/-- An edit succeeds if the path can be read, the value is admissible, the path leads somewhere and
the change applies there; it makes the change at that position. -/
theorem setValue_eq_ok_iff {path value : String} :
    T.setValue path value = .ok T' ↔ ∃ p change is m, Path.parse path = .ok p ∧
      Change.IsMade value p change ∧ T.Leads (Change.target p) is m ∧ change.Applies m ∧
        T' = modifyAt change.apply is T := by
  constructor
  · intro h
    unfold setValue at h
    split at h
    · simp at h
    · rename_i p hp
      split at h
      · simp at h
      · rename_i change hchange
        split at h
        · simp at h
        · rename_i n hn
          split at h
          · simp at h
          · rename_i htakes
            have hmade := Change.ofValue?_eq_some_iff.1 hchange
            have hformed := (Path.parse_eq_ok_iff.1 hp).1
            obtain ⟨is, m, hm, happlies⟩ := (exists_leads_target_iff hformed hmade).1
              ⟨n, hn, by simpa using htakes⟩
            rw [modify?, hm.locate?_eq, Option.map_some, Option.getD_some, Except.ok.injEq] at h
            exact ⟨p, change, is, m, hp, hmade, hm, happlies, h.symm⟩
  · rintro ⟨p, change, is, m, hp, hmade, hm, happlies, rfl⟩
    have hformed := (Path.parse_eq_ok_iff.1 hp).1
    obtain ⟨n, hn, htakes⟩ := (exists_leads_target_iff hformed hmade).2 ⟨is, m, hm, happlies⟩
    simp only [setValue, hp, Change.ofValue?_eq_some_iff.2 hmade, hn, htakes, modify?,
      hm.locate?_eq, Option.map_some, Option.getD_some, Bool.false_eq_true, if_false]

theorem setValue_of_ofValue?_eq_none {path value : String} {p : Path}
    (hp : Path.parse path = .ok p) (h : Change.ofValue? p value = none) :
    T.setValue path value = .error (.invalidValue path value) := by
  simp only [setValue, hp, h]

end Node
end ProblemScript
