import ProblemScript.Proofs.Tree.Leads

/-! What a search sees of a tree. A hop asks whether a node holds properties, whether it is an
operation and what its key is, and nothing else; these are its role. Two trees whose nodes have the
same roles along a way, and beside it, cannot be told apart by going that way. -/
namespace ProblemScript.Node
open ProblemScript.Path

/-- What a hop asks of a node. -/
structure Role where
  isEntityLike : Bool
  isOperation : Bool
  key? : Option String

def role (n : Node) : Role := ⟨n.kind.isEntityLike, n.kind == .operation, n.key?⟩

/-- A node without what lies below it. -/
def bare (n : Node) : Node := { n with children := [] }

/-- The node at a position, without what lies below it. -/
def bareAt? (T : Node) (is : List Nat) : Option Node := (T.descend? is).map bare

/-- The role of the node at a position. -/
def roleAt? (T : Node) (is : List Nat) : Option Role := (T.descend? is).map role

theorem roleAt?_eq (T : Node) (is : List Nat) : T.roleAt? is = (T.bareAt? is).map role := by
  rw [roleAt?, bareAt?, Option.map_map]
  rfl

theorem roleAt?_concat {T n : Node} {is : List Nat} (h : T.descend? is = some n) (k : Nat) :
    T.roleAt? (is ++ [k]) = (n.children.map role)[k]? := by
  rw [roleAt?, descend?_concat h, List.getElem?_map]

/-- Properties are found by the roles of the children. -/
theorem propertyIndex?_eq (n : Node) (key : String) :
    n.propertyIndex? key =
      if n.role.isEntityLike then (n.children.map role).findIdx? (·.key? == some key)
      else none := by
  simp only [propertyIndex?, List.findIdx?_map]
  rfl

theorem Hop.of_role {p q : Path} {n c n' c' : Node} {k : Nat} (h : Hop p n k q c)
    (hn : n'.role = n.role) (hchildren : n'.children.map role = n.children.map role)
    (hc : c'.role = c.role) : Hop p n' k q c' := by
  cases h with
  | entity hslots hkind => exact .entity hslots ((congrArg Role.isEntityLike hc).trans hkind)
  | operation hslots hkind =>
    have hsame := congrArg Role.isOperation hc
    simp only [role, hkind, beq_self_eq_true, beq_iff_eq] at hsame
    exact .operation hslots hsame
  | property hkey =>
    apply Hop.property
    rw [propertyIndex?_eq, hn, hchildren, ← propertyIndex?_eq]
    exact hkey
  | item => exact .item

/-- A way is open in every tree with the same roles along the way and beside it. -/
theorem Leads.of_roles {T T' n : Node} {p : Path} {is : List Nat} (h : T.Leads p is n)
    (hroot : T'.role = T.role)
    (hroles : ∀ js k, js ++ [k] <+: is → ∀ i, T'.roleAt? (js ++ [i]) = T.roleAt? (js ++ [i])) :
    ∃ n', T'.Leads p is n' ∧ n'.role = n.role := by
  induction h with
  | root hkind =>
    have hsame := congrArg Role.isOperation hroot
    simp only [role, hkind, beq_self_eq_true, beq_iff_eq] at hsame
    exact ⟨T', .root hsame, hroot⟩
  | @hop p q is n c k hp hc hhop ih =>
    obtain ⟨n', hn', hrole⟩ := ih fun js k' hjs => hroles js k' (hjs.trans (is.prefix_append [k]))
    have hchildren : n'.children.map role = n.children.map role := by
      apply List.ext_getElem?
      intro i
      rw [← roleAt?_concat hn'.descend?_eq, ← roleAt?_concat hp.descend?_eq]
      exact hroles is k (List.prefix_refl _) i
    have hchild : (n'.children.map role)[k]? = some c.role := by
      rw [hchildren, List.getElem?_map, hc]
      rfl
    rw [List.getElem?_map] at hchild
    obtain ⟨c', hc', hrole'⟩ := Option.map_eq_some_iff.1 hchild
    exact ⟨c', .hop hn' hc' (hhop.of_role hrole hchildren hrole'), hrole'⟩

section ModifyAt
variable {f : Node → Node} {is js : List Nat}

/-- A change is not seen in the nodes above it and apart from it. -/
theorem bareAt?_modifyAt (T : Node) (h : ¬is <+: js) :
    (modifyAt f is T).bareAt? js = T.bareAt? js := by
  by_cases h' : js <+: is
  · obtain ⟨rest, rfl⟩ := h'
    rw [bareAt?, bareAt?, descend?_modifyAt_of_append, Option.map_map]
    cases rest with
    | nil => simp at h
    | cons i rest => rfl
  · rw [bareAt?, bareAt?, descend?_modifyAt_of_apart f h h']

/-- A change that keeps roles is not seen in the roles, but for those below it. -/
theorem roleAt?_modifyAt (hf : ∀ m, (f m).role = m.role) (T : Node)
    (h : is <+: js → is = js) : (modifyAt f is T).roleAt? js = T.roleAt? js := by
  by_cases hp : is <+: js
  · rw [← h hp, roleAt?, roleAt?, descend?_modifyAt, Option.map_map]
    congr 1
    exact funext hf
  · rw [roleAt?_eq, roleAt?_eq, bareAt?_modifyAt T hp]

end ModifyAt
end ProblemScript.Node
