import Mathlib.Data.List.Infix
import ProblemScript.Tree.Lookup

/-! Positions in a tree: the numbers of the children on the way from the root. A change at one
position leaves alone what stands apart from it, and reaches what stands above it only through the
children. -/
namespace ProblemScript.Node

@[simp] theorem descend?_nil (n : Node) : n.descend? [] = some n := rfl

@[simp] theorem descend?_cons (n : Node) (i : Nat) (is : List Nat) :
    n.descend? (i :: is) = n.children[i]?.bind (·.descend? is) := rfl

theorem descend?_append (n : Node) (is js : List Nat) :
    n.descend? (is ++ js) = (n.descend? is).bind (·.descend? js) := by
  induction is generalizing n with
  | nil => rfl
  | cons i is ih =>
    cases h : n.children[i]? with
    | none => simp [h]
    | some c => simpa [h] using ih c

theorem descend?_concat {T n : Node} {is : List Nat} (h : T.descend? is = some n) (k : Nat) :
    T.descend? (is ++ [k]) = n.children[k]? := by
  simp [descend?_append, h]

section ModifyAt
variable (f g : Node → Node)

@[simp] theorem modifyAt_nil (n : Node) : modifyAt f [] n = f n := rfl

theorem modifyAt_cons (i : Nat) (is : List Nat) (n : Node) :
    modifyAt f (i :: is) n = { n with children := n.children.modify i (modifyAt f is) } := rfl

theorem modifyAt_append (is js : List Nat) (n : Node) :
    modifyAt f (is ++ js) n = modifyAt (modifyAt f js) is n := by
  induction is generalizing n with
  | nil => rfl
  | cons i is ih =>
    have hrest : modifyAt f (is ++ js) = modifyAt (modifyAt f js) is := funext ih
    simp only [List.cons_append, modifyAt_cons, hrest]

/-- At the changed position stands the changed node. -/
theorem descend?_modifyAt (is : List Nat) (n : Node) :
    (modifyAt f is n).descend? is = (n.descend? is).map f := by
  induction is generalizing n with
  | nil => rfl
  | cons i is ih =>
    cases h : n.children[i]? with
    | none => simp [modifyAt_cons, h]
    | some c => simpa [modifyAt_cons, h] using ih c

/-- Below the changed position stands what lies below the changed node. -/
theorem descend?_modifyAt_append (is js : List Nat) (n : Node) :
    (modifyAt f is n).descend? (is ++ js) = (n.descend? is).bind fun m => (f m).descend? js := by
  rw [descend?_append, descend?_modifyAt, Option.bind_map]
  rfl

/-- Above the changed position stands the node with its part of the change. -/
theorem descend?_modifyAt_of_append (is js : List Nat) (n : Node) :
    (modifyAt f (is ++ js) n).descend? is = (n.descend? is).map (modifyAt f js) := by
  rw [modifyAt_append, descend?_modifyAt]

/-- Apart from the changed position nothing changes. -/
theorem descend?_modifyAt_of_apart {is js : List Nat} (h : ¬is <+: js) (h' : ¬js <+: is)
    (n : Node) : (modifyAt f is n).descend? js = n.descend? js := by
  induction is generalizing js n with
  | nil => exact absurd List.nil_prefix h
  | cons i is ih =>
    cases js with
    | nil => exact absurd List.nil_prefix h'
    | cons j js =>
      by_cases hij : i = j
      · subst hij
        cases hc : n.children[i]? with
        | none => simp [modifyAt_cons, hc]
        | some c =>
          have hrest := ih (fun hp => h (List.cons_prefix_cons.2 ⟨rfl, hp⟩))
            (fun hp => h' (List.cons_prefix_cons.2 ⟨rfl, hp⟩)) c
          simpa [modifyAt_cons, hc] using hrest
      · simp [modifyAt_cons, hij]

/-- Of a change only what it does to the node at the position counts. -/
theorem modifyAt_congr {f g : Node → Node} {is : List Nat} {n m : Node}
    (h : n.descend? is = some m) (hfg : f m = g m) : modifyAt f is n = modifyAt g is n := by
  induction is generalizing n with
  | nil =>
    obtain rfl : n = m := by simpa using h
    exact hfg
  | cons i is ih =>
    obtain ⟨c, hc, hm⟩ := Option.bind_eq_some_iff.1 h
    have hchildren : n.children.modify i (modifyAt f is) = n.children.modify i (modifyAt g is) := by
      apply List.ext_getElem?
      intro k
      by_cases hik : i = k
      · subst hik
        simp [hc, ih hm]
      · simp [hik]
    simp only [modifyAt_cons, hchildren]

theorem modifyAt_id (is : List Nat) (n : Node) : modifyAt id is n = n := by
  induction is generalizing n with
  | nil => rfl
  | cons i is ih =>
    have hrest : modifyAt id is = id := funext ih
    cases n
    simp [modifyAt_cons, hrest]

theorem modifyAt_modifyAt (is : List Nat) (n : Node) :
    modifyAt g is (modifyAt f is n) = modifyAt (g ∘ f) is n := by
  induction is generalizing n with
  | nil => rfl
  | cons i is ih =>
    have hrest : modifyAt g is ∘ modifyAt f is = modifyAt (g ∘ f) is := funext ih
    simp [modifyAt_cons, List.modify_modify_eq, hrest]

/-- Changes at positions apart from each other may be made in either order. -/
theorem modifyAt_comm_of_apart {is js : List Nat} (h : ¬is <+: js) (h' : ¬js <+: is) (n : Node) :
    modifyAt g js (modifyAt f is n) = modifyAt f is (modifyAt g js n) := by
  induction is generalizing js n with
  | nil => exact absurd List.nil_prefix h
  | cons i is ih =>
    cases js with
    | nil => exact absurd List.nil_prefix h'
    | cons j js =>
      by_cases hij : i = j
      · subst hij
        have hrest : modifyAt g js ∘ modifyAt f is = modifyAt f is ∘ modifyAt g js :=
          funext fun c => ih (fun hp => h (List.cons_prefix_cons.2 ⟨rfl, hp⟩))
            (fun hp => h' (List.cons_prefix_cons.2 ⟨rfl, hp⟩)) c
        simp [modifyAt_cons, List.modify_modify_eq, hrest]
      · simp [modifyAt_cons, List.modify_modify_ne _ _ _ hij]

/-- A change and one at a position below it may be made in either order if the node at the upper
position does not tell. -/
theorem modifyAt_comm_of_append {is js : List Nat} {n m : Node} (h : n.descend? is = some m)
    (hfg : f (modifyAt g js m) = modifyAt g js (f m)) :
    modifyAt g (is ++ js) (modifyAt f is n) = modifyAt f is (modifyAt g (is ++ js) n) := by
  simp only [modifyAt_append, modifyAt_modifyAt]
  exact modifyAt_congr h hfg.symm

end ModifyAt
end ProblemScript.Node
