import Mathlib.Data.List.Basic
import ProblemScript.Proofs.Tree.Regular
import ProblemScript.Tree.Edit

/-! The shape of a tree: what is left of it when its ranges are forgotten. Look-up, editing and the
outline of a tree do not see more than its shape. -/
namespace ProblemScript
open ProblemScript.Bracket

namespace Node

@[elab_as_elim]
theorem children_induction {P : Node → Prop} (node : ∀ n, (∀ c ∈ n.children, P c) → P n)
    (n : Node) : P n := by
  refine node n fun c hc => ?_
  have hlt : sizeOf c < sizeOf n := by
    have := List.sizeOf_lt_of_mem hc
    cases n
    simp only [Node.mk.sizeOf_spec]
    simp only at this
    omega
  exact children_induction node c
termination_by sizeOf n

mutual

/-- The tree with all its ranges forgotten. -/
def shape : Node → Node
  | ⟨kind, path, _, value, children⟩ => ⟨kind, path, ⟨0, 0⟩, value, shapes children⟩

def shapes : List Node → List Node
  | [] => []
  | n :: ns => n.shape :: shapes ns

end

@[simp] theorem shapes_eq_map (ns : List Node) : shapes ns = ns.map shape := by
  induction ns with
  | nil => rfl
  | cons n ns ih => rw [shapes, ih, List.map_cons]

theorem shape_eq (n : Node) :
    n.shape = ⟨n.kind, n.path, ⟨0, 0⟩, n.value, n.children.map shape⟩ := by
  cases n
  rw [shape, shapes_eq_map]

@[simp] theorem kind_shape (n : Node) : n.shape.kind = n.kind := by rw [shape_eq]

@[simp] theorem path_shape (n : Node) : n.shape.path = n.path := by rw [shape_eq]

@[simp] theorem value_shape (n : Node) : n.shape.value = n.value := by rw [shape_eq]

@[simp] theorem children_shape (n : Node) : n.shape.children = n.children.map shape := by
  rw [shape_eq]

@[simp] theorem key?_shape (n : Node) : n.shape.key? = n.key? := by simp [key?]

@[simp] theorem isPlaceholder_shape (n : Node) : n.shape.isPlaceholder = n.isPlaceholder := by
  simp [isPlaceholder]

theorem nodesOf_eq_flatMap (ns : List Node) : nodesOf ns = ns.flatMap nodes := by
  induction ns with
  | nil => rfl
  | cons n ns ih => rw [nodesOf, ih, List.flatMap_cons]

theorem nodes_shape (n : Node) : n.shape.nodes = n.nodes.map shape := by
  induction n using children_induction with
  | node n ih =>
    rw [nodes_eq, nodes_eq n, List.map_cons, children_shape, nodesOf_eq_flatMap, nodesOf_eq_flatMap,
      List.flatMap_map, List.map_flatMap]
    congr 1
    exact List.flatMap_congr fun c hc => ih c hc

@[simp] theorem outline_shape (n : Node) : n.shape.outline = n.outline := by
  rw [outline, nodes_shape, List.map_map, outline]
  congr 1
  funext m
  simp

@[simp] theorem isLevel_shape (n : Node) : n.shape.IsLevel ↔ n.IsLevel := by
  simp [IsLevel, nodes_shape]

theorem itemsOf_shape (path : String) (span : Span) (items : List String) :
    (itemsOf path span items).map shape = itemsOf path ⟨0, 0⟩ items := by
  unfold itemsOf
  split
  · rfl
  · apply List.ext_getElem?
    intro j
    cases hj : items[j]? <;> simp [hj, shape, shapes]

theorem propertyIndex?_shape (n : Node) (key : String) :
    n.shape.propertyIndex? key = n.propertyIndex? key := by
  simp [propertyIndex?, List.findIdx?_map, Function.comp_def]

theorem route_shape (n : Node) (steps : List Step) : n.shape.route steps = n.route steps := by
  induction n, steps using route.induct with
  | case1 n => simp [route]
  | case2 n i rest ih =>
    simp only [route, children_shape, List.getElem?_map]
    cases n.children[i]? with
    | none => rfl
    | some c => simp [ih]
  | case3 n i rest hrest ih =>
    simp only [route, children_shape, List.getElem?_map]
    cases n.children[i]? with
    | none => rfl
    | some c => simp [ih]
  | case4 n key rest ih =>
    simp only [route, propertyIndex?_shape, children_shape, List.getElem?_map]
    cases n.propertyIndex? key with
    | none => rfl
    | some i => cases h : n.children[i]? <;> simp [h, ih]
  | case5 n key j rest ih =>
    simp only [route, propertyIndex?_shape, children_shape, List.getElem?_map]
    cases n.propertyIndex? key with
    | none => rfl
    | some i =>
      cases h : n.children[i]? with
      | none => simp [h]
      | some c => cases h' : c.children[j]? <;> simp [h, h', ih]
  | case6 n rest => simp [route]

theorem descend?_shape (n : Node) (is : List Nat) :
    n.shape.descend? is = (n.descend? is).map shape := by
  induction is generalizing n with
  | nil => rfl
  | cons i is ih =>
    simp only [descend?, children_shape, List.getElem?_map]
    cases n.children[i]? with
    | none => rfl
    | some c => simpa using ih c

theorem modifyAt_shape {f : Node → Node} (hf : ∀ m, f m.shape = (f m).shape) (is : List Nat)
    (n : Node) : modifyAt f is n.shape = (modifyAt f is n).shape := by
  induction is generalizing n with
  | nil => exact hf n
  | cons i is ih =>
    rw [modifyAt, modifyAt, shape_eq, shape_eq]
    congr 1
    apply List.ext_getElem?
    intro j
    simp only [List.getElem?_modify, List.getElem?_map]
    cases n.children[j]? with
    | none => simp
    | some c =>
      by_cases hij : i = j <;> simp [hij, ih]

@[simp] theorem locate?_shape (n : Node) (p : Path) : n.shape.locate? p = n.locate? p := by
  simp [locate?, route_shape]

theorem find?_shape (n : Node) (p : Path) : n.shape.find? p = (n.find? p).map shape := by
  rw [find?, locate?_shape, find?]
  cases n.locate? p with
  | none => rfl
  | some is => simpa using descend?_shape n is

end Node

theorem Change.apply_shape (change : Change) (n : Node) :
    change.apply n.shape = (change.apply n).shape := by
  cases change with
  | name s => simp [apply, Node.shape_eq]
  | items xs => simp [apply, Node.shape_eq, Node.itemsOf_shape]
  | item j s =>
    have hmap : (n.children.map Node.shape).modify j (fun c => { c with value := some s }) =
        (n.children.modify j fun c => { c with value := some s }).map Node.shape := by
      apply List.ext_getElem?
      intro i
      simp only [List.getElem?_modify, List.getElem?_map]
      cases n.children[i]? with
      | none => simp
      | some c => by_cases hij : j = i <;> simp [hij, Node.shape_eq]
    simp only [apply, hmap, List.map_map, Function.comp_def, Node.value_shape, Node.shape_eq n]
    rw [Node.shape_eq]

theorem Change.isRefusedBy_shape (change : Change) (n : Node) :
    change.isRefusedBy n.shape = change.isRefusedBy n := by
  cases change <;> simp [isRefusedBy]

/-- An edit sees the shape of a tree only: it succeeds or fails alike, with the same shape or the
same error. -/
theorem Node.setValue_shape (n : Node) (path value : String) :
    n.shape.setValue path value = (n.setValue path value).map Node.shape := by
  unfold Node.setValue
  cases Path.parse path with
  | error cause => rfl
  | ok p =>
    simp only
    cases Change.ofValue? p value with
    | none => rfl
    | some change =>
      simp only [Node.find?_shape]
      cases n.find? p with
      | none => rfl
      | some m =>
        simp only [Option.map_some, Change.isRefusedBy_shape]
        split
        · rfl
        · simp only [Node.modify?, Node.locate?_shape]
          cases n.locate? (Change.target p) with
          | none => rfl
          | some is =>
            simp only [Option.map_some, Option.getD_some, Except.map]
            rw [Node.modifyAt_shape (Change.apply_shape change)]

end ProblemScript
