import ProblemScript.Proofs.Tree.Position
import ProblemScript.Proofs.Tree.Shape

/-! A walk with a stack meets the nodes of a tree in pre-order. What lies under the top of the stack
is not touched before the tree on top is done, so that a walk goes through the trees on its stack
from the top down; each step takes one node off the number that remains. -/
namespace ProblemScript

namespace Place

theorem mem_children {v c : Place} :
    c ∈ v.children ↔ ∃ i, v.node.children[i]? = some c.node ∧ c.position = v.position ++ [i] := by
  obtain ⟨p, n⟩ := c
  simp only [children, List.mem_iff_getElem?, List.getElem?_mapIdx, Option.map_eq_some_iff]
  constructor
  · rintro ⟨i, c, hc, rfl, rfl⟩
    exact ⟨i, hc, rfl⟩
  · rintro ⟨i, hc, rfl⟩
    exact ⟨i, n, hc, rfl⟩

theorem pairwise_children (v : Place) :
    v.children.Pairwise fun a b => ∃ i j, i < j ∧ a.position = v.position ++ [i] ∧
      b.position = v.position ++ [j] := by
  apply List.pairwise_iff_getElem.2
  intro i j _ _ hij
  exact ⟨i, j, hij, by simp [children], by simp [children]⟩

@[elab_as_elim]
theorem children_induction {P : Place → Prop} (place : ∀ v, (∀ c ∈ v.children, P c) → P v)
    (v : Place) : P v := by
  obtain ⟨p, n⟩ := v
  induction n using Node.children_induction generalizing p with
  | node n ih =>
    apply place
    intro c hc
    obtain ⟨i, hi, -⟩ := mem_children.1 hc
    exact ih c.node (List.mem_of_getElem? hi) c.position

end Place

namespace Walk

theorem run_of_next?_eq_none {w : Walk} (h : w.next? = none) : w.run = [] := by
  unfold run
  split <;> simp_all

theorem run_of_next? {w w' : Walk} {v : Place} (h : w.next? = some (v, w')) :
    w.run = v :: w'.run := by
  conv_lhs => unfold run
  split <;> simp_all

/-- A walk is over after as many steps as there are nodes on its stack and below it. -/
theorem length_run (w : Walk) : w.run.length = w.remaining := by
  fun_induction run w with
  | case1 w h => simp [remaining, next?_eq_none_iff.1 h, Node.totalSize]
  | case2 w v w' h ih => simp [ih, remaining_of_next? h]

/-- What lies under the stack of a walk waits until the walk is over. -/
theorem run_append (s : Array Place) (w : Walk) : run ⟨s ++ w.stack⟩ = w.run ++ run ⟨s⟩ := by
  -- Along the run of the upper part: a step changes only what lies above `s`.
  fun_induction run w with
  | case1 w h => simp [next?_eq_none_iff.1 h]
  | case2 w v w' h ih =>
    obtain ⟨rest, hrest, rfl⟩ := next?_eq_some_iff.1 h
    have hnext : next? ⟨s ++ w.stack⟩ = some (v, ⟨s ++ (rest ++ v.children.reverse)⟩) := by
      apply next?_eq_some_iff.2
      exact ⟨s ++ rest, by simp [hrest], by simp [← Array.toList_inj]⟩
    simp only [run_of_next? hnext, ih, List.cons_append]

/-- A walk goes through the trees on its stack one by one, from the top down. -/
theorem run_eq_flatMap (w : Walk) :
    w.run = w.stack.toList.reverse.flatMap fun v => run ⟨#[v]⟩ := by
  obtain ⟨⟨vs⟩⟩ := w
  induction vs using List.reverseRecOn with
  | nil => exact run_of_next?_eq_none rfl
  | append_singleton vs v ih =>
    have hstack : (vs ++ [v]).toArray = vs.toArray ++ #[v] := by simp
    simp only [hstack, run_append _ ⟨#[v]⟩, ih]
    simp

/-- A tree is visited from its root, and then child by child. -/
theorem run_singleton (v : Place) :
    run ⟨#[v]⟩ = v :: v.children.flatMap fun c => run ⟨#[c]⟩ := by
  have hnext : next? ⟨#[v]⟩ = some (v, ⟨v.children.reverse.toArray⟩) :=
    next?_eq_some_iff.2 ⟨#[], rfl, by simp⟩
  have hchildren := run_eq_flatMap ⟨v.children.reverse.toArray⟩
  simpa [run_of_next? hnext] using hchildren

theorem map_node_run (v : Place) : (run ⟨#[v]⟩).map (·.node) = v.node.nodes := by
  induction v using Place.children_induction with
  | place v ih =>
    calc (run ⟨#[v]⟩).map (·.node)
        = v.node :: v.children.flatMap fun c => (run ⟨#[c]⟩).map (·.node) := by
          simp only [run_singleton v, List.map_cons, List.map_flatMap]
      _ = v.node :: (v.children.map (·.node)).flatMap Node.nodes := by
          simp only [List.flatMap_congr ih, List.flatMap_map]
      _ = v.node.nodes := by
          simp only [Place.map_node_children, Node.nodes_eq v.node, Node.nodesOf_eq_flatMap]

/-- What is visited from a place on stands below it, where its position says. -/
theorem mem_run_iff {v u : Place} :
    u ∈ run ⟨#[v]⟩ ↔
      ∃ is, u.position = v.position ++ is ∧ v.node.descend? is = some u.node := by
  induction v using Place.children_induction with
  | place v ih =>
    simp only [run_singleton v, List.mem_cons, List.mem_flatMap]
    constructor
    · rintro (rfl | ⟨c, hc, hu⟩)
      · exact ⟨[], by simp⟩
      · obtain ⟨i, hi, hposition⟩ := Place.mem_children.1 hc
        obtain ⟨is, his, hnode⟩ := (ih c hc).1 hu
        exact ⟨i :: is, by simp [his, hposition], by simpa [hi] using hnode⟩
    · rintro ⟨is, his, hnode⟩
      cases is with
      | nil =>
        left
        apply Place.ext
        · simpa using his
        · simpa using hnode.symm
      | cons i is =>
        right
        obtain ⟨c, hc, hbelow⟩ := Option.bind_eq_some_iff.1 hnode
        have hchild : ⟨v.position ++ [i], c⟩ ∈ v.children := Place.mem_children.2 ⟨i, hc, rfl⟩
        exact ⟨_, hchild, (ih _ hchild).2 ⟨is, by simp [his], hbelow⟩⟩

/-- Positions are visited in lexicographic order. -/
theorem pairwise_run (v : Place) : (run ⟨#[v]⟩).Pairwise fun a b => a.position < b.position := by
  induction v using Place.children_induction with
  | place v ih =>
    simp only [run_singleton v, List.pairwise_cons, List.pairwise_flatMap, List.mem_flatMap]
    refine ⟨?below, ih, v.pairwise_children.imp ?beside⟩
    case below =>
      rintro u ⟨c, hc, hu⟩
      obtain ⟨i, -, hposition⟩ := Place.mem_children.1 hc
      obtain ⟨is, his, -⟩ := mem_run_iff.1 hu
      have hlt : v.position ++ [] < v.position ++ i :: is :=
        List.append_left_lt (List.nil_lt_cons i is)
      simpa [his, hposition] using hlt
    case beside =>
      rintro a b ⟨i, j, hij, ha, hb⟩ x hx y hy
      obtain ⟨is, his, -⟩ := mem_run_iff.1 hx
      obtain ⟨js, hjs, -⟩ := mem_run_iff.1 hy
      have hlt : v.position ++ i :: is < v.position ++ j :: js :=
        List.append_left_lt (List.cons_lt_cons_iff.2 (.inl hij))
      simpa [his, hjs, ha, hb] using hlt

/-- A walk through a tree visits the root and then the trees of the children in order, as `nodes`
lists them. It is over after one step for each node. It visits all places of the tree and no others,
and none of them twice, since the positions only go up. -/
theorem run_preorder (T : Node) :
    (start T).run.map (·.node) =
        T :: T.children.flatMap (fun c => (start c).run.map (·.node)) ∧
      (start T).run.map (·.node) = T.nodes ∧
      (start T).run.length = T.size ∧
      (start T).run.Pairwise (fun u v => u.position < v.position) ∧
      ∀ v : Place, v ∈ (start T).run ↔ T.descend? v.position = some v.node := by
  have hnodes : ∀ n, (start n).run.map (·.node) = n.nodes := fun n => map_node_run ⟨[], n⟩
  refine ⟨?_, hnodes T, ?_, pairwise_run ⟨[], T⟩, ?_⟩
  · simp only [hnodes, Node.nodes_eq T, Node.nodesOf_eq_flatMap]
  · simp [length_run, remaining, start, Node.totalSize]
  · intro v
    simp [start, mem_run_iff]

example :
    let leaf : Node := ⟨.property, "k", ⟨0, 1⟩, none, []⟩
    let list : Node := ⟨.property, "k", ⟨0, 1⟩, none, [leaf, leaf]⟩
    (start ⟨.entity, "e", ⟨0, 1⟩, none, [leaf, list, leaf]⟩).run.map (·.position) =
      [[], [0], [1], [1, 0], [1, 1], [2]] := by
  decide +kernel

end Walk
end ProblemScript
