import ProblemScript.Proofs.Layout.Draft

/-! The layout of a tree depends on its shape only: the ranges that its nodes had in some earlier
text are not looked at. -/
namespace ProblemScript.Layout
open Text Node

@[simp] theorem propertyValue_shape (n : Node) : propertyValue n.shape = propertyValue n := by
  simp [propertyValue, Function.comp_def]

@[simp] theorem propertyChars_shape (n : Node) : propertyChars n.shape = propertyChars n := by
  simp [propertyChars]

theorem propertiesChars_shape (o : Options) (depth index : Nat) (ns : List Node) :
    propertiesChars o depth index (ns.map shape) = propertiesChars o depth index ns := by
  induction ns generalizing index with
  | nil => rfl
  | cons n ns ih => rw [List.map_cons, propertiesChars, propertiesChars, propertyChars_shape, ih]

@[simp] theorem propertyMarks_shape (owner : String) (bounds : Span) (key : Nat) (n : Node) :
    propertyMarks owner bounds key n.shape = propertyMarks owner bounds key n := by
  simp only [propertyMarks, key?_shape, propertyValue_shape, children_shape, List.cons.injEq,
    true_and]
  apply List.ext_getElem?
  intro j
  cases hj : n.children[j]? <;> simp [hj]

theorem propertiesMarks_shape (o : Options) (owner : String) (bounds : Span)
    (depth index start : Nat) (ns : List Node) :
    propertiesMarks o owner bounds depth index start (ns.map shape) =
      propertiesMarks o owner bounds depth index start ns := by
  induction ns generalizing index start with
  | nil => rfl
  | cons n ns ih =>
    simp only [List.map_cons, propertiesMarks, propertyMarks_shape, propertyChars_shape, ih]

theorem entityDraft_shape (o : Options) (path : String) (depth start : Nat) (n : Node) :
    entityDraft o path depth start n.shape = entityDraft o path depth start n := by
  have hfilter : n.shape.children.filter (·.kind == .property) =
      (n.children.filter (·.kind == .property)).map shape := by
    rw [children_shape, List.filter_map]
    simp [Function.comp_def]
  have htype : entityType n.shape = entityType n := by simp [entityType]
  simp only [entityDraft, hfilter, htype, propertiesChars_shape, propertiesMarks_shape,
    List.length_map]

theorem operationDraft_shape (o : Options) (path : String) (depth start : Nat) (n : Node) :
    operationDraft o path depth start n.shape = operationDraft o path depth start n := by
  induction n using children_induction generalizing path depth start with
  | node n ih =>
    have hslots : ∀ ns, (∀ c ∈ ns, c ∈ n.children) → ∀ index start,
        slotsDraft o path (depth + 1) index start (ns.map shape) =
          slotsDraft o path (depth + 1) index start ns := by
      intro ns hns
      induction ns with
      | nil => intro index start; rfl
      | cons m ns ihns =>
        intro index start
        have hrest := ihns fun c hc => hns c (by simp [hc])
        rw [List.map_cons]
        by_cases hm : m.kind = .property
        · rw [slotsDraft, slotsDraft, kind_shape, if_pos hm, if_pos hm]
          exact hrest index start
        · have hdraft : ∀ start, slotDraft o path (depth + 1) index start m.shape =
              slotDraft o path (depth + 1) index start m := by
            intro start
            rw [slotDraft, slotDraft, kind_shape, entityDraft_shape,
              ih m (hns m (by simp))]
          rw [slotsDraft_cons _ _ _ _ _ _ hm, slotsDraft_cons _ _ _ _ _ _ (by simpa using hm)]
          simp only [hdraft, hrest]
    have hcount : slotCount (n.children.map shape) = slotCount n.children := by
      simp [slotCount, List.countP_map, Function.comp_def]
    rw [operationDraft_eq, operationDraft_eq]
    simp only [value_shape, children_shape, hcount, hslots n.children (fun c hc => hc)]

theorem draft_shape (o : Options) (n : Node) : draft o n.shape = draft o n := by
  simp only [draft, isPlaceholder_shape, kind_shape, operationDraft_shape]

/-- Trees of the same shape have the same draft, and so the same layout. -/
theorem draft_congr {m n : Node} (h : m.shape = n.shape) (o : Options) :
    draft o m = draft o n := by
  rw [← draft_shape, h, draft_shape]

theorem document_congr {m n : Node} (h : m.shape = n.shape) (o : Options) :
    document o m = document o n := by
  rw [document, draft_congr h, document]

end ProblemScript.Layout
