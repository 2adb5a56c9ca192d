import ProblemScript.Proofs.Layout.Reread
import ProblemScript.Proofs.Text.Place

/-! Where the parts of a tree stand in its layout. The draft of an operation holds those of its
slots, and so that of every entity in it; each part is marked, and a node that is read from the
layout has the range of the mark with its path. -/
namespace ProblemScript.Layout
open Text

/-- The draft holds another, written from byte `start` on, with all its marks. -/
structure Draft.Holds (whole : Draft) (start : Nat) (part : Draft) : Prop where
  chars : At whole.chars start part.chars
  marks : part.marks ⊆ whole.marks

variable {whole : Draft} {o : Options} {path : String} {depth start : Nat} {n : Node}

/-- A draft that holds slots holds each of them. -/
theorem Draft.Holds.slot {index : Nat} {ns : List Node}
    (h : whole.Holds start (slotsDraft o path depth index start ns))
    (hns : Node.RegularSlots path index ns) {c : Node} (hc : c ∈ ns) :
    ∃ i here, c.RegularSlot path i ∧ whole.Holds here (slotDraft o path depth i here c) := by
  induction ns generalizing index start with
  | nil => simp at hc
  | cons n ns ih =>
    obtain ⟨hn, hrest⟩ := (Node.regularSlots_cons _ _ _ _).1 hns
    rw [slotsDraft_cons _ _ _ _ _ _ hn.kind_ne] at h
    obtain ⟨hchars, hmarks⟩ := h
    rcases List.mem_cons.1 hc with rfl | hc
    · exact ⟨index, _, hn, hchars.left.right, fun m hm => hmarks (List.mem_append_left _ hm)⟩
    · refine ih ⟨?_, fun m hm => hmarks (List.mem_append_right _ hm)⟩ hrest hc
      have hat := hchars.right
      rw [byteLength_append, ← Nat.add_assoc] at hat
      exact hat

theorem Draft.Holds.slots (h : whole.Holds start (operationDraft o path depth start n)) :
    whole.Holds (start + byteLength ((n.value.getD "").toList ++ ['(']))
      (slotsDraft o path (depth + 1) 0 (start + byteLength ((n.value.getD "").toList ++ ['(']))
        n.children) := by
  rw [operationDraft_eq] at h
  exact ⟨h.chars.left.left.right, fun m hm => h.marks (List.mem_cons_of_mem _ hm)⟩

/-- An entity holds no other entity. -/
theorem eq_of_mem_nodes_entity (h : n.RegularEntity path) {e : Node} (he : e ∈ n.nodes)
    (hkind : e.kind.isEntityLike = true) : e = n := by
  rw [Node.nodes_eq] at he
  rcases List.mem_cons.1 he with rfl | he
  · rfl
  · obtain ⟨p, hp, hep⟩ := Node.mem_nodesOf.1 he
    have hproperty : e.kind = .property := by
      rw [(h.isSpelled p hp).eq, Node.nodes_eq] at hep
      rcases List.mem_cons.1 hep with rfl | hep
      · rfl
      · obtain ⟨c, hc, hec⟩ := Node.mem_nodesOf.1 hep
        obtain ⟨j, x, -, rfl⟩ := Node.mem_itemsOf hc
        obtain rfl : e = _ := by simpa [Node.nodes, Node.nodesOf] using hec
        rfl
    simp [hproperty, Kind.isEntityLike] at hkind

/-- A draft that holds an operation holds every entity in it. -/
theorem Draft.Holds.entity (h : whole.Holds start (operationDraft o path depth start n))
    (hn : n.RegularOperation path) {e : Node} (he : e ∈ n.nodes)
    (hkind : e.kind.isEntityLike = true) :
    ∃ path' depth' here, e.RegularEntity path' ∧
      whole.Holds here (entityDraft o path' depth' here e) := by
  induction n using Node.children_induction generalizing path depth start with
  | node n ih =>
    obtain ⟨hop, -, -, -, hslots⟩ := (Node.regularOperation_iff path n).1 hn
    rw [Node.nodes_eq] at he
    rcases List.mem_cons.1 he with rfl | he
    · simp [hop, Kind.isEntityLike] at hkind
    · obtain ⟨c, hc, hec⟩ := Node.mem_nodesOf.1 he
      obtain ⟨i, here, hslot, hholds⟩ := h.slots.slot hslots hc
      unfold slotDraft at hholds
      rcases hslot with hslot | hslot
      · rw [if_pos hslot.kind] at hholds
        exact ih c hc hholds hslot hec
      · rw [if_neg hslot.kind_ne_operation] at hholds
        obtain rfl := eq_of_mem_nodes_entity hslot hec hkind
        exact ⟨_, _, here, hslot, hholds⟩

/-- A mark and the node with its path have the same range. -/
theorem span_eq_of_mark {text : List Char} {marks : List Mark}
    (hentries : n.nodes.map Node.entry = marks.map (Mark.entry text)) (hpaths : n.paths.Nodup)
    {mark : Mark} (hmark : mark ∈ marks) {p : Node} (hp : p ∈ n.nodes)
    (hpath : mark.path = p.path) : p.span = mark.extent.range text := by
  have hmem : mark.entry text ∈ n.nodes.map Node.entry := by
    rw [hentries]
    exact List.mem_map_of_mem hmark
  obtain ⟨q, hq, hentry⟩ := List.mem_map.1 hmem
  obtain ⟨hqpath, hqspan⟩ : q.path = mark.path ∧ q.span = mark.extent.range text := by
    simp only [Node.entry, Mark.entry, Prod.mk.injEq, RangeEntry.mk.injEq] at hentry
    exact ⟨hentry.1, hentry.2.1⟩
  obtain rfl : q = p := List.inj_on_of_nodup_map hpaths hq hp (hqpath.trans hpath)
  exact hqspan

end ProblemScript.Layout
