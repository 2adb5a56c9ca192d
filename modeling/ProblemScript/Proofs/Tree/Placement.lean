import Mathlib.Data.List.Forall2
import ProblemScript.Proofs.Grammar.Source
import ProblemScript.Proofs.Tree.Spelling

/-! How the ranges of a tree lie in the text that it was read from. Operations cover more than
their slots, which follow each other; the properties of an entity cover lines of it, each of them
the line with its key. -/
namespace ProblemScript
open Text

namespace Node

/-- The range of a node lies well in the text, and the ranges of its children lie well in it. -/
structure IsPlaced (text : List Char) (n : Node) : Prop where
  nonempty : n.span.start < n.span.stop
  stop_le : n.span.stop ≤ byteLength text
  boundary_start : IsBoundary text n.span.start
  boundary_stop : IsBoundary text n.span.stop
  encloses : ∀ c ∈ n.children, n.span.encloses c.span = true
  /-- The slots of an operation leave out its name and its parenthesis. -/
  shorter : n.kind = .operation → ∀ c ∈ n.children, c.span.length < n.span.length
  /-- The slots of an operation follow each other. -/
  disjoint : n.kind = .operation →
    n.children.Pairwise fun c d => c.span.stop ≤ d.span.start
  /-- Properties on one line have the same range, and those on different lines follow each other. -/
  lines : n.kind.isEntityLike = true →
    n.children.Pairwise fun p q => p.span = q.span ∨ p.span.stop ≤ q.span.start
  /-- What the range of an entity covers reads as an entity. Its properties are the children, and
  each child covers the place where its key is written. -/
  keys : n.kind.isEntityLike = true →
    ∃ e, EntitySource.ofSegment? n.span.start (slice text n.span) = some e ∧
      List.Forall₂ (fun (s : PropertySource) p => p.key? = some (.ofList s.key) ∧
        p.span.contains s.position = true ∧
        ∃ b, AllBlank b ∧ At text s.position (s.key ++ b ++ [':'])) e.properties n.children
  items : n.kind = .property → ∀ c ∈ n.children, c.span = n.span

end Node

namespace Call
variable {text : List Char} {c : Call}

/-- What the range of a call covers stands in the text. -/
theorem LiesIn.exists_extent (h : c.LiesIn text) :
    ∃ opening tail, opening ≠ [] ∧ At text c.start (opening ++ (c.body ++ tail)) ∧
      c.bodyStart = c.start + byteLength opening ∧
      c.span = ⟨c.start, c.start + byteLength (opening ++ (c.body ++ tail))⟩ := by
  obtain ⟨opening, hne, hbody, hat⟩ := h
  obtain ⟨tail, after, hrest, hspan⟩ := c.exists_tail
  rw [hrest, ← List.append_assoc] at hat
  refine ⟨opening, tail, hne, hat.left, hbody, ?_⟩
  rw [hspan, hbody, byteLength_append opening, Nat.add_assoc]

theorem LiesIn.isPlaced (h : c.LiesIn text) (path : String) : (c.node text path).IsPlaced text := by
  obtain ⟨opening, tail, hne, hat, hbody, hspan⟩ := h.exists_extent
  have hpos := byteLength_pos hne
  have hchild : ∀ n ∈ c.slots.mapIdx (Slot.node text path),
      c.bodyStart ≤ n.span.start ∧ n.span.stop ≤ c.bodyStart + byteLength c.body := by
    intro n hn
    obtain ⟨i, hi, rfl⟩ := List.mem_mapIdx.1 hn
    rw [Slot.span_node]
    exact (h.slot (List.getElem_mem hi)).2
  rw [node_eq, hspan]
  constructor
  · simp only [byteLength_append]
    omega
  · exact hat.stop_le
  · exact hat.isBoundary
  · exact hat.isBoundary_stop
  · intro n hn
    have := hchild n hn
    simp only [Span.encloses_iff, byteLength_append]
    omega
  · intro _ n hn
    have := hchild n hn
    simp only [Span.length, byteLength_append]
    omega
  · intro _
    have hpair := h.pairwise_slots
    rw [List.pairwise_iff_getElem] at hpair ⊢
    intro i j hi hj hij
    simp only [List.length_mapIdx] at hi hj
    simpa using hpair i j hi hj hij
  · simp [Kind.isEntityLike]
  · simp [Kind.isEntityLike]
  · simp

end Call

namespace EntitySource
variable {text : List Char} {e : EntitySource} {p : PropertySource}

theorem LiesIn.boundaries (h : e.LiesIn text) :
    IsBoundary text e.span.start ∧ IsBoundary text e.span.stop ∧ e.span.stop ≤ byteLength text := by
  obtain ⟨raw, hat, hstop, -⟩ := h
  rw [hstop]
  exact ⟨hat.isBoundary, hat.isBoundary_stop, hat.stop_le⟩

/-- The line of a property holds its key. -/
theorem LiesIn.contains_line (h : e.LiesIn text) (hp : p ∈ e.properties) :
    (lineWithin text p.position e.span).contains p.position = true := by
  have hlies := h.properties.1 p hp
  obtain ⟨c, rest, hc, hat⟩ := hlies.unspaced
  exact contains_lineWithin hat hc hlies.within

/-- The line of a property is a stretch of the text. -/
theorem LiesIn.line (h : e.LiesIn text) (hp : p ∈ e.properties) :
    let line := lineWithin text p.position e.span
    line.start < line.stop ∧ line.stop ≤ byteLength text ∧ IsBoundary text line.start ∧
      IsBoundary text line.stop := by
  obtain ⟨hstart, hstop, hle⟩ := h.boundaries
  have hcontains := (Span.contains_iff _ _).1 (h.contains_line hp)
  have hencloses := (Span.encloses_iff _ _).1 (encloses_lineWithin text p.position e.span)
  have hkey := (h.properties.1 p hp).isBoundary
  exact ⟨by omega, by omega, isBoundary_lineWithin hkey hstart hstop⟩

theorem LiesIn.isPlaced (h : e.LiesIn text) (path : String) : (e.node text path).IsPlaced text := by
  obtain ⟨hstart, hstop, hle⟩ := h.boundaries
  have hentity : (Kind.ofType (.ofList e.type)).isEntityLike = true := by
    unfold Kind.ofType
    split <;> rfl
  have hkind : ∀ k : Kind, k.isEntityLike = false → Kind.ofType (.ofList e.type) ≠ k := by
    rintro k hk rfl
    rw [hentity] at hk
    simp at hk
  constructor
  · obtain ⟨raw, -, hraw, hread⟩ := h
    obtain ⟨-, -, b, body, -, rfl, -⟩ := ofSegment?_eq_some hread
    have hne : e.type ++ b ++ '[' :: body ++ [']'] ≠ [] := by simp
    have hpos := byteLength_pos hne
    show e.span.start < e.span.stop
    omega
  · exact hle
  · exact hstart
  · exact hstop
  · intro n hn
    obtain ⟨p, -, rfl⟩ := List.mem_map.1 hn
    exact encloses_lineWithin text p.position e.span
  · intro hop
    exact absurd hop (hkind _ rfl)
  · intro hop
    exact absurd hop (hkind _ rfl)
  · intro _
    unfold node
    rw [List.pairwise_map]
    refine h.properties.2.imp_of_mem fun {p q} hp hq hpq => ?_
    have hbp := (h.properties.1 p hp).isBoundary
    have hbq := (h.properties.1 q hq).isBoundary
    exact lineWithin_cases hbp hbq hpq
  · intro _
    refine ⟨e, ?_, ?_⟩
    · obtain ⟨raw, hat, hraw, hread⟩ := h
      have hslice : slice text e.span = raw := by
        rw [← hat.slice_eq, ← hraw]
      unfold node
      rw [hslice]
      exact hread
    · unfold node
      rw [List.forall₂_map_right_iff, List.forall₂_same]
      intro p hp
      have hlies := h.properties.1 p hp
      exact ⟨Node.key?_property (by simpa using hlies.usable) _ _ _, h.contains_line hp,
        hlies.written⟩
  · intro hprop
    exact absurd hprop (hkind _ rfl)

end EntitySource

namespace Node

/-- A property and its items share one line. -/
theorem isPlaced_of_line {text : List Char} {path : String} {span : Span} {value : Option String}
    {children : List Node} (hne : span.start < span.stop) (hle : span.stop ≤ byteLength text)
    (hstart : IsBoundary text span.start) (hstop : IsBoundary text span.stop)
    (hitems : ∀ c ∈ children, c.span = span) :
    IsPlaced text ⟨.property, path, span, value, children⟩ where
  nonempty := hne
  stop_le := hle
  boundary_start := hstart
  boundary_stop := hstop
  encloses c hc := by
    rw [hitems c hc, Span.encloses_iff]
    exact ⟨Nat.le_refl _, Nat.le_refl _⟩
  shorter := by simp
  disjoint := by simp
  lines := by simp [Kind.isEntityLike]
  keys := by simp [Kind.isEntityLike]
  items _ := hitems

/-- Every node of a script other than the placeholder has its range well placed in the text. -/
theorem isPlaced_of_mem_nodes {text : String} (h : (ofScript text).isPlaceholder = false) :
    ∀ n ∈ (ofScript text).nodes, n.IsPlaced text.toList := by
  cases hroot : Call.root? text.toList with
  | none => simp [ofScript, hroot, placeholder, isPlaceholder] at h
  | some c =>
    simp only [ofScript, hroot]
    refine (Call.root?_liesIn hroot).forall_nodes ?call ?entity ?property ?item _
    case call => exact fun c path hc => hc.isPlaced path
    case entity => exact fun e path he => he.isPlaced path
    case property =>
      intro e p path he hp
      obtain ⟨hne, hle, hstart, hstop⟩ := he.line hp
      refine isPlaced_of_line hne hle hstart hstop fun c hc => ?_
      obtain ⟨j, x, -, rfl⟩ := mem_itemsOf hc
      rfl
    case item =>
      intro e p path value he hp
      obtain ⟨hne, hle, hstart, hstop⟩ := he.line hp
      exact isPlaced_of_line hne hle hstart hstop (by simp)

/-- A root that is not closed, an operation that is closed before its segment ends, properties on
one line and on the next, and characters of two bytes. -/
theorem isPlaced_of_mem_nodes_unclosed :
    let text := "é\r\n f(e[a: ü, b: x,\r\nc: 1, 2], g(h[k: )(]) z (y), w[: 5]"
    (ofScript text).isPlaceholder = false ∧ (ofScript text).nodes.length = 12 ∧
      ∀ n ∈ (ofScript text).nodes, n.IsPlaced text.toList := by
  intro text
  have hplaceholder : (ofScript text).isPlaceholder = false := by decide +kernel
  exact ⟨hplaceholder, by decide +kernel, isPlaced_of_mem_nodes hplaceholder⟩

end Node
end ProblemScript
