import ProblemScript.Diagram.Index
import ProblemScript.Proofs.Path.Ancestry

/-! The components that show a path. The index compares written paths, the search climbs from a path
to its ancestors; every label of an index can be read, so what the search meets first is the longest
label that covers the path. This rests on the check that labels pass on their way in, and not on how
tags are found: the index may be filled from any captures. -/
namespace ProblemScript
open Text

namespace Path

/-- The path is `a`, or continues it. -/
def Covers (a path : String) : Prop := a = path ∨ descends a path = true

instance (a path : String) : Decidable (Covers a path) := inferInstanceAs (Decidable (_ ∨ _))

/-- The written forms of a path and its ancestors, nearest first. -/
def lineage (p : Path) : List String := (p :: p.ancestors).map text

theorem pairwise_lineage {p : Path} (h : WellFormed p.steps) :
    p.lineage.Pairwise fun a b => byteLength b.toList < byteLength a.toList := by
  have hclimb : (p :: p.ancestors).Pairwise fun q r => r ∈ q.ancestors :=
    List.pairwise_cons.2 ⟨fun _ hr => hr, pairwise_ancestors p⟩
  have hformed : ∀ q ∈ p :: p.ancestors, WellFormed q.steps :=
    List.forall_mem_cons.2 ⟨h, h.ancestors⟩
  apply List.pairwise_map.2
  apply hclimb.imp_of_mem
  intro q r hq hr hmem
  exact byteLength_lt_of_descends ((descends_text_iff (hformed r hr) (hformed q hq)).2 hmem)

/-- A text that can be read covers a path exactly if it is met on the way up. -/
theorem mem_lineage_iff {a b : Path} (ha : WellFormed a.steps) (hb : WellFormed b.steps) :
    a.text ∈ b.lineage ↔ Covers a.text b.text := by
  have hsame : ∀ {q : Path}, WellFormed q.steps → q.text = a.text → q = a := fun hq h =>
    eq_of_text_eq hq.isNamed ha.isNamed h
  constructor
  · intro hmem
    obtain ⟨q, hq, htext⟩ := List.mem_map.1 hmem
    rcases List.mem_cons.1 hq with rfl | hq
    · exact .inl htext.symm
    · obtain rfl := hsame (hb.ancestors q hq) htext
      exact .inr ((descends_text_iff ha hb).2 hq)
  · rintro (h | h)
    · exact List.mem_map.2 ⟨b, List.mem_cons_self, h.symm⟩
    · exact List.mem_map_of_mem (List.mem_cons_of_mem b ((descends_text_iff ha hb).1 h))

theorem parse_of_accept {s : String} {p : Path} (h : accept s = .ok p) : parse s = .ok p := by
  unfold accept at h
  split at h
  · cases h
  · cases hparse : parse s with
    | error cause => simp [hparse] at h
    | ok q =>
      simp only [hparse] at h
      split at h
      · cases h
      · rw [Except.ok.inj h]

end Path

namespace Diagram

/-- What is read off one tag: its name and the values of two attributes. -/
structure Capture where
  name : String
  dataPath? : Option String
  elementId? : Option String

/-- The component that a capture makes, if its path is admissible. -/
def Capture.component? (view : View) (c : Capture) : Option Component :=
  match c.dataPath? with
  | none => none
  | some path =>
    match Path.accept path with
    | .error _ => none
    | .ok _ => some ⟨view, path, c.elementId?, c.name⟩

def Tag.capture (t : Tag) : Capture where
  name := .ofList t.name
  dataPath? := t.attribute? "data-path"
  elementId? := t.attribute? "id"

/-- The captures of all opening tags. -/
def captures (svg : String) : List Capture := (Tag.scan svg.toList).map Tag.capture

theorem Capture.parse_dataPath {view : View} {c : Capture} {comp : Component}
    (h : c.component? view = some comp) : ∃ p, Path.parse comp.dataPath = .ok p := by
  unfold component? at h
  split at h
  · cases h
  · split at h
    · cases h
    · rename_i haccept
      cases h
      exact ⟨_, Path.parse_of_accept haccept⟩

namespace Index

/-- Adds the components of a diagram, where `find` finds the tags. -/
def gather (find : String → List Capture) (index : Index) (view : View) (svg : String) : Index :=
  ⟨index.components ++ (find svg).filterMap (Capture.component? view)⟩

/-- The components of several diagrams, one after the other. -/
def gathered (find : String → List Capture) (svgs : List (View × String)) : Index :=
  svgs.foldl (fun index svg => index.gather find svg.1 svg.2) empty

theorem gather_captures (index : Index) (view : View) (svg : String) :
    index.gather captures view svg = index.add view svg := by
  unfold gather captures add Diagram.components
  rw [List.filterMap_map]
  rfl

/-- Every label can be read as a path. -/
def IsReadable (index : Index) : Prop :=
  ∀ c ∈ index.components, ∃ p, Path.parse c.dataPath = .ok p

theorem IsReadable.gather {find : String → List Capture} {index : Index} (h : index.IsReadable)
    (view : View) (svg : String) : (index.gather find view svg).IsReadable := by
  intro c hc
  rcases List.mem_append.1 hc with hc | hc
  · exact h c hc
  · obtain ⟨capture, -, hcapture⟩ := List.mem_filterMap.1 hc
    exact Capture.parse_dataPath hcapture

theorem isReadable_gathered (find : String → List Capture) (svgs : List (View × String)) :
    (gathered find svgs).IsReadable := by
  suffices hrun : ∀ index : Index, index.IsReadable →
      (svgs.foldl (fun index svg => index.gather find svg.1 svg.2) index).IsReadable from
    hrun empty (by simp [IsReadable, empty])
  induction svgs with
  | nil => exact fun _ h => h
  | cons svg svgs ih => exact fun index h => ih _ (h.gather svg.1 svg.2)

theorem contains_iff {index : Index} {path : String} :
    index.contains path = true ↔ ∃ c ∈ index.components, c.dataPath = path := by
  simp [contains]

theorem labelled_eq_nil_iff {index : Index} {path : String} :
    index.labelled path = [] ↔ index.contains path = false := by
  simp [labelled, contains]

theorem atFirst_eq_find? (index : Index) (paths : List String) :
    index.atFirst paths = ((paths.find? index.contains).map index.labelled).getD [] := by
  induction paths with
  | nil => rfl
  | cons p ps ih =>
    cases hp : index.contains p with
    | true => simp [atFirst, hp]
    | false => simp [atFirst, hp, ih]

/-- The label covers the path, and every other label that does is shorter. -/
structure IsNearest (index : Index) (path label : String) : Prop where
  present : ∃ c ∈ index.components, c.dataPath = label
  covers : Path.Covers label path
  longest : ∀ c ∈ index.components, Path.Covers c.dataPath path → c.dataPath ≠ label →
    byteLength c.dataPath.toList < byteLength label.toList

section Nearest
variable {index : Index} (hindex : index.IsReadable) {path : String} {p : Path}
  (hp : Path.parse path = .ok p)
include hindex hp

theorem mem_lineage_of_covers {c : Component} (hc : c ∈ index.components) :
    c.dataPath ∈ p.lineage ↔ Path.Covers c.dataPath path := by
  obtain ⟨q, hq⟩ := hindex c hc
  obtain ⟨hformed, htext⟩ := Path.parse_eq_ok_iff.1 hq
  obtain ⟨hpath, rfl⟩ := Path.parse_eq_ok_iff.1 hp
  rw [← htext]
  exact Path.mem_lineage_iff hformed hpath

/-- The first label met on the way up is the longest that covers the path. -/
theorem isNearest_iff {label : String} :
    index.IsNearest path label ↔ p.lineage.find? index.contains = some label := by
  have hclimb := Path.pairwise_lineage (Path.parse_eq_ok_iff.1 hp).1
  have hcovers := @mem_lineage_of_covers index hindex path p hp
  constructor
  · rintro ⟨⟨c, hc, rfl⟩, hcover, hlongest⟩
    obtain ⟨nearer, farther, hsplit⟩ := List.append_of_mem ((hcovers hc).2 hcover)
    refine List.find?_eq_some_iff_append.2 ⟨contains_iff.2 ⟨c, hc, rfl⟩, nearer, farther, hsplit, ?_⟩
    intro a ha
    rw [Bool.not_eq_true']
    apply Bool.eq_false_iff.2
    intro hcontains
    obtain ⟨c', hc', rfl⟩ := contains_iff.1 hcontains
    rw [hsplit] at hclimb
    have hlonger := (List.pairwise_append.1 hclimb).2.2 _ ha _ List.mem_cons_self
    have hmem : c'.dataPath ∈ p.lineage := by simp [hsplit, ha]
    have hne : c'.dataPath ≠ c.dataPath := by
      intro heq
      rw [heq] at hlonger
      omega
    have hshorter := hlongest c' hc' ((hcovers hc').1 hmem) hne
    omega
  · intro hfind
    obtain ⟨hcontains, nearer, farther, hsplit, hnone⟩ := List.find?_eq_some_iff_append.1 hfind
    obtain ⟨c, hc, rfl⟩ := contains_iff.1 hcontains
    refine ⟨⟨c, hc, rfl⟩, (hcovers hc).1 (by simp [hsplit]), ?_⟩
    intro c' hc' hcover hne
    have hmem := (hcovers hc').2 hcover
    rw [hsplit] at hmem hclimb
    rcases List.mem_append.1 hmem with hmem | hmem
    · have habsent := hnone _ hmem
      rw [contains_iff.2 ⟨c', hc', rfl⟩] at habsent
      simp at habsent
    · rcases List.mem_cons.1 hmem with heq | hmem
      · exact absurd heq hne
      · exact List.rel_of_pairwise_cons (List.pairwise_append.1 hclimb).2.1 hmem

omit hindex in
theorem nearest_eq_find? :
    index.nearest path = ((p.lineage.find? index.contains).map index.labelled).getD [] := by
  have htext := (Path.parse_eq_ok_iff.1 hp).2
  rw [← atFirst_eq_find?, Path.lineage, List.map_cons, htext]
  simp only [nearest, hp]

theorem exists_isNearest_iff :
    (∃ label, index.IsNearest path label) ↔
      ∃ c ∈ index.components, Path.Covers c.dataPath path := by
  constructor
  · rintro ⟨_, ⟨c, hc, rfl⟩, hcover, -⟩
    exact ⟨c, hc, hcover⟩
  · rintro ⟨c, hc, hcover⟩
    have hsome : (p.lineage.find? index.contains).isSome = true :=
      List.find?_isSome.2
        ⟨c.dataPath, (mem_lineage_of_covers hindex hp hc).2 hcover, contains_iff.2 ⟨c, hc, rfl⟩⟩
    obtain ⟨label, hlabel⟩ := Option.isSome_iff_exists.1 hsome
    exact ⟨label, (isNearest_iff hindex hp).2 hlabel⟩

end Nearest

/-- The components that show a path are those of the longest label that is the path or an ancestor
of it, in the order in which they were added; there are none exactly if no label is. -/
theorem nearest_longest (find : String → List Capture) (svgs : List (View × String))
    {path : String} {p : Path} (hp : Path.parse path = .ok p) :
    let index := gathered find svgs
    (∀ c ∈ index.components, ∃ q, Path.parse c.dataPath = .ok q) ∧
      (∀ label, index.IsNearest path label →
        index.nearest path = index.components.filter (·.dataPath = label)) ∧
      ((∃ label, index.IsNearest path label) ↔
        ∃ c ∈ index.components, Path.Covers c.dataPath path) ∧
      (index.nearest path = [] ↔ ¬∃ c ∈ index.components, Path.Covers c.dataPath path) ∧
      gathered captures svgs = svgs.foldl (fun index svg => index.add svg.1 svg.2) empty := by
  intro index
  have hindex : index.IsReadable := isReadable_gathered find svgs
  refine ⟨hindex, ?_, exists_isNearest_iff hindex hp, ?_, ?_⟩
  · intro label hlabel
    rw [nearest_eq_find? hp, (isNearest_iff hindex hp).1 hlabel]
    rfl
  · rw [← exists_isNearest_iff hindex hp, nearest_eq_find? hp]
    simp only [isNearest_iff hindex hp]
    cases hfind : p.lineage.find? index.contains with
    | none => simp
    | some label =>
      have hcontains := List.find?_some hfind
      simp [labelled_eq_nil_iff, hcontains]
  · simp only [gathered, gather_captures]

/-- An item whose property has no label, in a slot that is labelled in both diagrams. -/
theorem nearest_longest_slot :
    let svgs := [
      (View.formal, "<g data-path='operation'><g data-path='operation/entities[1]' id='a'>"),
      (.intuitive, "<p data-path='operation/entities[1]'/><q data-path='operation/entities[10]'/>")]
    let path := "operation/entities[1]/k[0]"
    let p := (Path.root.entity 1).item "k" 0
    let index := svgs.foldl (fun index svg => index.add svg.1 svg.2) empty
    Path.parse path = .ok p ∧ index.IsNearest path "operation/entities[1]" ∧
      index.nearest path = index.components.filter (·.dataPath = "operation/entities[1]") ∧
      index.nearest path = [⟨.formal, "operation/entities[1]", some "a", "g"⟩,
        ⟨.intuitive, "operation/entities[1]", none, "p"⟩] := by
  intro svgs path p index
  have hp : Path.parse path = .ok p := by decide +kernel
  obtain ⟨-, hlabel, -, -, hadd⟩ := nearest_longest captures svgs hp
  rw [hadd] at hlabel
  have hindex : index = ⟨[⟨.formal, "operation", none, "g"⟩,
      ⟨.formal, "operation/entities[1]", some "a", "g"⟩,
      ⟨.intuitive, "operation/entities[1]", none, "p"⟩,
      ⟨.intuitive, "operation/entities[10]", none, "q"⟩]⟩ := by decide +kernel
  have hnearest : index.IsNearest path "operation/entities[1]" := by
    rw [hindex]
    exact ⟨by decide +kernel, by decide +kernel, by decide +kernel⟩
  refine ⟨hp, hnearest, hlabel _ hnearest, ?_⟩
  rw [hindex]
  decide +kernel

end Index
end Diagram
end ProblemScript
