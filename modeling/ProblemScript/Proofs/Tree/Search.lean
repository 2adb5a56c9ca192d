import ProblemScript.Proofs.Layout.RoundTrip
import ProblemScript.Proofs.Tree.Address

/-! The search for a path finds the node that carries it, in scripts and in what edits make of them.
Edits keep a tree regular, so that its nodes carry the paths by which they are reached; and a path
that can be read is written in one way only, so that the search takes the hops to that node. -/
namespace ProblemScript.Node

/-- What edits lead to from a script is the placeholder or regular. -/
theorem regular_of_edits {text : String} {n : Node}
    (hn : Relation.ReflTransGen EditsTo (ofScript text) n) :
    (∃ bytes, n = placeholder bytes) ∨ RegularOperation Path.operationWord n := by
  rcases ofScript_cases text with ⟨hnone, -⟩ | ⟨hregular, -⟩
  · have hroot := ofScript_of_root?_eq_none hnone
    rcases hn.cases_head with rfl | ⟨T, ⟨path, value, hset⟩, -⟩
    · exact .inl ⟨_, hroot⟩
    · rw [hroot] at hset
      exact absurd hset (setValue_of_isPlaceholder rfl)
  · exact .inr (hregular.of_edits hn)

theorem isSearchable_of_edits {text : String} {T : Node}
    (h : Relation.ReflTransGen EditsTo (ofScript text) T) : T.IsSearchable := by
  rcases regular_of_edits h with ⟨bytes, rfl⟩ | hregular
  · exact isSearchable_placeholder bytes
  · exact hregular.isSearchable

/-- A path finds the node that carries it, and nothing else, in every tree that edits lead to from a
script. -/
theorem findText?_exact {text : String} {T : Node}
    (h : Relation.ReflTransGen EditsTo (ofScript text) T) (path : String) :
    (∀ n, T.findText? path = some n → n ∈ T.nodes ∧ n.path = path) ∧
      ((∃ p, Path.parse path = .ok p) →
        ∀ n ∈ T.nodes, n.path = path → T.findText? path = some n) := by
  have hT := isSearchable_of_edits h
  constructor
  · intro n hn
    exact path_of_findText? hT.labelled hT.path hn
  · rintro ⟨p, hp⟩ n hn rfl
    obtain ⟨hformed, htext⟩ := Path.parse_eq_ok_iff.1 hp
    obtain ⟨q, is, hlead⟩ := hT.reached n hn
    have hcarries := hlead.carries hT.labelled hT.path
    obtain rfl := Path.eq_of_text_eq hformed.isNamed hcarries.named (htext.trans hcarries.path)
    rw [findText?, hp]
    exact hlead.find?_eq_some

/-- A list made by an edit, beside a property with a longer key and one without a name. -/
theorem findText?_exact_edited :
    let S := ofScript "f(e[k: a, k_x: 1, : c], g(e[k: 2]))"
    let T := (S.setValue "operation/entities[0]/k" "p, q").toOption.getD default
    let path := "operation/entities[0]/k[1]"
    let n : Node := ⟨.property, path, ⟨2, 22⟩, some "q", []⟩
    Relation.ReflTransGen EditsTo S T ∧ (∃ p, Path.parse path = .ok p) ∧ n ∈ T.nodes ∧
      T.findText? path = some n ∧ S.findText? path = none ∧
      (∀ m, T.findText? "operation/entities[0]/" = some m →
        m ∈ T.nodes ∧ m.path = "operation/entities[0]/") := by
  intro S T path n
  have hset : S.setValue "operation/entities[0]/k" "p, q" = .ok T := by decide +kernel
  have hedits : Relation.ReflTransGen EditsTo S T := .single ⟨_, _, hset⟩
  have hread : Path.parse path = .ok ((Path.root.entity 0).item "k" 1) := by decide +kernel
  have hmem : n ∈ T.nodes := by decide +kernel
  have hfound := (findText?_exact hedits path).2 ⟨_, hread⟩ n hmem rfl
  exact ⟨hedits, ⟨_, hread⟩, hmem, hfound, by decide +kernel, (findText?_exact hedits _).1⟩

end ProblemScript.Node
