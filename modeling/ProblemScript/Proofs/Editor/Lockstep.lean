import ProblemScript.Editor.Session
import ProblemScript.Proofs.Layout.RoundTrip

/-! Editing through the text comes to editing the tree. A session lays its text out and reads it
again at every edit; its tree stays of the shape that the same edits give when nothing is written
down in between. -/
namespace ProblemScript.Editor
open Layout

/-- A step that changes a script by its tree. -/
inductive Revision where
  | edit (path value : String)
  | reformat
deriving DecidableEq, Repr

namespace Revision

/-- The session after a step; a refused edit leaves it as it was. -/
def onSession (s : Session) : Revision → Session
  | edit path value =>
    match s.applyEdit path value with
    | .ok s' => s'
    | .error _ => s
  | reformat => s.reformat

/-- The tree after a step; a refused edit leaves it as it was. -/
def onTree (tree : Node) : Revision → Node
  | edit path value =>
    match tree.setValue path value with
    | .ok tree' => tree'
    | .error _ => tree
  | reformat => tree

end Revision

/-- The session writes with the options `o`, and its tree has the shape of `tree`. -/
structure Follows (o : Options) (s : Session) (tree : Node) : Prop where
  layout : s.layout = o
  shape : s.tree.shape = tree.shape
  regular : tree.RegularOperation Path.operationWord
  level : tree.IsLevel

namespace Follows

variable {o : Options} {s : Session} {tree : Node}

theorem start {text : String} (hroot : (Call.root? text.toList).isSome = true)
    (h : Node.RootCloses text) (o : Options) :
    Follows o ((Session.new o).replaceText text) (Node.ofScript text) := by
  rcases Node.ofScript_cases text with ⟨hnone, -⟩ | ⟨hregular, hlevel⟩
  · simp [hnone] at hroot
  · exact ⟨rfl, rfl, hregular, hlevel h⟩

/-- Taking over the layout of a tree, the session follows that tree. -/
theorem adopt (hlayout : s.layout = o) (hregular : tree.RegularOperation Path.operationWord)
    (hlevel : tree.IsLevel) : Follows o (s.adopt (document o tree)) tree :=
  ⟨hlayout, (rereads_document hregular hlevel o).1, hregular, hlevel⟩

theorem isPlaceholder_eq_false (h : Follows o s tree) : s.tree.isPlaceholder = false := by
  rw [← Node.isPlaceholder_shape, h.shape, Node.isPlaceholder_shape]
  exact h.regular.isPlaceholder_eq_false

theorem reformat_eq (h : Follows o s tree) : s.reformat = s.adopt (document o tree) := by
  rw [Session.reformat, h.isPlaceholder_eq_false, if_neg (by simp), h.layout,
    document_congr h.shape]

/-- An edit of the session succeeds or fails as the edit of the tree does. -/
theorem applyEdit_eq (h : Follows o s tree) (path value : String) :
    s.applyEdit path value =
      match tree.setValue path value with
      | .ok tree' => .ok (s.adopt (document o tree'))
      | .error e => .error (.edit e) := by
  have hshape : (s.tree.setValue path value).map Node.shape =
      (tree.setValue path value).map Node.shape := by
    rw [← Node.setValue_shape, h.shape, Node.setValue_shape]
  rw [Session.applyEdit, h.layout]
  cases hs : s.tree.setValue path value with
  | error e =>
    cases ht : tree.setValue path value with
    | error e' => simpa [hs, ht, Except.map] using hshape
    | ok tree' => simp [hs, ht, Except.map] at hshape
  | ok m =>
    cases ht : tree.setValue path value with
    | error e' => simp [hs, ht, Except.map] at hshape
    | ok tree' =>
      have hm : m.shape = tree'.shape := by simpa [hs, ht, Except.map] using hshape
      simp only [document_congr hm]

/-- One step keeps session and tree together. -/
theorem step (h : Follows o s tree) (r : Revision) :
    Follows o (r.onSession s) (r.onTree tree) := by
  cases r with
  | reformat =>
    rw [Revision.onSession, h.reformat_eq]
    exact adopt h.layout h.regular h.level
  | edit path value =>
    rw [Revision.onSession, Revision.onTree, h.applyEdit_eq]
    cases hset : tree.setValue path value with
    | error e => exact h
    | ok tree' =>
      obtain ⟨hregular, hlevel⟩ := Node.regularOperation_setValue h.regular hset
      exact adopt h.layout hregular (hlevel h.level)

theorem run (h : Follows o s tree) (rs : List Revision) :
    Follows o (rs.foldl Revision.onSession s) (rs.foldl Revision.onTree tree) := by
  induction rs generalizing s tree with
  | nil => exact h
  | cons r rs ih => exact ih (h.step r)

end Follows

/-- A regular tree on one line starts and ends with something to see. -/
theorem nonBlank?_minify {tree : Node} (h : tree.RegularOperation Path.operationWord) :
    Session.nonBlank? (minify tree) = some (minify tree) := by
  have hchars : (minify tree).toList = (draft .minified tree).chars := by
    rw [minify, document, Document.ofDraft, String.toList_ofList]
  obtain ⟨helement, -⟩ := isElement_operationDraft h .minified Path.operationWord 0 0
  rw [← draft_eq h] at helement
  have htrim : Text.trimmed (minify tree) = minify tree := by
    rw [Text.trimmed, hchars, helement.trimmed, ← hchars, String.ofList_toList]
  have hne : (minify tree).isEmpty = false := by
    rw [Bool.eq_false_iff, ne_eq, String.isEmpty_iff]
    intro he
    rw [he] at hchars
    exact helement.nonempty hchars.symm
  rw [Session.nonBlank?, htrim, hne]
  rfl

theorem Follows.request_script {o : Options} {s : Session} {tree : Node} (h : Follows o s tree) :
    s.request.script = some (minify tree) := by
  have hminify : minify s.tree = minify tree := by rw [minify, document_congr h.shape, minify]
  simp only [Session.request, h.isPlaceholder_eq_false, Bool.false_eq_true, if_false, hminify]
  exact nonBlank?_minify h.regular

/-- Session and tree go through the same steps, in every run: the outline and the script sent out
are those of the tree, an edit is accepted or refused alike, and what is written down is the layout
of the tree. -/
theorem session_agrees_with_tree (text : String)
    (hroot : (Call.root? text.toList).isSome = true) (hclosed : Node.RootCloses text)
    (o : Options) (rs : List Revision) :
    let s := rs.foldl Revision.onSession ((Session.new o).replaceText text)
    let tree := rs.foldl Revision.onTree (Node.ofScript text)
    s.layout = o ∧ s.tree.outline = tree.outline ∧ s.request.script = some (minify tree) ∧
      (∀ path value,
        match tree.setValue path value with
        | .ok tree' =>
          s.applyEdit path value = .ok (Revision.onSession s (.edit path value)) ∧
            (Revision.onSession s (.edit path value)).text = (document o tree').text ∧
            (Revision.onSession s (.edit path value)).table = (document o tree').table
        | .error e =>
          s.applyEdit path value = .error (.edit e) ∧
            Revision.onSession s (.edit path value) = s) ∧
      (Revision.onSession s .reformat).text = (document o tree).text ∧
      (Revision.onSession s .reformat).table = (document o tree).table := by
  intro s tree
  have h : Follows o s tree := (Follows.start hroot hclosed o).run rs
  refine ⟨h.layout, Node.outline_eq_of_shape_eq h.shape, h.request_script, ?_, ?_, ?_⟩
  · intro path value
    have hedit := h.applyEdit_eq path value
    cases hset : tree.setValue path value with
    | error e =>
      simp only [hset] at hedit
      simp only [Revision.onSession, hedit, and_self]
    | ok tree' =>
      simp only [hset] at hedit
      simp only [Revision.onSession, hedit, true_and]
      exact ⟨rfl, rfl⟩
  · rw [Revision.onSession, h.reformat_eq]
    rfl
  · rw [Revision.onSession, h.reformat_eq]
    rfl

/-- An edit that makes a list, a layout, and an edit that is refused. -/
theorem session_agrees_with_tree_of_list :
    let rs : List Revision := [.edit "operation/entities[0]/c" "1, (2)", .reformat,
      .edit "operation/entities[0]/c[7]" "x"]
    let s := rs.foldl Revision.onSession ((Session.new {}).replaceText "f(e[a: ]x[, c: d])")
    let tree := rs.foldl Revision.onTree (Node.ofScript "f(e[a: ]x[, c: d])")
    minify tree = "f(e[a: ]x[, c: 1, (2)])" ∧ s.tree.outline = tree.outline ∧
      s.request.script = some (minify tree) := by
  intro rs s tree
  obtain ⟨-, houtline, hscript, -⟩ := session_agrees_with_tree "f(e[a: ]x[, c: d])"
    (by decide +kernel) (by decide +kernel) {} rs
  exact ⟨by decide +kernel, houtline, hscript⟩

end ProblemScript.Editor
