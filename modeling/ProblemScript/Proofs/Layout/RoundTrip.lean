import Mathlib.Logic.Relation
import ProblemScript.Proofs.Layout.Reread
import ProblemScript.Proofs.Layout.Shape
import ProblemScript.Proofs.Tree.Edit

/-! Scripts whose root is closed, and all trees edited from them, come back from their layout, in
either style and however wide the indent. Of a script whose root is not closed, the paths and values
are still those of the table. -/
namespace ProblemScript
open Layout

namespace Node

/-- The tree comes back from its layout: it is the placeholder, or it is regular and level. -/
def IsSettled (n : Node) : Prop :=
  (∃ bytes, n = placeholder bytes) ∨ (RegularOperation Path.operationWord n ∧ n.IsLevel)

theorem ofScript_of_root?_eq_none {text : String} (h : Call.root? text.toList = none) :
    ofScript text = placeholder (Text.byteLength text.toList) := by
  rw [ofScript, h]

theorem isSettled_ofScript {text : String} (h : RootCloses text) : (ofScript text).IsSettled := by
  rcases ofScript_cases text with ⟨hnone, -⟩ | ⟨hregular, hlevel⟩
  · exact .inl ⟨_, ofScript_of_root?_eq_none hnone⟩
  · exact .inr ⟨hregular, hlevel h⟩

/-- The tree `b` comes from `a` by a successful edit. -/
def EditsTo (a b : Node) : Prop := ∃ path value, a.setValue path value = .ok b

theorem RegularOperation.of_edits {path : String} {T n : Node} (h : RegularOperation path T)
    (hn : Relation.ReflTransGen EditsTo T n) : RegularOperation path n := by
  induction hn with
  | refl => exact h
  | tail _ hstep ih =>
    obtain ⟨p, value, hset⟩ := hstep
    exact (regularOperation_setValue ih hset).1

theorem IsSettled.editsTo {a b : Node} (h : a.IsSettled) (hab : a.EditsTo b) : b.IsSettled := by
  obtain ⟨path, value, hset⟩ := hab
  rcases h with ⟨bytes, rfl⟩ | ⟨hregular, hlevel⟩
  · exact absurd hset (setValue_of_isPlaceholder rfl)
  · obtain ⟨hregular', hlevel'⟩ := regularOperation_setValue hregular hset
    exact .inr ⟨hregular', hlevel' hlevel⟩

theorem isSettled_of_edits {text : String} (h : RootCloses text) {n : Node}
    (hn : Relation.ReflTransGen EditsTo (ofScript text) n) : n.IsSettled := by
  induction hn with
  | refl => exact isSettled_ofScript h
  | tail _ hstep ih => exact ih.editsTo hstep

/-- A settled tree comes back from its layout with its shape and with the ranges marked. -/
theorem IsSettled.rereads {n : Node} (h : n.IsSettled) (o : Options) :
    (ofScript (document o n).text).shape = n.shape ∧
      (document o n).table = .ofTree (ofScript (document o n).text) := by
  rcases h with ⟨bytes, rfl⟩ | ⟨hregular, hlevel⟩
  · exact ⟨rfl, rfl⟩
  · exact rereads_document hregular hlevel o

theorem IsSettled.isLevel {n : Node} (h : n.IsSettled) : n.IsLevel := by
  rcases h with ⟨bytes, rfl⟩ | ⟨-, hlevel⟩
  · exact (isLevel_iff _).2 ⟨nofun, by simp [placeholder]⟩
  · exact hlevel

/-- What is read from the layout of a settled tree is settled. -/
theorem IsSettled.ofScript_document {n : Node} (h : n.IsSettled) (o : Options) :
    (ofScript (document o n).text).IsSettled := by
  rcases ofScript_cases (document o n).text with ⟨hnone, -⟩ | ⟨hregular, -⟩
  · exact .inl ⟨_, ofScript_of_root?_eq_none hnone⟩
  · refine .inr ⟨hregular, ?_⟩
    rw [← isLevel_shape, (h.rereads o).1, isLevel_shape]
    exact h.isLevel

theorem outline_eq_of_shape_eq {m n : Node} (h : m.shape = n.shape) : m.outline = n.outline := by
  rw [← outline_shape, h, outline_shape]

end Node

namespace Layout

/-- Laying a script out and reading it again keeps its outline, and so does doing it once more. -/
theorem outline_ofScript_document (text : String) (h : Node.RootCloses text) (o₁ o₂ : Options) :
    (Node.ofScript text).outline =
        (Node.ofScript (document o₁ (Node.ofScript text)).text).outline ∧
      (Node.ofScript (document o₁ (Node.ofScript text)).text).outline =
        (Node.ofScript
          (document o₂ (Node.ofScript (document o₁ (Node.ofScript text)).text)).text).outline := by
  have hsettled := Node.isSettled_ofScript h
  have hfirst := (hsettled.rereads o₁).1
  have hsecond := (hsettled.rereads o₂).1
  refine ⟨Node.outline_eq_of_shape_eq hfirst.symm, Node.outline_eq_of_shape_eq ?_⟩
  -- The second layout is that of a tree of the same shape as the first one.
  rw [document_congr hfirst o₂, hsecond, hfirst]

/-- Brackets of two kinds paired up, a closing bracket before its opening one, a colon in a value
and a nested call. -/
theorem outline_ofScript_document_mismatched :
    let text := "f(e[a: ]x[, b: u:v (p, q], c: d, y], g(r[k: (1]]))"
    let once := (document {} (Node.ofScript text)).text
    Node.RootCloses text ∧ (Node.ofScript text).outline.length = 10 ∧
      (Node.ofScript text).outline = (Node.ofScript once).outline ∧
      (Node.ofScript once).outline =
        (Node.ofScript (document .minified (Node.ofScript once)).text).outline :=
  ⟨by decide +kernel, by decide +kernel,
    outline_ofScript_document _ (by decide +kernel) {} .minified⟩

/-- The table of a layout is the one that reading its text gives, for every tree that edits lead to
from a script whose root is closed. -/
theorem table_document_eq_ofTree (text : String) (h : Node.RootCloses text) (n : Node)
    (hn : Relation.ReflTransGen Node.EditsTo (Node.ofScript text) n) (o : Options) :
    (document o n).table = .ofTree (Node.ofScript (document o n).text) :=
  ((Node.isSettled_of_edits h hn).rereads o).2

/-- A list of two items is set in place of a single one. -/
theorem table_document_eq_ofTree_edited :
    ∃ n, (Node.ofScript "f(e[a: ]x[, c: d])").setValue "operation/entities[0]/c" "1, (2)" = .ok n ∧
      (document .minified n).table = .ofTree (Node.ofScript (document .minified n).text) := by
  have hok : ((Node.ofScript "f(e[a: ]x[, c: d])").setValue "operation/entities[0]/c"
      "1, (2)").isOk = true := by decide +kernel
  cases hset : (Node.ofScript "f(e[a: ]x[, c: d])").setValue "operation/entities[0]/c" "1, (2)" with
  | error e => rw [hset] at hok; simp [Except.isOk, Except.toBool] at hok
  | ok n =>
    refine ⟨n, rfl, ?_⟩
    apply table_document_eq_ofTree "f(e[a: ]x[, c: d])" (by decide +kernel)
    exact .single ⟨_, _, hset⟩

/-- The table of a layout names the nodes of the tree and no others, in their order and with their
values, whether or not the script was closed and whatever edits were made. -/
theorem labels_table_document (text : String) (h : (Node.ofScript text).isPlaceholder = false)
    (n : Node) (hn : Relation.ReflTransGen Node.EditsTo (Node.ofScript text) n) (o : Options) :
    (document o n).table.entries.map (fun e => (e.1, e.2.value)) =
      n.nodes.map fun m => (m.path, m.value) := by
  rcases Node.ofScript_cases text with ⟨-, hplaceholder⟩ | ⟨hregular, -⟩
  · rw [hplaceholder] at h
    simp at h
  · exact labels_document (hregular.of_edits hn) o

/-- A root that is not closed, a segment that is passed over, and a list of three items that an edit
makes one, beside a list of two that an edit makes. -/
theorem labels_table_document_unclosed :
    let text := "f(e[k: a, l: 1, 2, 3], ?, g(r[m: (]), s["
    let once := ((Node.ofScript text).setValue "operation/entities[0]/l" "0").toOption.getD default
    let n := (once.setValue "operation/entities[0]/k" "p, q").toOption.getD default
    ¬Node.RootCloses text ∧ (Node.ofScript text).isPlaceholder = false ∧
      Relation.ReflTransGen Node.EditsTo (Node.ofScript text) n ∧
      (document {} n).table.entries.map (fun e => (e.1, e.2.value)) =
        n.nodes.map fun m => (m.path, m.value) := by
  intro text once n
  have hopen : ¬Node.RootCloses text := by decide +kernel
  have hroot : (Node.ofScript text).isPlaceholder = false := by decide +kernel
  have hfirst : (Node.ofScript text).setValue "operation/entities[0]/l" "0" = .ok once := by
    decide +kernel
  have hsecond : once.setValue "operation/entities[0]/k" "p, q" = .ok n := by decide +kernel
  have hedits : Relation.ReflTransGen Node.EditsTo (Node.ofScript text) n :=
    .tail (.single ⟨_, _, hfirst⟩) ⟨_, _, hsecond⟩
  exact ⟨hopen, hroot, hedits, labels_table_document text hroot n hedits {}⟩

end Layout
end ProblemScript
