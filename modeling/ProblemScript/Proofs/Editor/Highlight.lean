import ProblemScript.Editor.Selection
import ProblemScript.Proofs.Editor.Snapshot
import ProblemScript.Proofs.RangeTable
import ProblemScript.Proofs.Tree.Cursor

/-! What is highlighted belongs to the session. A path is looked up in the tree but its range comes
from the table, which may have been written by the layout; both lead to the same node as long as
text, tree and table belong together. -/
namespace ProblemScript.Editor

/-- A session and what is selected in it. -/
structure Screen where
  session : Session
  selection : Selection
deriving DecidableEq

/-- A step of the session or of the selection. -/
inductive Event where
  | start (opening : Opening)
  | act (action : Action)
  | select (path : String)
  | selectAt (offset : Nat)
  | refresh
  | clear

namespace Event

/-- The screen after a step. The selection does not notice when the session changes. -/
def step (e : Screen) : Event → Screen
  | start opening => { e with session := opening.session }
  | act action => { e with session := action.step e.session }
  | select path => { e with selection := (e.selection.select e.session path).1 }
  | selectAt offset => { e with selection := (e.selection.selectAt e.session offset).1 }
  | refresh => { e with selection := e.selection.refresh e.session }
  | clear => { e with selection := e.selection.clear }

/-- The script that a step hands to the session. -/
def script? (e : Screen) : Event → Option String
  | start opening => some opening.text
  | act action =>
    match action.effect e.session with
    | .typed text => some text
    | _ => none
  | _ => none

/-- The scripts that a run hands to the session, in order. -/
def scripts (e : Screen) : List Event → List String
  | [] => []
  | v :: vs => (v.script? e).toList ++ scripts (v.step e) vs

end Event

namespace Selection
variable {sel sel' : Selection} {s : Session} {path : String} {offset : Nat}

theorem exists_of_select (h : sel.select s path = (sel', true)) :
    ∃ n, s.tree.findText? path = some n := by
  unfold select at h
  cases hfound : s.tree.findText? path with
  | none => simp [hfound] at h
  | some n => exact ⟨n, rfl⟩

theorem path_of_select_eq_false (h : sel.select s path = (sel', false)) :
    sel'.path = none ∧ s.tree.findText? path = none := by
  unfold select at h
  cases hfound : s.tree.findText? path with
  | none =>
    obtain rfl : sel.clear = sel' := by simpa [hfound] using h
    exact ⟨rfl, rfl⟩
  | some n => simp [hfound] at h

theorem exists_of_selectAt (h : sel.selectAt s offset = (sel', true)) :
    ∃ path, s.resolve? offset = some path ∧ sel.select s path = (sel', true) := by
  unfold selectAt at h
  cases hresolve : s.resolve? offset with
  | none => simp [hresolve] at h
  | some path => exact ⟨path, rfl, by simpa [hresolve] using h⟩

theorem path_of_selectAt_eq_false (h : sel.selectAt s offset = (sel', false)) :
    sel'.path = none ∧ ∀ path, s.resolve? offset = some path → s.tree.findText? path = none := by
  unfold selectAt at h
  cases hresolve : s.resolve? offset with
  | none =>
    obtain rfl : sel.clear = sel' := by simpa [hresolve] using h
    exact ⟨rfl, by simp⟩
  | some path =>
    obtain ⟨hnone, hfound⟩ := path_of_select_eq_false (by simpa [hresolve] using h)
    exact ⟨hnone, by simpa using hfound⟩

theorem refresh_eq (hpath : sel.path = some path) : sel.refresh s = (sel.select s path).1 := by
  rw [refresh, hpath]

/-- What is selected after a refresh was selected before, and its path leads to a node. -/
theorem exists_of_refresh (h : (sel.refresh s).path = some path) :
    sel.path = some path ∧ ∃ n, s.tree.findText? path = some n := by
  cases hpath : sel.path with
  | none => simp [refresh, hpath] at h
  | some p =>
    rw [refresh_eq hpath] at h
    cases hfound : s.tree.findText? p with
    | none => simp [select, hfound, clear, new] at h
    | some n =>
      obtain rfl : p = path := by simpa [select, hfound] using h
      exact ⟨rfl, n, hfound⟩

/-- A refresh drops the selected path exactly if it leads nowhere. -/
theorem path_refresh_eq_none_iff (hpath : sel.path = some path) :
    (sel.refresh s).path = none ↔ s.tree.findText? path = none := by
  rw [refresh_eq hpath, select]
  cases s.tree.findText? path with
  | none => simp [clear, new]
  | some n => simp

/-- Nothing is highlighted unless something is selected. -/
def IsQuiet (sel : Selection) : Prop := sel.path = none → sel.highlights = {}

theorem isQuiet_clear (sel : Selection) : sel.clear.IsQuiet := fun _ => rfl

theorem isQuiet_select (sel : Selection) (s : Session) (path : String) :
    (sel.select s path).1.IsQuiet := by
  unfold select
  cases s.tree.findText? path with
  | none => exact isQuiet_clear sel
  | some n => simp [IsQuiet]

theorem isQuiet_selectAt (sel : Selection) (s : Session) (offset : Nat) :
    (sel.selectAt s offset).1.IsQuiet := by
  unfold selectAt
  cases s.resolve? offset with
  | none => exact isQuiet_clear sel
  | some path => exact isQuiet_select sel s path

theorem IsQuiet.refresh (h : sel.IsQuiet) (s : Session) : (sel.refresh s).IsQuiet := by
  unfold Selection.refresh
  cases sel.path with
  | none => exact h
  | some path => exact isQuiet_select sel s path

end Selection

/-- The selected path is that of a node in the tree of the session, whose range is highlighted. -/
structure Marks (s : Session) (sel : Selection) (path : String) (n : Node) : Prop where
  selected : sel.path = some path
  found : s.tree.findText? path = some n
  mem : n ∈ s.tree.nodes
  path_eq : n.path = path
  script : s.tree.isPlaceholder = false → sel.highlights.script = [n.span]

namespace Whole
variable {s : Session} (h : Whole s)

include h

theorem nodup_paths : s.tree.paths.Nodup := by
  rw [h.tree]
  exact Node.nodup_paths_ofScript s.text

/-- The table knows the range of every node. -/
theorem range?_of_mem (hscript : s.tree.isPlaceholder = false) {n : Node} (hn : n ∈ s.tree.nodes) :
    s.table.range? n.path = some n.span := by
  have hmem : (n.path, ⟨n.span, n.value⟩) ∈ s.table.entries := by
    rw [h.table, RangeTable.entries_ofTree hscript h.nodup_paths]
    exact List.mem_map_of_mem hn
  rw [RangeTable.range?, RangeTable.get?_of_mem hmem, Option.map_some]

theorem marks_select {path : String} {n : Node} (hn : s.tree.findText? path = some n)
    (sel : Selection) : Marks s (sel.select s path).1 path n := by
  have hfound : n ∈ s.tree.nodes ∧ n.path = path := by
    rw [h.tree] at hn ⊢
    exact Node.path_of_findText? (Node.isLabelled_ofScript s.text)
      (Node.kind_path_ofScript s.text).2 hn
  obtain ⟨hmem, hpath⟩ := hfound
  refine ⟨?_, hn, hmem, hpath, fun hscript => ?_⟩
  · rw [Selection.select, hn]
  · have hrange := h.range?_of_mem hscript hmem
    rw [hpath] at hrange
    simp [Selection.select, hn, Selection.highlightsOf, hrange]

/-- The path under an offset belongs to one node only, and that holds the offset. -/
theorem contains_of_resolve? {offset : Nat} {path : String}
    (hresolve : s.resolve? offset = some path) {n : Node} (hn : n ∈ s.tree.nodes)
    (hpath : n.path = path) : n.span.contains offset = true := by
  obtain ⟨m, hm, hmpath⟩ := Option.map_eq_some_iff.1 hresolve
  obtain ⟨ho, hm⟩ := Option.ite_none_right_eq_some.1 hm
  obtain rfl := Option.some.inj hm
  have hsame : n = s.tree.innermost offset := List.inj_on_of_nodup_map h.nodup_paths hn
    (Node.innermost_mem_nodes offset s.tree) (hpath.trans hmpath.symm)
  rw [hsame]
  exact Node.contains_innermost ho

end Whole

/-- The session is in order, and nothing is highlighted unless something is selected. -/
structure Coherent (e : Screen) : Prop where
  whole : Whole e.session
  quiet : e.selection.IsQuiet

namespace Coherent

theorem step {e : Screen} (h : Coherent e) {v : Event}
    (hv : ∀ text ∈ v.script? e, Node.RootCloses text) : Coherent (v.step e) := by
  obtain ⟨hwhole, hquiet⟩ := h
  cases v with
  | start opening => exact ⟨opening.whole (hv _ rfl), hquiet⟩
  | act action =>
    refine ⟨hwhole.step fun text htyped => hv text ?_, hquiet⟩
    simp [Event.script?, htyped]
  | select path => exact ⟨hwhole, e.selection.isQuiet_select e.session path⟩
  | selectAt offset => exact ⟨hwhole, e.selection.isQuiet_selectAt e.session offset⟩
  | refresh => exact ⟨hwhole, hquiet.refresh e.session⟩
  | clear => exact ⟨hwhole, e.selection.isQuiet_clear⟩

theorem run {e : Screen} (h : Coherent e) {events : List Event}
    (hscripts : ∀ text ∈ Event.scripts e events, Node.RootCloses text) :
    Coherent (events.foldl Event.step e) := by
  induction events generalizing e with
  | nil => exact h
  | cons v vs ih =>
    refine ih (h.step fun text ht => hscripts text ?_) fun text ht => hscripts text ?_
    · exact List.mem_append_left _ (Option.mem_toList.2 ht)
    · exact List.mem_append_right _ ht

end Coherent

/-- In every screen that steps lead to, if every script handed in closes its root or has none,
nothing is highlighted unless something is selected. A path that is selected next, or is still
selected when the highlights are brought up to date, is that of a node in the tree with its range
highlighted; under an offset that node holds the offset. Nothing is selected if the path leads to no
node, and only then. -/
theorem highlights_follow_session (opening : Opening) (matching : Prose.Options)
    (events : List Event)
    (hscripts : ∀ text ∈ opening.text :: Event.scripts ⟨opening.session, .new matching⟩ events,
      Node.RootCloses text) :
    let e := events.foldl Event.step ⟨opening.session, .new matching⟩
    let refreshed := e.selection.refresh e.session
    (e.selection.path = none → e.selection.highlights = {}) ∧
      (∀ path sel, e.selection.select e.session path = (sel, true) →
        ∃ n, Marks e.session sel path n) ∧
      (∀ path sel, e.selection.select e.session path = (sel, false) →
        sel.path = none ∧ e.session.tree.findText? path = none) ∧
      (∀ offset sel, e.selection.selectAt e.session offset = (sel, true) →
        ∃ path n, e.session.resolve? offset = some path ∧ Marks e.session sel path n ∧
          n.span.contains offset = true) ∧
      (∀ offset sel, e.selection.selectAt e.session offset = (sel, false) →
        sel.path = none ∧ ∀ path, e.session.resolve? offset = some path →
          e.session.tree.findText? path = none) ∧
      (∀ path, refreshed.path = some path → ∃ n, Marks e.session refreshed path n) ∧
      (∀ path, e.selection.path = some path →
        (refreshed.path = none ↔ e.session.tree.findText? path = none)) := by
  intro e refreshed
  have hstart : Coherent ⟨opening.session, .new matching⟩ :=
    ⟨opening.whole (hscripts _ List.mem_cons_self), fun _ => rfl⟩
  obtain ⟨hwhole, hquiet⟩ : Coherent e :=
    hstart.run fun text ht => hscripts text (List.mem_cons_of_mem _ ht)
  have hselect : ∀ path sel, e.selection.select e.session path = (sel, true) →
      ∃ n, Marks e.session sel path n := by
    intro path sel hsel
    obtain ⟨n, hn⟩ := Selection.exists_of_select hsel
    have hmarks := hwhole.marks_select hn e.selection
    rw [hsel] at hmarks
    exact ⟨n, hmarks⟩
  refine ⟨hquiet, hselect, fun _ _ => Selection.path_of_select_eq_false, ?_,
    fun _ _ => Selection.path_of_selectAt_eq_false, ?_, fun _ => Selection.path_refresh_eq_none_iff⟩
  · intro offset sel hsel
    obtain ⟨path, hresolve, hsel⟩ := Selection.exists_of_selectAt hsel
    obtain ⟨n, hmarks⟩ := hselect path sel hsel
    exact ⟨path, n, hresolve, hmarks,
      hwhole.contains_of_resolve? hresolve hmarks.mem hmarks.path_eq⟩
  · intro path hpath
    obtain ⟨hselected, n, hn⟩ := Selection.exists_of_refresh hpath
    have hmarks := hwhole.marks_select hn e.selection
    rw [← Selection.refresh_eq hselected] at hmarks
    exact ⟨n, hmarks⟩

/-- A script is typed in, a property is selected in it, and an edit elsewhere moves the property:
the old range stays highlighted until the highlights are brought up to date. -/
theorem refresh_edited :
    let start : Screen := ⟨(Opening.blank {}).session, .new {}⟩
    let events := [.act (.replaceText "f(e[a: 1],\n g[b: x])"), .selectAt 15,
      .act (.applyEdit "operation/entities[0]/a" "two")]
    let e := events.foldl Event.step start
    let refreshed := e.selection.refresh e.session
    Event.scripts start events = ["f(e[a: 1],\n g[b: x])"] ∧
      e.selection.path = some "operation/entities[1]/b" ∧
      e.selection.highlights.script = [⟨12, 19⟩] ∧
      refreshed.path = some "operation/entities[1]/b" ∧
      refreshed.highlights.script = [⟨29, 37⟩] := by
  decide +kernel

/-- In that run the path is that of a node in the new tree again. -/
theorem highlights_follow_session_edited :
    let start : Screen := ⟨(Opening.blank {}).session, .new {}⟩
    let events := [.act (.replaceText "f(e[a: 1],\n g[b: x])"), .selectAt 15,
      .act (.applyEdit "operation/entities[0]/a" "two")]
    let e := events.foldl Event.step start
    (∀ text ∈ (Opening.blank {}).text :: Event.scripts start events, Node.RootCloses text) ∧
      ∃ n, Marks e.session (e.selection.refresh e.session) "operation/entities[1]/b" n := by
  intro start events e
  obtain ⟨hscripts, -, -, hpath, -⟩ := refresh_edited
  have hclosed : ∀ text ∈ (Opening.blank {}).text :: Event.scripts start events,
      Node.RootCloses text := by
    rw [hscripts]
    decide +kernel
  obtain ⟨-, -, -, -, -, hrefresh, -⟩ := highlights_follow_session (.blank {}) {} events hclosed
  exact ⟨hclosed, hrefresh _ hpath⟩

end ProblemScript.Editor
