import ProblemScript.Editor.Session
import ProblemScript.Proofs.Layout.Loss
import ProblemScript.Proofs.Layout.RoundTrip

/-! Whether text, tree and table of a session belong together. The tree is always the one read from
the text. The table is read off the tree when a text is typed in, but taken from the layout when the
text is laid out; it then belongs to the tree just when the tree laid out was level. -/
namespace ProblemScript.Editor
open Layout

/-- A step of a session. -/
inductive Action where
  | replaceText (text : String)
  | applyEdit (path value : String)
  | reformat
  | setWordProblem (text : String)
  | applyResponse (response : Response)
  | regenerate (service : Request → Except String Response)

/-- What a step does to the script of a session. -/
inductive Effect where
  | keep
  | typed (text : String)
  | laidOut (tree : Node)
deriving DecidableEq, Repr

/-- The effect that counts behind two steps. -/
def Effect.after (e : Effect) : Effect → Effect
  | keep => e
  | e' => e'

namespace Action

/-- The session after a step; a step that fails leaves it as it was. -/
def step (s : Session) : Action → Session
  | replaceText text => s.replaceText text
  | applyEdit path value =>
    match s.applyEdit path value with
    | .ok s' => s'
    | .error _ => s
  | reformat => s.reformat
  | setWordProblem text => s.setWordProblem text
  | applyResponse response => s.applyResponse response
  | regenerate service =>
    match s.regenerate service with
    | .ok s' => s'
    | .error _ => s

def effect (s : Session) : Action → Effect
  | replaceText text => .typed text
  | applyEdit path value =>
    match s.tree.setValue path value with
    | .ok tree => .laidOut tree
    | .error _ => .keep
  | reformat => if s.tree.isPlaceholder then .keep else .laidOut s.tree
  | setWordProblem _ => .keep
  | applyResponse response => .typed response.script
  | regenerate service =>
    match service s.request with
    | .ok response => .typed response.script
    | .error _ => .keep

/-- The effects of a run, in order. -/
def effects (s : Session) : List Action → List Effect
  | [] => []
  | a :: as => a.effect s :: effects (a.step s) as

end Action

/-- The text, tree and table that an effect leaves in a session written with `o`. -/
def Effect.Leaves (o : Options) (s s' : Session) : Effect → Prop
  | keep => s'.text = s.text ∧ s'.tree = s.tree ∧ s'.table = s.table
  | typed text =>
    s'.text = text ∧ s'.tree = Node.ofScript text ∧ s'.table = .ofTree (Node.ofScript text)
  | laidOut tree =>
    s'.text = (document o tree).text ∧ s'.tree = Node.ofScript (document o tree).text ∧
      s'.table = (document o tree).table

theorem Action.leaves_step (s : Session) (a : Action) :
    (a.effect s).Leaves s.layout s (a.step s) := by
  cases a with
  | replaceText text => exact ⟨rfl, rfl, rfl⟩
  | applyEdit path value =>
    rw [effect, step, Session.applyEdit]
    cases s.tree.setValue path value with
    | ok tree => exact ⟨rfl, rfl, rfl⟩
    | error e => exact ⟨rfl, rfl, rfl⟩
  | reformat =>
    rw [effect, step, Session.reformat]
    split
    · exact ⟨rfl, rfl, rfl⟩
    · exact ⟨rfl, rfl, rfl⟩
  | setWordProblem text => exact ⟨rfl, rfl, rfl⟩
  | applyResponse response => exact ⟨rfl, rfl, rfl⟩
  | regenerate service =>
    rw [effect, step, Session.regenerate]
    cases service s.request with
    | ok response => exact ⟨rfl, rfl, rfl⟩
    | error reason => exact ⟨rfl, rfl, rfl⟩

/-- A tree that is laid out in a session is regular, and level if the tree of the session is. -/
theorem Action.regular_of_laidOut {s : Session} (h : s.tree = Node.ofScript s.text) {a : Action}
    {tree : Node} (ha : a.effect s = .laidOut tree) :
    tree.RegularOperation Path.operationWord ∧ (s.tree.IsSettled → tree.IsSettled) := by
  have hcases := Node.ofScript_cases s.text
  rw [← h] at hcases
  cases a with
  | applyEdit path value =>
    unfold effect at ha
    cases hset : s.tree.setValue path value with
    | error e => simp [hset] at ha
    | ok tree' =>
      obtain rfl : tree' = tree := by simpa [hset] using ha
      rcases hcases with ⟨-, hplaceholder⟩ | ⟨hregular, -⟩
      · exact absurd hset (Node.setValue_of_isPlaceholder hplaceholder)
      · exact ⟨(Node.regularOperation_setValue hregular hset).1,
          fun hs => hs.editsTo ⟨path, value, hset⟩⟩
  | reformat =>
    simp only [effect] at ha
    split at ha
    · simp at ha
    · rename_i hplaceholder
      obtain rfl : s.tree = tree := by simpa using ha
      rcases hcases with ⟨-, hplaceholder'⟩ | ⟨hregular, -⟩
      · exact absurd hplaceholder' hplaceholder
      · exact ⟨hregular, id⟩
  | regenerate service =>
    simp only [effect] at ha
    split at ha <;> simp at ha
  | replaceText | setWordProblem | applyResponse => simp [effect] at ha

/-- The tree is the one read from the text, and text and table are those that the last effect left
there. -/
structure Snapshot (s : Session) (e : Effect) : Prop where
  tree : s.tree = Node.ofScript s.text
  table : s.table = .ofTree s.tree ↔ ∀ tree, e = .laidOut tree → tree.IsLevel

theorem Snapshot.step {s : Session} {e : Effect} (h : Snapshot s e) (a : Action) :
    Snapshot (a.step s) (e.after (a.effect s)) := by
  have hleaves := a.leaves_step s
  cases ha : a.effect s with
  | keep =>
    rw [ha] at hleaves
    obtain ⟨htext, htree, htable⟩ := hleaves
    exact ⟨by rw [htree, htext, h.tree], by rw [htree, htable]; exact h.table⟩
  | typed text =>
    rw [ha] at hleaves
    obtain ⟨htext, htree, htable⟩ := hleaves
    exact ⟨by rw [htree, htext], by rw [htable, htree]; simp [Effect.after]⟩
  | laidOut tree =>
    rw [ha] at hleaves
    obtain ⟨htext, htree, htable⟩ := hleaves
    have hiff := table_document_eq_iff (Action.regular_of_laidOut h.tree ha).1 s.layout
    refine ⟨by rw [htree, htext], ?_⟩
    rw [htable, htree, hiff]
    simp [Effect.after]

theorem Snapshot.run {s : Session} {e : Effect} (h : Snapshot s e) (as : List Action) :
    Snapshot (as.foldl Action.step s) ((Action.effects s as).foldl Effect.after e) := by
  induction as generalizing s e with
  | nil => exact h
  | cons a as ih => exact ih (h.step a)

/-- Text, tree and table belong together, and the tree comes back from its layout. -/
structure Whole (s : Session) : Prop where
  tree : s.tree = Node.ofScript s.text
  table : s.table = .ofTree s.tree
  settled : s.tree.IsSettled

theorem Whole.step {s : Session} (h : Whole s) {a : Action}
    (ha : ∀ text, a.effect s = .typed text → Node.RootCloses text) : Whole (a.step s) := by
  have hleaves := a.leaves_step s
  cases he : a.effect s with
  | keep =>
    rw [he] at hleaves
    obtain ⟨htext, htree, htable⟩ := hleaves
    exact ⟨by rw [htree, htext, h.tree], by rw [htree, htable, h.table], htree ▸ h.settled⟩
  | typed text =>
    rw [he] at hleaves
    obtain ⟨htext, htree, htable⟩ := hleaves
    exact ⟨by rw [htree, htext], by rw [htable, htree],
      htree ▸ Node.isSettled_ofScript (ha text he)⟩
  | laidOut tree =>
    rw [he] at hleaves
    obtain ⟨htext, htree, htable⟩ := hleaves
    have hsettled := (Action.regular_of_laidOut h.tree he).2 h.settled
    refine ⟨by rw [htree, htext], ?_, htree ▸ hsettled.ofScript_document s.layout⟩
    rw [htable, htree, (hsettled.rereads s.layout).2]

/-- Nothing comes apart as long as every text typed in closes its root or has none. -/
theorem Whole.run {s : Session} (h : Whole s) {actions : List Action}
    (ha : ∀ text, .typed text ∈ Action.effects s actions → Node.RootCloses text) :
    Whole (actions.foldl Action.step s) := by
  induction actions generalizing s with
  | nil => exact h
  | cons a as ih =>
    refine ih (h.step fun text he => ha text ?_) fun text ht => ha text ?_
    · rw [Action.effects, he]
      exact List.mem_cons_self
    · rw [Action.effects]
      exact List.mem_cons_of_mem _ ht

/-- How a session starts: without text, or over a text as typed. -/
inductive Opening where
  | blank (layout : Options)
  | script (text : String)

namespace Opening

def session : Opening → Session
  | blank layout => .new layout
  | script text => .ofText text

def text : Opening → String
  | blank _ => ""
  | script text => text

theorem tree_session (start : Opening) :
    start.session.tree = Node.ofScript start.text ∧ start.session.text = start.text := by
  cases start <;> exact ⟨rfl, rfl⟩

theorem table_session (start : Opening) : start.session.table = .ofTree start.session.tree := by
  cases start <;> rfl

theorem snapshot (start : Opening) : Snapshot start.session (.typed start.text) := by
  obtain ⟨htree, htext⟩ := start.tree_session
  exact ⟨by rw [htree, htext], fun _ _ h => (nomatch h), fun _ => start.table_session⟩

theorem whole (start : Opening) (h : Node.RootCloses start.text) : Whole start.session := by
  obtain ⟨htree, htext⟩ := start.tree_session
  exact ⟨by rw [htree, htext], start.table_session, htree ▸ Node.isSettled_ofScript h⟩

end Opening

/-- In every session that steps lead to, the tree is the one read from the text. The table belongs
to that tree exactly when the text was typed in or laid out from a level tree; this is always so if
every text typed in closes its root or has none. -/
theorem table_eq_ofTree_iff (start : Opening) (actions : List Action) :
    let s := actions.foldl Action.step start.session
    let effects := Action.effects start.session actions
    s.tree = Node.ofScript s.text ∧
      (s.table = .ofTree s.tree ↔
        ∀ tree, effects.foldl Effect.after (.typed start.text) = .laidOut tree → tree.IsLevel) ∧
      ((∀ text, .typed text ∈ .typed start.text :: effects → Node.RootCloses text) →
        s.table = .ofTree s.tree) := by
  intro s effects
  have h := start.snapshot.run actions
  refine ⟨h.tree, h.table, fun hclosed => ?_⟩
  have hwhole := (start.whole (hclosed _ List.mem_cons_self)).run fun text ht =>
    hclosed text (List.mem_cons_of_mem _ ht)
  exact hwhole.table

/-- An unclosed root: the entity is in the table, but not in the tree. -/
theorem table_ne_ofTree_unclosed :
    let s := [Action.reformat].foldl Action.step (Opening.script "f(e[x: (1]").session
    s.text = "f(\n  e[\n    x: (1\n  ]\n)" ∧ s.table ≠ .ofTree s.tree ∧
      s.table.paths = ["operation", "operation/entities[0]", "operation/entities[0]/x"] ∧
      s.tree.paths = ["operation"] := by
  decide +kernel

end ProblemScript.Editor
