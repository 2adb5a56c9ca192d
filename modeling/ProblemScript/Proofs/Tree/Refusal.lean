import ProblemScript.Proofs.Tree.Change

/-! When an edit is refused. A path that cannot be read comes first, then a value that cannot stand
where the path ends, then a path that leads nowhere, and last the placeholder, which takes no name.
An item is set within its property, so that nothing is asked of the item itself. -/
namespace ProblemScript
open Text

/-- The value can stand behind the step. Operations and entities have identifiers for names; the
items of a property have brackets that pair up and no keys; an item is replaced by one item. -/
def Step.Admits (value : String) : Step → Prop
  | operation | entity _ => isIdentifier (trimmed value).toList = true
  | property _ none =>
    ∀ x ∈ Value.items value.toList,
      Bracket.isBalanced x.toList = true ∧ Value.splitKey? x.toList = none
  | property _ (some _) =>
    (Value.items value.toList).length = 1 ∧ ∀ x ∈ Value.items value.toList,
      Bracket.isBalanced x.toList = true ∧ Value.splitKey? x.toList = none

instance (value : String) (s : Step) : Decidable (s.Admits value) :=
  match s with
  | .operation | .entity _ => inferInstanceAs (Decidable (_ = _))
  | .property _ none => inferInstanceAs (Decidable (∀ x ∈ _, _))
  | .property _ (some _) => inferInstanceAs (Decidable (_ ∧ _))

/-- The step is to an item of a property. -/
def Step.isItem : Step → Bool
  | property _ (some _) => true
  | _ => false

theorem Value.isPlain_iff (x : String) :
    isPlain x = true ↔ Bracket.isBalanced x.toList = true ∧ splitKey? x.toList = none := by
  simp [isPlain]

/-- A value makes a change exactly where it can stand. -/
theorem Change.exists_isMade_iff {value : String} {p : Path} :
    (∃ change, IsMade value p change) ↔ p.last.Admits value := by
  constructor
  · rintro ⟨change, hmade⟩
    cases hmade with
    | @name p hlast hvalue =>
      cases p with
      | root | entity | operation => exact hvalue
      | property | item => simp [Path.last, Step.isProperty] at hlast
    | items hplain =>
      intro x hx
      exact (Value.isPlain_iff x).1 (List.all_eq_true.1 hplain x hx)
    | item hx hplain => simpa [Path.last, Step.Admits, hx] using (Value.isPlain_iff _).1 hplain
  · intro hadmits
    cases p with
    | root | entity | operation => exact ⟨_, .name rfl hadmits⟩
    | property owner key =>
      refine ⟨_, .items (List.all_eq_true.2 fun x hx => ?_)⟩
      exact (Value.isPlain_iff x).2 (hadmits x hx)
    | item owner key j =>
      obtain ⟨x, hx⟩ := List.length_eq_one_iff.1 hadmits.1
      exact ⟨_, .item hx ((Value.isPlain_iff x).2 (hadmits.2 x (by simp [hx])))⟩

namespace Node
variable {T T' n : Node} {p : Path} {path value : String} {change : Change}

/-- The path of a property leads to a property. -/
theorem Leads.kind_eq_property {owner : Path} {key : String} {is : List Nat}
    (h : T.Leads (owner.property key) is n) : n.kind = .property := by
  cases h with
  | hop _ hc hhop =>
    cases hhop with
    | property hk =>
      have hkey := (propertyIndex?_eq_some hk hc).2
      unfold key? at hkey
      split at hkey
      · assumption
      · simp at hkey

/-- Only the placeholder refuses a change, and only one that is not made to an item. -/
theorem isRefusedBy_iff (hp : Path.WellFormed p.steps) (hmade : change.IsMade value p)
    (hn : T.find? p = some n) :
    change.isRefusedBy n = true ↔ n.isPlaceholder = true ∧ p.last.isItem = false := by
  cases hmade with
  | @name p hlast _ =>
    cases p with
    | root | entity | operation => simp [Change.isRefusedBy, Path.last, Step.isItem]
    | property | item => simp [Path.last, Step.isProperty] at hlast
  | items _ =>
    -- What is found is a property, and the placeholder is an operation.
    obtain ⟨is, hlead⟩ := (find?_eq_some_iff hp).1 hn
    simp [Change.isRefusedBy, isPlaceholder, hlead.kind_eq_property]
  | item _ _ => simp [Change.isRefusedBy, Path.last, Step.isItem]

theorem setValue_of_not_admits (hp : Path.parse path = .ok p) (h : ¬p.last.Admits value) :
    T.setValue path value = .error (.invalidValue path value) := by
  apply setValue_of_ofValue?_eq_none hp
  rw [Option.eq_none_iff_forall_ne_some]
  intro change hchange
  exact h (Change.exists_isMade_iff.1 ⟨change, Change.ofValue?_eq_some_iff.1 hchange⟩)

/-- What an edit with an admissible value comes to. -/
theorem setValue_of_isMade (hp : Path.parse path = .ok p) (hmade : change.IsMade value p) :
    (T.find? p = none → T.setValue path value = .error (.notFound path)) ∧
      ∀ n, T.find? p = some n →
        (change.isRefusedBy n = true → T.setValue path value = .error (.notEditable path)) ∧
        (change.isRefusedBy n = false → ∃ T', T.setValue path value = .ok T') := by
  have hchange := Change.ofValue?_eq_some_iff.2 hmade
  refine ⟨fun hnone => ?_, fun n hn => ⟨fun hrefused => ?_, fun htakes => ?_⟩⟩
  · simp only [setValue, hp, hchange, hnone]
  · simp only [setValue, hp, hchange, hn, hrefused, if_true]
  · have hformed := (Path.parse_eq_ok_iff.1 hp).1
    obtain ⟨is, m, hm, happlies⟩ := (exists_leads_target_iff hformed hmade).1 ⟨n, hn, htakes⟩
    exact ⟨_, setValue_eq_ok_iff.2 ⟨p, change, is, m, hp, hmade, hm, happlies, rfl⟩⟩

/-- An item step sets the value of the child that stands at the index of the property, whatever
kind of node it is. -/
theorem findText?_of_setValue_item {owner : Path} {key : String} {j : Nat}
    (hp : Path.parse path = .ok (owner.item key j)) (hn : T.findText? path = some n)
    (h : T.setValue path value = .ok T') :
    ∃ m, T.find? (owner.property key) = some m ∧ m.children[j]? = some n ∧
      T'.findText? path = some { n with value := some (Value.canonical value.toList) } := by
  obtain ⟨p, change, is, m, hp', hmade, hm, -, rfl⟩ := setValue_eq_ok_iff.1 h
  obtain rfl : p = owner.item key j := by simpa [hp] using hp'.symm
  have hformed := (Path.parse_eq_ok_iff.1 hp).1
  have hfind : T.find? (owner.item key j) = some n := by simpa only [findText?, hp] using hn
  cases hmade with
  | name hlast _ => simp [Path.last, Step.isProperty] at hlast
  | @item _ _ x _ hx _ =>
    obtain ⟨js, hlead⟩ := (find?_eq_some_iff hformed).1 hfind
    obtain ⟨is', m', -, hm', hchild⟩ := leads_item_iff.1 hlead
    obtain rfl : m = m' := Option.some.inj (hm.find?_eq_some.symm.trans hm'.find?_eq_some)
    have hset := (hm.modifyAt_item hchild x).find?_eq_some
    refine ⟨m, hm.find?_eq_some, hchild, ?_⟩
    simpa only [findText?, hp, Value.canonical_of_items hx] using hset

/-- An edit is refused for the first of four faults that there is, and succeeds if there is none:
the path cannot be read, the value cannot stand there, no node is there, or the node is the
placeholder and not an item. An item is whatever child stands at the index of the property, and its
value is set. -/
theorem setValue_refused_exactly (T : Node) (path value : String) :
    (∀ cause, T.setValue path value = .error (.invalidPath cause) ↔
      Path.parse path = .error cause) ∧
    ∀ p, Path.parse path = .ok p →
      (T.setValue path value = .error (.invalidValue path value) ↔ ¬p.last.Admits value) ∧
      (p.last.Admits value →
        (T.setValue path value = .error (.notFound path) ↔ T.findText? path = none) ∧
        ∀ n, T.findText? path = some n →
          (T.setValue path value = .error (.notEditable path) ↔
            n.isPlaceholder = true ∧ p.last.isItem = false) ∧
          (n.isPlaceholder = false ∨ p.last.isItem = true →
            ∃ T', T.setValue path value = .ok T' ∧
              ∀ owner key j, p = .item owner key j →
                ∃ m, T.find? (owner.property key) = some m ∧ m.children[j]? = some n ∧
                  T'.findText? path =
                    some { n with value := some (Value.canonical value.toList) })) := by
  cases hp : Path.parse path with
  | error cause =>
    have hset : T.setValue path value = .error (.invalidPath cause) := by simp only [setValue, hp]
    simp [hset]
  | ok p =>
    by_cases hadmits : p.last.Admits value
    · obtain ⟨change, hmade⟩ := Change.exists_isMade_iff.2 hadmits
      obtain ⟨hmissing, hfound⟩ := setValue_of_isMade (T := T) hp hmade
      have htext : T.findText? path = T.find? p := by simp only [findText?, hp]
      cases hn : T.find? p with
      | none => simp [hmissing hn, htext, hn, hadmits]
      | some n =>
        have hrefused := isRefusedBy_iff (Path.parse_eq_ok_iff.1 hp).1 hmade hn
        obtain ⟨hrefuses, htakes⟩ := hfound n hn
        cases hchange : change.isRefusedBy n with
        | true =>
          obtain ⟨hplaceholder, hitem⟩ := hrefused.1 hchange
          simp [hrefuses hchange, htext, hn, hadmits, hplaceholder, hitem]
        | false =>
          obtain ⟨T', hT'⟩ := htakes hchange
          have hother : n.isPlaceholder = true → p.last.isItem = true := by
            simpa [hchange] using hrefused
          have hitem : ∀ owner key j, p = .item owner key j →
              ∃ m, T.find? (owner.property key) = some m ∧ m.children[j]? = some n ∧
                T'.findText? path =
                  some { n with value := some (Value.canonical value.toList) } := by
            rintro owner key j rfl
            exact findText?_of_setValue_item hp (htext.trans hn) hT'
          simpa [hT', htext, hn, hadmits] using ⟨hother, fun _ => hitem⟩
    · simp [setValue_of_not_admits (T := T) hp hadmits, hadmits]

/-- An item that is not there is refused for its value first, an item that is there is set, and the
placeholder takes no name. -/
theorem setValue_refused_exactly_list :
    let T := ofScript "f(e[k: a, b])"
    let missing := "operation/entities[0]/k[2]"
    let item := "operation/entities[0]/k[1]"
    T.setValue missing "x: 1" = .error (.invalidValue missing "x: 1") ∧
      T.setValue missing "c" = .error (.notFound missing) ∧
      (∃ T', T.setValue item "c" = .ok T' ∧
        T'.findText? item = some ⟨.property, item, ⟨2, 12⟩, some "c", []⟩) ∧
      (ofScript "no root").setValue "operation" " g " = .error (.notEditable "operation") ∧
      T.setValue "operation/k" "" = .error (.invalidPath (.misplaced "k")) := by
  intro T missing item
  have hmissing : Path.parse missing = .ok ((Path.root.entity 0).item "k" 2) := by decide +kernel
  have hitem : Path.parse item = .ok ((Path.root.entity 0).item "k" 1) := by decide +kernel
  have hroot : Path.parse "operation" = .ok .root := by decide +kernel
  have houtcome := (setValue_refused_exactly T missing "c").2 _ hmissing
  have hset := (setValue_refused_exactly T item "c").2 _ hitem
  have hname := (setValue_refused_exactly (ofScript "no root") "operation" " g ").2 _ hroot
  refine ⟨?_, ?_, ?_, ?_, ?_⟩
  · exact ((setValue_refused_exactly T missing "x: 1").2 _ hmissing).1.2 (by decide +kernel)
  · exact (houtcome.2 (by decide +kernel)).1.2 (by decide +kernel)
  · have hfound : T.findText? item = some ⟨.property, item, ⟨2, 12⟩, some "b", []⟩ := by
      decide +kernel
    have hvalue : Value.canonical "c".toList = "c" := by decide +kernel
    obtain ⟨T', hT', hchild⟩ := ((hset.2 (by decide +kernel)).2 _ hfound).2 (.inr rfl)
    obtain ⟨m, -, -, hitem'⟩ := hchild _ _ _ rfl
    exact ⟨T', hT', by rwa [hvalue] at hitem'⟩
  · refine ((hname.2 (by decide +kernel)).2 (placeholder 7) ?_).1.2 ⟨rfl, rfl⟩
    decide +kernel
  · exact ((setValue_refused_exactly T "operation/k" "").1 _).2 (by decide +kernel)

/-- An operation without name and parts that stands for an item: the path finds it, and it takes a
value all the same. -/
theorem setValue_placeholder_item :
    let path := "operation/entities[0]/k[0]"
    let item : Node := ⟨.operation, path, ⟨0, 0⟩, none, []⟩
    let list : Node := ⟨.property, "operation/entities[0]/k", ⟨0, 0⟩, some "a", [item]⟩
    let slot : Node := ⟨.entity, "operation/entities[0]", ⟨0, 0⟩, some "e", [list]⟩
    let T : Node := ⟨.operation, "operation", ⟨0, 0⟩, some "f", [slot]⟩
    (∃ p, Path.parse path = .ok p ∧ p.last.Admits "1") ∧ T.findText? path = some item ∧
      item.isPlaceholder = true ∧ T.setValue path "1" ≠ .error (.notEditable path) ∧
      ∃ T', T.setValue path "1" = .ok T' := by
  intro path item list slot T
  have hread : Path.parse path = .ok ((Path.root.entity 0).item "k" 0) := by decide +kernel
  have hset : T.setValue path "1" = .ok { T with children := [{ slot with children := [{ list with
      value := some "1", children := [{ item with value := some "1" }] }] }] } := by
    decide +kernel
  exact ⟨⟨_, hread, by decide +kernel⟩, by decide +kernel, rfl, by simp [hset], _, hset⟩

end Node
end ProblemScript
