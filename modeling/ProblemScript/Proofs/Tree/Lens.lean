import ProblemScript.Proofs.Grammar.Tree
import ProblemScript.Proofs.Tree.Edit

/-! Paths are lenses. What has been set is found; of two values set at a path only the second
counts; and the value that is found can be set again without a change, if it can be set at all. The
first two laws hold of all trees, because a change is undone by the next one at the same place. The
third asks that the values of a tree are written as they would be read, as they are in a script. -/
namespace ProblemScript
open Text

namespace Change.IsMade
variable {value value' : String} {p : Path} {change change' : Change}

/-- Of two changes at a path only the second counts. -/
theorem apply_apply (h : IsMade value p change) (h' : IsMade value' p change') (n : Node) :
    change'.apply (change.apply n) = change'.apply n := by
  cases h with
  | name hlast _ =>
    cases h' with
    | name => cases hkind : n.kind.isEntityLike <;> simp [apply, hkind]
    | items | item => simp [Path.last, Step.isProperty] at hlast
  | items =>
    cases h' with
    | name hlast _ => simp [Path.last, Step.isProperty] at hlast
    | items => rfl
  | item =>
    cases h' with
    | name hlast _ => simp [Path.last, Step.isProperty] at hlast
    | item => simp [apply, List.modify_modify_eq, Function.comp_def]

/-- Where one change at a path applies, another does too, before the first and behind it. -/
theorem applies (h : IsMade value p change) (h' : IsMade value' p change') {n : Node}
    (hn : change.Applies n) : change'.Applies n ∧ change'.Applies (change.apply n) := by
  cases h with
  | name hlast _ =>
    cases h' with
    | name => exact ⟨hn, by simp [Applies, apply, Node.isPlaceholder]⟩
    | items | item => simp [Path.last, Step.isProperty] at hlast
  | items =>
    cases h' with
    | name hlast _ => simp [Path.last, Step.isProperty] at hlast
    | items => exact ⟨trivial, trivial⟩
  | item =>
    cases h' with
    | name hlast _ => simp [Path.last, Step.isProperty] at hlast
    | item => exact ⟨hn, by simpa [Applies, apply] using hn⟩

end Change.IsMade

namespace Node
variable {T T' : Node} {path value : String}

/-- What has been set is found, and the value of a list follows its items. -/
theorem value_of_setValue (h : T.setValue path value = .ok T') :
    ∃ p n, Path.parse path = .ok p ∧ T'.find? p = some n ∧
      n.value = some (if p.last.isProperty then Value.canonical value.toList else trimmed value) ∧
      ∀ owner key j, p = .item owner key j → ∃ m, T'.find? (owner.property key) = some m ∧
        m.value = some (Value.join (m.children.map (·.value.getD ""))) := by
  obtain ⟨p, change, is, m, hp, hmade, hm, happlies, rfl⟩ := setValue_eq_ok_iff.1 h
  have hlead := hm.modifyAt change
  cases hmade with
  | @name p hlast _ =>
    rw [Change.target_of_isProperty_eq_false hlast] at hlead
    refine ⟨p, _, hp, hlead.find?_eq_some, by simp [Change.apply, hlast], ?_⟩
    rintro owner key j rfl
    simp [Path.last, Step.isProperty] at hlast
  | items _ => exact ⟨_, _, hp, hlead.find?_eq_some, rfl, by simp⟩
  | @item owner key x j hx _ =>
    have hfound := (hm.modifyAt_item (List.getElem?_eq_getElem happlies) x).find?_eq_some
    have hcanonical := Value.canonical_of_items hx
    refine ⟨_, _, hp, hfound, by simp [Path.last, Step.isProperty, hcanonical], ?_⟩
    intro owner' key' j' he
    obtain ⟨rfl, rfl, rfl⟩ : owner = owner' ∧ key = key' ∧ j = j' := by simpa using he
    exact ⟨_, hlead.find?_eq_some, rfl⟩

/-- Of two values set at a path only the second counts. -/
theorem setValue_setValue (h : T.setValue path value = .ok T') (value' : String) :
    T'.setValue path value' = T.setValue path value' := by
  obtain ⟨p, change, is, m, hp, hmade, hm, happlies, rfl⟩ := setValue_eq_ok_iff.1 h
  cases hchange : Change.ofValue? p value' with
  | none =>
    rw [setValue_of_ofValue?_eq_none hp hchange, setValue_of_ofValue?_eq_none hp hchange]
  | some change' =>
    have hmade' := Change.ofValue?_eq_some_iff.1 hchange
    obtain ⟨hbefore, hbehind⟩ := hmade.applies hmade' happlies
    rw [setValue_eq_ok_iff.2 ⟨p, change', is, m, hp, hmade', hm, hbefore, rfl⟩]
    apply setValue_eq_ok_iff.2
    refine ⟨p, change', is, _, hp, hmade', hm.modifyAt change, hbehind, ?_⟩
    rw [modifyAt_modifyAt]
    exact modifyAt_congr hm.descend?_eq (hmade.apply_apply hmade' m).symm

theorem RegularAs.kind_eq {p : Path} {n : Node} (h : RegularAs path p n)
    (hlast : p.last.isProperty = true) : n.kind = .property := by
  cases p with
  | root | operation | entity => simp [Path.last, Step.isProperty] at hlast
  | property owner key => exact (RegularProperty.kinds h).1
  | item owner key j => exact h

theorem RegularAs.exists_name {p : Path} {n : Node} (h : RegularAs path p n)
    (hlast : p.last.isProperty = false) :
    ∃ s, n.value = some s ∧ isIdentifier s.toList = true ∧
      (n.kind.isEntityLike = true → n.kind = .ofType s) := by
  cases p with
  | root | operation =>
    obtain ⟨hkind, -, ⟨s, hs, hname⟩, -⟩ := (regularOperation_iff path n).1 h
    exact ⟨s, hs, hname, by simp [hkind, Kind.isEntityLike]⟩
  | entity owner i =>
    obtain ⟨type, span, properties, htype, -, -, rfl⟩ := h
    exact ⟨type, rfl, htype, fun _ => rfl⟩
  | property | item => simp [Path.last, Step.isProperty] at hlast

theorem trimmed_of_isIdentifier {s : String} (h : isIdentifier s.toList = true) :
    trimmed s = s := by
  rw [trimmed, trim_of_isNameChar (isNameChar_of_isIdentifier h), String.ofList_toList]

/-- The name that an operation or entity has can be set again. -/
theorem apply_name_self {n : Node} {s : String} (hvalue : n.value = some s)
    (hkind : n.kind.isEntityLike = true → n.kind = .ofType s) : (Change.name s).apply n = n := by
  obtain ⟨kind, npath, span, v, children⟩ := n
  obtain rfl : v = some s := hvalue
  cases hlike : kind.isEntityLike with
  | false => simp [Change.apply, hlike]
  | true => simp [Change.apply, hlike, (hkind hlike).symm]

/-- In a regular tree the change to the value that is there changes nothing. -/
theorem apply_self {p : Path} {is : List Nat} {n : Node} {x : String} {change : Change}
    (hT : RegularOperation path T) (h : T.Leads p is n) (hx : n.value = some x)
    (hmade : Change.IsMade x p change) :
    ∃ js m, T.Leads (Change.target p) js m ∧ change.Applies m ∧ change.apply m = m := by
  obtain ⟨owner, hregular⟩ := h.exists_regularAs hT
  cases hmade with
  | name hlast _ =>
    obtain ⟨s, hs, hname, hkind⟩ := hregular.exists_name hlast
    obtain rfl : x = s := by simpa [hx] using hs
    rw [Change.target_of_isProperty_eq_false hlast, trimmed_of_isIdentifier hname]
    exact ⟨is, n, h, by simp [Change.Applies, isPlaceholder, hx], apply_name_self hx hkind⟩
  | items _ =>
    obtain ⟨key, span, items, -, hitems, rfl⟩ := hregular
    obtain rfl : Value.join items = x := by simpa using hx
    have hread : Value.items (Value.join items).toList = items :=
      hitems.items_append_join allBlank_nil
    rw [hread]
    exact ⟨is, _, h, trivial, rfl⟩
  | @item owner key y j hy _ =>
    obtain ⟨js, m, -, hm, hn⟩ := leads_item_iff.1 h
    obtain ⟨owner', key', span, items, -, hitems, rfl⟩ := hm.exists_regularAs hT
    obtain ⟨hlen, x', hj, rfl⟩ := getElem?_itemsOf hn
    obtain rfl : x' = x := by simpa using hx
    have hread : Value.items x'.toList = [x'] :=
      (hitems.item x' (List.mem_of_getElem? hj)).items_append allBlank_nil
    obtain rfl : x' = y := by simpa [hread] using hy
    have hsame : (items.modify j fun _ => x') = items := by
      apply List.ext_getElem?
      intro k
      by_cases hjk : j = k
      · subst hjk
        simp [hj]
      · simp [hjk]
    refine ⟨js, _, hm, (List.getElem?_eq_some_iff.1 hn).1, ?_⟩
    rw [apply_item_property _ _ hlen, hsame]

/-- In a regular tree the value that is found is set again without a change, if it can be set at
all; names always can. -/
theorem setValue_self {root x : String} {p : Path} {n : Node} (hT : RegularOperation root T)
    (hp : Path.parse path = .ok p) (hn : T.find? p = some n) (hx : n.value = some x) :
    (T.setValue path x = .ok T ∨ T.setValue path x = .error (.invalidValue path x)) ∧
      (n.kind ≠ .property → T.setValue path x = .ok T) := by
  obtain ⟨is, hlead⟩ := (find?_eq_some_iff (Path.parse_eq_ok_iff.1 hp).1).1 hn
  obtain ⟨owner, hregular⟩ := hlead.exists_regularAs hT
  have hok : ∀ change, Change.IsMade x p change → T.setValue path x = .ok T := by
    intro change hmade
    obtain ⟨js, m, hm, happlies, hsame⟩ := apply_self hT hlead hx hmade
    have hT' : T = modifyAt change.apply js T :=
      calc T = modifyAt id js T := (modifyAt_id js T).symm
        _ = modifyAt change.apply js T := modifyAt_congr hm.descend?_eq hsame.symm
    exact setValue_eq_ok_iff.2 ⟨p, change, js, m, hp, hmade, hm, happlies, hT'⟩
  constructor
  · cases hchange : Change.ofValue? p x with
    | none => exact .inr (setValue_of_ofValue?_eq_none hp hchange)
    | some change => exact .inl (hok change (Change.ofValue?_eq_some_iff.1 hchange))
  · intro hkind
    have hlast : p.last.isProperty = false :=
      Bool.eq_false_iff.2 fun hlast => hkind (hregular.kind_eq hlast)
    obtain ⟨s, hs, hname, -⟩ := hregular.exists_name hlast
    obtain rfl : x = s := by simpa [hx] using hs
    exact hok _ (.name hlast (by rwa [trimmed_of_isIdentifier hname]))

theorem value_of_isPlaceholder {p : Path} {n : Node} (h : T.isPlaceholder = true)
    (hn : T.find? p = some n) : n.value = none := by
  simp only [isPlaceholder, Bool.and_eq_true, List.isEmpty_iff, Option.isNone_iff_eq_none] at h
  obtain ⟨is, -, hdown⟩ := Option.bind_eq_some_iff.1 hn
  cases is with
  | nil =>
    obtain rfl : T = n := by simpa using hdown
    exact h.1.2
  | cons i is => simp [h.2] at hdown

/-- Reading and setting values obey the laws of lenses. -/
theorem setValue_lens_laws :
    (∀ (T T' : Node) (path value : String), T.setValue path value = .ok T' →
      ∃ p n, Path.parse path = .ok p ∧ T'.findText? path = some n ∧
        n.value = some (if p.last.isProperty then Value.canonical value.toList else trimmed value) ∧
        ∀ owner key j, p = .item owner key j → ∃ m, T'.find? (owner.property key) = some m ∧
          m.value = some (Value.join (m.children.map (·.value.getD "")))) ∧
      (∀ (T T' : Node) (path value : String), T.setValue path value = .ok T' →
        ∀ value', T'.setValue path value' = T.setValue path value') ∧
      ∀ (text path x : String) (n : Node),
        (ofScript text).findText? path = some n → n.value = some x →
        ((ofScript text).setValue path x = .ok (ofScript text) ∨
          (ofScript text).setValue path x = .error (.invalidValue path x)) ∧
        (n.kind ≠ .property → (ofScript text).setValue path x = .ok (ofScript text)) := by
  refine ⟨?_, ?_, ?_⟩
  · intro T T' path value h
    obtain ⟨p, n, hp, hn, hvalue, howner⟩ := value_of_setValue h
    exact ⟨p, n, hp, by simp only [findText?, hp, hn], hvalue, howner⟩
  · intro T T' path value h
    exact setValue_setValue h
  · intro text path x n hn hx
    unfold findText? at hn
    split at hn
    · rename_i p hp
      rcases ofScript_cases text with ⟨-, hplaceholder⟩ | ⟨hregular, -⟩
      · simp [value_of_isPlaceholder hplaceholder hn] at hx
      · exact setValue_self hregular hp hn hx
    · simp at hn

/-- An item is set in a list whose other item has brackets that do not pair up, so that the list
itself cannot be set again, and a container is set again. -/
theorem setValue_lens_laws_list :
    let text := "f(e[k: a, (u:v  w], c: 1], result_container[])"
    let S := ofScript text
    let list := "operation/entities[0]/k"
    let item := "operation/entities[0]/k[0]"
    let slot := "operation/entities[1]"
    let T := (S.setValue item " c  d ").toOption.getD default
    S.setValue item " c  d " = .ok T ∧ T.setValue item "x, y" = S.setValue item "x, y" ∧
      (∃ n, T.findText? item = some n ∧ n.value = some "c d") ∧
      (∃ m, T.findText? list = some m ∧ m.value = some "c d, (u:v w]") ∧
      (S.setValue list "a, (u:v w]" = .ok S ∨
        S.setValue list "a, (u:v w]" = .error (.invalidValue list "a, (u:v w]")) ∧
      S.setValue slot "result_container" = .ok S := by
  intro text S list item slot T
  have hset : S.setValue item " c  d " = .ok T := by decide +kernel
  obtain ⟨hputGet, hputPut, hgetPut⟩ := setValue_lens_laws
  obtain ⟨p, n, hp, hn, hvalue, -⟩ := hputGet S T item " c  d " hset
  have hread : Path.parse item = .ok ((Path.root.entity 0).item "k" 0) := by decide +kernel
  obtain rfl : p = (Path.root.entity 0).item "k" 0 := by simpa [hread] using hp.symm
  have hlist := hgetPut text list "a, (u:v w]" ((S.findText? list).getD default)
    (by decide +kernel) (by decide +kernel)
  have hslot := hgetPut text slot "result_container" ((S.findText? slot).getD default)
    (by decide +kernel) (by decide +kernel)
  refine ⟨hset, hputPut S T item _ hset "x, y", ⟨n, hn, ?_⟩, ?_, hlist.1, ?_⟩
  · rw [hvalue]
    decide +kernel
  · exact ⟨(T.findText? list).getD default, by decide +kernel, by decide +kernel⟩
  · exact hslot.2 (by decide +kernel)

end Node
end ProblemScript
