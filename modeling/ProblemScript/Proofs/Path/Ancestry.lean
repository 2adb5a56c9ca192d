import ProblemScript.Proofs.Path.Syntax
import ProblemScript.Proofs.Tree.Descent

/-! The written form of a path shows its ancestors. One more step adds the path itself to them, and
the property if the step leads to an item; the text gains a part behind a slash, and the only place
inside that part where an ancestor may end is before the bracket of an item. -/
namespace ProblemScript
open Text

namespace Step

/-- The name of the step is made of name characters, and a property does not go by a word of
paths. -/
structure IsNamed (s : Step) : Prop where
  chars : ∀ c ∈ s.name.toList, isNameChar c = true
  property : s.isProperty = true → s.name ≠ Path.operationWord ∧ s.name ≠ Path.entitiesWord

theorem IsWritable.isNamed {s : Step} (h : s.IsWritable) : s.IsNamed := by
  obtain ⟨⟨hkey, -⟩, hproperty⟩ := (Path.isWritable_iff s).1 h
  exact ⟨Path.isNameChar_of_isKey hkey, hproperty⟩

theorem isNamed_operation : operation.IsNamed := by
  have hchars : operation.name.toList.all isNameChar = true := by decide
  exact ⟨List.all_eq_true.1 hchars, nofun⟩

theorem isNamed_entity (i : Nat) : (entity i).IsNamed := by
  have hchars : Path.entitiesWord.toList.all isNameChar = true := by decide
  exact ⟨List.all_eq_true.1 hchars, nofun⟩

theorem isNamed_property {key : String} (h : Field.isUsableKey key.toList = true)
    (index : Option Nat) : (property key index).IsNamed := by
  have hwords := h
  simp only [Field.isUsableKey, Bool.and_eq_true, bne_iff_ne, ne_eq, String.toList_inj] at hwords
  exact ⟨Field.isNameChar_of_isUsableKey h, fun _ => ⟨hwords.1.2, hwords.2⟩⟩

namespace IsNamed
variable {s t : Step}

theorem isWritable (h : s.IsNamed) (hne : s.name ≠ "")
    (hindex : ∀ i ∈ s.index, i < Path.indexBound) : s.IsWritable := by
  have hkey : Path.isKey s.name.toList = true := by
    rw [Path.isKey, List.all_eq_true.2 h.chars, Bool.and_true, Bool.not_eq_true',
      List.isEmpty_eq_false_iff]
    simpa using hne
  exact (Path.isWritable_iff s).2 ⟨⟨hkey, hindex⟩, h.property⟩

theorem not_mem_text (h : s.IsNamed) : '/' ∉ s.text.toList := by
  have hname : '/' ∉ s.name.toList := fun hmem => absurd (h.chars _ hmem) (by decide)
  rw [s.text_eq]
  cases s.index with
  | none => exact hname
  | some i => exact Path.not_mem_indexed hname i

/-- The name of a step is what stands before the bracket. -/
theorem takeWhile_text (h : s.IsNamed) (rest : List Char)
    (hrest : s.index = none → ∀ c ∈ rest.head?, c = '[') :
    (s.text.toList ++ rest).takeWhile (· != '[') = s.name.toList := by
  have hname : ∀ c ∈ s.name.toList, (c != '[') = true := by
    intro c hc
    apply bne_iff_ne.2
    rintro rfl
    exact absurd (h.chars _ hc) (by decide)
  rw [s.text_eq]
  cases hindex : s.index with
  | none =>
    apply takeWhile_append_of_head hname
    intro c hc
    simp [hrest hindex c hc]
  | some i =>
    have hparts : (Step.property s.name (some i)).text.toList ++ rest =
        s.name.toList ++ '[' :: (Nat.toDigits 10 i ++ [']'] ++ rest) := by
      simp [text, Path.toList_indexed]
    rw [hparts]
    exact takeWhile_append_of_head hname (by simp)

theorem eq_of_name_eq (hs : s.IsNamed) (ht : t.IsNamed) (hname : s.name = t.name)
    (hindex : s.index = t.index) : s = t := by
  cases s with
  | operation =>
    cases t with
    | operation => rfl
    | entity i => simp [index] at hindex
    | property key i => exact absurd hname.symm (ht.property rfl).1
  | entity i =>
    cases t with
    | operation => simp [index] at hindex
    | entity j => simpa [index] using hindex
    | property key j => exact absurd hname.symm (ht.property rfl).2
  | property key i =>
    cases t with
    | operation => exact absurd hname (hs.property rfl).1
    | entity j => exact absurd hname (hs.property rfl).2
    | property key' j =>
      obtain rfl : key = key' := hname
      obtain rfl : i = j := hindex
      rfl

/-- No two named steps are written alike. -/
theorem eq_of_text_eq (hs : s.IsNamed) (ht : t.IsNamed) (h : s.text = t.text) : s = t := by
  have hname : s.name = t.name := by
    apply String.toList_inj.1
    have hread := hs.takeWhile_text [] (by simp)
    rw [h, ht.takeWhile_text [] (by simp)] at hread
    exact hread.symm
  refine eq_of_name_eq hs ht hname ?_
  rw [s.text_eq, t.text_eq, hname, ← String.toList_inj] at h
  cases hi : s.index with
  | none =>
    cases hj : t.index with
    | none => rfl
    | some j => simp [hi, hj, text, Path.toList_indexed] at h
  | some i =>
    cases hj : t.index with
    | none => simp [hi, hj, text, Path.toList_indexed] at h
    | some j =>
      rw [hi, hj] at h
      have hstart : (Path.indexed t.name j).toList <+: (Path.indexed t.name i).toList :=
        ⟨[], (List.append_nil _).trans h.symm⟩
      rw [Path.index_inj (List.prefix_refl _) hstart]

end IsNamed
end Step

namespace Path

/-- No two paths with named steps are written alike. -/
theorem eq_of_text_eq {p q : Path} (hp : ∀ s ∈ p.steps, s.IsNamed)
    (hq : ∀ s ∈ q.steps, s.IsNamed) (h : p.text = q.text) : p = q := by
  have hparts : ∀ {r : Path}, (∀ s ∈ r.steps, s.IsNamed) →
      r.text.toList.splitOn '/' = r.steps.map (·.text.toList) := by
    intro r hr
    rw [text_eq_written, toList_written, List.splitOn_intercalate]
    · intro part hpart
      obtain ⟨s, hs, rfl⟩ := List.mem_map.1 hpart
      exact (hr s hs).not_mem_text
    · simpa using steps_ne_nil r
  have hmap : p.steps.map (·.text.toList) = q.steps.map (·.text.toList) := by
    rw [← hparts hp, ← hparts hq, h]
  have hsteps : p.steps = q.steps := by
    apply List.ext_getElem?
    intro k
    have hk : (p.steps.map (·.text.toList))[k]? = (q.steps.map (·.text.toList))[k]? := by
      rw [hmap]
    rw [List.getElem?_map, List.getElem?_map] at hk
    cases hs : p.steps[k]? with
    | none =>
      cases ht : q.steps[k]? with
      | none => rfl
      | some t => simp [hs, ht] at hk
    | some s =>
      cases ht : q.steps[k]? with
      | none => simp [hs, ht] at hk
      | some t =>
        have htext : s.text = t.text := String.toList_inj.1 (by simpa [hs, ht] using hk)
        rw [(hp s (List.mem_of_getElem? hs)).eq_of_text_eq (hq t (List.mem_of_getElem? ht)) htext]
  rw [← foldl_push_steps p, hsteps, foldl_push_steps]

theorem WellFormed.isNamed {p : Path} (h : WellFormed p.steps) : ∀ s ∈ p.steps, s.IsNamed :=
  fun s hs => (h.writable s hs).isNamed

theorem operationWord_prefix_text (p : Path) : operationWord.toList <+: p.text.toList := by
  induction p using push_induction with
  | root => exact List.prefix_refl _
  | push p s ih =>
    have hlonger : p.text.toList <+: (p.push s).text.toList :=
      ⟨'/' :: s.text.toList, by simp [text_push]⟩
    exact ih.trans hlonger

/-- The root has no ancestors to be seen. -/
theorem descends_root (p : Path) : descends p.text root.text = false := by
  apply Bool.eq_false_iff.2
  intro h
  have hshort := length_lt_of_descends h
  have hlong := (operationWord_prefix_text p).length_le
  have hroot : root.text = operationWord := rfl
  rw [hroot] at hshort
  omega

/-- A step without an index is cut off from one with an index only if the two are a property and one
of its items. -/
theorem item_of_text_eq {s t : Step} (hs : s.IsNamed) (ht : t.IsNamed)
    (hlast : t.text.toList.getLast? ≠ some ']') {rest : List Char}
    (h : s.text.toList = t.text.toList ++ '[' :: rest) :
    ∃ key j, s = .property key (some j) ∧ t = .property key none := by
  have hindex : t.index = none := by
    cases hindex : t.index with
    | none => rfl
    | some i =>
      refine absurd ?_ hlast
      rw [t.text_eq, hindex, Step.text, toList_indexed, ← List.cons_append, ← List.append_assoc]
      exact List.getLast?_concat
  have hname : s.name = t.name := by
    apply String.toList_inj.1
    calc s.name.toList = s.text.toList.takeWhile (· != '[') := by
          simpa using (hs.takeWhile_text [] (by simp)).symm
      _ = (t.text.toList ++ '[' :: rest).takeWhile (· != '[') := by rw [h]
      _ = t.name.toList := ht.takeWhile_text _ (by simp)
  cases s with
  | operation =>
    obtain rfl := hs.eq_of_name_eq ht hname hindex.symm
    simp at h
  | entity i =>
    cases t with
    | operation => exact absurd hname (by simp [Step.name, operationWord, entitiesWord])
    | entity j => exact absurd hindex (by simp [Step.index])
    | property key index => exact absurd hname.symm (ht.property rfl).2
  | property key index =>
    cases t with
    | operation => exact absurd hname (hs.property rfl).1
    | entity j => exact absurd hindex (by simp [Step.index])
    | property key' index' =>
      obtain rfl : key = key' := hname
      obtain rfl : index' = none := hindex
      cases index with
      | none => simp at h
      | some j => exact ⟨key, j, rfl, rfl⟩

/-- One more step is seen in the text as an ancestor more, and as two for an item. -/
theorem descends_push_iff {a p : Path} {s : Step} (ha : WellFormed a.steps)
    (hps : WellFormed (p.push s).steps) :
    descends a.text (p.push s).text = true ↔ a = p ∨ descends a.text p.text = true ∨
      ∃ key j, s = .property key (some j) ∧ a = p.property key := by
  obtain ⟨hp, -, hs⟩ := wellFormed_push_iff.1 hps
  have htext : (p.push s).text.toList = p.text.toList ++ '/' :: s.text.toList := by
    simp [text_push]
  constructor
  · intro h
    have hsame : a.text.toList = p.text.toList → a = p := fun he =>
      eq_of_text_eq ha.isNamed hp.isNamed (String.toList_inj.1 he)
    obtain ⟨c, rest, hcut, hc⟩ := descends_iff.1 h
    rw [htext] at hcut
    -- The ancestor ends inside the shorter path, right behind it, or inside the last part.
    rcases List.append_eq_append_iff.1 hcut with ⟨l, hal, hrest⟩ | ⟨l, hpl, hrest⟩
    · cases l with
      | nil => exact .inl (hsame (by simpa using hal))
      | cons d l =>
        obtain ⟨rfl, hpart⟩ : '/' = d ∧ s.text.toList = l ++ c :: rest := by simpa using hrest
        have hslash : '/' ∉ l ++ c :: rest := hpart ▸ not_mem_text hs
        obtain ⟨rfl, hlast⟩ : c = '[' ∧ a.text.toList.getLast? ≠ some ']' := by
          rcases hc with rfl | hc
          · simp at hslash
          · exact hc
        have hplain : '/' ∉ l := fun hmem => hslash (List.mem_append_left _ hmem)
        have hread := parse_append (parse_eq_ok_iff.2 ⟨hp, rfl⟩) hplain
        have hwritten : p.text ++ "/" ++ .ofList l = a.text := by
          apply String.toList_inj.1
          simp [hal]
        rw [hwritten, parse_eq_ok_iff.2 ⟨ha, rfl⟩] at hread
        obtain ⟨t, rfl, rfl, -, ht⟩ := readStep_eq_ok_iff.1 hread.symm
        have hend : t.text.toList.getLast? ≠ some ']' := by
          intro hend
          apply hlast
          rw [hal, List.getLast?_append_of_ne_nil _ (by simp), List.getLast?_cons, hend]
          rfl
        obtain ⟨key, j, rfl, rfl⟩ := item_of_text_eq hs.isNamed ht.isNamed hend hpart
        exact .inr (.inr ⟨key, j, rfl, rfl⟩)
    · cases l with
      | nil => exact .inl (hsame (by simpa using hpl.symm))
      | cons d l =>
        obtain ⟨rfl, -⟩ : c = d ∧ _ := by simpa using hrest
        exact .inr (.inl (descends_iff.2 ⟨c, l, hpl, hc⟩))
  · rintro (rfl | h | ⟨key, j, rfl, rfl⟩)
    · exact descends_iff.2 ⟨'/', _, htext, .inl rfl⟩
    · exact descends_of_prefix h ⟨_, htext.symm⟩
    · have hlast := getLast?_propertyIn_ne p.text hs.isNamed.chars
      exact descends_iff.2 ⟨'[', _, toList_indexed _ j, .inr ⟨rfl, hlast⟩⟩

/-- Of two paths that can be read, the text of one continues the other exactly if it lies below. -/
theorem descends_text_iff {a b : Path} (ha : WellFormed a.steps) (hb : WellFormed b.steps) :
    descends a.text b.text = true ↔ a ∈ b.ancestors := by
  induction b using push_induction with
  | root => simp [descends_root, ancestors]
  | push p s ih =>
    rw [descends_push_iff ha hb, ih (wellFormed_push_iff.1 hb).1, mem_ancestors_push]

/-- Each ancestor of a path is an ancestor of those listed before it. -/
theorem pairwise_ancestors (p : Path) : p.ancestors.Pairwise fun q r => r ∈ q.ancestors := by
  induction p using push_induction with
  | root => exact .nil
  | push p s ih =>
    have hself : (p :: p.ancestors).Pairwise fun q r => r ∈ q.ancestors :=
      List.pairwise_cons.2 ⟨fun _ hr => hr, ih⟩
    rcases s with _ | i | ⟨key, _ | j⟩
    case property.some => exact List.pairwise_cons.2 ⟨fun _ hr => hr, hself⟩
    all_goals exact hself

theorem byteLength_lt_of_descends {a b : String} (h : descends a b = true) :
    byteLength a.toList < byteLength b.toList := by
  obtain ⟨c, rest, hb, -⟩ := descends_iff.1 h
  have hc := c.utf8Size_pos
  rw [hb, byteLength_append, byteLength_cons]
  omega

/-- Descent read off two written paths is descent of the paths. It is a strict order, and the
ancestors of a path, from the longest to the shortest, are the written paths that it descends
from. -/
theorem descends_eq_isAncestorOf :
    (∀ a b p q, parse a = .ok p → parse b = .ok q → descends a b = p.isAncestorOf q) ∧
      (∀ a, descends a a = false) ∧
      (∀ a b c, descends a b = true → descends b c = true → descends a c = true) ∧
      ∀ b q, parse b = .ok q →
        (q.ancestors.map text).Nodup ∧
        ((q.ancestors.map text).Pairwise fun a a' => byteLength a'.toList < byteLength a.toList) ∧
        ∀ a, a ∈ q.ancestors.map text ↔ (∃ p, parse a = .ok p) ∧ descends a b = true := by
  have hread : ∀ {s p}, parse s = .ok p → WellFormed p.steps ∧ p.text = s := parse_eq_ok_iff.1
  refine ⟨?_, ?_, ?_, ?_⟩
  · intro a b p q ha hb
    obtain ⟨hp, rfl⟩ := hread ha
    obtain ⟨hq, rfl⟩ := hread hb
    rw [Bool.eq_iff_iff, descends_text_iff hp hq, isAncestorOf, List.contains_iff_mem]
  · intro a
    apply Bool.eq_false_iff.2
    intro h
    exact absurd (length_lt_of_descends h) (Nat.lt_irrefl _)
  · intro a b c hab hbc
    exact descends_of_prefix hab (prefix_of_descends hbc)
  · intro b q hb
    obtain ⟨hq, rfl⟩ := hread hb
    have hshorter : (q.ancestors.map text).Pairwise
        fun a a' => byteLength a'.toList < byteLength a.toList := by
      apply List.pairwise_map.2
      apply (pairwise_ancestors q).imp_of_mem
      intro r r' hr hr' hmem
      have hdown := (descends_text_iff (hq.ancestors r' hr') (hq.ancestors r hr)).2 hmem
      exact byteLength_lt_of_descends hdown
    refine ⟨hshorter.imp fun h => by rintro rfl; exact Nat.lt_irrefl _ h, hshorter, ?_⟩
    intro a
    constructor
    · intro ha
      obtain ⟨p, hp, rfl⟩ := List.mem_map.1 ha
      have hformed := hq.ancestors p hp
      exact ⟨⟨p, parse_eq_ok_iff.2 ⟨hformed, rfl⟩⟩, (descends_text_iff hformed hq).2 hp⟩
    · rintro ⟨⟨p, hp⟩, hdown⟩
      obtain ⟨hformed, rfl⟩ := hread hp
      exact List.mem_map_of_mem ((descends_text_iff hformed hq).1 hdown)

/-- Slots whose numbers start alike, and a property beside one of its items. -/
theorem descends_eq_isAncestorOf_alike :
    let s := "operation/entities[1]"
    let t := "operation/entities[12]/k"
    let u := "operation/entities[12]/k[3]"
    let p := Path.root.entity 1
    let q := (Path.root.entity 12).property "k"
    let r := (Path.root.entity 12).item "k" 3
    parse s = .ok p ∧ parse t = .ok q ∧ parse u = .ok r ∧
      descends s u = p.isAncestorOf r ∧ descends s u = false ∧
      descends t u = q.isAncestorOf r ∧ descends t u = true ∧
      r.ancestors.map text = [t, "operation/entities[12]", "operation"] ∧
      ∀ a, a ∈ r.ancestors.map text ↔ (∃ p, parse a = .ok p) ∧ descends a u = true := by
  intro s t u p q r
  have hs : parse s = .ok p := by decide +kernel
  have ht : parse t = .ok q := by decide +kernel
  have hu : parse u = .ok r := by decide +kernel
  obtain ⟨heq, -, -, hlist⟩ := descends_eq_isAncestorOf
  exact ⟨hs, ht, hu, heq s u p r hs hu, by decide +kernel, heq t u q r ht hu, by decide +kernel,
    by decide +kernel, (hlist u r hu).2.2⟩

end Path
end ProblemScript
