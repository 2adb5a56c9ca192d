import ProblemScript.Proofs.Grammar.Recovery
import ProblemScript.Proofs.Layout.Draft

/-! Layouts as scripts of the grammar. Whatever the settings, a tree of the grammar is laid out as
one of its scripts; what reading makes of all of them is the tree. -/
namespace ProblemScript
open Text ProblemScript.Bracket Segment Node

namespace Layout

/-- Elements with what a layout puts before each of them, the first of which has number `index`. -/
def leads (o : Options) (depth : Nat) (f : Node → List Char) : (index : Nat) → List Node → List Char
  | _, [] => []
  | index, n :: ns => o.lead depth index ++ f n ++ leads o depth f (index + 1) ns

theorem propertiesChars_eq_leads (o : Options) (depth index : Nat) (ns : List Node) :
    propertiesChars o depth index ns = leads o depth propertyChars index ns := by
  induction ns generalizing index with
  | nil => rfl
  | cons n ns ih => rw [propertiesChars, ih, leads]

theorem chars_slotsDraft_eq_leads {ns : List Node} (h : ∀ n ∈ ns, n.kind ≠ .property) (o : Options)
    (owner : String) (depth index start : Nat) :
    (slotsDraft o owner depth index start ns).chars =
      leads o depth (slotChars o depth) index ns := by
  induction ns generalizing index start with
  | nil => simp [slotsDraft, leads]
  | cons n ns ih =>
    rw [slotsDraft_cons _ _ _ _ _ _ (h n (by simp))]
    simp only [chars_slotDraft, leads]
    rw [ih fun m hm => h m (by simp [hm])]

/-- Elements that are laid out are written as a list. -/
theorem listed_leads {W : Node → List Char → Prop} {f : Node → List Char} {ns : List Node}
    (h : ∀ n ∈ ns, W n (f n)) (o : Options) (depth : Nat) {t : List Char} (ht : AllBlank t) :
    Listed W ns (leads o depth f 0 ns ++ t) := by
  have hfrom : ∀ (ns : List Node) (n : Node) (index : Nat), (∀ m ∈ n :: ns, W m (f m)) →
      Listed W (n :: ns) (o.gap depth index ++ f n ++ leads o depth f (index + 1) ns ++ t) := by
    intro ns
    induction ns with
    | nil =>
      intro n index h
      rw [leads, List.append_nil]
      exact .last (o.allBlank_gap depth index) (h n (by simp)) ht
    | cons m ns ih =>
      intro n index h
      have hrest := ih m (index + 1) fun k hk => h k (by simp [hk])
      have hcons := Listed.cons (o.allBlank_gap depth index) (h n (by simp)) allBlank_nil hrest
      rw [leads, o.lead_succ]
      simpa using hcons
  cases ns with
  | nil => exact .blank ht
  | cons n ns => exact hfrom ns n 0 h

theorem listed_join {x : String} {xs : List String} :
    Listed Node.ItemWritten (x :: xs) (' ' :: (Value.join (x :: xs)).toList) := by
  induction xs generalizing x with
  | nil =>
    have hlast := Listed.last (W := Node.ItemWritten) (a := x) allBlank_space rfl
      allBlank_nil
    simpa using hlast
  | cons y xs ih =>
    have hcons := Listed.cons (W := Node.ItemWritten) (a := x) allBlank_space rfl
      allBlank_nil (ih (x := y))
    simpa using hcons

variable {path owner : String} {n : Node}

theorem propertyWritten_propertyChars (h : Spells owner n) :
    PropertyWritten n (propertyChars n) := by
  refine ⟨[], _, allBlank_nil, by rw [List.append_nil]; rfl, ?_⟩
  rw [propertyValue_eq]
  have hitem := h.item
  generalize n.itemTexts = items at hitem ⊢
  cases items with
  | nil => exact .blank allBlank_nil
  | cons x xs =>
    have hne : (Value.join (x :: xs)).toList.isEmpty = false :=
      List.isEmpty_eq_false_iff.2 (Value.toList_join_ne_nil (hitem x (by simp)).ne_nil xs)
    simp only [hne, Bool.false_eq_true, if_false]
    exact listed_join

/-- An entity is laid out as the grammar writes it. -/
theorem written_entityDraft (h : GrammaticalEntity path n) (o : Options) (path' : String)
    (depth start : Nat) : Written n (entityDraft o path' depth start n).chars := by
  have hk := h.isEntityLike
  obtain ⟨type, -, -, -, hvalue, hprops, -⟩ := h
  have hfilter := filter_properties fun p hp => (hprops p hp).spells.kind
  have hbody := listed_leads (fun p hp => propertyWritten_propertyChars (hprops p hp).spells) o
    (depth + 1) (o.allBlank_tail depth n.children.length)
  have hwritten := Written.entity hk allBlank_nil hbody
  simp only [entityDraft, hfilter, propertiesChars_eq_leads, entityType]
  simpa [hvalue] using hwritten

/-- An operation is laid out as the grammar writes it, if its slots are. -/
theorem listed_slots (h : GrammaticalOperation path n) {o : Options} {depth : Nat}
    (hslots : ∀ c ∈ n.children, Written c (slotChars o (depth + 1) c)) (path' : String)
    (start : Nat) :
    ∃ body, Listed Written n.children body ∧ (operationDraft o path' depth start n).chars =
      (n.value.getD "").toList ++ '(' :: body ++ [')'] := by
  have hkind : ∀ c ∈ n.children, c.kind ≠ .property := by
    intro c hc
    obtain ⟨i, hi⟩ := List.mem_iff_getElem?.1 hc
    exact (h.slot hi).kind_ne_property
  refine ⟨_, listed_leads hslots o (depth + 1) (o.allBlank_tail depth (slotCount n.children)), ?_⟩
  rw [operationDraft_eq]
  simp [chars_slotsDraft_eq_leads hkind]

theorem written_slotChars {i : Nat} (h : GrammaticalSlot path i n) (o : Options) (depth : Nat) :
    Written n (slotChars o depth n) := by
  induction n using children_induction generalizing path i depth with
  | node n ih =>
    rw [slotChars, slotDraft]
    rcases h with h | h
    · have hslots : ∀ c ∈ n.children, Written c (slotChars o (depth + 1) c) := by
        intro c hc
        obtain ⟨j, hj⟩ := List.mem_iff_getElem?.1 hc
        exact ih c hc (h.slot hj) (depth + 1)
      obtain ⟨body, hbody, hchars⟩ := listed_slots h hslots (Path.operationIn (Path.slotIn "" 0)) 0
      have hwritten := Written.operation h.kind allBlank_nil hbody
      rw [List.append_nil] at hwritten
      rw [if_pos h.kind, hchars]
      exact hwritten
    · rw [if_neg h.kind_ne_operation]
      exact written_entityDraft h o _ depth 0

/-- Every layout of a tree of the grammar is one of its scripts. -/
theorem isScriptOf_document (h : GrammaticalOperation path n) (o : Options) :
    IsScriptOf n (document o n).text.toList := by
  have hslots : ∀ c ∈ n.children, Written c (slotChars o 1 c) := by
    intro c hc
    obtain ⟨i, hi⟩ := List.mem_iff_getElem?.1 hc
    exact written_slotChars (h.slot hi) o 1
  obtain ⟨body, hbody, hchars⟩ := listed_slots h hslots Path.operationWord 0
  have hdraft : draft o n = operationDraft o Path.operationWord 0 0 n := by
    cases h with
    | intro hkind _ hvalue => simp [draft, isPlaceholder, hkind, hvalue]
  refine ⟨[], [], [], body, [], ?_, .inl rfl, by simp, by simp, hbody⟩
  rw [document, Document.ofDraft, String.toList_ofList, hdraft, hchars]
  simp

end Layout

namespace Node

/-- A tree of the grammar is recovered from each of its scripts, and all of its layouts are among
them. -/
theorem shape_ofScript_of_grammatical {T : Node} (h : GrammaticalOperation Path.operationWord T) :
    (∀ o, IsScriptOf T (Layout.document o T).text.toList) ∧
      ∀ text : String, IsScriptOf T text.toList → (ofScript text).shape = T.shape :=
  ⟨Layout.isScriptOf_document h, fun _ ht => ht.shape_ofScript h⟩

/-- An operation with a list, and with an operation in it whose one item has a comma. -/
def nested : Node :=
  ⟨.operation, "operation", ⟨0, 0⟩, some "sum",
    [⟨.entity, "operation/entities[0]", ⟨0, 0⟩, some "box",
      [propertyShape "operation/entities[0]" "n" ["1", "2"]]⟩,
    ⟨.operation, "operation/entities[1]/operation", ⟨0, 0⟩, some "f",
      [⟨.container, "operation/entities[1]/operation/entities[0]", ⟨0, 0⟩, some "result_container",
        [propertyShape "operation/entities[1]/operation/entities[0]" "x" ["g(a, b)"]]⟩]⟩]⟩

/-- A script of it with lines before the root, text behind it, commas without an element and white
space of several kinds. -/
def nestedText : String :=
  "notes\n\tsum (\u00a0box[n :\u30001 ,, 2 , ],, f\n(result_container [x: g(a, b)])\n), end"

theorem grammatical_nested : GrammaticalOperation Path.operationWord nested := by
  refine .intro rfl rfl rfl (by decide) ?_ ?_
  · rintro (_ | _ | i) c hc hk
    · cases hc
      cases hk
    · cases hc
      refine .intro rfl (by decide) rfl (by decide) ?_ ?_
      · rintro (_ | i) c hc hk
        · cases hc
          cases hk
        · cases hc
      · rintro (_ | i) c hc hk
        · cases hc
          refine ⟨"result_container", by decide, by decide, by decide, rfl, ?_, by simp⟩
          rw [List.forall_mem_singleton]
          exact ⟨"x", ["g(a, b)"], by decide, by decide, by decide, by decide, by decide⟩
        · cases hc
    · cases hc
  · rintro (_ | _ | i) c hc hk
    · cases hc
      refine ⟨"box", by decide, by decide, by decide, rfl, ?_, by simp⟩
      rw [List.forall_mem_singleton]
      exact ⟨"n", ["1", "2"], by decide, by decide, by decide, by decide, by decide⟩
    · cases hc
      exact absurd rfl hk
    · cases hc

theorem isScriptOf_nestedText : IsScriptOf nested nestedText.toList := by
  have hblank : ∀ b : List Char, b.all isBlank = true → AllBlank b :=
    fun b hb c hc => List.all_eq_true.1 hb c hc
  have hnone := hblank [] rfl
  have hspace := hblank [' '] rfl
  have hnumbers := Listed.cons (W := ItemWritten) (a := "1") (hblank ['\u3000'] rfl) rfl hspace
    (.skip hnone (.cons (a := "2") hspace rfl hspace (.blank hspace)))
  have hbox : Listed PropertyWritten [propertyShape "operation/entities[0]" "n" ["1", "2"]] _ :=
    .last hnone ⟨[' '], _, hspace, rfl, hnumbers⟩ hnone
  have hcall := Listed.last (W := ItemWritten) (a := "g(a, b)") hspace rfl hnone
  have hcontainer : Listed PropertyWritten
      [propertyShape "operation/entities[1]/operation/entities[0]" "x" ["g(a, b)"]] _ :=
    .last hnone ⟨[], _, hnone, rfl, hcall⟩ hnone
  have hbody : Listed Written nested.children _ :=
    .cons (hblank ['\u00a0'] rfl) (.entity rfl hnone hbox) hnone
      (.skip hnone (.last hspace (.operation rfl (hblank ['\n'] rfl)
        (.last hnone (.entity rfl hspace hcontainer) hnone)) (hblank ['\n'] rfl)))
  exact ⟨"notes\n".toList, ['\t'], [' '], _, ", end".toList, by decide +kernel,
    .inr ⟨"notes".toList, rfl, by decide +kernel⟩, by simp [Call.isIndent],
    by simp [Call.isIndent], hbody⟩

theorem shape_ofScript_of_grammatical_nested :
    IsScriptOf nested (Layout.minify nested).toList ∧
      (ofScript nestedText).shape = nested.shape := by
  obtain ⟨hlayout, hread⟩ := shape_ofScript_of_grammatical grammatical_nested
  exact ⟨hlayout .minified, hread nestedText isScriptOf_nestedText⟩

end Node
end ProblemScript
