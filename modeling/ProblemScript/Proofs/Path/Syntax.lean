import Mathlib.Algebra.Group.Nat.Defs
import Mathlib.Data.List.Chain
import ProblemScript.Proofs.Path.Codec

/-! The written paths are exactly what well-formed runs of steps write. One part is read as the one
step that writes it, if that step may come next; reading a path is reading its parts in turn. -/
namespace ProblemScript
open Text

namespace Step

/-- The step `next` may come right behind `s`. Nothing comes behind a property. -/
def MayPrecede (s next : Step) : Prop :=
  match s, next with
  | operation, entity _ => True
  | entity _, operation => True
  | entity _, property _ _ => True
  | _, _ => False

/-- Where an item may stand its property may. -/
theorem MayPrecede.property_of_item {s : Step} {key : String} {j : Nat}
    (h : s.MayPrecede (property key (some j))) : s.MayPrecede (property key none) := by
  cases s <;> exact h

theorem MayPrecede.isProperty_eq_false {s next : Step} (h : s.MayPrecede next) :
    s.isProperty = false := by
  cases s with
  | operation | entity => rfl
  | property => cases next <;> exact h.elim

theorem MayPrecede.item_of_property {s : Step} {key : String}
    (h : s.MayPrecede (property key none)) (j : Nat) : s.MayPrecede (property key (some j)) := by
  cases s <;> exact h

/-- Keys are made of ASCII letters, digits and underscores and are none of the words of paths;
indices fit into 64 bits. -/
def IsWritable : Step → Prop
  | operation => True
  | entity i => i < 2 ^ 64
  | property key index =>
    (key ≠ "" ∧ (∀ c ∈ key.toList, c.isAlphanum = true ∨ c = '_') ∧
      key ≠ Path.operationWord ∧ key ≠ Path.entitiesWord) ∧ ∀ j ∈ index, j < 2 ^ 64

/-- The name that a step is written with. -/
def name : Step → String
  | operation => Path.operationWord
  | entity _ => Path.entitiesWord
  | property key _ => key

/-- Only a property can be without a name. -/
theorem name_ne {s : Step} (h : s.isProperty = false) : s.name ≠ "" := by
  cases s with
  | operation => simp [name, Path.operationWord]
  | entity => simp [name, Path.entitiesWord]
  | property => simp [isProperty] at h

/-- The index that a step is written with. -/
def index : Step → Option Nat
  | operation => none
  | entity i => some i
  | property _ index => index

/-- Every step is written like a property with its name and index. -/
theorem text_eq (s : Step) : s.text = (property s.name s.index).text := by
  cases s <;> rfl

end Step

namespace Path

/-- A run of steps that may be written as a path. -/
structure WellFormed (steps : List Step) : Prop where
  root : steps.head? = some .operation
  order : steps.IsChain Step.MayPrecede
  writable : ∀ s ∈ steps, s.IsWritable

/-- Steps joined by slashes. -/
def written (steps : List Step) : String := "/".intercalate (steps.map Step.text)

/-- The path one step further, whether or not the step may come there. -/
def push (p : Path) : Step → Path
  | .operation => p.operation
  | .entity i => p.entity i
  | .property key none => p.property key
  | .property key (some j) => p.item key j

@[elab_as_elim]
theorem push_induction {P : Path → Prop} (root : P root) (push : ∀ p s, P p → P (push p s))
    (p : Path) : P p := by
  induction p with
  | root => exact root
  | entity p i ih => exact push p (.entity i) ih
  | operation p ih => exact push p .operation ih
  | property p key ih => exact push p (.property key none) ih
  | item p key j ih => exact push p (.property key (some j)) ih

section Push
variable (p : Path) (s : Step)

@[simp] theorem last_push : (p.push s).last = s := by
  rcases s with _ | i | ⟨key, _ | j⟩ <;> rfl

@[simp] theorem steps_push : (p.push s).steps = p.steps ++ [s] := by
  rcases s with _ | i | ⟨key, _ | j⟩ <;> rfl

theorem text_push : (p.push s).text = p.text ++ "/" ++ s.text := by
  rcases s with _ | i | ⟨key, _ | j⟩
  · rfl
  · rfl
  · rfl
  · exact itemIn_propertyIn p.text key j

end Push

theorem steps_ne_nil (p : Path) : p.steps ≠ [] := by
  cases p <;> simp [steps]

theorem getLast?_steps (p : Path) : p.steps.getLast? = some p.last := by
  induction p using push_induction with
  | root => rfl
  | push p s ih => simp

/-- The written form of a path is its steps joined by slashes. -/
theorem text_eq_written (p : Path) : p.text = written p.steps := by
  induction p using push_induction with
  | root => rfl
  | push p s ih =>
    have hne : p.steps.map Step.text ≠ [] := by simpa using steps_ne_nil p
    simp only [written, steps_push, List.map_append, List.map_cons, List.map_nil,
      String.intercalate_append_of_ne_nil hne (List.cons_ne_nil _ _),
      String.intercalate_singleton]
    rw [text_push, ih, written]

/-- A path is what its steps lead to, so that paths are as good as runs of steps. -/
theorem foldl_push_steps (p : Path) : p.steps.tail.foldl push root = p := by
  induction p using push_induction with
  | root => rfl
  | push p s ih => simp [List.tail_append_of_ne_nil (steps_ne_nil p), ih]

theorem steps_foldl_push (p : Path) (steps : List Step) :
    (steps.foldl push p).steps = p.steps ++ steps := by
  induction steps generalizing p with
  | nil => simp
  | cons s steps ih => simp [ih]

/-- Every run of steps that starts with an operation is that of a path. -/
theorem exists_steps_eq {steps : List Step} (h : steps.head? = some .operation) :
    ∃ p : Path, p.steps = steps := by
  obtain ⟨rest, rfl⟩ := List.head?_eq_some_iff.1 h
  exact ⟨rest.foldl push root, steps_foldl_push root rest⟩

theorem steps_eq_cons (p : Path) : p.steps = .operation :: p.steps.tail := by
  induction p using push_induction with
  | root => rfl
  | push p s ih =>
    rw [steps_push, List.tail_append_of_ne_nil (steps_ne_nil p), ← List.cons_append, ← ih]

theorem toList_written (steps : List Step) :
    (written steps).toList = ['/'].intercalate (steps.map (·.text.toList)) := by
  simp [written, Function.comp_def]

/-- A digit is the one that writes its value. -/
theorem digitChar_of_isDigit {d : Char} (h : d.isDigit = true) :
    Nat.digitChar (d.toNat - '0'.toNat) = d ∧ d.toNat - '0'.toNat < 10 := by
  have hrange : 48 ≤ d.toNat ∧ d.toNat ≤ 57 := by
    simpa [Char.isDigit, UInt32.le_iff_toNat_le] using h
  have hzero : '0'.toNat = 48 := rfl
  have hlt : d.toNat - '0'.toNat < 10 := by omega
  refine ⟨Char.toNat_inj.1 ?_, hlt⟩
  rw [Nat.toNat_digitChar_of_lt_ten hlt]
  omega

/-- Digits in canonical form are the decimal notation of what they write. -/
theorem toDigits_decimal {digits : List Char} (h : isIndex digits = true) :
    Nat.toDigits 10 (decimal digits) = digits := by
  induction digits using List.reverseRecOn with
  | nil => simp [isIndex] at h
  | append_singleton ds d ih =>
    simp only [isIndex, List.all_append, Bool.and_eq_true, List.all_cons, List.all_nil] at h
    obtain ⟨⟨-, hds, hd, -⟩, hzero⟩ := h
    obtain ⟨hchar, hlt⟩ := digitChar_of_isDigit hd
    have hvalue : decimal (ds ++ [d]) = 10 * decimal ds + (d.toNat - '0'.toNat) := by
      simp [decimal]
    cases ds with
    | nil =>
      rw [hvalue, show decimal [] = 0 from rfl, Nat.mul_zero, Nat.zero_add,
        Nat.toDigits_of_lt_base hlt, hchar]
      rfl
    | cons e ds =>
      have hhead : e ≠ '0' := by simpa using hzero
      have hrest : Nat.toDigits 10 (decimal (e :: ds)) = e :: ds := by
        apply ih
        simp [isIndex, hhead, hds]
      have hpos : 0 < decimal (e :: ds) := by
        rw [Nat.pos_iff_ne_zero]
        intro hnone
        rw [hnone, Nat.toDigits_zero] at hrest
        exact hhead (List.cons.inj hrest).1.symm
      rw [hvalue, ← Nat.toDigits_append_toDigits (by omega) hpos hlt, hrest,
        Nat.toDigits_of_lt_base hlt, hchar]

theorem index?_eq_some_iff {digits : List Char} {i : Nat} :
    index? digits = some i ↔ i < indexBound ∧ digits = Nat.toDigits 10 i := by
  constructor
  · intro h
    simp only [index?, Bool.and_eq_true, decide_eq_true_eq, Option.ite_none_right_eq_some,
      Option.some.injEq] at h
    obtain ⟨⟨hindex, hlt⟩, rfl⟩ := h
    exact ⟨hlt, (toDigits_decimal hindex).symm⟩
  · rintro ⟨hlt, rfl⟩
    exact index?_toDigits hlt

/-- A part is read as the name and the index that it is written with. -/
theorem readPart_eq_ok_iff {part : List Char} {name : String} {index : Option Nat} :
    readPart part = .ok (name, index) ↔ isKey name.toList = true ∧ (∀ i ∈ index, i < indexBound) ∧
      part = (Step.property name index).text.toList := by
  constructor
  · intro h
    have hkey := isKey_of_readPart h
    have hcut : part.takeWhile (· != '[') ++ part.dropWhile (· != '[') = part :=
      List.takeWhile_append_dropWhile
    unfold readPart at h
    simp only [hkey, if_true, drop_length_takeWhile] at h
    cases hrest : part.dropWhile (· != '[') with
    | nil =>
      rw [hrest] at h hcut
      obtain ⟨rfl, rfl⟩ : String.ofList (part.takeWhile (· != '[')) = name ∧ none = index := by
        simpa [pure, Except.pure, bind, Except.bind] using h
      simpa [Step.text, hkey] using hcut.symm
    | cons c rest =>
      have hc : c = '[' := by
        have := List.head?_dropWhile_not (· != '[') part
        simpa [hrest] using this
      rw [hrest, hc] at h hcut
      simp only at h
      split at h
      · cases h
      · rename_i hlast
        cases hindex : index? rest.dropLast with
        | none =>
          rw [hindex] at h
          cases h
        | some i =>
          rw [hindex] at h
          obtain ⟨rfl, rfl⟩ :
              String.ofList (part.takeWhile (· != '[')) = name ∧ some i = index := by
            simpa [pure, Except.pure, bind, Except.bind] using h
          obtain ⟨hlt, hdigits⟩ := index?_eq_some_iff.1 hindex
          have hclosed : rest = Nat.toDigits 10 i ++ [']'] := by
            rw [← hdigits]
            exact (List.dropLast_append_getLast? ']' (by simpa using hlast)).symm
          refine ⟨by simpa using hkey, by simpa using hlt, ?_⟩
          rw [Step.text, toList_indexed, ← hclosed]
          simpa using hcut.symm
  · rintro ⟨hkey, hlt, rfl⟩
    cases index with
    | none => exact readPart_of_isKey hkey
    | some i => exact readPart_indexed hkey (hlt i rfl)

theorem isKey_iff {name : String} :
    isKey name.toList = true ↔ name ≠ "" ∧ ∀ c ∈ name.toList, c.isAlphanum = true ∨ c = '_' := by
  simp [isKey, isNameChar]

/-- What can be written can be read as name and index, and a property is told from the other
steps. -/
theorem isWritable_iff (s : Step) :
    s.IsWritable ↔ (isKey s.name.toList = true ∧ ∀ i ∈ s.index, i < indexBound) ∧
      (s.isProperty = true → s.name ≠ operationWord ∧ s.name ≠ entitiesWord) := by
  have hbound : indexBound = 2 ^ 64 := rfl
  cases s with
  | operation => exact iff_of_true trivial ⟨⟨rfl, nofun⟩, nofun⟩
  | entity i =>
    have hword : isKey entitiesWord.toList = true := by decide
    simp [Step.IsWritable, Step.name, Step.index, Step.isProperty, hbound, hword]
  | property key index =>
    simp only [Step.IsWritable, Step.name, Step.index, Step.isProperty, hbound, isKey_iff]
    tauto

/-- A path goes on with the step of the given name and index that may come next. -/
theorem extend?_eq_some_iff {p q : Path} {name : String} {index : Option Nat} :
    p.extend? name index = some q ↔ ∃ s : Step, s.name = name ∧ s.index = index ∧ q = p.push s ∧
      p.last.MayPrecede s ∧ (s.isProperty = true → name ≠ operationWord ∧ name ≠ entitiesWord) := by
  constructor
  · intro h
    cases p with
    | root | operation =>
      simp only [extend?, Option.ite_none_right_eq_some, Option.map_eq_some_iff] at h
      obtain ⟨rfl, i, rfl, rfl⟩ := h
      exact ⟨.entity i, rfl, rfl, rfl, trivial, nofun⟩
    | entity p i =>
      simp only [extend?] at h
      split at h
      · cases h
      · rename_i hentities
        split at h
        · rename_i hoperation
          simp only [Option.ite_none_right_eq_some, Option.some.injEq] at h
          obtain ⟨rfl, rfl⟩ := h
          exact ⟨.operation, hoperation.symm, rfl, rfl, trivial, nofun⟩
        · rename_i hoperation
          refine ⟨.property name index, rfl, rfl, ?_, trivial, fun _ => ⟨hoperation, hentities⟩⟩
          cases index <;> exact (Option.some.inj h).symm
    | property | item => simp [extend?] at h
  · rintro ⟨s, rfl, rfl, rfl, hnext, hproperty⟩
    cases p with
    | root | operation =>
      cases s with
      | entity i => rfl
      | operation | property => exact hnext.elim
    | entity p i =>
      cases s with
      | operation => rfl
      | entity j => exact hnext.elim
      | property key index =>
        obtain ⟨hoperation, hentities⟩ := hproperty rfl
        simp only [extend?, if_neg hentities, if_neg hoperation]
        cases index <;> rfl
    | property | item => exact hnext.elim

/-- A part is read as the step that writes it, if that step may come next. -/
theorem readStep_eq_ok_iff {p q : Path} {part : List Char} :
    readStep p part = .ok q ↔ ∃ s : Step, q = p.push s ∧ part = s.text.toList ∧
      p.last.MayPrecede s ∧ s.IsWritable := by
  unfold readStep
  constructor
  · intro h
    cases hpart : readPart part with
    | error e =>
      rw [hpart] at h
      cases h
    | ok r =>
      obtain ⟨name, index⟩ := r
      obtain ⟨hkey, hlt, hwritten⟩ := readPart_eq_ok_iff.1 hpart
      rw [hpart] at h
      cases hnext : p.extend? name index with
      | none =>
        simp [hnext, bind, Except.bind] at h
      | some r =>
        obtain rfl : r = q := by simpa [hnext, bind, Except.bind, pure, Except.pure] using h
        obtain ⟨s, rfl, rfl, rfl, hmay, hproperty⟩ := extend?_eq_some_iff.1 hnext
        exact ⟨s, rfl, by rw [hwritten, s.text_eq], hmay,
          (isWritable_iff s).2 ⟨⟨hkey, hlt⟩, hproperty⟩⟩
  · rintro ⟨s, rfl, rfl, hmay, hwritable⟩
    obtain ⟨hread, hproperty⟩ := (isWritable_iff s).1 hwritable
    rw [s.text_eq, readPart_eq_ok_iff.2 ⟨hread.1, hread.2, rfl⟩]
    have hnext := extend?_eq_some_iff.2 ⟨s, rfl, rfl, rfl, hmay, hproperty⟩
    simp [hnext, bind, Except.bind, pure, Except.pure]

/-- Parts are read as the steps that write them, as long as each may come behind the one before. -/
theorem foldlM_readStep_eq_ok_iff {p q : Path} {parts : List (List Char)} :
    parts.foldlM readStep p = .ok q ↔ ∃ steps : List Step, q = steps.foldl push p ∧
      parts = steps.map (·.text.toList) ∧ (p.last :: steps).IsChain Step.MayPrecede ∧
      ∀ s ∈ steps, s.IsWritable := by
  induction parts generalizing p with
  | nil =>
    constructor
    · intro h
      obtain rfl : p = q := by simpa [pure, Except.pure] using h
      exact ⟨[], rfl, rfl, by simp, by simp⟩
    · rintro ⟨steps, rfl, hparts, -, -⟩
      obtain rfl : steps = [] := by simpa using hparts
      rfl
  | cons part parts ih =>
    rw [List.foldlM_cons]
    constructor
    · intro h
      cases hstep : readStep p part with
      | error e =>
        rw [hstep] at h
        cases h
      | ok r =>
        rw [hstep] at h
        obtain ⟨s, rfl, rfl, hmay, hwritable⟩ := readStep_eq_ok_iff.1 hstep
        obtain ⟨steps, rfl, rfl, hchain, hsteps⟩ := ih.1 h
        rw [last_push] at hchain
        exact ⟨s :: steps, rfl, rfl, hchain.cons_cons hmay,
          List.forall_mem_cons.2 ⟨hwritable, hsteps⟩⟩
    · rintro ⟨steps, rfl, hparts, hchain, hwritable⟩
      cases steps with
      | nil => simp at hparts
      | cons s steps =>
        obtain ⟨rfl, rfl⟩ := List.cons.inj hparts
        obtain ⟨hmay, hchain⟩ := List.isChain_cons_cons.1 hchain
        obtain ⟨hs, hsteps⟩ := List.forall_mem_cons.1 hwritable
        rw [readStep_eq_ok_iff.2 ⟨s, rfl, rfl, hmay, hs⟩]
        exact ih.2 ⟨steps, rfl, rfl, by rwa [last_push], hsteps⟩

theorem not_mem_text {s : Step} (h : s.IsWritable) : '/' ∉ s.text.toList := by
  obtain ⟨⟨hkey, -⟩, -⟩ := (isWritable_iff s).1 h
  rw [s.text_eq]
  cases s.index with
  | none => exact not_mem_of_isKey hkey
  | some i => exact not_mem_indexed (not_mem_of_isKey hkey) i

theorem parse_eq_ok_iff_parts {s : String} {p : Path} :
    parse s = .ok p ↔ ∃ parts, s.toList.splitOn '/' = operationWord.toList :: parts ∧
      parts.foldlM readStep root = .ok p := by
  unfold parse
  by_cases hempty : s.isEmpty = true
  · obtain rfl : s = "" := by simpa using hempty
    simp [operationWord]
  · rw [if_neg hempty]
    cases s.toList.splitOn '/' with
    | nil => simp
    | cons first rest =>
      by_cases hroot : first = operationWord.toList
      · simp [hroot]
      · simp [hroot]

/-- The paths that are read are the well-formed ones, each from its own written form. -/
theorem parse_eq_ok_iff {s : String} {p : Path} :
    parse s = .ok p ↔ WellFormed p.steps ∧ p.text = s := by
  rw [parse_eq_ok_iff_parts]
  constructor
  · rintro ⟨parts, hsplit, hread⟩
    obtain ⟨steps, rfl, rfl, hchain, hwritable⟩ := foldlM_readStep_eq_ok_iff.1 hread
    have hsteps : (steps.foldl push root).steps = .operation :: steps := steps_foldl_push root steps
    have hjoin : ['/'].intercalate (s.toList.splitOn '/') = s.toList := List.intercalate_splitOn '/'
    refine ⟨⟨?_, ?_, ?_⟩, ?_⟩
    · rw [hsteps]
      rfl
    · rw [hsteps]
      exact hchain
    · rw [hsteps, List.forall_mem_cons]
      exact ⟨trivial, hwritable⟩
    · rw [← String.toList_inj, text_eq_written, toList_written, hsteps, ← hjoin, hsplit]
      rfl
  · rintro ⟨h, rfl⟩
    have hsteps := steps_eq_cons p
    refine ⟨p.steps.tail.map (·.text.toList), ?_, ?_⟩
    · rw [text_eq_written, toList_written, List.splitOn_intercalate]
      · rw [hsteps]
        rfl
      · intro part hpart
        obtain ⟨s, hs, rfl⟩ := List.mem_map.1 hpart
        exact not_mem_text (h.writable s hs)
      · simpa using steps_ne_nil p
    · refine foldlM_readStep_eq_ok_iff.2 ⟨p.steps.tail, (foldl_push_steps p).symm, rfl, ?_, ?_⟩
      · have hchain := h.order
        rw [hsteps] at hchain
        exact hchain
      · intro s hs
        exact h.writable s (List.mem_of_mem_tail hs)

theorem isChain_push_iff {p : Path} {s : Step} :
    (p.push s).steps.IsChain Step.MayPrecede ↔
      p.steps.IsChain Step.MayPrecede ∧ p.last.MayPrecede s := by
  simp [List.isChain_append, getLast?_steps]

theorem wellFormed_push_iff {p : Path} {s : Step} :
    WellFormed (p.push s).steps ↔ WellFormed p.steps ∧ p.last.MayPrecede s ∧ s.IsWritable := by
  have hhead : (p.steps ++ [s]).head? = p.steps.head? :=
    List.head?_append_of_ne_nil _ (steps_ne_nil p)
  have hchain := isChain_push_iff (p := p) (s := s)
  rw [steps_push] at hchain ⊢
  constructor
  · intro h
    obtain ⟨horder, hmay⟩ := hchain.1 h.order
    refine ⟨⟨hhead ▸ h.root, horder, ?_⟩, hmay, ?_⟩
    · exact fun t ht => h.writable t (List.mem_append_left _ ht)
    · exact h.writable s (by simp)
  · rintro ⟨h, hmay, hwritable⟩
    refine ⟨hhead ▸ h.root, hchain.2 ⟨h.order, hmay⟩, ?_⟩
    intro t ht
    rcases List.mem_append.1 ht with ht | ht
    · exact h.writable t ht
    · rwa [List.mem_singleton.1 ht]

/-- The ancestors of a longer path are the path itself, its ancestors, and the property that an item
lies in. -/
theorem mem_ancestors_push {p q : Path} {s : Step} :
    q ∈ (p.push s).ancestors ↔ q = p ∨ q ∈ p.ancestors ∨
      ∃ key j, s = .property key (some j) ∧ q = p.property key := by
  rcases s with _ | i | ⟨key, _ | j⟩
  case property.some =>
    have hitem : (∃ key' j', Step.property key (some j) = .property key' (some j') ∧
        q = p.property key') ↔ q = p.property key := by
      simp
    simp only [push, Path.ancestors, List.mem_cons, hitem]
    tauto
  all_goals simp [push, Path.ancestors]

theorem WellFormed.ancestors {p : Path} (h : WellFormed p.steps) :
    ∀ q ∈ p.ancestors, WellFormed q.steps := by
  induction p using push_induction with
  | root => simp [Path.ancestors]
  | push p s ih =>
    obtain ⟨hp, hmay, hwritable⟩ := wellFormed_push_iff.1 h
    intro q hq
    rcases mem_ancestors_push.1 hq with rfl | hq | ⟨key, j, rfl, rfl⟩
    · exact hp
    · exact ih hp q hq
    · exact (wellFormed_push_iff (s := .property key none)).2
        ⟨hp, hmay.property_of_item, hwritable.1, nofun⟩

/-- The texts that are read as paths are those that well-formed runs of steps write. What is read
is well formed and written as it was, and so are its ancestors; a path is read from its written
form exactly if it is well formed. -/
theorem parse_exact :
    (∀ s, (∃ p, parse s = .ok p) ↔ ∃ steps, WellFormed steps ∧ s = written steps) ∧
      (∀ s p, parse s = .ok p → WellFormed p.steps ∧ p.text = s ∧
        ∀ q ∈ p.ancestors, parse q.text = .ok q) ∧
      ∀ p : Path, p.text = written p.steps ∧ (parse p.text = .ok p ↔ WellFormed p.steps) := by
  refine ⟨fun s => ⟨?_, ?_⟩, ?_, fun p => ⟨text_eq_written p, ?_⟩⟩
  · rintro ⟨p, hp⟩
    obtain ⟨hformed, rfl⟩ := parse_eq_ok_iff.1 hp
    exact ⟨p.steps, hformed, text_eq_written p⟩
  · rintro ⟨steps, hformed, rfl⟩
    obtain ⟨p, rfl⟩ := exists_steps_eq hformed.root
    exact ⟨p, parse_eq_ok_iff.2 ⟨hformed, text_eq_written p⟩⟩
  · intro s p hp
    obtain ⟨hformed, rfl⟩ := parse_eq_ok_iff.1 hp
    exact ⟨hformed, rfl, fun q hq => parse_eq_ok_iff.2 ⟨hformed.ancestors q hq, rfl⟩⟩
  · simp [parse_eq_ok_iff]

/-- The largest index, a key of digits, and the property that an item lies in. -/
theorem parse_exact_item :
    let s := "operation/entities[18446744073709551615]/operation/entities[0]/1_k[10]"
    let p := ((Path.root.entity 18446744073709551615).operation.entity 0).item "1_k" 10
    parse s = .ok p ∧ WellFormed p.steps ∧ p.text = s ∧ p.ancestors.length = 5 ∧
      ∀ q ∈ p.ancestors, parse q.text = .ok q := by
  intro s p
  have hp : parse s = .ok p := by decide +kernel
  obtain ⟨hformed, htext, hancestors⟩ := parse_exact.2.1 s p hp
  exact ⟨hp, hformed, htext, rfl, hancestors⟩

end Path
end ProblemScript
