import Mathlib.Data.List.TakeWhile
import ProblemScript.Text.Blank
import ProblemScript.Text.Identifier

/-! Laws of trimming and of collapsing white space. A text differs from its trimmed form by white
space at the ends, and from its collapsed form by white space only. -/
namespace ProblemScript.Text

/-- Every character is white space. -/
def AllBlank (cs : List Char) : Prop := ∀ c ∈ cs, isBlank c = true

theorem AllBlank.append {xs ys : List Char} (hx : AllBlank xs) (hy : AllBlank ys) :
    AllBlank (xs ++ ys) := by
  intro c hc
  rcases List.mem_append.1 hc with h | h
  · exact hx c h
  · exact hy c h

theorem allBlank_nil : AllBlank [] := by intro c hc; simp at hc

theorem allBlank_space : AllBlank [' '] := by
  intro c hc
  rw [List.mem_singleton.1 hc]
  decide

/-- Names are written in letters, digits and the underscore of ASCII. -/
theorem toNat_of_isNameChar {c : Char} (h : isNameChar c = true) :
    48 ≤ c.toNat ∧ c.toNat ≤ 122 := by
  change (((decide (c.val ≥ 'A'.val ∧ c.val ≤ 'Z'.val) ||
    (decide (c.val ≥ 'a'.val) && decide (c.val ≤ 'z'.val))) ||
    (decide (c.val ≥ '0'.val) && decide (c.val ≤ '9'.val))) || c == '_') = true at h
  simp only [Bool.or_eq_true, Bool.and_eq_true, decide_eq_true_eq, beq_iff_eq, ge_iff_le,
    UInt32.le_iff_toNat_le] at h
  change (((65 ≤ c.toNat ∧ c.toNat ≤ 90) ∨ (97 ≤ c.toNat ∧ c.toNat ≤ 122)) ∨
    (48 ≤ c.toNat ∧ c.toNat ≤ 57)) ∨ c = '_' at h
  rcases h with ((h | h) | h) | rfl
  · omega
  · omega
  · omega
  · decide

theorem isBlank_eq_false_of_isNameChar {c : Char} (h : isNameChar c = true) :
    isBlank c = false := by
  have hn := toNat_of_isNameChar h
  simp [isBlank]
  omega

theorem trimStart_append {b : List Char} (hb : AllBlank b) (x : List Char) :
    trimStart (b ++ x) = trimStart x := by
  induction b with
  | nil => rfl
  | cons c b ih =>
    have hc : isBlank c = true := hb c (by simp)
    simpa [trimStart, hc] using ih fun d hd => hb d (by simp [hd])

theorem trimStart_cons {c : Char} (hc : isBlank c = false) (x : List Char) :
    trimStart (c :: x) = c :: x := by
  simp [trimStart, hc]

theorem trimEnd_append {b : List Char} (hb : AllBlank b) (x : List Char) :
    trimEnd (x ++ b) = trimEnd x := by
  have hr : AllBlank b.reverse := fun c hc => hb c (by simpa using hc)
  have h := trimStart_append hr x.reverse
  unfold trimStart at h
  simp [trimEnd, h]

/-- A text with no white space at its ends is its own trimmed form. -/
theorem trim_eq_self {x : List Char} (hs : ∀ c ∈ x.head?, isBlank c = false)
    (he : ∀ c ∈ x.getLast?, isBlank c = false) : trim x = x := by
  have hstart : trimStart x = x := by
    cases x with
    | nil => rfl
    | cons c x => exact trimStart_cons (hs c (by simp)) x
  have hrev : trimStart x.reverse = x.reverse := by
    cases h : x.reverse with
    | nil => rfl
    | cons c y =>
      refine trimStart_cons (he c ?_) y
      simp [List.getLast?_eq_head?_reverse, h]
  unfold trimStart at hrev
  rw [trim, hstart, trimEnd, hrev, List.reverse_reverse]

theorem trim_of_isNameChar {x : List Char} (h : ∀ c ∈ x, isNameChar c = true) : trim x = x := by
  apply trim_eq_self
  · intro c hc
    exact isBlank_eq_false_of_isNameChar (h c (List.mem_of_head? hc))
  · intro c hc
    exact isBlank_eq_false_of_isNameChar (h c (List.mem_of_getLast? hc))

/-- What trimming takes away is white space before and behind the rest. -/
theorem exists_trim (cs : List Char) :
    ∃ b, AllBlank b ∧ cs = cs.takeWhile isBlank ++ trim cs ++ b := by
  have key : ∀ y : List Char, ∃ b, AllBlank b ∧ y = trimEnd y ++ b := by
    intro y
    refine ⟨(y.reverse.takeWhile isBlank).reverse, ?_, ?_⟩
    · intro c hc
      exact List.mem_takeWhile_imp (List.mem_reverse.1 hc)
    · rw [trimEnd, ← List.reverse_append, List.takeWhile_append_dropWhile, List.reverse_reverse]
  obtain ⟨b, hb, h⟩ := key (trimStart cs)
  refine ⟨b, hb, ?_⟩
  rw [List.append_assoc, trim, ← h, trimStart, List.takeWhile_append_dropWhile]

theorem allBlank_takeWhile (cs : List Char) : AllBlank (cs.takeWhile isBlank) :=
  fun _ hc => List.mem_takeWhile_imp hc

theorem head?_trimStart (cs : List Char) : ∀ c ∈ (trimStart cs).head?, isBlank c = false := by
  intro c hc
  have h := List.head?_dropWhile_not isBlank cs
  rw [show (cs.dropWhile isBlank).head? = some c from hc] at h
  simpa using h

theorem getLast?_trim (cs : List Char) : ∀ c ∈ (trim cs).getLast?, isBlank c = false := by
  intro c hc
  rw [trim, trimEnd, List.getLast?_reverse] at hc
  exact head?_trimStart _ c hc

theorem trim_trimStart (cs : List Char) : trim (trimStart cs) = trim cs := by
  have h : trimStart (trimStart cs) = trimStart cs := by
    cases hx : trimStart cs with
    | nil => rfl
    | cons d x => exact trimStart_cons (head?_trimStart cs d (by simp [hx])) x
  rw [trim, h, trim]

theorem head?_trim (cs : List Char) : ∀ c ∈ (trim cs).head?, isBlank c = false := by
  intro c hc
  obtain ⟨b, -, h⟩ := exists_trim (trimStart cs)
  have ht : (trimStart cs).takeWhile isBlank = [] := by
    cases hx : trimStart cs with
    | nil => rfl
    | cons d x =>
      have hd := head?_trimStart cs d (by simp [hx])
      simp [hd]
  rw [ht, trim_trimStart, List.nil_append] at h
  apply head?_trimStart cs c
  rw [h]
  cases hx : trim cs with
  | nil => simp [hx] at hc
  | cons d x => simpa [hx] using hc

@[simp] theorem trim_trim (cs : List Char) : trim (trim cs) = trim cs :=
  trim_eq_self (head?_trim cs) (getLast?_trim cs)

/-- White space at the ends does not matter to trimming. -/
theorem trim_append {b b' : List Char} (hb : AllBlank b) (hb' : AllBlank b') (x : List Char) :
    trim (b ++ x ++ b') = trim x := by
  rw [List.append_assoc, trim, trimStart_append hb, trim]
  have hstart : trimStart (x ++ b') =
      if (trimStart x).isEmpty then trimStart b' else trimStart x ++ b' := List.dropWhile_append
  rw [hstart]
  split
  · rename_i h
    have hnil := trimStart_append hb' []
    rw [List.append_nil] at hnil
    rw [hnil, List.isEmpty_iff.1 h]
    rfl
  · exact trimEnd_append hb' _

theorem trim_eq_nil_iff (cs : List Char) : trim cs = [] ↔ AllBlank cs := by
  constructor
  · intro h
    obtain ⟨b, hb, he⟩ := exists_trim cs
    rw [h, List.append_nil] at he
    rw [he]
    exact (allBlank_takeWhile cs).append hb
  · intro h
    simpa [trim, trimStart, trimEnd] using congrArg trimEnd (trimStart_append h [])

/-- All laws of words come from this one: white space separates them. -/
theorem words_append_cons {c : Char} (hc : isBlank c = true) (xs ys : List Char) :
    words (xs ++ c :: ys) = words xs ++ words ys := by
  simp [words, List.splitOnP_append_cons xs ys hc]

theorem words_of_allBlank {b : List Char} (hb : AllBlank b) : words b = [] := by
  induction b with
  | nil => simp [words]
  | cons c b ih =>
    have h := words_append_cons (hb c (by simp)) [] b
    rw [List.nil_append] at h
    rw [h, ih fun d hd => hb d (by simp [hd])]
    simp [words]

theorem words_append_of_allBlank {b : List Char} (hb : AllBlank b) (xs : List Char) :
    words (b ++ xs) = words xs := by
  induction b with
  | nil => rfl
  | cons c b ih =>
    have h := words_append_cons (hb c (by simp)) [] (b ++ xs)
    rw [List.cons_append]
    rw [List.nil_append] at h
    rw [h, ih fun d hd => hb d (by simp [hd])]
    simp [words]

theorem words_append_allBlank {b : List Char} (hb : AllBlank b) (xs : List Char) :
    words (xs ++ b) = words xs := by
  cases b with
  | nil => simp
  | cons c b =>
    have hrest : AllBlank b := fun d hd => hb d (by simp [hd])
    rw [words_append_cons (hb c (by simp)), words_of_allBlank hrest, List.append_nil]

theorem words_of_word {w : List Char} (hne : w ≠ []) (hw : ∀ c ∈ w, isBlank c = false) :
    words w = [w] := by
  simp [words, List.splitOnP_eq_singleton hw, hne]

/-- Words are not empty and hold no white space. -/
theorem mem_words {cs w : List Char} (h : w ∈ words cs) :
    w ≠ [] ∧ ∀ c ∈ w, isBlank c = false := by
  simp only [words, List.mem_filter, Bool.not_eq_true', List.isEmpty_eq_false_iff] at h
  refine ⟨h.2, ?_⟩
  replace h := h.1
  induction cs generalizing w with
  | nil => simp at h; simp [h]
  | cons d cs ih =>
    rw [List.splitOnP_cons_eq_if_modifyHead] at h
    split at h
    · rcases List.mem_cons.1 h with rfl | h
      · simp
      · exact ih h
    · rename_i hd
      cases hs : cs.splitOnP isBlank with
      | nil => exact absurd hs (List.splitOnP_ne_nil _ _)
      | cons v vs =>
        rw [hs, List.modifyHead_cons] at h
        rcases List.mem_cons.1 h with rfl | h
        · intro c hc
          rcases List.mem_cons.1 hc with rfl | hc
          · simpa using hd
          · exact ih (by simp [hs]) c hc
        · exact ih (by simp [hs, h])

theorem words_trim (cs : List Char) : words (trim cs) = words cs := by
  obtain ⟨b, hb, h⟩ := exists_trim cs
  have hw := congrArg words h
  rw [words_append_allBlank hb, words_append_of_allBlank (allBlank_takeWhile cs)] at hw
  exact hw.symm

/-- Words written with single spaces between them are read back. -/
theorem words_intercalate {ws : List (List Char)}
    (h : ∀ w ∈ ws, w ≠ [] ∧ ∀ c ∈ w, isBlank c = false) :
    words ([' '].intercalate ws) = ws := by
  induction ws with
  | nil => simp [words]
  | cons w ws ih =>
    have hw := h w (by simp)
    cases ws with
    | nil => simpa using words_of_word hw.1 hw.2
    | cons v vs =>
      rw [List.intercalate_cons_cons, List.append_assoc, List.singleton_append,
        words_append_cons (by decide), words_of_word hw.1 hw.2,
        ih fun u hu => h u (List.mem_cons_of_mem _ hu), List.singleton_append]

@[simp] theorem words_collapse (cs : List Char) : words (collapse cs) = words cs :=
  words_intercalate fun _ hw => mem_words hw

@[simp] theorem collapse_collapse (cs : List Char) : collapse (collapse cs) = collapse cs := by
  rw [collapse, words_collapse, collapse]

@[simp] theorem collapse_trim (cs : List Char) : collapse (trim cs) = collapse cs := by
  rw [collapse, words_trim, collapse]

theorem flatten_words (cs : List Char) : (words cs).flatten = cs.filter fun c => !isBlank c := by
  induction cs with
  | nil => simp [words]
  | cons c cs ih =>
    by_cases hc : isBlank c = true
    · have h := words_append_cons hc [] cs
      rw [List.nil_append] at h
      rw [h, show words [] = [] by simp [words], List.nil_append, ih]
      simp [hc]
    · rw [words, List.splitOnP_cons_eq_if_modifyHead, if_neg hc]
      unfold words at ih
      cases hs : cs.splitOnP isBlank with
      | nil => exact absurd hs (List.splitOnP_ne_nil _ _)
      | cons v vs =>
        rw [hs] at ih
        have hv : ((v :: vs).filter fun w => !w.isEmpty).flatten =
            v ++ (vs.filter fun w => !w.isEmpty).flatten := by
          cases v <;> simp
        rw [hv] at ih
        simp [hc, ih]

/-- Collapsing changes white space only. -/
theorem filter_collapse (cs : List Char) :
    ((collapse cs).filter fun c => !isBlank c) = cs.filter fun c => !isBlank c := by
  rw [← flatten_words, words_collapse, flatten_words]

/-- What is put together ends as one of its parts does. -/
theorem getLast?_intercalate {sep : List Char} {ws : List (List Char)} {c : Char}
    (h : ∀ w ∈ ws, w ≠ []) (hc : c ∈ (sep.intercalate ws).getLast?) :
    ∃ w ∈ ws, c ∈ w.getLast? := by
  induction ws with
  | nil => simp at hc
  | cons w ws ih =>
    cases ws with
    | nil => exact ⟨w, by simp, by simpa using hc⟩
    | cons v vs =>
      have hv : v ≠ [] := h v (by simp)
      have hne : sep.intercalate (v :: vs) ≠ [] := by
        cases vs <;> simp [hv]
      rw [List.intercalate_cons_cons, List.getLast?_append, List.getLast?_eq_some_getLast hne,
        Option.some_or, ← List.getLast?_eq_some_getLast hne] at hc
      obtain ⟨u, hu, hcu⟩ := ih (fun u hu => h u (List.mem_cons_of_mem _ hu)) hc
      exact ⟨u, List.mem_cons_of_mem _ hu, hcu⟩

theorem mem_intercalate {sep : List Char} {ws : List (List Char)} {c : Char}
    (hc : c ∈ sep.intercalate ws) : c ∈ sep ∨ ∃ w ∈ ws, c ∈ w := by
  induction ws with
  | nil => simp at hc
  | cons w ws ih =>
    cases ws with
    | nil => exact .inr ⟨w, by simp, by simpa using hc⟩
    | cons v vs =>
      rw [List.intercalate_cons_cons, List.mem_append, List.mem_append] at hc
      rcases hc with (hc | hc) | hc
      · exact .inr ⟨w, by simp, hc⟩
      · exact .inl hc
      · rcases ih hc with hsep | ⟨u, hu, hcu⟩
        · exact .inl hsep
        · exact .inr ⟨u, List.mem_cons_of_mem _ hu, hcu⟩

/-- Collapsed text holds no white space other than spaces. -/
theorem mem_collapse {cs : List Char} {c : Char} (h : c ∈ collapse cs) :
    c = ' ' ∨ isBlank c = false := by
  rcases mem_intercalate h with hc | ⟨w, hw, hc⟩
  · exact .inl (List.mem_singleton.1 hc)
  · exact .inr ((mem_words hw).2 c hc)

@[simp] theorem trim_collapse (cs : List Char) : trim (collapse cs) = collapse cs := by
  apply trim_eq_self
  · intro c hc
    cases hw : words cs with
    | nil => simp [collapse, hw] at hc
    | cons w ws =>
      have hword : w ∈ words cs := by simp [hw]
      have hmem := mem_words hword
      obtain ⟨d, w', rfl⟩ := List.exists_cons_of_ne_nil hmem.1
      have hd : c = d := by
        cases ws <;> simpa [collapse, hw, eq_comm] using hc
      exact hmem.2 c (by simp [hd])
  · intro c hc
    obtain ⟨w, hw, hcw⟩ := getLast?_intercalate (fun w hw => (mem_words hw).1) hc
    exact (mem_words hw).2 c (List.mem_of_getLast? hcw)

theorem collapse_eq_nil_iff (cs : List Char) : collapse cs = [] ↔ trim cs = [] := by
  rw [trim_eq_nil_iff]
  constructor
  · intro h c hc
    have hf := filter_collapse cs
    rw [h, List.filter_nil] at hf
    simpa using (List.filter_eq_nil_iff.1 hf.symm) c hc
  · intro h
    rw [collapse, words_of_allBlank h, List.intercalate_nil]

end ProblemScript.Text
