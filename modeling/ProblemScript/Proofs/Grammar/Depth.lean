import ProblemScript.Grammar.Bracket
import ProblemScript.Proofs.Text.Blank

/-! Nesting depth along a text. `Within` says how low the depth may go and how deep commas have to
stand; the text between the parentheses of an operation, its segments and the items of a value
all satisfy some form of it, and `enclosed` is pinned down by it. -/
namespace ProblemScript.Bracket
open Text

/-- Neither brackets nor commas. -/
def Neutral (cs : List Char) : Prop := ∀ c ∈ cs, weight c = 0 ∧ c ≠ ','

/-- From depth `d` on, the depth stays at `lo` or above and commas stand at `cut` or above. -/
def Within (lo cut : Int) : Int → List Char → Prop
  | _, [] => True
  | d, c :: cs =>
    (c = ',' → cut ≤ d) ∧ lo ≤ d + weight c ∧ Within lo cut (d + weight c) cs

@[simp] theorem depth_nil : depth [] = 0 := rfl

@[simp] theorem depth_cons (c : Char) (cs : List Char) :
    depth (c :: cs) = weight c + depth cs := rfl

theorem weight_of_isClosing {c : Char} (h : isClosing c = true) : weight c = -1 := by
  simp only [isClosing, Bool.or_eq_true, beq_iff_eq] at h
  rcases h with rfl | rfl <;> rfl

theorem weight_of_isOpening {c : Char} (h : isOpening c = true) : weight c = 1 := by
  simp [weight, h]

theorem weight_eq_zero {c : Char} (ho : isOpening c = false) (hc : isClosing c = false) :
    weight c = 0 := by
  simp [weight, ho, hc]

theorem isOpening_eq_false_of_isClosing {c : Char} (h : isClosing c = true) :
    isOpening c = false := by
  simp only [isClosing, Bool.or_eq_true, beq_iff_eq] at h
  rcases h with rfl | rfl <;> rfl

/-- A character of a class without brackets and commas is neutral. -/
theorem neutral_of_ne {c : Char} (h1 : c ≠ '[') (h2 : c ≠ '(') (h3 : c ≠ ']') (h4 : c ≠ ')')
    (h5 : c ≠ ',') : weight c = 0 ∧ c ≠ ',' := by
  simp [weight, isOpening, isClosing, h1, h2, h3, h4, h5]

theorem neutral_of_isBlank {c : Char} (h : isBlank c = true) : weight c = 0 ∧ c ≠ ',' := by
  apply neutral_of_ne <;> (rintro rfl; exact absurd h (by decide))

theorem neutral_of_isNameChar {c : Char} (h : isNameChar c = true) : weight c = 0 ∧ c ≠ ',' := by
  apply neutral_of_ne <;> (rintro rfl; exact absurd h (by decide))

theorem neutral_of_allBlank {b : List Char} (hb : AllBlank b) : Neutral b :=
  fun c hc => neutral_of_isBlank (hb c hc)

theorem neutral_colon : Neutral [':'] := by
  intro c hc
  rw [List.mem_singleton.1 hc]
  decide

theorem Neutral.append {xs ys : List Char} (hx : Neutral xs) (hy : Neutral ys) :
    Neutral (xs ++ ys) := by
  intro c hc
  rcases List.mem_append.1 hc with h | h
  · exact hx c h
  · exact hy c h

theorem depth_of_neutral {cs : List Char} (h : Neutral cs) : depth cs = 0 := by
  induction cs with
  | nil => rfl
  | cons c cs ih =>
    rw [depth_cons, (h c (by simp)).1, ih fun d hd => h d (by simp [hd])]
    rfl

theorem depth_filter {p : Char → Bool} (hp : ∀ c, p c = false → weight c = 0)
    (cs : List Char) : depth (cs.filter p) = depth cs := by
  induction cs with
  | nil => rfl
  | cons c cs ih =>
    cases hc : p c with
    | true => simp [hc, ih]
    | false => simp [hc, ih, hp c hc]

@[simp] theorem depth_collapse (cs : List Char) : depth (collapse cs) = depth cs := by
  have hp : ∀ c, (!isBlank c) = false → weight c = 0 := fun c hc =>
    (neutral_of_isBlank (by simpa using hc)).1
  rw [← depth_filter hp, filter_collapse, depth_filter hp]

@[simp] theorem depth_trim (cs : List Char) : depth (trim cs) = depth cs := by
  rw [← depth_collapse, collapse_trim, depth_collapse]

section Within
variable {lo cut d : Int}

@[simp] theorem within_nil : Within lo cut d [] := trivial

theorem within_append {xs ys : List Char} :
    Within lo cut d (xs ++ ys) ↔ Within lo cut d xs ∧ Within lo cut (d + depth xs) ys := by
  induction xs generalizing d with
  | nil => simp
  | cons c xs ih =>
    simp only [List.cons_append, Within, ih, depth_cons, and_assoc]
    rw [Int.add_assoc]

/-- Depth and bounds may be counted from another level. -/
theorem within_add (k : Int) {cs : List Char} :
    Within (lo + k) (cut + k) (d + k) cs ↔ Within lo cut d cs := by
  induction cs generalizing d with
  | nil => simp
  | cons c cs ih =>
    have hd : d + k + weight c = d + weight c + k := by omega
    simp only [Within, hd, ih]
    constructor
    · rintro ⟨h1, h2, h3⟩
      exact ⟨fun hc => by have := h1 hc; omega, by omega, h3⟩
    · rintro ⟨h1, h2, h3⟩
      exact ⟨fun hc => by have := h1 hc; omega, by omega, h3⟩

theorem Within.mono {lo' cut' : Int} {cs : List Char} (h : Within lo cut d cs) (hl : lo' ≤ lo)
    (hc : cut' ≤ cut) : Within lo' cut' d cs := by
  induction cs generalizing d with
  | nil => simp
  | cons c cs ih =>
    obtain ⟨h1, h2, h3⟩ := h
    exact ⟨fun hcomma => Int.le_trans hc (h1 hcomma), Int.le_trans hl h2, ih h3⟩

theorem within_of_neutral {cs : List Char} (h : Neutral cs) (hd : lo ≤ d) :
    Within lo cut d cs := by
  induction cs with
  | nil => simp
  | cons c cs ih =>
    obtain ⟨hw, hc⟩ := h c (by simp)
    have ht := ih fun e he => h e (by simp [he])
    simp only [Within, hw, Int.add_zero]
    exact ⟨fun he => absurd he hc, hd, ht⟩

/-- The depth at the end is one of those that are bounded. -/
theorem Within.le_depth {cs : List Char} (h : Within lo cut d cs) (hd : lo ≤ d) :
    lo ≤ d + depth cs := by
  induction cs generalizing d with
  | nil => simpa using hd
  | cons c cs ih =>
    have := ih h.2.2 h.2.1
    rw [depth_cons]
    omega

/-- Neutral characters may be dropped or put in anywhere. -/
theorem within_filter {p : Char → Bool} (hp : ∀ c, p c = false → weight c = 0 ∧ c ≠ ',')
    (hd : lo ≤ d) (cs : List Char) : Within lo cut d (cs.filter p) ↔ Within lo cut d cs := by
  induction cs generalizing d with
  | nil => simp
  | cons c cs ih =>
    cases hc : p c with
    | true =>
      simp only [List.filter_cons, hc, if_true, Within]
      constructor
      · rintro ⟨h1, h2, h3⟩
        exact ⟨h1, h2, (ih h2).1 h3⟩
      · rintro ⟨h1, h2, h3⟩
        exact ⟨h1, h2, (ih h2).2 h3⟩
    | false =>
      obtain ⟨hw, hne⟩ := hp c hc
      simp [hc, Within, hw, hne, hd, ih hd]

theorem within_collapse (hd : lo ≤ d) (cs : List Char) :
    Within lo cut d (collapse cs) ↔ Within lo cut d cs := by
  have hp : ∀ c, (!isBlank c) = false → weight c = 0 ∧ c ≠ ',' := fun c hc =>
    neutral_of_isBlank (by simpa using hc)
  rw [← within_filter hp hd, filter_collapse, within_filter hp hd]

theorem within_trim (hd : lo ≤ d) (cs : List Char) :
    Within lo cut d (trim cs) ↔ Within lo cut d cs := by
  rw [← within_collapse hd, collapse_trim, within_collapse hd]

end Within

/-- One step of the search for the closing bracket, with the number of open brackets as a depth. -/
private theorem enclosed_cons {n : Nat} {c : Char} (cs : List Char) (hn : 1 ≤ n)
    (h : 1 ≤ n + weight c) :
    enclosed n (c :: cs) =
      (c :: (enclosed (n + weight c).toNat cs).1, (enclosed (n + weight c).toNat cs).2) := by
  simp only [enclosed]
  by_cases ho : isOpening c = true
  · have hw := weight_of_isOpening ho
    have hc : isClosing c = false := by
      cases hcl : isClosing c with
      | false => rfl
      | true => rw [isOpening_eq_false_of_isClosing hcl] at ho; exact absurd ho (by simp)
    have he : ((n : Int) + 1).toNat = n + 1 := by omega
    simp [ho, hc, hw, he]
  · by_cases hc : isClosing c = true
    · have hw := weight_of_isClosing hc
      rw [hw] at h
      have he : ((n : Int) + -1).toNat = n - 1 := by omega
      have hn2 : ¬n ≤ 1 := by omega
      simp [ho, hc, hw, he, hn2]
    · have hw := weight_eq_zero (by simpa using ho) (by simpa using hc)
      simp [ho, hc, hw]

private theorem isClosing_of_weight {n : Nat} {c : Char} (hn : 1 ≤ n) (h : ¬1 ≤ n + weight c) :
    isClosing c = true ∧ n ≤ 1 := by
  by_cases ho : isOpening c = true
  · rw [weight_of_isOpening ho] at h
    omega
  · by_cases hc : isClosing c = true
    · rw [weight_of_isClosing hc] at h
      exact ⟨hc, by omega⟩
    · rw [weight_eq_zero (by simpa using ho) (by simpa using hc)] at h
      omega

/-- A text that keeps `n` brackets open is passed over in the search for their end. -/
theorem enclosed_append_of_within {n : Nat} (hn : 1 ≤ n) {xs : List Char} {cut : Int}
    (h : Within 1 cut n xs) (ys : List Char) :
    enclosed n (xs ++ ys) =
      (xs ++ (enclosed (n + depth xs).toNat ys).1, (enclosed (n + depth xs).toNat ys).2) := by
  induction xs generalizing n with
  | nil => simp
  | cons c xs ih =>
    obtain ⟨-, h2, h3⟩ := h
    have hk : (((n : Int) + weight c).toNat : Int) = n + weight c := by omega
    have hstep := ih (n := ((n : Int) + weight c).toNat) (by omega) (by rwa [hk])
    rw [List.cons_append, enclosed_cons _ hn h2, hstep, hk, depth_cons, Int.add_assoc]
    rfl

/-- What `n` open brackets enclose never closes the last of them. -/
theorem within_enclosed {n : Nat} (hn : 1 ≤ n) (cs : List Char) :
    Within 1 1 n (enclosed n cs).1 := by
  induction cs generalizing n with
  | nil => simp [enclosed]
  | cons c cs ih =>
    by_cases h : 1 ≤ n + weight c
    · have hk : (((n : Int) + weight c).toNat : Int) = n + weight c := by omega
      have hrest := ih (n := ((n : Int) + weight c).toNat) (by omega)
      rw [hk] at hrest
      rw [enclosed_cons _ hn h]
      exact ⟨fun _ => by omega, h, hrest⟩
    · have hc := isClosing_of_weight hn h
      simp [enclosed, hc]

/-- The closing bracket of one that is open stands where the depth has come back. -/
theorem enclosed_eq {body : List Char} {cut : Int} (h : Within 0 cut 0 body)
    (hd : depth body = 0) {c : Char} (hc : isClosing c = true) (rest : List Char) :
    enclosed 1 (body ++ c :: rest) = (body, true) := by
  have hw : Within 1 (cut + 1) (1 : Nat) body := by
    simpa using (within_add 1).2 h
  rw [enclosed_append_of_within (by omega) hw, hd]
  simp [enclosed, hc]

/-- The enclosed text is level if its end was found. -/
theorem depth_enclosed {n : Nat} (hn : 1 ≤ n) (cs : List Char)
    (hc : (enclosed n cs).2 = true) : n + depth (enclosed n cs).1 = 1 := by
  induction cs generalizing n with
  | nil => simp [enclosed] at hc
  | cons c cs ih =>
    by_cases h : 1 ≤ n + weight c
    · have hk : (((n : Int) + weight c).toNat : Int) = n + weight c := by omega
      rw [enclosed_cons _ hn h] at hc ⊢
      have hrest := ih (n := ((n : Int) + weight c).toNat) (by omega) hc
      rw [hk] at hrest
      simp only [depth_cons]
      omega
    · have hc := isClosing_of_weight hn h
      have hn1 : n = 1 := by omega
      simp [enclosed, hc, hn1]

/-- Enough closing brackets close every open one. -/
theorem enclosed_closed_of_depth {n : Nat} (hn : 1 ≤ n) {cs : List Char}
    (h : n + depth cs ≤ 0) : (enclosed n cs).2 = true := by
  cases hc : (enclosed n cs).2 with
  | true => rfl
  | false =>
    obtain ⟨rest, he, hr⟩ := enclosed_append n cs
    simp only [hc, Bool.false_eq_true, if_false] at hr
    rw [hr, List.append_nil] at he
    have hw := (within_enclosed hn cs).le_depth (by omega)
    rw [← he] at hw
    omega

private theorem within_of_closes {pending cs : List Char} (h : closes pending cs = true) :
    Within 0 0 pending.length cs ∧ pending.length + depth cs = 0 := by
  induction cs generalizing pending with
  | nil =>
    have hp : pending = [] := by simpa [closes] using h
    simp [hp]
  | cons c cs ih =>
    unfold closes at h
    by_cases ho : isOpening c = true
    · rw [if_pos ho] at h
      obtain ⟨h1, h2⟩ := ih h
      simp only [List.length_cons, Int.natCast_add, Int.cast_ofNat_Int] at h1 h2
      simp only [Within, depth_cons, weight_of_isOpening ho]
      exact ⟨⟨fun _ => by omega, by omega, h1⟩, by omega⟩
    · rw [if_neg ho] at h
      by_cases hc : isClosing c = true
      · rw [if_pos hc] at h
        cases pending with
        | nil => simp at h
        | cons q ps =>
          simp only [Bool.and_eq_true] at h
          obtain ⟨h1, h2⟩ := ih h.2
          have he : (((q :: ps).length : Nat) : Int) + -1 = ps.length := by
            rw [List.length_cons]
            omega
          simp only [Within, depth_cons, weight_of_isClosing hc, he]
          exact ⟨⟨fun _ => by omega, by omega, h1⟩, by omega⟩
      · rw [if_neg hc] at h
        obtain ⟨h1, h2⟩ := ih h
        simp only [Within, depth_cons, weight_eq_zero (by simpa using ho) (by simpa using hc),
          Int.add_zero, Int.zero_add]
        exact ⟨⟨fun _ => by omega, by omega, h1⟩, h2⟩

/-- Balanced brackets come back to depth zero without going below it. -/
theorem within_of_isBalanced {cs : List Char} (h : isBalanced cs = true) :
    Within 0 0 0 cs ∧ depth cs = 0 := by
  have := within_of_closes h
  simpa using this

end ProblemScript.Bracket
