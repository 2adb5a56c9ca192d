import ProblemScript.Text.Occurrence

/-! How a search goes through a text. A stretch in which nothing is recognised is passed over, and a
stretch that is recognised as a whole is one occurrence; in both cases the search goes on behind it
as if it had started there, with the last character of the stretch before it. -/
namespace ProblemScript.Text
variable {α : Type} (r : Recogniser α) (before : Option Char) (pos : Nat)

/-- The character before a text that follows on `xs`. -/
def lastOf (before : Option Char) (xs : List Char) : Option Char := xs.getLast?.or before

@[simp] theorem lastOf_nil : lastOf before [] = before := rfl

@[simp] theorem lastOf_cons (c : Char) (xs : List Char) :
    lastOf before (c :: xs) = lastOf (some c) xs := by
  unfold lastOf
  rw [List.getLast?_cons]
  cases xs.getLast? <;> rfl

@[simp] theorem occurrencesFrom_nil (taken : Nat) : occurrencesFrom r before pos taken [] = [] := by
  unfold occurrencesFrom
  rfl

theorem occurrencesFrom_taken (xs ys : List Char) :
    occurrencesFrom r before pos xs.length (xs ++ ys) =
      occurrencesFrom r (lastOf before xs) (pos + byteLength xs) 0 ys := by
  induction xs generalizing before pos with
  | nil => simp
  | cons c xs ih =>
    rw [List.length_cons, List.cons_append, occurrencesFrom, ih, lastOf_cons, byteLength_cons,
      Nat.add_assoc]

/-- Nothing is recognised from any character of `xs` on, where `ys` follows. -/
def Skips (xs ys : List Char) : Prop :=
  ∀ before first c rest, xs = first ++ c :: rest → r before (c :: (rest ++ ys)) = none

theorem occurrencesFrom_of_skips {xs ys : List Char} (h : Skips r xs ys) :
    occurrencesFrom r before pos 0 (xs ++ ys) =
      occurrencesFrom r (lastOf before xs) (pos + byteLength xs) 0 ys := by
  induction xs generalizing before pos with
  | nil => simp
  | cons c xs ih =>
    have hnone : r before (c :: (xs ++ ys)) = none := h before [] c xs rfl
    have hrest : Skips r xs ys := by
      intro b first d rest hxs
      exact h b (c :: first) d rest (by rw [hxs, List.cons_append])
    rw [List.cons_append, occurrencesFrom, hnone, lastOf_cons, byteLength_cons, ← Nat.add_assoc]
    exact ih _ _ hrest

theorem occurrencesFrom_of_some {xs ys : List Char} {a : α} (hne : xs ≠ [])
    (h : r before (xs ++ ys) = some (xs.length, a)) :
    occurrencesFrom r before pos 0 (xs ++ ys) =
      ⟨⟨pos, pos + byteLength xs⟩, a⟩ ::
        occurrencesFrom r (lastOf before xs) (pos + byteLength xs) 0 ys := by
  obtain ⟨c, xs, rfl⟩ := List.exists_cons_of_ne_nil hne
  have htake : (c :: (xs ++ ys)).take (xs.length + 1) = c :: xs := by simp
  have hrest := occurrencesFrom_taken r (some c) (pos + c.utf8Size) xs ys
  rw [List.cons_append] at h ⊢
  rw [occurrencesFrom, h]
  simp only [htake, List.length_cons, Nat.add_sub_cancel, hrest, lastOf_cons, byteLength_cons,
    Nat.add_assoc]

/-- A recogniser that reads the same characters in another way finds the same places. -/
theorem occurrencesFrom_map {β : Type} {r' : Recogniser β} {f : α → β}
    (h : ∀ before text, r' before text = (r before text).map fun m => (m.1, f m.2)) (taken : Nat)
    (text : List Char) :
    occurrencesFrom r' before pos taken text =
      (occurrencesFrom r before pos taken text).map fun o => ⟨o.span, f o.found⟩ := by
  induction text generalizing before pos taken with
  | nil => simp
  | cons c cs ih =>
    cases taken with
    | succ taken => rw [occurrencesFrom, occurrencesFrom, ih]
    | zero =>
      rw [occurrencesFrom, occurrencesFrom, h]
      cases r before (c :: cs) with
      | none => simp [ih]
      | some m => simp [ih]

end ProblemScript.Text
