/-! Byte positions in a character sequence. Offsets count the bytes of the UTF-8 form, so every
cut is made by measure: `cutAt` never splits a character, and `IsBoundary` says when an offset
falls between two of them. -/
namespace ProblemScript.Text

/-- Number of bytes in the UTF-8 form. -/
def byteLength : List Char → Nat
  | [] => 0
  | c :: cs => c.utf8Size + byteLength cs

@[simp] theorem byteLength_nil : byteLength [] = 0 := rfl

@[simp] theorem byteLength_cons (c : Char) (cs : List Char) :
    byteLength (c :: cs) = c.utf8Size + byteLength cs := rfl

@[simp] theorem byteLength_append (xs ys : List Char) :
    byteLength (xs ++ ys) = byteLength xs + byteLength ys := by
  induction xs with
  | nil => simp
  | cons c xs ih => simp [ih, Nat.add_assoc]

/-- The characters that end at or before byte offset `n`, and the others. -/
def cutAt : Nat → List Char → List Char × List Char
  | _, [] => ([], [])
  | n, c :: cs =>
    if c.utf8Size ≤ n then
      let (before, after) := cutAt (n - c.utf8Size) cs
      (c :: before, after)
    else
      ([], c :: cs)

/-- A cut loses nothing. -/
theorem cutAt_append (n : Nat) (cs : List Char) : (cutAt n cs).1 ++ (cutAt n cs).2 = cs := by
  induction cs generalizing n with
  | nil => rfl
  | cons c cs ih =>
    simp only [cutAt]
    split
    · simp [ih]
    · rfl

/-- The part before a cut is no longer than the offset. -/
theorem byteLength_cutAt_le (n : Nat) (cs : List Char) : byteLength (cutAt n cs).1 ≤ n := by
  induction cs generalizing n with
  | nil => simp [cutAt]
  | cons c cs ih =>
    simp only [cutAt]
    split
    · have := ih (n - c.utf8Size)
      simp
      omega
    · simp

/-- Byte offset `n` lies inside or at the ends of `cs`, and not inside a character. -/
def IsBoundary (cs : List Char) (n : Nat) : Prop := byteLength (cutAt n cs).1 = n

instance (cs : List Char) (n : Nat) : Decidable (IsBoundary cs n) :=
  inferInstanceAs (Decidable (_ = _))

end ProblemScript.Text
