import ProblemScript.Path.Reader
import ProblemScript.Proofs.Tree.Paths

/-! Written paths are read back one part at a time: a name with or without an index is read as what
it writes, and a further part is read from where the parts before it have led. -/
namespace ProblemScript.Path
open Text

theorem head?_toDigits {n : Nat} (h : 0 < n) : (Nat.toDigits 10 n).head? ≠ some '0' := by
  induction n using Nat.strongRecOn with
  | ind n ih =>
    rw [Nat.toDigits_eq_if (by omega)]
    split
    · simp only [List.head?_cons, ne_eq, Option.some.injEq, Nat.digitChar_eq_zero]
      omega
    · rw [List.head?_append_of_ne_nil _ Nat.toDigits_ne_nil]
      exact ih (n / 10) (by omega) (by omega)

/-- Decimal notation is canonical. -/
theorem isIndex_toDigits (n : Nat) : isIndex (Nat.toDigits 10 n) = true := by
  have hdigits : (Nat.toDigits 10 n).all Char.isDigit = true :=
    List.all_eq_true.2 fun c hc => Nat.isDigit_of_mem_toDigits (by omega) (by omega) hc
  have hzero :
      ((Nat.toDigits 10 n).head? != some '0' || (Nat.toDigits 10 n).length == 1) = true := by
    rcases Nat.eq_zero_or_pos n with rfl | hn
    · rfl
    · simp [head?_toDigits hn]
  simp only [isIndex, hdigits, hzero, List.isEmpty_eq_false_iff.2 Nat.toDigits_ne_nil,
    Bool.not_false, Bool.and_true]

theorem index?_toDigits {n : Nat} (h : n < indexBound) : index? (Nat.toDigits 10 n) = some n := by
  unfold index?
  rw [decimal_toDigits, isIndex_toDigits]
  simp [h]

theorem isNameChar_of_isKey {name : List Char} (h : isKey name = true) :
    ∀ c ∈ name, isNameChar c = true := by
  unfold isKey at h
  exact List.all_eq_true.1 (Bool.and_eq_true_iff.1 h).2

theorem ne_bracket_of_isKey {name : List Char} (h : isKey name = true) :
    ∀ c ∈ name, (c != '[') = true := by
  intro c hc
  rw [bne_iff_ne]
  rintro rfl
  exact absurd (isNameChar_of_isKey h _ hc) (by decide)

theorem readPart_of_isKey {name : String} (h : isKey name.toList = true) :
    readPart name.toList = .ok (name, none) := by
  have hname := List.takeWhile_eq_self_iff.2 (ne_bracket_of_isKey h)
  unfold readPart
  simp only [hname, h, List.drop_length, if_true, String.ofList_toList]
  rfl

theorem readPart_indexed {name : String} (h : isKey name.toList = true) {i : Nat}
    (hi : i < indexBound) : readPart (indexed name i).toList = .ok (name, some i) := by
  have hname : (name.toList ++ '[' :: (Nat.toDigits 10 i ++ [']'])).takeWhile (· != '[') =
      name.toList :=
    takeWhile_append_of_head (ne_bracket_of_isKey h) (by simp)
  unfold readPart
  rw [toList_indexed]
  simp only [hname, h, List.drop_left, List.getLast?_concat, List.dropLast_concat,
    index?_toDigits hi, bne_self_eq_false, Bool.false_eq_true, if_false, if_true,
    String.ofList_toList]
  rfl

/-- What is read has a name: a part that is empty or starts with its index is refused. -/
theorem isKey_of_readPart {part : List Char} {r : String × Option Nat} (h : readPart part = .ok r) :
    isKey (part.takeWhile (· != '[')) = true := by
  by_contra hkey
  rw [Bool.not_eq_true] at hkey
  unfold readPart at h
  simp only [hkey, Bool.false_eq_true, if_false] at h
  split at h
  · cases h
  · split at h
    · cases h
    · split at h
      · cases h
      · cases h

/-- A further part is read from where the parts before it have led. -/
theorem parse_append {s : String} {p : Path} (h : parse s = .ok p) {part : List Char}
    (hpart : '/' ∉ part) : parse (s ++ "/" ++ .ofList part) = readStep p part := by
  have hsplit : (s ++ "/" ++ .ofList part).toList.splitOn '/' = s.toList.splitOn '/' ++ [part] := by
    have hlast : part.splitOnP (· == '/') = [part] :=
      List.splitOnP_eq_singleton fun c hc => by
        rw [beq_eq_false_iff_ne]
        rintro rfl
        exact hpart hc
    have hcat : (s ++ "/" ++ .ofList part).toList = s.toList ++ '/' :: part := by simp
    rw [hcat, List.splitOn, List.splitOnP_append_cons _ _ (by simp), hlast, List.splitOn]
  have hne : (s ++ "/" ++ .ofList part).isEmpty = false := by simp
  unfold parse at h ⊢
  rw [hne, hsplit]
  split at h
  · simp at h
  · split at h
    · rename_i first rest hfirst
      split at h
      · rename_i hroot
        rw [hfirst]
        simp only [Bool.false_eq_true, if_false, List.cons_append, hroot, if_true,
          List.foldlM_append, h]
        cases hstep : readStep p part with
        | error e => simp [hstep, bind, Except.bind]
        | ok q => simp [hstep, bind, Except.bind, pure, Except.pure]
      · simp at h
    · simp at h

/-- The root and the operations in slots have slots. -/
def HasSlots : Path → Prop
  | root | operation _ => True
  | _ => False

theorem not_mem_of_isKey {name : List Char} (h : isKey name = true) : '/' ∉ name := by
  intro hmem
  exact absurd (isNameChar_of_isKey h _ hmem) (by decide)

theorem not_mem_indexed {name : String} (h : '/' ∉ name.toList) (i : Nat) :
    '/' ∉ (indexed name i).toList := by
  rw [toList_indexed]
  simp only [List.mem_append, List.mem_cons, List.not_mem_nil, or_false, not_or]
  refine ⟨h, by decide, fun hmem => ?_, by decide⟩
  exact absurd (Nat.isDigit_of_mem_toDigits (by omega) (by omega) hmem) (by decide)

theorem itemIn_propertyIn (s key : String) (j : Nat) :
    itemIn (propertyIn s key) j = s ++ "/" ++ indexed key j := by
  simp [itemIn, propertyIn, indexed, String.append_assoc]

end ProblemScript.Path
