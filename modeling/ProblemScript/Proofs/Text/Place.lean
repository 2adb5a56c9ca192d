import ProblemScript.Proofs.Grammar.Reading

/-! Places in a text by byte offset. `At` says what stands at an offset, boundaries are the offsets
at which something can stand, and two lines of a text are the same or one comes before the other. -/
namespace ProblemScript

theorem Span.encloses_iff (s t : Span) :
    s.encloses t = true ↔ s.start ≤ t.start ∧ t.stop ≤ s.stop := by
  simp [encloses]

namespace Text

/-- The stretch `cs` stands in `text` at byte offset `start`. -/
def At (text : List Char) (start : Nat) (cs : List Char) : Prop :=
  ∃ before after, text = before ++ cs ++ after ∧ byteLength before = start

/-- The stretch of a text that a range covers. -/
def slice (text : List Char) (s : Span) : List Char := (cutAt s.length (cutAt s.start text).2).1

theorem byteLength_pos {cs : List Char} (h : cs ≠ []) : 0 < byteLength cs := by
  obtain ⟨c, cs, rfl⟩ := List.exists_cons_of_ne_nil h
  have := c.utf8Size_pos
  simp only [byteLength_cons]
  omega

theorem length_le_byteLength (cs : List Char) : cs.length ≤ byteLength cs := by
  induction cs with
  | nil => simp
  | cons c cs ih =>
    have := c.utf8Size_pos
    simp only [List.length_cons, byteLength_cons]
    omega

theorem byteLength_le_of_prefix {xs ys : List Char} (h : xs <+: ys) :
    byteLength xs ≤ byteLength ys := by
  obtain ⟨zs, rfl⟩ := h
  simp

@[simp] theorem byteLength_reverse (cs : List Char) : byteLength cs.reverse = byteLength cs := by
  induction cs with
  | nil => rfl
  | cons c cs ih =>
    simp [ih]
    omega

theorem isBoundary_iff {text : List Char} {n : Nat} :
    IsBoundary text n ↔ ∃ before after, text = before ++ after ∧ byteLength before = n := by
  constructor
  · intro h
    exact ⟨_, _, (cutAt_append n text).symm, h⟩
  · rintro ⟨before, after, rfl, rfl⟩
    unfold IsBoundary
    rw [cutAt_byteLength]

namespace At
variable {text xs ys cs : List Char} {k : Nat}

theorem whole (text : List Char) : At text 0 text := ⟨[], [], by simp, rfl⟩

theorem left (h : At text k (xs ++ ys)) : At text k xs := by
  obtain ⟨before, after, rfl, hk⟩ := h
  exact ⟨before, ys ++ after, by simp, hk⟩

theorem right (h : At text k (xs ++ ys)) : At text (k + byteLength xs) ys := by
  obtain ⟨before, after, rfl, rfl⟩ := h
  exact ⟨before ++ xs, after, by simp, by simp⟩

theorem isBoundary (h : At text k cs) : IsBoundary text k := by
  obtain ⟨before, after, rfl, hk⟩ := h
  exact isBoundary_iff.2 ⟨before, cs ++ after, by simp, hk⟩

theorem isBoundary_stop (h : At text k cs) : IsBoundary text (k + byteLength cs) := by
  rw [← List.append_nil cs] at h
  exact h.right.isBoundary

theorem stop_le (h : At text k cs) : k + byteLength cs ≤ byteLength text := by
  obtain ⟨before, after, rfl, rfl⟩ := h
  simp only [byteLength_append]
  omega

theorem slice_eq (h : At text k cs) : slice text ⟨k, k + byteLength cs⟩ = cs := by
  obtain ⟨before, after, rfl, rfl⟩ := h
  simp only [slice, Span.length, Nat.add_sub_cancel_left, List.append_assoc, cutAt_byteLength]

theorem length_le (h : At text k cs) : cs.length ≤ text.length := by
  obtain ⟨before, after, rfl, -⟩ := h
  simp only [List.length_append]
  omega

end At

theorem takeWhile_append_cons {p : Char → Bool} {c : Char} (hc : p c = false)
    (xs ys : List Char) : (xs ++ c :: ys).takeWhile p = xs.takeWhile p := by
  induction xs with
  | nil => simp [hc]
  | cons d xs ih => cases hd : p d <;> simp [hd, ih]

/-- The part of the last line of `before`, and the part of the first line of `after`. -/
def lineParts (before after : List Char) : List Char × List Char :=
  ((before.reverse.takeWhile (· != '\n')).reverse, after.takeWhile (· != '\n'))

theorem lineAt_append (before after : List Char) :
    lineAt (before ++ after) (byteLength before) =
      let parts := lineParts before after
      let start := byteLength before - byteLength parts.1
      ⟨start, start + byteLength (dropReturn (parts.1 ++ parts.2))⟩ := by
  unfold lineAt
  rw [cutAt_byteLength]
  rfl

theorem exists_line_before (before after : List Char) :
    ∃ pre, before = pre ++ (lineParts before after).1 := by
  refine ⟨(before.reverse.dropWhile (· != '\n')).reverse, ?_⟩
  rw [lineParts, ← List.reverse_append, List.takeWhile_append_dropWhile, List.reverse_reverse]

theorem lineParts_isPrefix (before after : List Char) : (lineParts before after).2 <+: after :=
  List.takeWhile_prefix _

theorem dropReturn_isPrefix (line : List Char) : dropReturn line <+: line := by
  unfold dropReturn
  split
  · exact List.dropLast_prefix line
  · exact List.prefix_refl line

/-- A carriage return that ends a line is not in front of another of its characters. -/
theorem dropReturn_append_cons {c : Char} (hc : c ≠ '\r') (xs ys : List Char) :
    xs ++ [c] <+: dropReturn (xs ++ c :: ys) := by
  unfold dropReturn
  split
  · rename_i hlast
    cases ys with
    | nil =>
      rw [List.getLast?_concat, Option.some.injEq] at hlast
      exact absurd hlast hc
    | cons d ys =>
      rw [List.dropLast_append_of_ne_nil (by simp), List.dropLast_cons_of_ne_nil (by simp)]
      exact ⟨(d :: ys).dropLast, by simp⟩
  · exact ⟨ys, by simp⟩

theorem isBoundary_lineAt {text : List Char} {p : Nat} (h : IsBoundary text p) :
    IsBoundary text (lineAt text p).start ∧ IsBoundary text (lineAt text p).stop := by
  obtain ⟨before, after, rfl, rfl⟩ := isBoundary_iff.1 h
  rw [lineAt_append]
  obtain ⟨pre, hpre⟩ := exists_line_before before after
  obtain ⟨post, hpost⟩ := lineParts_isPrefix before after
  obtain ⟨more, hmore⟩ := dropReturn_isPrefix
    ((lineParts before after).1 ++ (lineParts before after).2)
  have hstart : byteLength before - byteLength (lineParts before after).1 = byteLength pre := by
    have := congrArg byteLength hpre
    simp only [byteLength_append] at this
    omega
  have htext : before ++ after =
      pre ++ (dropReturn ((lineParts before after).1 ++ (lineParts before after).2) ++
        (more ++ post)) := by
    rw [← List.append_assoc (dropReturn _), hmore, List.append_assoc, hpost, ← List.append_assoc,
      ← hpre]
  simp only [hstart]
  constructor
  · exact isBoundary_iff.2 ⟨_, _, htext, rfl⟩
  · exact isBoundary_iff.2 ⟨_, _, by rw [htext, ← List.append_assoc], byteLength_append _ _⟩

/-- The line around a character other than white space holds that character. -/
theorem contains_lineAt {text rest : List Char} {p : Nat} {c : Char} (h : At text p (c :: rest))
    (hc : isBlank c = false) : (lineAt text p).contains p = true := by
  have hn : c ≠ '\n' := by
    rintro rfl
    exact absurd hc (by decide)
  have hr : c ≠ '\r' := by
    rintro rfl
    exact absurd hc (by decide)
  obtain ⟨before, after, rfl, rfl⟩ := h
  rw [List.append_assoc, lineAt_append, Span.contains_iff]
  obtain ⟨pre, hpre⟩ := exists_line_before before (c :: rest ++ after)
  have htail : (lineParts before (c :: rest ++ after)).2 =
      c :: (rest ++ after).takeWhile (· != '\n') := by
    simp [lineParts, hn]
  have hlong := byteLength_le_of_prefix (dropReturn_append_cons hr
    (lineParts before (c :: rest ++ after)).1 ((rest ++ after).takeWhile (· != '\n')))
  rw [← htail] at hlong
  have hbefore := congrArg byteLength hpre
  have hsize := c.utf8Size_pos
  simp only [byteLength_append, byteLength_cons, byteLength_nil] at hlong hbefore ⊢
  omega

/-- Of two beginnings of a text, the one with fewer bytes starts the other. -/
theorem exists_of_byteLength_le {before before' rest after : List Char}
    (h : before ++ rest = before' ++ after) (hle : byteLength before ≤ byteLength before') :
    ∃ mid, before' = before ++ mid ∧ rest = mid ++ after := by
  rcases List.append_eq_append_iff.1 h with ⟨mid, hmid, hrest⟩ | ⟨mid, hmid, hafter⟩
  · exact ⟨mid, hmid, hrest⟩
  · have hnil : mid = [] := by
      by_contra hne
      have hpos := byteLength_pos hne
      rw [hmid, byteLength_append] at hle
      omega
    subst hnil
    exact ⟨[], by simpa using hmid.symm, by simpa using hafter.symm⟩

theorem lineParts_of_not_mem {mid : List Char} (h : '\n' ∉ mid) (before after : List Char) :
    lineParts (before ++ mid) after = ((lineParts before (mid ++ after)).1 ++ mid,
      (lineParts before after).2) ∧
      (lineParts before (mid ++ after)).2 = mid ++ (lineParts before after).2 := by
  have hmid : ∀ c ∈ mid, (c != '\n') = true := by
    intro c hc
    rw [bne_iff_ne]
    rintro rfl
    exact h hc
  have hrev : ∀ c ∈ mid.reverse, (c != '\n') = true := fun c hc => hmid c (List.mem_reverse.1 hc)
  unfold lineParts
  constructor
  · rw [List.reverse_append, List.takeWhile_append_of_pos hrev, List.reverse_append,
      List.reverse_reverse]
  · exact List.takeWhile_append_of_pos hmid

/-- Of two places in a text, the first is on the same line as the second or on an earlier one. -/
theorem lineAt_cases {text : List Char} {p q : Nat} (hp : IsBoundary text p)
    (hq : IsBoundary text q) (hpq : p ≤ q) :
    lineAt text p = lineAt text q ∨ (lineAt text p).stop ≤ (lineAt text q).start := by
  obtain ⟨before, rest, rfl, rfl⟩ := isBoundary_iff.1 hp
  obtain ⟨before', after, htext, rfl⟩ := isBoundary_iff.1 hq
  obtain ⟨mid, rfl, rfl⟩ := exists_of_byteLength_le htext hpq
  rw [lineAt_append before, ← List.append_assoc, lineAt_append (before ++ mid)]
  obtain ⟨pre, hpre⟩ := exists_line_before before (mid ++ after)
  have hbefore := congrArg byteLength hpre
  rw [byteLength_append] at hbefore
  by_cases hline : '\n' ∈ mid
  · right
    obtain ⟨m, m', rfl⟩ := List.append_of_mem hline
    -- The first line ends at this line break at the latest, and the second starts behind it.
    have hfirst : byteLength (lineParts before (m ++ '\n' :: m' ++ after)).2 ≤ byteLength m := by
      rw [lineParts, List.append_assoc, List.cons_append, takeWhile_append_cons (by decide)]
      exact byteLength_le_of_prefix (List.takeWhile_prefix _)
    have hsecond : byteLength (lineParts (before ++ (m ++ '\n' :: m')) after).1 ≤
        byteLength m' := by
      rw [lineParts, ← List.append_assoc, List.reverse_append, List.reverse_cons, List.append_assoc,
        List.singleton_append, takeWhile_append_cons (by decide), byteLength_reverse,
        ← byteLength_reverse m']
      exact byteLength_le_of_prefix (List.takeWhile_prefix _)
    have hdrop := byteLength_le_of_prefix (dropReturn_isPrefix
      ((lineParts before (m ++ '\n' :: m' ++ after)).1 ++
        (lineParts before (m ++ '\n' :: m' ++ after)).2))
    simp only [byteLength_append, byteLength_cons] at hdrop hbefore ⊢
    omega
  · left
    obtain ⟨hlater, hearlier⟩ := lineParts_of_not_mem hline before after
    simp only [hlater, hearlier, byteLength_append, List.append_assoc, Span.mk.injEq]
    omega

/-- A stretch between two line breaks is the line of all its places. -/
theorem lineAt_between {front back : List Char} (hbreak : '\n' ∉ front ++ back)
    (hreturn : (front ++ back).getLast? ≠ some '\r') (before after : List Char) :
    lineAt (before ++ '\n' :: (front ++ back) ++ '\n' :: after)
        (byteLength before + 1 + byteLength front) =
      ⟨byteLength before + 1, byteLength before + 1 + byteLength (front ++ back)⟩ := by
  have hcat : before ++ '\n' :: (front ++ back) ++ '\n' :: after =
      before ++ ['\n'] ++ front ++ (back ++ '\n' :: after) := by simp
  have hlength : byteLength before + 1 + byteLength front =
      byteLength (before ++ ['\n'] ++ front) := by
    simp only [byteLength_append]
    rfl
  rw [List.mem_append, not_or] at hbreak
  have hparts : lineParts (before ++ ['\n'] ++ front) (back ++ '\n' :: after) = (front, back) := by
    rw [(lineParts_of_not_mem hbreak.1 _ _).1]
    apply Prod.ext
    · simp [lineParts]
    · rw [(lineParts_of_not_mem hbreak.2 _ _).2]
      simp [lineParts]
  have hdrop : dropReturn (front ++ back) = front ++ back := if_neg hreturn
  rw [hcat, hlength, lineAt_append]
  simp only [hparts, hdrop, byteLength_append, Nat.add_sub_cancel]
  rfl

section Bounds
variable {text : List Char} {bounds : Span} {p q : Nat}

theorem encloses_lineWithin (text : List Char) (p : Nat) (bounds : Span) :
    bounds.encloses (lineWithin text p bounds) = true := by
  rw [Span.encloses_iff, lineWithin, Span.clampTo]
  exact ⟨Nat.le_max_right _ _, Nat.min_le_right _ _⟩

theorem contains_lineWithin {rest : List Char} {c : Char} (h : At text p (c :: rest))
    (hc : isBlank c = false) (hb : bounds.contains p = true) :
    (lineWithin text p bounds).contains p = true := by
  have hline := contains_lineAt h hc
  rw [Span.contains_iff] at hline hb ⊢
  simp only [lineWithin, Span.clampTo]
  omega

theorem isBoundary_lineWithin (hp : IsBoundary text p) (hstart : IsBoundary text bounds.start)
    (hstop : IsBoundary text bounds.stop) :
    IsBoundary text (lineWithin text p bounds).start ∧
      IsBoundary text (lineWithin text p bounds).stop := by
  obtain ⟨h1, h2⟩ := isBoundary_lineAt hp
  simp only [lineWithin, Span.clampTo]
  constructor
  · rcases Nat.le_total (lineAt text p).start bounds.start with h | h
    · rwa [Nat.max_eq_right h]
    · rwa [Nat.max_eq_left h]
  · rcases Nat.le_total (lineAt text p).stop bounds.stop with h | h
    · rwa [Nat.min_eq_left h]
    · rwa [Nat.min_eq_right h]

/-- Lines cut down to the same bounds are the same, or that of the earlier place comes first. -/
theorem lineWithin_cases (hp : IsBoundary text p) (hq : IsBoundary text q) (hpq : p ≤ q) :
    lineWithin text p bounds = lineWithin text q bounds ∨
      (lineWithin text p bounds).stop ≤ (lineWithin text q bounds).start := by
  rcases lineAt_cases hp hq hpq with h | h
  · left
    rw [lineWithin, lineWithin, h]
  · right
    simp only [lineWithin, Span.clampTo]
    omega

end Bounds

end Text
end ProblemScript
