import ProblemScript.Grammar.Segment
import ProblemScript.Proofs.Grammar.Depth

/-! Laws of cutting a text at its separating commas. A stretch without a separating comma is
`Solid`; a solid and level stretch in front of a comma is cut off as it stands. -/
namespace ProblemScript.Segment
open Text ProblemScript.Bracket

/-- No comma of the text separates. -/
def Solid (cs : List Char) : Prop := pieces 0 cs = [cs]

private theorem pieces_append_of_eq_singleton {d : Int} {xs : List Char} (h : pieces d xs = [xs])
    (ys : List Char) :
    pieces d (xs ++ ys) = (pieces (d + depth xs) ys).modifyHead (xs ++ ·) := by
  induction xs generalizing d with
  | nil =>
    obtain ⟨p, ps, hp⟩ := List.exists_cons_of_ne_nil (pieces_ne_nil d ys)
    simp [hp]
  | cons c xs ih =>
    unfold pieces at h
    split at h
    · simp at h
    · rename_i hc
      have hxs : pieces (d + weight c) xs = [xs] := by
        obtain ⟨p, ps, hp⟩ := List.exists_cons_of_ne_nil (pieces_ne_nil (d + weight c) xs)
        simp_all
      obtain ⟨p, ps, hp⟩ := List.exists_cons_of_ne_nil
        (pieces_ne_nil (d + (weight c + depth xs)) ys)
      simp only [List.cons_append, pieces, hc, Bool.false_eq_true, if_false, ih hxs, depth_cons]
      rw [Int.add_assoc, hp]
      simp

theorem Solid.pieces_append {xs : List Char} (h : Solid xs) (ys : List Char) :
    pieces 0 (xs ++ ys) = (pieces (depth xs) ys).modifyHead (xs ++ ·) := by
  simpa using pieces_append_of_eq_singleton h ys

/-- A solid and level stretch before a comma is cut off. -/
theorem Solid.pieces_append_comma {xs : List Char} (h : Solid xs) (hd : depth xs = 0)
    (ys : List Char) : pieces 0 (xs ++ ',' :: ys) = xs :: pieces 0 ys := by
  rw [h.pieces_append, hd]
  simp [pieces]

private theorem pieces_eq_singleton_of_within {lo d : Int} {cs : List Char}
    (h : Within lo 1 d cs) : pieces d cs = [cs] := by
  induction cs generalizing d with
  | nil => rfl
  | cons c cs ih =>
    obtain ⟨h1, -, h3⟩ := h
    have hc : (c == ',' && d == 0) = false := by
      cases hcomma : c == ',' with
      | false => rfl
      | true =>
        have := h1 (by simpa using hcomma)
        simp only [Bool.true_and, beq_eq_false_iff_ne]
        omega
    simp [pieces, hc, ih h3]

/-- Commas at depth one and below do not separate. -/
theorem solid_of_within {lo : Int} {cs : List Char} (h : Within lo 1 0 cs) : Solid cs :=
  pieces_eq_singleton_of_within h

/-- In a solid text no comma stands at depth zero. -/
theorem within_of_solid {lo : Int} {cs : List Char} (hs : Solid cs) (h : Within lo 0 0 cs) :
    Within lo 1 0 cs := by
  suffices key : ∀ d : Int, pieces d cs = [cs] → Within lo 0 d cs → Within lo 1 d cs from key 0 hs h
  clear hs h
  induction cs with
  | nil => intro d _ _; trivial
  | cons c cs ih =>
    intro d hs h
    unfold pieces at hs
    split at hs
    · simp at hs
    · rename_i hc
      obtain ⟨h1, h2, h3⟩ := h
      have hcs : pieces (d + weight c) cs = [cs] := by
        obtain ⟨p, ps, hp⟩ := List.exists_cons_of_ne_nil (pieces_ne_nil (d + weight c) cs)
        simp_all
      refine ⟨fun hcomma => ?_, h2, ih _ hcs h3⟩
      have hd : d ≠ 0 := by simpa [hcomma] using hc
      have := h1 hcomma
      omega

theorem solid_of_neutral {cs : List Char} (h : Neutral cs) : Solid cs := by
  have hw : Within 0 1 0 cs := within_of_neutral h (by omega)
  exact solid_of_within hw

theorem Solid.append {xs ys : List Char} (hx : Solid xs) (hd : depth xs = 0) (hy : Solid ys) :
    Solid (xs ++ ys) := by
  have h := hx.pieces_append ys
  rw [hd, show pieces 0 ys = [ys] from hy] at h
  exact h

/-- Whatever holds no comma at all may follow a solid text. -/
theorem Solid.append_of_not_mem {xs ys : List Char} (hx : Solid xs) (hy : ',' ∉ ys) :
    Solid (xs ++ ys) := by
  have hpieces : ∀ d : Int, pieces d ys = [ys] := by
    clear hx
    induction ys with
    | nil => intro d; rfl
    | cons c ys ih =>
      intro d
      have hc : (c == ',') = false := by
        rw [beq_eq_false_iff_ne]
        rintro rfl
        exact hy (by simp)
      simp [pieces, hc, ih fun h => hy (by simp [h])]
  have h := hx.pieces_append ys
  rw [hpieces] at h
  exact h

/-- The beginning of a solid text is solid. -/
theorem Solid.of_append {xs ys : List Char} (h : Solid (xs ++ ys)) : Solid xs := by
  suffices key : ∀ d : Int, pieces d (xs ++ ys) = [xs ++ ys] → pieces d xs = [xs] from key 0 h
  clear h
  induction xs with
  | nil => intro d _; rfl
  | cons c xs ih =>
    intro d h
    simp only [List.cons_append, pieces] at h ⊢
    split at h
    · simp at h
    · rename_i hc
      obtain ⟨p, ps, hp⟩ := List.exists_cons_of_ne_nil (pieces_ne_nil (d + weight c) (xs ++ ys))
      have hxs : pieces (d + weight c) (xs ++ ys) = [xs ++ ys] := by simp_all
      simp [hc, ih _ hxs]

/-- The end of a solid text behind a level beginning is solid. -/
theorem Solid.of_append_right {xs ys : List Char} (h : Solid (xs ++ ys)) (hd : depth xs = 0) :
    Solid ys := by
  have hp := h.of_append.pieces_append ys
  rw [show pieces 0 (xs ++ ys) = [xs ++ ys] from h, hd] at hp
  obtain ⟨p, ps, hps⟩ := List.exists_cons_of_ne_nil (pieces_ne_nil 0 ys)
  simp only [hps, List.modifyHead_cons, List.cons.injEq, List.append_cancel_left_eq] at hp
  rw [Solid, hps, hp.1, ← hp.2]

private theorem singleton_or_cut (d : Int) (cs : List Char) :
    pieces d cs = [cs] ∨
      ∃ p ys, cs = p ++ ',' :: ys ∧ pieces d p = [p] ∧ d + depth p = 0 := by
  induction cs generalizing d with
  | nil => exact .inl rfl
  | cons c cs ih =>
    by_cases hc : (c == ',' && d == 0) = true
    · simp only [Bool.and_eq_true, beq_iff_eq] at hc
      exact .inr ⟨[], cs, by simp [hc.1], rfl, by simp [hc.2]⟩
    · rcases ih (d + weight c) with h | ⟨p, ys, rfl, hp, hd⟩
      · exact .inl (by simp [pieces, hc, h])
      · refine .inr ⟨c :: p, ys, by simp, by simp [pieces, hc, hp], ?_⟩
        rw [depth_cons]
        omega

/-- A text is solid, or its first separating comma stands behind a solid and level stretch. The
properties of segments go by this induction, from one comma to the next. -/
@[elab_as_elim]
theorem pieces_induction {P : List Char → Prop} (solid : ∀ cs, Solid cs → P cs)
    (cut : ∀ p ys, Solid p → depth p = 0 → P ys → P (p ++ ',' :: ys)) (cs : List Char) : P cs := by
  rcases singleton_or_cut 0 cs with h | ⟨p, ys, hcs, hp, hd⟩
  · exact solid cs h
  · subst hcs
    exact cut p ys hp (by simpa using hd) (pieces_induction solid cut ys)
termination_by cs.length
decreasing_by simp [hcs]; omega

theorem solid_of_mem_pieces {cs p : List Char} (h : p ∈ pieces 0 cs) : Solid p := by
  induction cs using pieces_induction with
  | solid cs hs => rw [hs] at h; rwa [List.mem_singleton.1 h]
  | cut q ys hq hd ih =>
    rw [hq.pieces_append_comma hd] at h
    rcases List.mem_cons.1 h with rfl | h
    · exact hq
    · exact ih h

/-- Only the last stretch can be other than level. -/
theorem pairwise_pieces (cs : List Char) :
    (pieces 0 cs).Pairwise fun p _ => depth p = 0 := by
  induction cs using pieces_induction with
  | solid cs hs => rw [hs]; simp
  | cut q ys hq hd ih =>
    rw [hq.pieces_append_comma hd]
    exact List.pairwise_cons.2 ⟨fun _ _ => hd, ih⟩

theorem depth_of_mem_pieces {cs p : List Char} (h : p ∈ pieces 0 cs) :
    depth p = 0 ∨ depth p = depth cs := by
  induction cs using pieces_induction with
  | solid cs hs => rw [hs] at h; exact .inr (by rw [List.mem_singleton.1 h])
  | cut q ys hq hd ih =>
    rw [hq.pieces_append_comma hd] at h
    rcases List.mem_cons.1 h with rfl | h
    · exact .inl hd
    · have hw : depth (q ++ ',' :: ys) = depth ys := by
        rw [depth_append, depth_cons, hd, show weight ',' = 0 from rfl]
        omega
      rw [hw]
      exact ih h

theorem length_le_of_mem_pieces {cs p : List Char} (h : p ∈ pieces 0 cs) :
    p.length ≤ cs.length := by
  induction cs using pieces_induction with
  | solid cs hs => rw [hs] at h; rw [List.mem_singleton.1 h]
  | cut q ys hq hd ih =>
    rw [hq.pieces_append_comma hd] at h
    simp only [List.length_append, List.length_cons]
    rcases List.mem_cons.1 h with rfl | h
    · omega
    · have := ih h
      omega

/-- The stretches keep the bounds of the text, and their commas stand below the surface. -/
theorem within_of_mem_pieces {lo : Int} {cs p : List Char} (hw : Within lo 0 0 cs)
    (h : p ∈ pieces 0 cs) : Within lo 1 0 p := by
  induction cs using pieces_induction with
  | solid cs hs =>
    rw [hs] at h
    rw [List.mem_singleton.1 h]
    exact within_of_solid hs hw
  | cut q ys hq hd ih =>
    rw [hq.pieces_append_comma hd] at h
    obtain ⟨h1, h2⟩ := within_append.1 hw
    rcases List.mem_cons.1 h with rfl | h
    · exact within_of_solid hq h1
    · refine ih ?_ h
      have hys := h2.2.2
      rwa [hd, show weight ',' = 0 from rfl] at hys

theorem Solid.trim {cs : List Char} (h : Solid cs) : Solid (trim cs) := by
  obtain ⟨b, -, he⟩ := exists_trim cs
  rw [he, List.append_assoc] at h
  exact (h.of_append_right
    (depth_of_neutral (neutral_of_allBlank (allBlank_takeWhile cs)))).of_append

/-- The segments of a text that starts at byte `start`. -/
def splitFrom (start : Nat) (cs : List Char) : List Segment := locate start (pieces 0 cs)

theorem split_eq_splitFrom (cs : List Char) : split cs = splitFrom 0 cs := rfl

/-- The segment in a text with `k` more bytes before it. -/
def moved (k : Nat) (s : Segment) : Segment := { s with offset := k + s.offset }

theorem locate_add (k start : Nat) (ps : List (List Char)) :
    locate (k + start) ps = (locate start ps).map (moved k) := by
  induction ps generalizing start with
  | nil => rfl
  | cons p ps ih =>
    unfold locate
    rw [show k + start + byteLength p + 1 = k + (start + byteLength p + 1) by omega, ih]
    split
    · rfl
    · simp [moved, Nat.add_assoc]

theorem splitFrom_eq_map (k : Nat) (cs : List Char) : splitFrom k cs = (split cs).map (moved k) :=
  locate_add k 0 (pieces 0 cs)

theorem locate_append (k : Nat) (p : List Char) (ps : List (List Char)) :
    locate k (p :: ps) = locate k [p] ++ locate (k + byteLength p + 1) ps := by
  simp only [locate]
  split <;> simp

theorem Solid.splitFrom_eq {cs : List Char} (h : Solid cs) (k : Nat) :
    splitFrom k cs = locate k [cs] := by
  rw [splitFrom, h]

theorem Solid.splitFrom_append_comma {p : List Char} (h : Solid p) (hd : depth p = 0) (k : Nat)
    (ys : List Char) :
    splitFrom k (p ++ ',' :: ys) = locate k [p] ++ splitFrom (k + byteLength p + 1) ys := by
  rw [splitFrom, h.pieces_append_comma hd, locate_append, splitFrom]

theorem locate_of_allBlank {p : List Char} (h : AllBlank p) (k : Nat) : locate k [p] = [] := by
  simp [locate, (trim_eq_nil_iff p).2 h]

/-- A stretch makes one segment, from its first to its last character that is not blank. -/
theorem locate_singleton {b x b' : List Char} (hb : AllBlank b) (hx : Text.trim x = x)
    (hne : x ≠ []) (hb' : AllBlank b') (k : Nat) :
    locate k [b ++ x ++ b'] = [⟨k + byteLength b, x⟩] := by
  have hlead : (b ++ x ++ b').takeWhile isBlank = b := by
    obtain ⟨c, y, rfl⟩ := List.exists_cons_of_ne_nil hne
    have hc : isBlank c = false := by
      have := head?_trim (c :: y)
      rw [hx] at this
      exact this c (by simp)
    rw [List.append_assoc, List.takeWhile_append_of_pos hb]
    simp [hc]
  simp only [locate, hlead, trim_append hb hb', hx, List.isEmpty_iff, hne, if_false]

theorem exists_locate {p : List Char} (h : ¬AllBlank p) :
    ∃ b b', AllBlank b ∧ AllBlank b' ∧ p = b ++ Text.trim p ++ b' ∧ Text.trim p ≠ [] ∧
      ∀ k, locate k [p] = [⟨k + byteLength b, Text.trim p⟩] := by
  obtain ⟨b', hb', he⟩ := exists_trim p
  have hne : Text.trim p ≠ [] := mt (trim_eq_nil_iff p).1 h
  refine ⟨p.takeWhile isBlank, b', allBlank_takeWhile p, hb', he, hne, fun k => ?_⟩
  have hloc := locate_singleton (allBlank_takeWhile p) (trim_trim p) hne hb' k
  rwa [← he] at hloc

/-- The segments of a text come from its stretches, one each; blank stretches give none. What is
read off the segments goes by this induction. -/
@[elab_as_elim]
theorem splitFrom_induction {P : Nat → List Char → List Segment → Prop}
    (blank : ∀ k b, AllBlank b → P k b [])
    (last : ∀ k b x b', AllBlank b → AllBlank b' → Text.trim x = x → x ≠ [] →
      Solid (b ++ x ++ b') → P k (b ++ x ++ b') [⟨k + byteLength b, x⟩])
    (skip : ∀ k b ys, AllBlank b →
      P (k + byteLength b + 1) ys (splitFrom (k + byteLength b + 1) ys) →
      P k (b ++ ',' :: ys) (splitFrom (k + byteLength b + 1) ys))
    (cons : ∀ k b x b' ys, AllBlank b → AllBlank b' → Text.trim x = x → x ≠ [] →
      Solid (b ++ x ++ b') → depth (b ++ x ++ b') = 0 →
      P (k + byteLength (b ++ x ++ b') + 1) ys
        (splitFrom (k + byteLength (b ++ x ++ b') + 1) ys) →
      P k (b ++ x ++ b' ++ ',' :: ys)
        (⟨k + byteLength b, x⟩ :: splitFrom (k + byteLength (b ++ x ++ b') + 1) ys))
    (k : Nat) (cs : List Char) : P k cs (splitFrom k cs) := by
  induction cs using pieces_induction generalizing k with
  | solid cs hs =>
    rw [hs.splitFrom_eq]
    by_cases hblank : AllBlank cs
    · rw [locate_of_allBlank hblank]
      exact blank k cs hblank
    · obtain ⟨b, b', hb, hb', he, hne, hloc⟩ := exists_locate hblank
      rw [hloc]
      rw [he] at hs
      have h := last k b _ b' hb hb' (trim_trim cs) hne hs
      rwa [← he] at h
  | cut p ys hp hd ih =>
    rw [hp.splitFrom_append_comma hd]
    by_cases hblank : AllBlank p
    · rw [locate_of_allBlank hblank, List.nil_append]
      exact skip k p ys hblank (ih _)
    · obtain ⟨b, b', hb, hb', he, hne, hloc⟩ := exists_locate hblank
      rw [hloc, List.singleton_append]
      rw [he] at hp hd
      have h := cons k b _ b' ys hb hb' (trim_trim p) hne hp hd (ih _)
      rwa [← he] at h

theorem mem_locate {k : Nat} {ps : List (List Char)} {s : Segment} (h : s ∈ locate k ps) :
    s.chars ≠ [] ∧ ∃ p ∈ ps, s.chars = Text.trim p := by
  induction ps generalizing k with
  | nil => simp [locate] at h
  | cons p ps ih =>
    rw [locate_append] at h
    rcases List.mem_append.1 h with h | h
    · by_cases hp : Text.trim p = []
      · simp [locate, hp] at h
      · have hs : s.chars = Text.trim p := by
          simp only [locate, List.isEmpty_iff, hp, if_false, List.mem_singleton] at h
          rw [h]
        exact ⟨by rwa [hs], p, by simp, hs⟩
    · obtain ⟨hne, q, hq, hs⟩ := ih h
      exact ⟨hne, q, by simp [hq], hs⟩

theorem pairwise_locate {ps : List (List Char)} (h : ps.Pairwise fun p _ => depth p = 0)
    (k : Nat) : (locate k ps).Pairwise fun s _ => depth s.chars = 0 := by
  induction ps generalizing k with
  | nil => simp [locate]
  | cons p ps ih =>
    obtain ⟨hp, hps⟩ := List.pairwise_cons.1 h
    unfold locate
    split
    · exact ih hps _
    · refine List.pairwise_cons.2 ⟨fun s hs => ?_, ih hps _⟩
      obtain ⟨-, q, hq, -⟩ := mem_locate hs
      rw [depth_trim, hp q hq]

/-- What is known of a segment of a text. -/
structure IsSegmentOf (cs seg : List Char) : Prop where
  nonempty : seg ≠ []
  trimmed : Text.trim seg = seg
  solid : Solid seg
  depth : depth seg = 0 ∨ Bracket.depth seg = Bracket.depth cs
  within : ∀ {lo : Int}, lo ≤ 0 → Within lo 0 0 cs → Within lo 1 0 seg
  length_le : seg.length ≤ cs.length

theorem isSegmentOf_of_mem {k : Nat} {cs : List Char} {s : Segment} (h : s ∈ splitFrom k cs) :
    IsSegmentOf cs s.chars := by
  obtain ⟨hne, p, hp, hs⟩ := mem_locate h
  refine ⟨hne, by rw [hs, trim_trim], ?_, ?_, ?_, ?_⟩
  · rw [hs]
    exact (solid_of_mem_pieces hp).trim
  · rw [hs, depth_trim]
    exact depth_of_mem_pieces hp
  · intro lo hlo hw
    rw [hs, within_trim hlo]
    exact within_of_mem_pieces hw hp
  · have hlen := length_le_of_mem_pieces hp
    obtain ⟨b, -, he⟩ := exists_trim p
    have : p.length = (p.takeWhile isBlank ++ Text.trim p ++ b).length := congrArg List.length he
    rw [hs]
    simp only [List.length_append] at this
    omega

theorem pairwise_splitFrom (k : Nat) (cs : List Char) :
    (splitFrom k cs).Pairwise fun s _ => depth s.chars = 0 :=
  pairwise_locate (pairwise_pieces cs) k

end ProblemScript.Segment
