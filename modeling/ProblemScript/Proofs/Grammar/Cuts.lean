import ProblemScript.Proofs.Grammar.Surroundings

/-! Where a text is cut. The splitter keeps a running depth; said without it, a comma cuts if
as many brackets are closed as opened before it. The segments are what lies between the cuts, and
nothing but white space and those commas is left out. -/
namespace ProblemScript
open Text ProblemScript.Bracket Segment

namespace Bracket

theorem depth_eq_countP (cs : List Char) :
    depth cs = (cs.countP isOpening : Int) - cs.countP isClosing := by
  induction cs with
  | nil => rfl
  | cons c cs ih =>
    have hc : isClosing c = true → isOpening c = false := isOpening_eq_false_of_isClosing
    cases ho : isOpening c <;> cases hcl : isClosing c <;> simp_all [depth, weight] <;> omega

theorem countP_eq_iff (cs : List Char) :
    cs.countP isOpening = cs.countP isClosing ↔ depth cs = 0 := by
  rw [depth_eq_countP]
  omega

/-- The depth stays below the number of brackets. -/
theorem natAbs_depth_le {before cs : List Char} (h : before <+: cs) :
    (depth before).natAbs ≤ cs.countP isOpening + cs.countP isClosing := by
  have hopen := h.sublist.countP_le (p := isOpening)
  have hclose := h.sublist.countP_le (p := isClosing)
  rw [depth_eq_countP]
  omega

end Bracket

namespace Text

theorem cutAt_add (xs ys : List Char) (n : Nat) :
    cutAt (byteLength xs + n) (xs ++ ys) = (xs ++ (cutAt n ys).1, (cutAt n ys).2) := by
  induction xs with
  | nil => simp
  | cons c xs ih =>
    have hle : c.utf8Size ≤ c.utf8Size + byteLength xs + n := by omega
    have hsub : c.utf8Size + byteLength xs + n - c.utf8Size = byteLength xs + n := by omega
    simp [cutAt, hle, hsub, ih]

theorem slice_moved (xs ys : List Char) (s : Span) :
    slice (xs ++ ys) (s.moved (byteLength xs)) = slice ys s := by
  have hlength : (s.moved (byteLength xs)).length = s.length := by
    simp only [Span.length, Span.moved]
    omega
  simp only [slice, hlength]
  simp only [Span.moved, cutAt_add]

theorem slice_append (xs ys : List Char) : slice (xs ++ ys) ⟨0, byteLength xs⟩ = xs := by
  have hat := (At.whole (xs ++ ys)).left
  simpa using hat.slice_eq

/-- A character of two texts put together is one of the first or one of the second. -/
theorem cases_of_append_eq {xs ys before after : List Char} {c : Char}
    (h : xs ++ ys = before ++ c :: after) :
    (∃ mid, xs = before ++ c :: mid) ∨ ∃ mid, before = xs ++ mid ∧ ys = mid ++ c :: after := by
  rcases List.append_eq_append_iff.1 h with ⟨mid, hbefore, hys⟩ | ⟨mid, hxs, hmid⟩
  · exact .inr ⟨mid, hbefore, hys⟩
  · cases mid with
    | nil => exact .inr ⟨[], by simpa using hxs.symm, by simpa using hmid.symm⟩
    | cons d mid =>
      obtain ⟨rfl, rfl⟩ := List.cons.inj hmid
      exact .inl ⟨mid, hxs⟩

end Text

namespace Segment

/-- A comma stands at byte `i`, and as many brackets are closed before it as opened. -/
def IsCut (cs : List Char) (i : Nat) : Prop :=
  let (before, after) := cutAt i cs
  IsBoundary cs i ∧ after.head? = some ',' ∧ before.countP isOpening = before.countP isClosing

instance (cs : List Char) (i : Nat) : Decidable (IsCut cs i) :=
  inferInstanceAs (Decidable (_ ∧ _ ∧ _))

theorem isCut_iff {cs : List Char} {i : Nat} :
    IsCut cs i ↔
      ∃ before after, cs = before ++ ',' :: after ∧ byteLength before = i ∧ depth before = 0 := by
  constructor
  · rintro ⟨hboundary, hcomma, heven⟩
    obtain ⟨after, hafter⟩ := List.head?_eq_some_iff.1 hcomma
    refine ⟨(cutAt i cs).1, after, ?_, hboundary, (countP_eq_iff _).1 heven⟩
    rw [← hafter, cutAt_append]
  · rintro ⟨before, after, rfl, rfl, hdepth⟩
    unfold IsCut
    rw [cutAt_byteLength]
    exact ⟨isBoundary_iff.2 ⟨before, _, rfl, rfl⟩, rfl, (countP_eq_iff _).2 hdepth⟩

/-- The byte offsets at which a text is cut. -/
def cuts (cs : List Char) : List Nat := (List.range (byteLength cs)).filter (IsCut cs ·)

/-- The ranges between the cuts. -/
def stretches (cs : List Char) : List Span :=
  List.zipWith Span.mk (0 :: (cuts cs).map (· + 1)) (cuts cs ++ [byteLength cs])

/-- What a range of a text holds without the white space around it, if there is anything. -/
def trimmedAt? (cs : List Char) (s : Span) : Option Segment :=
  let raw := slice cs s
  if trim raw = [] then none else some ⟨s.start + byteLength (raw.takeWhile isBlank), trim raw⟩

/-- The segments of a text by its cuts. -/
def between (cs : List Char) : List Segment := (stretches cs).filterMap (trimmedAt? cs)

theorem Solid.not_isCut {cs : List Char} (h : Solid cs) (i : Nat) : ¬IsCut cs i := by
  intro hcut
  obtain ⟨before, after, rfl, -, hdepth⟩ := isCut_iff.1 hcut
  have hpieces := h.of_append.pieces_append_comma hdepth after
  rw [h, List.cons.injEq] at hpieces
  exact pieces_ne_nil 0 after hpieces.2.symm

theorem Solid.cuts_eq {cs : List Char} (h : Solid cs) : cuts cs = [] := by
  unfold cuts
  rw [List.filter_eq_nil_iff]
  intro i _
  simpa using h.not_isCut i

section Step
variable {p : List Char} (hp : Solid p) (hd : depth p = 0) (ys : List Char)
include hp hd

/-- Behind a solid and level stretch and its comma, the cuts are those of the rest. -/
theorem Solid.isCut_append_comma (i : Nat) :
    IsCut (p ++ ',' :: ys) i ↔
      i = byteLength p ∨ ∃ j, i = byteLength p + 1 + j ∧ IsCut ys j := by
  have hcomma : (',').utf8Size = 1 := rfl
  constructor
  · intro hcut
    obtain ⟨before, after, heq, hbefore, hdepth⟩ := isCut_iff.1 hcut
    rcases cases_of_append_eq heq with ⟨mid, hmid⟩ | ⟨mid, rfl, hmid⟩
    · have hearlier : IsCut p (byteLength before) :=
        isCut_iff.2 ⟨before, mid, hmid, rfl, hdepth⟩
      exact absurd hearlier (hp.not_isCut _)
    · cases mid with
      | nil => exact .inl (by simpa using hbefore.symm)
      | cons c mid =>
        obtain ⟨rfl, hys⟩ := List.cons.inj hmid
        refine .inr ⟨byteLength mid, ?_, isCut_iff.2 ⟨mid, after, hys, rfl, ?_⟩⟩
        · simp only [byteLength_append, byteLength_cons, hcomma] at hbefore
          omega
        · rw [depth_append, depth_cons, hd, show weight ',' = 0 from rfl] at hdepth
          omega
  · rintro (rfl | ⟨j, rfl, hcut⟩)
    · exact isCut_iff.2 ⟨p, ys, rfl, rfl, hd⟩
    · obtain ⟨before, after, rfl, rfl, hdepth⟩ := isCut_iff.1 hcut
      refine isCut_iff.2 ⟨p ++ ',' :: before, after, by simp, ?_, ?_⟩
      · simp only [byteLength_append, byteLength_cons, hcomma]
        omega
      · simp [hd, hdepth, show weight ',' = 0 from rfl]

theorem Solid.cuts_append_comma :
    cuts (p ++ ',' :: ys) = byteLength p :: (cuts ys).map (byteLength p + 1 + ·) := by
  have hlength : byteLength (p ++ ',' :: ys) = byteLength p + (1 + byteLength ys) := by
    rw [byteLength_append, byteLength_cons]
    rfl
  have hstep := hp.isCut_append_comma hd ys
  have hbefore : (List.range (byteLength p)).filter (IsCut (p ++ ',' :: ys) ·) = [] := by
    rw [List.filter_eq_nil_iff]
    intro i hi
    have hlt := List.mem_range.1 hi
    simp only [decide_eq_true_eq, hstep]
    rintro (rfl | ⟨j, rfl, -⟩) <;> omega
  have hcomma : IsCut (p ++ ',' :: ys) (byteLength p) := (hstep _).2 (.inl rfl)
  have hbehind : ∀ j, IsCut (p ++ ',' :: ys) (byteLength p + 1 + j) ↔ IsCut ys j := by
    intro j
    rw [hstep]
    constructor
    · rintro (h | ⟨k, hk, hcut⟩)
      · omega
      · obtain rfl : j = k := by omega
        exact hcut
    · exact fun hcut => .inr ⟨j, rfl, hcut⟩
  unfold cuts
  rw [hlength, List.range_add, List.range_add, List.filter_append, hbefore, List.nil_append]
  simp only [List.map_append, List.map_map, List.filter_append, List.filter_map, Function.comp_def]
  simp [hcomma, ← Nat.add_assoc, hbehind]

theorem Solid.stretches_append_comma :
    stretches (p ++ ',' :: ys) =
      ⟨0, byteLength p⟩ :: (stretches ys).map (Span.moved (byteLength p + 1)) := by
  have hlength : byteLength (p ++ ',' :: ys) = byteLength p + 1 + byteLength ys := by
    rw [byteLength_append, byteLength_cons, Nat.add_assoc]
    rfl
  have hstarts : (cuts (p ++ ',' :: ys)).map (· + 1) =
      (0 :: (cuts ys).map (· + 1)).map (byteLength p + 1 + ·) := by
    simp [hp.cuts_append_comma hd, Function.comp_def, Nat.add_assoc]
  have hstops : cuts (p ++ ',' :: ys) ++ [byteLength (p ++ ',' :: ys)] =
      byteLength p :: (cuts ys ++ [byteLength ys]).map (byteLength p + 1 + ·) := by
    simp [hp.cuts_append_comma hd, hlength]
  unfold stretches
  rw [hstarts, hstops, List.zipWith_cons_cons, List.zipWith_map, List.map_zipWith]
  rfl

end Step

theorem trimmedAt?_moved (xs ys : List Char) (s : Span) :
    trimmedAt? (xs ++ ys) (s.moved (byteLength xs)) =
      (trimmedAt? ys s).map (moved (byteLength xs)) := by
  unfold trimmedAt?
  simp only [slice_moved]
  split
  · rfl
  · simp [Span.moved, moved, Nat.add_assoc]

theorem trimmedAt?_zero (xs ys : List Char) :
    (trimmedAt? (xs ++ ys) ⟨0, byteLength xs⟩).toList = locate 0 [xs] := by
  unfold trimmedAt? locate
  rw [slice_append]
  by_cases hblank : trim xs = []
  · simp [hblank, locate]
  · simp [hblank, locate]

/-- The running depth finds just the cuts. -/
theorem split_eq_between (cs : List Char) : split cs = between cs := by
  induction cs using pieces_induction with
  | solid cs hs =>
    have hwhole := trimmedAt?_zero cs []
    rw [List.append_nil] at hwhole
    rw [split_eq_splitFrom, hs.splitFrom_eq, between, stretches, hs.cuts_eq, ← hwhole]
    cases hat : trimmedAt? cs ⟨0, byteLength cs⟩ <;> simp [hat]
  | cut p ys hp hd ih =>
    have hcat : p ++ ',' :: ys = p ++ [','] ++ ys := by simp
    have hlength : byteLength p + 1 = byteLength (p ++ [',']) := by
      rw [byteLength_append]
      rfl
    have hrest : ((stretches ys).map (Span.moved (byteLength p + 1))).filterMap
        (trimmedAt? (p ++ ',' :: ys)) = (between ys).map (moved (byteLength p + 1)) := by
      rw [between, List.filterMap_map, List.map_filterMap, hlength, hcat]
      simp only [Function.comp_def, trimmedAt?_moved]
    rw [split_eq_splitFrom, hp.splitFrom_append_comma hd, Nat.zero_add, splitFrom_eq_map, ih,
      ← hrest, ← trimmedAt?_zero p (',' :: ys)]
    rw [between, hp.stretches_append_comma hd, List.filterMap_cons]
    cases trimmedAt? (p ++ ',' :: ys) ⟨0, byteLength p⟩ <;> rfl

/-- The characters of a stretch that lie outside its segment are white space. -/
theorem isBlank_of_outside {b x b' before after : List Char} {c : Char} {k i : Nat}
    (hb : AllBlank b) (hb' : AllBlank b') (h : b ++ x ++ b' = before ++ c :: after)
    (hstart : k + byteLength before ≤ i) (hstop : i < k + byteLength before + c.utf8Size)
    (hout : ¬(k + byteLength b ≤ i ∧ i < k + byteLength b + byteLength x)) :
    isBlank c = true := by
  rw [List.append_assoc] at h
  rcases cases_of_append_eq h with ⟨mid, rfl⟩ | ⟨mid, rfl, hmid⟩
  · exact hb c (by simp)
  rcases cases_of_append_eq hmid with ⟨rest, rfl⟩ | ⟨rest, rfl, hrest⟩
  · refine absurd ?_ hout
    simp only [byteLength_append, byteLength_cons] at hstart hstop ⊢
    omega
  · exact hb' c (by simp [hrest])

/-- A character outside of all segments is white space or a comma that cuts. -/
theorem blank_or_cut_of_outside (k : Nat) (cs : List Char) {before after : List Char} {c : Char}
    (h : cs = before ++ c :: after) {i : Nat} (hstart : k + byteLength before ≤ i)
    (hstop : i < k + byteLength before + c.utf8Size)
    (hout : ∀ s ∈ splitFrom k cs, ¬(s.offset ≤ i ∧ i < s.stop)) :
    isBlank c = true ∨ (c = ',' ∧ depth before = 0) := by
  have hcomma : (',').utf8Size = 1 := rfl
  have hweight : weight ',' = 0 := rfl
  refine splitFrom_induction (P := fun k cs segs => ∀ before after, cs = before ++ c :: after →
    k + byteLength before ≤ i → i < k + byteLength before + c.utf8Size →
    (∀ s ∈ segs, ¬(s.offset ≤ i ∧ i < s.stop)) → isBlank c = true ∨ (c = ',' ∧ depth before = 0))
    ?blank ?last ?skip ?cons k cs before after h hstart hstop hout
  case blank =>
    intro k b hb before after h _ _ _
    exact .inl (hb c (by simp [h]))
  case last =>
    intro k b x b' hb hb' _ _ _ before after h hstart hstop hout
    exact .inl (isBlank_of_outside hb hb' h hstart hstop (hout _ List.mem_cons_self))
  case skip =>
    intro k b ys hb ih before after h hstart hstop hout
    rcases cases_of_append_eq h with ⟨mid, rfl⟩ | ⟨mid, rfl, hmid⟩
    · exact .inl (hb c (by simp))
    have hdepth := depth_of_neutral (neutral_of_allBlank hb)
    cases mid with
    | nil => exact .inr ⟨(List.cons.inj hmid).1.symm, by simpa using hdepth⟩
    | cons d mid =>
      obtain ⟨rfl, hys⟩ := List.cons.inj hmid
      simp only [byteLength_append, byteLength_cons, hcomma] at hstart hstop
      simpa [hdepth, hweight] using ih mid after hys (by omega) (by omega) hout
  case cons =>
    intro k b x b' ys hb hb' _ _ _ hdepth ih before after h hstart hstop hout
    rcases cases_of_append_eq h with ⟨mid, hmid⟩ | ⟨mid, rfl, hmid⟩
    · exact .inl (isBlank_of_outside hb hb' hmid hstart hstop (hout _ List.mem_cons_self))
    cases mid with
    | nil => exact .inr ⟨(List.cons.inj hmid).1.symm, by simpa using hdepth⟩
    | cons d mid =>
      obtain ⟨rfl, hys⟩ := List.cons.inj hmid
      have hlater := fun s hs => hout s (List.mem_cons_of_mem _ hs)
      rw [byteLength_append, byteLength_cons, hcomma] at hstart hstop
      rw [depth_append, hdepth, depth_cons, hweight, Int.zero_add, Int.zero_add]
      exact ih mid after hys (by omega) (by omega) hlater

/-- A segment with a cut behind it opens as many brackets as it closes. -/
theorem depth_of_cut_behind {cs : List Char} {s : Segment} (hs : s ∈ split cs) {i : Nat}
    (hcut : IsCut cs i) (hstop : s.stop ≤ i) : depth s.chars = 0 := by
  obtain ⟨before, after, rfl, rfl, hdepth⟩ := isCut_iff.1 hcut
  rw [split_eq_splitFrom, splitFrom_append_comma hdepth] at hs
  rcases List.mem_append.1 hs with hs | hs
  · have hseg := (isSegmentOf_of_mem hs).depth
    omega
  · have hlater := (extent_of_mem_splitFrom hs).1
    unfold stop at hstop
    omega

theorem split_of_mem {cs : List Char} {s : Segment} (hs : s ∈ split cs) :
    split s.chars = [⟨0, s.chars⟩] := by
  have hseg := isSegmentOf_of_mem (k := 0) hs
  have hloc := locate_singleton allBlank_nil hseg.trimmed hseg.nonempty allBlank_nil 0
  rw [List.nil_append, List.append_nil] at hloc
  rw [split_eq_splitFrom, hseg.solid.splitFrom_eq, hloc]
  rfl

/-- The segments are those of the text cut at its level commas, and they leave nothing out. -/
structure IsSplitOf (cs : List Char) (segs : List Segment) : Prop where
  eq_between : segs = between cs
  /-- Every segment stands in the text where its offset says. -/
  stands : ∀ s ∈ segs, IsBoundary cs s.offset ∧ IsBoundary cs s.stop ∧
    slice cs ⟨s.offset, s.stop⟩ = s.chars
  ordered : segs.Pairwise fun s t => s.stop ≤ t.offset
  /-- A byte outside of the segments belongs to white space or is a comma that cuts. -/
  outside : ∀ before c after i, cs = before ++ c :: after → byteLength before ≤ i →
    i < byteLength before + c.utf8Size → (∀ s ∈ segs, ¬(s.offset ≤ i ∧ i < s.stop)) →
    isBlank c = true ∨ (c = ',' ∧ IsCut cs (byteLength before))
  level : ∀ s ∈ segs, ∀ i, IsCut cs i → s.stop ≤ i →
    s.chars.countP isOpening = s.chars.countP isClosing
  again : ∀ s ∈ segs, split s.chars = [⟨0, s.chars⟩]
  /-- With fewer than 2 ^ 31 brackets the running depth is a signed number of 32 bits. -/
  counts : cs.countP isOpening + cs.countP isClosing < Nat.pow 2 31 →
    ∀ before, before <+: cs → (depth before).natAbs < Nat.pow 2 31

theorem isSplitOf_split (cs : List Char) : IsSplitOf cs (split cs) where
  eq_between := split_eq_between cs
  stands s hs := by
    have hat := at_of_mem_splitFrom (At.whole cs) hs
    exact ⟨hat.isBoundary, hat.isBoundary_stop, hat.slice_eq⟩
  ordered := (pairwise_stop_lt 0 cs).imp Nat.le_of_lt
  outside before c after i h hstart hstop hout := by
    rcases blank_or_cut_of_outside 0 cs h (by omega) (by omega) hout with hblank | ⟨rfl, hdepth⟩
    · exact .inl hblank
    · exact .inr ⟨rfl, isCut_iff.2 ⟨before, after, h, rfl, hdepth⟩⟩
  level s hs i hcut hstop := (countP_eq_iff _).2 (depth_of_cut_behind hs hcut hstop)
  again s hs := split_of_mem hs
  counts hfew before hbefore := Nat.lt_of_le_of_lt (natAbs_depth_le hbefore) hfew

-- Closing brackets that nothing opened keep commas from cutting until the depth is back.
example : (split "a ,[b,(é, ),] c), d(, ,e".toList).map (·.offset) = [0, 3, 24] := by
  decide +kernel

end Segment
end ProblemScript
