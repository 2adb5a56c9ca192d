import Mathlib.Data.List.Chain
import Mathlib.Logic.Relation
import ProblemScript.Proofs.Grammar.Pairing
import ProblemScript.Proofs.Tree.Regular

/-! Canonical values. White space is blind to brackets and commas, so dropping it changes no cut:
the canonical form of a value is cut where the value was, whether its brackets pair up or not, and
is its own canonical form. Texts that differ in white space only where it separates nothing have
the same items. -/
namespace ProblemScript
open Text ProblemScript.Bracket Segment

namespace Text

instance (cs : List Char) : Decidable (AllBlank cs) := List.decidableBAll _ cs

/-- Words with single spaces between them, and nothing around them. -/
structure IsSingleSpaced (cs : List Char) : Prop where
  nonempty : cs ≠ []
  head : ∀ c ∈ cs.head?, isBlank c = false
  last : ∀ c ∈ cs.getLast?, isBlank c = false
  run : ∀ b, b <:+: cs → AllBlank b → b = [] ∨ b = [' ']

/-- No two characters of white space stand side by side. -/
def Sparse (cs : List Char) : Prop := cs.IsChain fun c d => isBlank c = true → isBlank d = false

theorem sparse_of_word {w : List Char} (hw : ∀ c ∈ w, isBlank c = false) : Sparse w := by
  induction w with
  | nil => exact .nil
  | cons c w ih =>
    obtain ⟨hc, hw⟩ := List.forall_mem_cons.1 hw
    exact List.isChain_cons.2 ⟨fun d _ hblank => by simp [hc] at hblank, ih hw⟩

theorem sparse_intercalate {ws : List (List Char)}
    (h : ∀ w ∈ ws, w ≠ [] ∧ ∀ c ∈ w, isBlank c = false) : Sparse ([' '].intercalate ws) := by
  induction ws with
  | nil => exact .nil
  | cons w ws ih =>
    obtain ⟨⟨-, hw⟩, hws⟩ := List.forall_mem_cons.1 h
    cases ws with
    | nil => simpa using sparse_of_word hw
    | cons v vs =>
      obtain ⟨hv, hword⟩ := hws v (by simp)
      obtain ⟨d, v, rfl⟩ := List.exists_cons_of_ne_nil hv
      have hrest : Sparse (' ' :: [' '].intercalate ((d :: v) :: vs)) := by
        refine List.isChain_cons.2 ⟨fun e he _ => ?_, ih hws⟩
        have hed : e = d := by cases vs <;> simpa [eq_comm] using he
        exact hword e (by simp [hed])
      have happend : Sparse (w ++ ' ' :: [' '].intercalate ((d :: v) :: vs)) := by
        refine (sparse_of_word hw).append hrest fun c hc e _ hblank => ?_
        simp [hw c (List.mem_of_getLast? hc)] at hblank
      simpa [List.intercalate_cons_cons] using happend

theorem isSingleSpaced_collapse {cs : List Char} (h : ¬AllBlank cs) :
    IsSingleSpaced (collapse cs) where
  nonempty := by
    rwa [ne_eq, collapse_eq_nil_iff, trim_eq_nil_iff]
  head := by
    have hhead := head?_trim (collapse cs)
    rwa [trim_collapse] at hhead
  last := by
    have hlast := getLast?_trim (collapse cs)
    rwa [trim_collapse] at hlast
  run b hpart hb := by
    have hsparse : Sparse b := List.IsChain.infix (sparse_intercalate fun _ => mem_words) hpart
    cases b with
    | nil => exact .inl rfl
    | cons c b =>
      have hc : c = ' ' := by
        refine (mem_collapse (hpart.subset (by simp))).resolve_right ?_
        simp [hb c (by simp)]
      cases b with
      | nil => simp [hc]
      | cons d b =>
        have hd := (List.isChain_cons_cons.1 hsparse).1 (hb c (by simp))
        simp [hb d (by simp)] at hd

/-- A run of white space separates two words, whichever run it is. -/
theorem words_append_run {b : List Char} (hb : AllBlank b) (hne : b ≠ []) (xs ys : List Char) :
    words (xs ++ b ++ ys) = words xs ++ words ys := by
  obtain ⟨c, b, rfl⟩ := List.exists_cons_of_ne_nil hne
  obtain ⟨hc, hb⟩ := List.forall_mem_cons.1 hb
  have hcat : xs ++ c :: b ++ ys = xs ++ c :: (b ++ ys) := by simp
  rw [hcat, words_append_cons hc, words_append_of_allBlank hb]

end Text

namespace Segment

/-- Characters that are neither brackets nor commas may be dropped before or after the cutting. -/
theorem pieces_filter {p : Char → Bool} (hp : ∀ c, p c = false → weight c = 0 ∧ c ≠ ',') (d : Int)
    (cs : List Char) : pieces d (cs.filter p) = (pieces d cs).map (List.filter p) := by
  induction cs generalizing d with
  | nil => rfl
  | cons c cs ih =>
    obtain ⟨q, qs, hq⟩ := List.exists_cons_of_ne_nil (pieces_ne_nil (d + weight c) cs)
    cases hc : p c with
    | true =>
      simp only [List.filter_cons, hc, if_true, pieces, ih]
      split
      · simp
      · simp [hq, hc]
    | false =>
      obtain ⟨hw, hcomma⟩ := hp c hc
      rw [hw, Int.add_zero] at hq
      simp [pieces, hc, hcomma, hw, ih, hq]

theorem solid_iff_length {cs : List Char} : Solid cs ↔ (pieces 0 cs).length = 1 := by
  constructor
  · intro h
    rw [h]
    rfl
  · intro h
    obtain ⟨q, hq⟩ := List.length_eq_one_iff.1 h
    have hcs := intercalate_pieces 0 cs
    simp only [hq, List.intercalate_singleton] at hcs
    rw [Solid, hq, hcs]

theorem solid_collapse {cs : List Char} : Solid (collapse cs) ↔ Solid cs := by
  have hblank : ∀ c, (!isBlank c) = false → weight c = 0 ∧ c ≠ ',' := fun c hc =>
    neutral_of_isBlank (by simpa using hc)
  have hlength : ∀ xs : List Char, (pieces 0 xs).length =
      (pieces 0 (xs.filter fun c => !isBlank c)).length := fun xs => by
    rw [pieces_filter hblank, List.length_map]
  rw [solid_iff_length, solid_iff_length, hlength, filter_collapse, ← hlength]

end Segment

namespace Value

/-- The items are the stretches between the cuts, collapsed, as far as anything is left of them. -/
theorem items_eq_pieces (raw : List Char) :
    items raw = (((pieces 0 raw).map collapse).filter (!·.isEmpty)).map String.ofList := by
  have hlocate : ∀ k ps, (locate k ps).map (fun s => collapse s.chars) =
      (ps.map collapse).filter (!·.isEmpty) := by
    intro k ps
    induction ps generalizing k with
    | nil => rfl
    | cons p ps ih =>
      have hnil := collapse_eq_nil_iff p
      unfold locate
      split
      · simp_all
      · simp_all
  rw [← hlocate 0, List.map_map]
  rfl

theorem items_append_comma_of_depth {xs : List Char} (h : depth xs = 0) (ys : List Char) :
    items (xs ++ ',' :: ys) = items xs ++ items ys := by
  have hchars := congrArg (List.map fun cs => String.ofList (collapse cs))
    (map_chars_split_append_comma h ys)
  simpa [items, Function.comp_def] using hchars

/-- What an item is made of. -/
structure IsTidy (x : String) : Prop where
  spaced : IsSingleSpaced x.toList
  collapsed : collapse x.toList = x.toList
  solid : Solid x.toList

theorem isTidy_of_mem {raw : List Char} {x : String} (h : x ∈ items raw) : IsTidy x := by
  obtain ⟨s, hs, hx⟩ := List.mem_map.1 h
  have hchars : x.toList = collapse s.chars := by simp [← hx]
  have hseg := isSegmentOf_of_mem (k := 0) hs
  have hblank : ¬AllBlank s.chars := fun hb => by
    have htrim := (trim_eq_nil_iff _).2 hb
    exact hseg.nonempty (hseg.trimmed ▸ htrim)
  constructor <;> rw [hchars]
  · exact isSingleSpaced_collapse hblank
  · exact collapse_collapse _
  · exact solid_collapse.2 hseg.solid

/-- Only the last item can have brackets left open or closed once too often. -/
theorem pairwise_items (raw : List Char) :
    (items raw).Pairwise fun x _ => depth x.toList = 0 := by
  refine List.pairwise_map.2 ((pairwise_splitFrom 0 raw).imp fun {s _} hs => ?_)
  simpa using hs

/-- The items of a value are cut out of its canonical form again. -/
theorem items_canonical (raw : List Char) : items (canonical raw).toList = items raw := by
  have htidy : ∀ x ∈ items raw,
      x.toList ≠ [] ∧ collapse x.toList = x.toList ∧ Solid x.toList := fun x hx =>
    let h := isTidy_of_mem hx
    ⟨h.spaced.nonempty, h.collapsed, h.solid⟩
  exact items_append_join allBlank_nil htidy (pairwise_items raw)

/-- White space put in or exchanged where it separates nothing: a run of it for another, and any at
the ends of the text or on either side of a comma that cuts. -/
inductive Respaced : List Char → List Char → Prop
  | run (xs ys : List Char) {b b' : List Char} (hb : AllBlank b) (hne : b ≠ []) (hb' : AllBlank b')
      (hne' : b' ≠ []) : Respaced (xs ++ b ++ ys) (xs ++ b' ++ ys)
  | comma {xs : List Char} (hd : depth xs = 0) (ys : List Char) {b b' : List Char}
      (hb : AllBlank b) (hb' : AllBlank b') :
      Respaced (xs ++ ',' :: ys) (xs ++ b ++ ',' :: (b' ++ ys))
  | ends (xs : List Char) {b b' : List Char} (hb : AllBlank b) (hb' : AllBlank b') :
      Respaced xs (b ++ xs ++ b')

section Spacing
variable {b b' : List Char} (hb : AllBlank b) (hb' : AllBlank b')
include hb hb'

theorem items_surrounded_of_solid {p : List Char} (hp : Solid p) :
    items (b ++ p ++ b') = items p := by
  have hneutral := neutral_of_allBlank hb
  have hsolid : Solid (b ++ p ++ b') :=
    ((solid_of_neutral hneutral).append (depth_of_neutral hneutral) hp).append_of_not_mem
      fun hmem => (neutral_of_allBlank hb' _ hmem).2 rfl
  have hcollapse : collapse (b ++ p ++ b') = collapse p := by
    simp only [collapse, words_append_allBlank hb', words_append_of_allBlank hb]
  simp only [items_of_solid hsolid, items_of_solid hp, trim_append hb hb', hcollapse]

/-- White space around a value is not part of its items. -/
theorem items_surrounded (xs : List Char) : items (b ++ xs ++ b') = items xs := by
  induction xs using pieces_induction generalizing b with
  | solid xs hs => exact items_surrounded_of_solid hb hb' hs
  | cut p ys hp hd ih =>
    have hfirst := items_surrounded_of_solid hb allBlank_nil hp
    have hrest := ih allBlank_nil
    have hdepth : depth (b ++ p) = 0 := by simpa [hd] using depth_surrounded hb allBlank_nil p
    have hcat : b ++ (p ++ ',' :: ys) ++ b' = (b ++ p) ++ ',' :: (ys ++ b') := by simp
    rw [List.append_nil] at hfirst
    rw [List.nil_append] at hrest
    rw [hcat, items_append_comma_of_depth hdepth, items_append_comma_of_depth hd, hfirst, hrest]

/-- A run of white space may be any other. -/
theorem items_run (hne : b ≠ []) (hne' : b' ≠ []) (xs ys : List Char) :
    items (xs ++ b ++ ys) = items (xs ++ b' ++ ys) := by
  induction xs using pieces_induction with
  | solid xs hs =>
    -- The run stands in the first stretch, whatever the rest is cut into.
    have hpieces : ∀ {r : List Char}, AllBlank r →
        pieces 0 (xs ++ r ++ ys) = (pieces (depth xs) ys).modifyHead (xs ++ r ++ ·) := by
      intro r hr
      have hsolid : Solid (xs ++ r) :=
        hs.append_of_not_mem fun hmem => (neutral_of_allBlank hr _ hmem).2 rfl
      have hdepth : depth (xs ++ r) = depth xs := depth_surrounded allBlank_nil hr xs
      rw [hsolid.pieces_append, hdepth]
    obtain ⟨q, qs, hq⟩ := List.exists_cons_of_ne_nil (pieces_ne_nil (depth xs) ys)
    simp only [items_eq_pieces, hpieces hb, hpieces hb', hq, List.modifyHead_cons, List.map_cons,
      collapse, words_append_run hb hne, words_append_run hb' hne']
  | cut p xs hp hd ih =>
    have hcat : ∀ r, p ++ ',' :: xs ++ r ++ ys = p ++ ',' :: (xs ++ r ++ ys) := by simp
    simp only [hcat, items_append_comma_of_depth hd, ih]

end Spacing

theorem items_of_respaced {raw raw' : List Char} (h : Respaced raw raw') :
    items raw' = items raw := by
  cases h with
  | run xs ys hb hne hb' hne' => exact items_run hb' hb hne' hne xs ys
  | @comma xs hd ys b b' hb hb' =>
    have hfirst := items_surrounded allBlank_nil hb xs
    have hrest := items_surrounded hb' allBlank_nil ys
    have hdepth : depth (xs ++ b) = 0 := by simpa [hd] using depth_surrounded allBlank_nil hb xs
    rw [List.nil_append] at hfirst
    rw [List.append_nil] at hrest
    rw [items_append_comma_of_depth hdepth, items_append_comma_of_depth hd, hfirst, hrest]
  | ends xs hb hb' => exact items_surrounded hb hb' raw

theorem items_of_eqvGen {raw raw' : List Char} (h : Relation.EqvGen Respaced raw raw') :
    items raw' = items raw := by
  induction h with
  | rel raw raw' h => exact items_of_respaced h
  | refl raw => rfl
  | symm raw raw' _ ih => exact ih.symm
  | trans raw raw' raw'' _ _ ih ih' => exact ih'.trans ih

/-- The canonical form of a value is a fixed point, whatever its brackets: it has the items of the
value, each with single spaces inside and a comma and a space behind it, and is the same for every
value that differs by white space that separates nothing. -/
theorem canonical_fixpoint (raw : List Char) :
    items (canonical raw).toList = items raw ∧
      canonical (canonical raw).toList = canonical raw ∧
      canonical raw = ", ".intercalate (items raw) ∧
      (∀ x ∈ items raw, IsSingleSpaced x.toList) ∧
      ∀ raw', Relation.EqvGen Respaced raw raw' →
        items raw' = items raw ∧ canonical raw' = canonical raw := by
  refine ⟨items_canonical raw, ?_, ?_, fun x hx => (isTidy_of_mem hx).spaced, fun raw' h => ?_⟩
  · rw [canonical, items_canonical, canonical]
  · rw [← String.toList_inj]
    simp [canonical, String.toList_intercalate]
  · have hitems := items_of_eqvGen h
    exact ⟨hitems, by rw [canonical, hitems, canonical]⟩

/-- A closing bracket too many keeps the first comma from cutting; a no-break space, spaces at the
other comma and a line break at the end change nothing. -/
theorem canonical_fixpoint_reopened :
    let raw := "a] b,[c  d,e".toList
    let raw' := "a] b,[c\u00a0d , e\n".toList
    Relation.EqvGen Respaced raw raw' ∧ items raw' = ["a] b,[c d", "e"] ∧
      canonical raw' = "a] b,[c d, e" ∧ items "a] b,[c d, e".toList = items raw' := by
  intro raw raw'
  have hrun : Respaced raw "a] b,[c\u00a0d,e".toList :=
    @Respaced.run "a] b,[c".toList "d,e".toList "  ".toList "\u00a0".toList (by decide) (by decide)
      (by decide) (by decide)
  have hcomma : Respaced "a] b,[c\u00a0d,e".toList "a] b,[c\u00a0d , e".toList :=
    @Respaced.comma "a] b,[c\u00a0d".toList (by decide) "e".toList [' '] [' '] (by decide)
      (by decide)
  have hends : Respaced "a] b,[c\u00a0d , e".toList raw' :=
    @Respaced.ends "a] b,[c\u00a0d , e".toList [] ['\n'] (by decide) (by decide)
  have hspaced : Relation.EqvGen Respaced raw raw' :=
    .trans _ _ _ (.rel _ _ hrun) (.trans _ _ _ (.rel _ _ hcomma) (.rel _ _ hends))
  obtain ⟨hitems, -, -, -, hsame⟩ := canonical_fixpoint raw
  obtain ⟨hitems', hcanonical⟩ := hsame raw' hspaced
  have hread : items raw = ["a] b,[c d", "e"] := by decide +kernel
  have hwritten : canonical raw = "a] b,[c d, e" := by decide +kernel
  rw [hwritten] at hitems
  exact ⟨hspaced, hitems'.trans hread, hcanonical.trans hwritten, hitems.trans hitems'.symm⟩

end Value
end ProblemScript
