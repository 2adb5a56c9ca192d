import Mathlib.Data.List.Forall2
import ProblemScript.Proofs.Grammar.Split

/-! Lists as they may be written. Elements stand between commas with white space around them, and
commas with nothing between them are passed over. One relation serves for the slots of operations,
the properties of entities and the items of properties; splitting takes such a text apart into what
splitting makes of its elements. -/
namespace ProblemScript
open Text ProblemScript.Bracket Segment

namespace Bracket

/-- The depth does not go below zero, and comes back to it. -/
structure Level (cs : List Char) : Prop where
  within : Within 0 0 0 cs
  depth_eq : depth cs = 0

theorem level_of_neutral {cs : List Char} (h : Neutral cs) : Level cs :=
  ⟨within_of_neutral h (Int.le_refl 0), depth_of_neutral h⟩

theorem Level.append {xs ys : List Char} (hx : Level xs) (hy : Level ys) : Level (xs ++ ys) := by
  constructor
  · apply within_append.2
    rw [hx.depth_eq]
    exact ⟨hx.within, hy.within⟩
  · rw [depth_append, hx.depth_eq, hy.depth_eq]
    rfl

theorem level_comma : Level [','] :=
  ⟨⟨fun _ => Int.le_refl 0, by decide, trivial⟩, rfl⟩

theorem Level.append_comma {xs ys : List Char} (hx : Level xs) (hy : Level ys) :
    Level (xs ++ ',' :: ys) := hx.append (level_comma.append hy)

theorem depth_surrounded {b b' : List Char} (hb : AllBlank b) (hb' : AllBlank b') (xs : List Char) :
    depth (b ++ xs ++ b') = depth xs := by
  rw [depth_append, depth_append, depth_of_neutral (neutral_of_allBlank hb),
    depth_of_neutral (neutral_of_allBlank hb'), Int.zero_add, Int.add_zero]

end Bracket

/-- The segments before a comma that stands at depth zero, and those behind it. -/
theorem Segment.splitFrom_append_comma {xs : List Char} (hd : depth xs = 0) (ys : List Char)
    (k : Nat) :
    splitFrom k (xs ++ ',' :: ys) = splitFrom k xs ++ splitFrom (k + byteLength xs + 1) ys := by
  induction xs using pieces_induction generalizing k with
  | solid xs hs => rw [hs.splitFrom_append_comma hd, hs.splitFrom_eq]
  | cut p xs hp hdp ih =>
    have hcomma : weight ',' = 0 := rfl
    have hsize : (',').utf8Size = 1 := rfl
    have hxs : depth xs = 0 := by
      rw [depth_append, depth_cons, hdp, hcomma] at hd
      omega
    have hoffset : k + byteLength p + 1 + byteLength xs + 1 =
        k + byteLength (p ++ ',' :: xs) + 1 := by
      simp only [byteLength_append, byteLength_cons, hsize]
      omega
    rw [List.append_assoc, List.cons_append, hp.splitFrom_append_comma hdp,
      hp.splitFrom_append_comma hdp, ih hxs, List.append_assoc, hoffset]

/-- The elements `as` written as a list, where `W` says how each of them may be written. -/
inductive Listed {α : Type} (W : α → List Char → Prop) : List α → List Char → Prop
  | blank {b : List Char} (hb : AllBlank b) : Listed W [] b
  | last {a : α} {b x b' : List Char} (hb : AllBlank b) (hx : W a x) (hb' : AllBlank b') :
      Listed W [a] (b ++ x ++ b')
  | skip {as : List α} {b ys : List Char} (hb : AllBlank b) (h : Listed W as ys) :
      Listed W as (b ++ ',' :: ys)
  | cons {a : α} {as : List α} {b x b' ys : List Char} (hb : AllBlank b) (hx : W a x)
      (hb' : AllBlank b') (h : Listed W as ys) : Listed W (a :: as) (b ++ x ++ b' ++ ',' :: ys)

namespace Listed
variable {α : Type} {W : α → List Char → Prop} {as : List α} {cs : List Char}

theorem append_allBlank (h : Listed W as cs) {t : List Char} (ht : AllBlank t) :
    Listed W as (cs ++ t) := by
  induction h with
  | blank hb => exact .blank (hb.append ht)
  | last hb hx hb' =>
    rw [List.append_assoc]
    exact .last hb hx (hb'.append ht)
  | skip hb _ ih =>
    rw [List.append_assoc, List.cons_append]
    exact .skip hb ih
  | cons hb hx hb' _ ih =>
    rw [List.append_assoc, List.cons_append]
    exact .cons hb hx hb' ih

/-- A list is level if its elements are. -/
theorem level (h : Listed W as cs) (hW : ∀ a ∈ as, ∀ x, W a x → Level x) : Level cs := by
  have hblank : ∀ {b : List Char}, AllBlank b → Level b :=
    fun hb => level_of_neutral (neutral_of_allBlank hb)
  induction h with
  | blank hb => exact hblank hb
  | last hb hx hb' => exact ((hblank hb).append (hW _ (by simp) _ hx)).append (hblank hb')
  | skip hb _ ih => exact (hblank hb).append_comma (ih hW)
  | cons hb hx hb' _ ih =>
    have hhead := ((hblank hb).append (hW _ (by simp) _ hx)).append (hblank hb')
    exact hhead.append_comma (ih fun a ha => hW a (by simp [ha]))

/-- The segments of a list are those of its elements, one element after the other. -/
theorem exists_segments {S : α → List Segment → Prop} (h : Listed W as cs)
    (hlevel : ∀ a ∈ as, ∀ x, W a x → Level x)
    (hS : ∀ a ∈ as, ∀ k b x b', AllBlank b → W a x → AllBlank b' →
      S a (splitFrom k (b ++ x ++ b'))) (k : Nat) :
    ∃ parts, List.Forall₂ S as parts ∧ splitFrom k cs = parts.flatten := by
  have hblank : ∀ {b : List Char}, AllBlank b → ∀ k, depth b = 0 ∧ splitFrom k b = [] := by
    intro b hb k
    have hneutral := neutral_of_allBlank hb
    rw [(solid_of_neutral hneutral).splitFrom_eq, locate_of_allBlank hb]
    exact ⟨depth_of_neutral hneutral, rfl⟩
  induction h generalizing k with
  | blank hb => exact ⟨[], .nil, (hblank hb k).2⟩
  | last hb hx hb' => exact ⟨[_], .cons (hS _ (by simp) k _ _ _ hb hx hb') .nil, by simp⟩
  | skip hb _ ih =>
    obtain ⟨parts, hall, hparts⟩ := ih hlevel hS _
    refine ⟨parts, hall, ?_⟩
    rw [splitFrom_append_comma (hblank hb k).1, (hblank hb k).2, List.nil_append, hparts]
  | @cons a as b x b' ys hb hx hb' _ ih =>
    obtain ⟨parts, hall, hparts⟩ := ih (fun a ha => hlevel a (by simp [ha]))
      (fun a ha => hS a (by simp [ha])) (k + byteLength (b ++ x ++ b') + 1)
    have hd : depth (b ++ x ++ b') = 0 := by
      rw [depth_surrounded hb hb', (hlevel a (by simp) x hx).depth_eq]
    refine ⟨_ :: parts, .cons (hS a (by simp) k b x b' hb hx hb') hall, ?_⟩
    rw [splitFrom_append_comma hd, hparts, List.flatten_cons]

end Listed
end ProblemScript
