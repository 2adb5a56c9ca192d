import Mathlib.Data.List.Forall2
import ProblemScript.Grammar.Entity
import ProblemScript.Proofs.Grammar.Split

/-! Properties as their segments show them. The value of a property is cut out of the body by byte
offsets; its items are the remainder of the property's own segment and the keyless segments that
follow. `map_reading_ofBody` replaces the first by the second, so that nothing behind it has to
count bytes. -/
namespace ProblemScript
open Text ProblemScript.Bracket Segment

theorem Text.cutAt_byteLength (xs ys : List Char) :
    cutAt (byteLength xs) (xs ++ ys) = (xs, ys) := by
  induction xs with
  | nil =>
    cases ys with
    | nil => rfl
    | cons c ys =>
      have hc : ¬c.utf8Size ≤ 0 := by have := c.utf8Size_pos; omega
      simp [cutAt, hc]
  | cons c xs ih => simp [cutAt, ih]

theorem Text.drop_length_takeWhile (p : Char → Bool) (cs : List Char) :
    cs.drop (cs.takeWhile p).length = cs.dropWhile p := by
  induction cs with
  | nil => rfl
  | cons c cs ih => cases hc : p c <;> simp [hc, ih]

theorem Text.isNameChar_of_isNameStart {c : Char} (h : isNameStart c = true) :
    isNameChar c = true := by
  simp only [isNameStart, Bool.or_eq_true] at h
  simp only [isNameChar, Char.isAlphanum, Bool.or_eq_true]
  rcases h with h | h
  · exact .inl (.inl h)
  · exact .inr h

/-- The value of a field is the stretch between its offsets. -/
theorem Field.rawValue_eq {f : Field} {before value : List Char}
    (hstart : f.valueStart = byteLength before)
    (hstop : f.valueStop = byteLength before + byteLength value) (after : List Char) :
    f.rawValue (before ++ (value ++ after)) = value := by
  rw [Field.rawValue, hstart, hstop, cutAt_byteLength, Nat.add_sub_cancel_left, cutAt_byteLength]

namespace Value

theorem items_append_comma {p : List Char} (h : Solid p) (hd : depth p = 0) (ys : List Char) :
    items (p ++ ',' :: ys) = items p ++ items ys := by
  simp only [items, split_eq_splitFrom]
  rw [h.splitFrom_append_comma hd, h.splitFrom_eq, splitFrom_eq_map, List.map_append, List.map_map]
  rfl

theorem items_of_solid {p : List Char} (h : Solid p) :
    items p = if trim p = [] then [] else [.ofList (collapse p)] := by
  rw [items, split_eq_splitFrom, h.splitFrom_eq]
  by_cases hp : trim p = [] <;> simp [locate, hp]

theorem splitKey?_eq_some_iff {seg key value : List Char} :
    splitKey? seg = some (key, value) ↔
      ∃ head, seg = head ++ ':' :: value ∧ (∀ c ∈ head, c ≠ ':' ∧ isOpening c = false) ∧
        key = trim head := by
  constructor
  · intro h
    have hsplit := List.takeWhile_append_dropWhile (p := (· != ':')) (l := seg)
    simp only [splitKey?, drop_length_takeWhile] at h
    cases hrest : seg.dropWhile (· != ':') with
    | nil => simp [hrest] at h
    | cons c rest =>
      have hc : c = ':' := by
        have := List.head?_dropWhile_not (· != ':') seg
        simpa [hrest] using this
      rw [hrest] at h
      rw [hrest, hc] at hsplit
      simp only at h
      split at h
      · simp at h
      · rename_i hopen
        simp only [Option.some.injEq, Prod.mk.injEq] at h
        refine ⟨seg.takeWhile (· != ':'), ?_, ?_, h.1.symm⟩
        · rw [← h.2, hsplit]
        · intro d hd
          refine ⟨by simpa using List.mem_takeWhile_imp hd, ?_⟩
          simpa using fun ho => hopen (List.any_eq_true.2 ⟨d, hd, ho⟩)
  · rintro ⟨head, rfl, hhead, rfl⟩
    have htake : (head ++ ':' :: value).takeWhile (· != ':') = head := by
      rw [List.takeWhile_append_of_pos fun c hc => by simpa using (hhead c hc).1]
      simp
    have hopen : head.any isOpening = false := by
      rw [List.any_eq_false]
      intro c hc
      simp [(hhead c hc).2]
    simp [splitKey?, htake, hopen]

end Value

namespace Field

theorem isNameChar_of_isUsableKey {key : List Char} (h : isUsableKey key = true) :
    ∀ c ∈ key, isNameChar c = true := by
  simp only [isUsableKey, Bool.and_eq_true, beq_iff_eq] at h
  cases key with
  | nil => simp
  | cons d key =>
    have hl := h.1.1
    simp only [leadingName] at hl
    split at hl
    · rename_i hd
      have ht : key.takeWhile isNameChar = key := by simpa using hl
      intro c hc
      rcases List.mem_cons.1 hc with rfl | hc
      · exact isNameChar_of_isNameStart hd
      · rw [← ht] at hc
        exact List.mem_takeWhile_imp hc
    · simp at hl

theorem neutral_key {key : List Char} (h : isUsableKey key = true) : Neutral key :=
  fun c hc => neutral_of_isNameChar (isNameChar_of_isUsableKey h c hc)

/-- A usable key is read off the segment that it opens, with or without white space behind it. -/
theorem splitKey?_of_isUsableKey {key b : List Char} (h : isUsableKey key = true) (hb : AllBlank b)
    (value : List Char) : Value.splitKey? (key ++ b ++ ':' :: value) = some (key, value) := by
  have hname := isNameChar_of_isUsableKey h
  have htrim : trim key = key := trim_of_isNameChar hname
  refine Value.splitKey?_eq_some_iff.2 ⟨key ++ b, rfl, fun c hc => ?_, ?_⟩
  · have hneutral := (neutral_key h).append (neutral_of_allBlank hb) c hc
    constructor
    · rintro rfl
      rcases List.mem_append.1 hc with hc | hc
      · exact absurd (hname _ hc) (by decide)
      · exact absurd (hb _ hc) (by decide)
    · cases ho : isOpening c with
      | false => rfl
      | true =>
        rw [weight_of_isOpening ho] at hneutral
        exact absurd hneutral.1 (by decide)
  · have hkey := trim_append allBlank_nil hb key
    rw [List.nil_append, htrim] at hkey
    exact hkey.symm

/-- What stands before the colon of a usable key is the key and white space. -/
theorem neutral_of_isUsableKey {head : List Char} (h : isUsableKey (trim head) = true) :
    Neutral (head ++ [':']) := by
  obtain ⟨b, hb, he⟩ := exists_trim head
  have hhead : Neutral (head.takeWhile isBlank ++ trim head ++ b) :=
    ((neutral_of_allBlank (allBlank_takeWhile head)).append (neutral_key h)).append
      (neutral_of_allBlank hb)
  rw [← he] at hhead
  exact hhead.append neutral_colon

end Field

/-- A property by its key, the byte offset of its key and its items. -/
structure PropertyReading where
  key : List Char
  position : Nat
  items : List String
deriving DecidableEq, Repr

/-- What the rest of the library takes from a property found in a text. -/
def PropertySource.reading (p : PropertySource) : PropertyReading :=
  ⟨p.key, p.position, Value.items p.value⟩

namespace PropertyReading

/-- The items that keyless segments make, one each. -/
def itemsOf (segments : List Segment) : List String :=
  segments.map fun s => .ofList (collapse s.chars)

/-- The properties that segments make up, where the keys `seen` are taken. -/
def group (seen : List (List Char)) : List Segment → List PropertyReading
  | [] => []
  | s :: rest =>
    match Value.splitKey? s.chars with
    | none => group seen rest
    | some (key, value) =>
      if seen.contains key || !Field.isUsableKey key then group seen rest
      else
        ⟨key, s.offset, Value.items value ++ itemsOf (Field.continuation rest)⟩ ::
          group (key :: seen) rest

/-- Keyless segments up to the next key go on with the property before them. -/
theorem continuation_append {more segs : List Segment}
    (hmore : ∀ s ∈ more, Value.splitKey? s.chars = none)
    (hsegs : ∀ s ∈ segs.head?, Value.splitKey? s.chars ≠ none) :
    Field.continuation (more ++ segs) = more := by
  unfold Field.continuation
  rw [List.takeWhile_append_of_pos fun s hs => by simp [hmore s hs]]
  cases segs with
  | nil => simp
  | cons s segs => simp [hsegs s (by simp)]

/-- Keyless segments open no property. -/
theorem group_append {more : List Segment} (hmore : ∀ s ∈ more, Value.splitKey? s.chars = none)
    (seen : List (List Char)) (segs : List Segment) :
    group seen (more ++ segs) = group seen segs := by
  induction more with
  | nil => rfl
  | cons s more ih =>
    simp only [List.cons_append, group, hmore s (by simp)]
    exact ih fun t ht => hmore t (by simp [ht])

/-- The segments of one property: the first has its key and perhaps an item, and the others have no
key and are its further items. -/
def IsMadeOf (r : PropertyReading) (segs : List Segment) : Prop :=
  ∃ s more value, segs = s :: more ∧ s.offset = r.position ∧
    Value.splitKey? s.chars = some (r.key, value) ∧
    (∀ t ∈ more, Value.splitKey? t.chars = none) ∧ Value.items value ++ itemsOf more = r.items

/-- Properties with keys of their own are put together again from their segments. -/
theorem group_flatten {rs : List PropertyReading} {parts : List (List Segment)}
    (h : List.Forall₂ IsMadeOf rs parts)
    (husable : ∀ key ∈ rs.map (·.key), Field.isUsableKey key = true)
    (hnodup : (rs.map (·.key)).Nodup) {seen : List (List Char)}
    (hseen : ∀ key ∈ rs.map (·.key), key ∉ seen) : group seen parts.flatten = rs := by
  induction h generalizing seen with
  | nil => rfl
  | @cons r segs rs parts hr h ih =>
    obtain ⟨s, more, value, rfl, hoffset, hkey, hmore, hitems⟩ := hr
    rw [List.map_cons] at husable hnodup hseen
    obtain ⟨hne, hnodup⟩ := List.nodup_cons.1 hnodup
    -- The property ends where the next one starts, with a key.
    have hnext : ∀ t ∈ parts.flatten.head?, Value.splitKey? t.chars ≠ none := by
      cases h with
      | nil => simp
      | cons hr' _ =>
        obtain ⟨s', more', value', rfl, -, hkey', -⟩ := hr'
        simp [hkey']
    have hfresh : (seen.contains r.key || !Field.isUsableKey r.key) = false := by
      simp [hseen r.key (by simp), husable r.key (by simp)]
    have hseen' : ∀ key ∈ rs.map (·.key), key ∉ r.key :: seen := by
      intro key hmem hmem'
      rcases List.mem_cons.1 hmem' with rfl | hold
      · exact hne hmem
      · exact hseen key (List.mem_cons_of_mem _ hmem) hold
    have hrest := ih (fun key hmem => husable key (List.mem_cons_of_mem _ hmem)) hnodup hseen'
    rw [List.flatten_cons, List.cons_append]
    simp only [group, hkey, hfresh, Bool.false_eq_true, if_false]
    rw [continuation_append hmore hnext, hitems, hoffset, group_append hmore, hrest]

theorem items_of_trimmed {b x : List Char} (hb : AllBlank b) (hx : trim x = x)
    (hne : x ≠ []) (h : Solid (b ++ x)) : Value.items (b ++ x) = [.ofList (collapse x)] := by
  have htrim := trim_append hb allBlank_nil x
  rw [List.append_nil, hx] at htrim
  rw [Value.items_of_solid h, htrim, if_neg hne, ← collapse_trim, htrim]

theorem items_append_allBlank {value b : List Char} (hb : AllBlank b) (h : Solid (value ++ b)) :
    Value.items (value ++ b) = Value.items value := by
  have htrim := trim_append allBlank_nil hb value
  rw [List.nil_append] at htrim
  rw [Value.items_of_solid h, Value.items_of_solid h.of_append, htrim, ← collapse_trim (value ++ b),
    htrim, collapse_trim]

/-- Where the keyless segments at the start of a text end, and that the text up to there has just
them as its items. -/
theorem continuation_extent (k : Nat) (ys : List Char) :
    Field.continuation (splitFrom k ys) = [] ∨
      ∃ front back, ys = front ++ back ∧
        Value.items front = itemsOf (Field.continuation (splitFrom k ys)) ∧
        ∀ s, ((Field.continuation (splitFrom k ys)).getLastD s).stop = k + byteLength front := by
  have hcomma : (',').utf8Size = 1 := rfl
  refine splitFrom_induction (P := fun k ys segs => Field.continuation segs = [] ∨
    ∃ front back, ys = front ++ back ∧ Value.items front = itemsOf (Field.continuation segs) ∧
      ∀ s, ((Field.continuation segs).getLastD s).stop = k + byteLength front)
    ?blank ?last ?skip ?cons k ys
  case blank => exact fun k b hb => .inl rfl
  case last =>
    intro k b x b' hb hb' hx hne hsolid
    cases hkey : Value.splitKey? x with
    | some kv => exact .inl (by simp [Field.continuation, hkey])
    | none =>
      refine .inr ⟨b ++ x, b', rfl, ?_, fun s => ?_⟩
      · rw [items_of_trimmed hb hx hne hsolid.of_append]
        simp [Field.continuation, hkey, itemsOf]
      · simp [Field.continuation, hkey, Segment.stop, Nat.add_assoc]
  case skip =>
    intro k b ys hb ih
    rcases ih with h | ⟨front, back, rfl, hitems, hstop⟩
    · exact .inl h
    · have hneutral := neutral_of_allBlank hb
      refine .inr ⟨b ++ ',' :: front, back, by simp, ?_, fun s => ?_⟩
      · rw [Value.items_append_comma (solid_of_neutral hneutral) (depth_of_neutral hneutral),
          Value.items_of_solid (solid_of_neutral hneutral), if_pos ((trim_eq_nil_iff b).2 hb),
          List.nil_append, hitems]
      · rw [hstop s]
        simp [hcomma]
        omega
  case cons =>
    intro k b x b' ys hb hb' hx hne hsolid hd ih
    cases hkey : Value.splitKey? x with
    | some kv => exact .inl (by simp [Field.continuation, hkey])
    | none =>
      have hcont : ∀ rest, Field.continuation (⟨k + byteLength b, x⟩ :: rest) =
          ⟨k + byteLength b, x⟩ :: Field.continuation rest := by
        intro rest
        simp [Field.continuation, hkey]
      have hitem := items_of_trimmed hb hx hne hsolid.of_append
      rw [hcont]
      -- The stretch ends behind this segment, or with the keyless ones that follow it.
      rcases ih with h | ⟨front, back, rfl, hitems, hstop⟩
      · refine .inr ⟨b ++ x, b' ++ ',' :: ys, by simp, ?_, fun s => ?_⟩
        · rw [hitem, h]
          simp [itemsOf]
        · rw [h]
          simp [Segment.stop, Nat.add_assoc]
      · refine .inr ⟨b ++ x ++ b' ++ ',' :: front, back, by simp, ?_, fun s => ?_⟩
        · rw [Value.items_append_comma hsolid hd, items_append_allBlank hb' hsolid, hitem, hitems]
          simp [itemsOf]
        · rw [List.getLastD_cons, hstop]
          simp [hcomma]
          omega

/-- The value of a field as written has the remainder of its segment and the keyless segments
behind it as its items. -/
theorem items_rawValue {before value b ys : List Char} (hv : Solid (value ++ b))
    (hd : depth (value ++ b) = 0) (hb : AllBlank b) {f : Field} {s : Segment} {k : Nat}
    (hk : k = byteLength (before ++ (value ++ b)) + 1)
    (hs : s.stop = byteLength before + byteLength value)
    (hstart : f.valueStart = byteLength before)
    (hstop : f.valueStop = ((Field.continuation (splitFrom k ys)).getLastD s).stop) :
    Value.items (f.rawValue (before ++ (value ++ b) ++ ',' :: ys)) =
      Value.items value ++ itemsOf (Field.continuation (splitFrom k ys)) := by
  rcases continuation_extent k ys with h | ⟨front, back, rfl, hitems, hlast⟩
  · have hraw : f.rawValue (before ++ (value ++ b) ++ ',' :: ys) = value := by
      rw [List.append_assoc, List.append_assoc]
      refine Field.rawValue_eq hstart ?_ _
      rw [hstop, h, ← hs]
      rfl
    rw [hraw, h]
    simp [itemsOf]
  · have hraw : f.rawValue (before ++ (value ++ b) ++ ',' :: (front ++ back)) =
        value ++ b ++ ',' :: front := by
      have hsplit : before ++ (value ++ b) ++ ',' :: (front ++ back) =
          before ++ ((value ++ b ++ ',' :: front) ++ back) := by simp
      rw [hsplit]
      refine Field.rawValue_eq hstart ?_ _
      rw [hstop, hlast, hk]
      simp [show (',').utf8Size = 1 from rfl]
      omega
    rw [hraw, Value.items_append_comma hv hd, items_append_allBlank hb hv, hitems]

private theorem solid_remainder {b head value b' : List Char}
    (hkey : Field.isUsableKey (trim head) = true) (hb : AllBlank b)
    (h : Solid (b ++ (head ++ ':' :: value) ++ b')) :
    Solid (value ++ b') ∧ depth (b ++ (head ++ ':' :: value) ++ b') = depth (value ++ b') := by
  have he : b ++ (head ++ ':' :: value) ++ b' = b ++ (head ++ [':']) ++ (value ++ b') := by simp
  have hd : depth (b ++ (head ++ [':'])) = 0 := by
    rw [depth_append, depth_of_neutral (neutral_of_allBlank hb),
      depth_of_neutral (Field.neutral_of_isUsableKey hkey)]
    rfl
  rw [he] at h ⊢
  refine ⟨h.of_append_right hd, ?_⟩
  rw [depth_append, hd, Int.zero_add]

/-- Reading values by offsets and reading them off the segments come to the same. -/
theorem map_group (pre ys : List Char) (seen : List (List Char)) :
    ((Field.group seen (splitFrom (byteLength pre) ys)).map fun f =>
        (⟨f.key, f.keyOffset, Value.items (f.rawValue (pre ++ ys))⟩ : PropertyReading)) =
      group seen (splitFrom (byteLength pre) ys) := by
  have hcolon : (':').utf8Size = 1 := rfl
  have hcomma : (',').utf8Size = 1 := rfl
  -- The offsets of fields count from the start of the whole body, of which `pre` has been read.
  refine splitFrom_induction (P := fun k ys segs => ∀ pre seen, k = byteLength pre →
    ((Field.group seen segs).map fun f =>
      (⟨f.key, f.keyOffset, Value.items (f.rawValue (pre ++ ys))⟩ : PropertyReading)) =
    group seen segs) ?blank ?last ?skip ?cons (byteLength pre) ys pre seen rfl
  case blank => exact fun k b hb pre seen hk => rfl
  case last =>
    intro k b x b' hb hb' hx hne hsolid pre seen hk
    cases hkey : Value.splitKey? x with
    | none => simp [Field.group, group, hkey]
    | some kv =>
      obtain ⟨key, value⟩ := kv
      obtain ⟨head, rfl, -, rfl⟩ := Value.splitKey?_eq_some_iff.1 hkey
      simp only [Field.group, group, hkey]
      split
      · rfl
      · have hcat : pre ++ (b ++ (head ++ ':' :: value) ++ b') =
            pre ++ b ++ head ++ [':'] ++ (value ++ b') := by simp
        rw [List.map_cons, hcat, Field.rawValue_eq]
        · simp [Field.continuation, itemsOf]
        · simp [Segment.stop, hcolon, hk]
          omega
        · simp [Segment.stop, Field.continuation, hcolon, hk]
          omega
  case skip =>
    intro k b ys hb ih pre seen hk
    have hcat : pre ++ (b ++ ',' :: ys) = pre ++ (b ++ [',']) ++ ys := by simp
    rw [hcat]
    exact ih _ _ (by simp [hk, hcomma, Nat.add_assoc])
  case cons =>
    intro k b x b' ys hb hb' hx hne hsolid hd ih pre seen hk
    have hcat : pre ++ (b ++ x ++ b' ++ ',' :: ys) = pre ++ (b ++ x ++ b' ++ [',']) ++ ys := by simp
    have hrest := fun seen => ih (pre ++ (b ++ x ++ b' ++ [','])) seen
      (by simp [hk, hcomma, Nat.add_assoc])
    rw [← hcat] at hrest
    cases hkey : Value.splitKey? x with
    | none =>
      simp only [Field.group, group, hkey]
      exact hrest seen
    | some kv =>
      obtain ⟨key, value⟩ := kv
      obtain ⟨head, rfl, -, rfl⟩ := Value.splitKey?_eq_some_iff.1 hkey
      simp only [Field.group, group, hkey]
      split
      · exact hrest seen
      · rename_i hused
        have husable : Field.isUsableKey (trim head) = true := by
          simp only [Bool.or_eq_true, not_or, Bool.not_eq_true', Bool.not_eq_false] at hused
          exact hused.2
        obtain ⟨hvalue, hdepth⟩ := solid_remainder husable hb hsolid
        have hcat' : pre ++ (b ++ (head ++ ':' :: value) ++ b' ++ ',' :: ys) =
            pre ++ b ++ head ++ [':'] ++ (value ++ b') ++ ',' :: ys := by simp
        rw [List.map_cons, hrest, hcat', items_rawValue hvalue (hdepth ▸ hd) hb' ?_ ?_ ?_ rfl]
        · simp [hk, hcolon, Nat.add_assoc]
        · simp [Segment.stop, hcolon, hk]
          omega
        · simp [Segment.stop, hcolon, hk]
          omega

/-- The property node at the given path, for an entity with range `bounds` in `text`. -/
def node (text : List Char) (path : String) (bounds : Span) (r : PropertyReading) : Node :=
  let span := Text.lineWithin text r.position bounds
  ⟨.property, path, span, some (Value.join r.items), Node.itemsOf path span r.items⟩

/-- The reading at a position `k` bytes further on. -/
def moved (k : Nat) (r : PropertyReading) : PropertyReading := { r with position := k + r.position }

theorem group_map_moved (k : Nat) (segments : List Segment) (seen : List (List Char)) :
    group seen (segments.map (Segment.moved k)) = (group seen segments).map (moved k) := by
  induction segments generalizing seen with
  | nil => rfl
  | cons s rest ih =>
    have hcont : itemsOf (Field.continuation (rest.map (Segment.moved k))) =
        itemsOf (Field.continuation rest) := by
      simp only [Field.continuation, List.takeWhile_map, itemsOf, List.map_map]
      rfl
    simp only [List.map_cons, group, Segment.moved] at ih ⊢
    split
    · exact ih seen
    · split
      · exact ih seen
      · rw [List.map_cons, ih, hcont]
        rfl

end PropertyReading

/-- The properties of a body are what its segments show. -/
theorem PropertySource.map_reading_ofBody (start : Nat) (body : List Char) :
    (PropertySource.ofBody start body).map reading =
      PropertyReading.group [] (splitFrom start body) := by
  have h := PropertyReading.map_group [] body []
  rw [splitFrom_eq_map, PropertyReading.group_map_moved, split_eq_splitFrom]
  rw [byteLength_nil] at h
  rw [← h, PropertySource.ofBody, Field.ofBody, split_eq_splitFrom, List.map_map, List.map_map]
  rfl

/-- The node of an entity by the readings of its properties. -/
theorem EntitySource.node_eq (text : List Char) (path : String) (e : EntitySource) :
    e.node text path =
      ⟨.ofType (.ofList e.type), path, e.span, some (.ofList e.type),
        (e.properties.map PropertySource.reading).map fun r =>
          r.node text (Path.propertyIn path (.ofList r.key)) e.span⟩ := by
  rw [List.map_map]
  rfl

end ProblemScript
