import ProblemScript.Proofs.Grammar.Surroundings

/-! Reading by byte offsets. Lines, segments, fields and entities are read here from slices: every
stretch is cut out between two offsets, and a cut fails if one of them is out of place. No cut
fails for a segment that stands in its text, and the entity is the one that its characters give. -/
namespace ProblemScript
open Text ProblemScript.Bracket Segment

namespace Slicing
variable {ε α β : Type}

theorem ok_bind (a : α) (f : α → Except ε β) : (Except.ok a >>= f) = f a := rfl

theorem mapM_eq_ok {f : α → Except ε β} {g : α → β} {l : List α}
    (h : ∀ a ∈ l, f a = .ok (g a)) : l.mapM f = .ok (l.map g) := by
  induction l with
  | nil => rfl
  | cons a l ih =>
    rw [List.mapM_cons, h a (by simp), ok_bind, ih fun b hb => h b (by simp [hb]), ok_bind]
    rfl

end Slicing

namespace Text

/-- The stretch of a text between two positions, which have to be boundaries in this order. -/
def slice? (text : List Char) (s : Span) : Except OutsideText (List Char) :=
  if ¬IsBoundary text s.start then .error ⟨s.start⟩
  else if s.stop < s.start ∨ ¬IsBoundary text s.stop then .error ⟨s.stop⟩
  else .ok (slice text s)

theorem slice?_eq_ok_iff {text cs : List Char} {s : Span} :
    slice? text s = .ok cs ↔
      IsBoundary text s.start ∧ IsBoundary text s.stop ∧ s.start ≤ s.stop ∧ slice text s = cs := by
  unfold slice?
  by_cases hstart : IsBoundary text s.start
  · by_cases hstop : s.stop < s.start ∨ ¬IsBoundary text s.stop
    · simp only [hstart, hstop, not_true_eq_false, if_true, if_false]
      grind
    · simp only [hstart, hstop, not_true_eq_false, if_false, true_and, Except.ok.injEq]
      grind
  · simp [hstart]

theorem At.slice?_eq {text cs : List Char} {k : Nat} (h : At text k cs) :
    slice? text ⟨k, k + byteLength cs⟩ = .ok cs :=
  slice?_eq_ok_iff.2 ⟨h.isBoundary, h.isBoundary_stop, Nat.le_add_right _ _, h.slice_eq⟩

theorem slice?_left (xs ys : List Char) : slice? (xs ++ ys) ⟨0, byteLength xs⟩ = .ok xs := by
  have hat := (At.whole (xs ++ ys)).left
  simpa using hat.slice?_eq

theorem slice?_right (xs ys : List Char) :
    slice? (xs ++ ys) ⟨byteLength xs, byteLength (xs ++ ys)⟩ = .ok ys := by
  have hat : At (xs ++ ys) (byteLength xs) ys := ⟨xs, [], by simp, rfl⟩
  rw [byteLength_append]
  exact hat.slice?_eq

theorem slice?_leadingName (cs : List Char) :
    slice? cs ⟨0, byteLength (leadingName cs)⟩ = .ok (leadingName cs) := by
  have h := slice?_left (leadingName cs) (cs.drop (leadingName cs).length)
  rwa [← leadingName_prefix] at h

theorem slice?_drop_leadingName (cs : List Char) :
    slice? cs ⟨byteLength (leadingName cs), byteLength cs⟩ =
      .ok (cs.drop (leadingName cs).length) := by
  have h := slice?_right (leadingName cs) (cs.drop (leadingName cs).length)
  rwa [← leadingName_prefix] at h

end Text

namespace Slicing

/-- The line around `pos`, cut down to `bounds`, from the text before `pos` and behind it. -/
def lineWithin (text : List Char) (pos : Nat) (bounds : Span) : Except OutsideText Span := do
  let before ← slice? text ⟨0, pos⟩
  let after ← slice? text ⟨pos, byteLength text⟩
  let (head, tail) := lineParts before after
  let start := pos - byteLength head
  .ok ((Span.mk start (start + byteLength (dropReturn (head ++ tail)))).clampTo bounds)

theorem lineWithin_eq (text : List Char) (pos : Nat) (bounds : Span) :
    lineWithin text pos bounds = lineWithin? text pos bounds := by
  unfold lineWithin lineWithin?
  by_cases h : IsBoundary text pos
  · obtain ⟨before, after, rfl, rfl⟩ := isBoundary_iff.1 h
    rw [slice?_left, ok_bind, slice?_right, ok_bind, if_pos h, Text.lineWithin, lineAt_append]
  · have hzero : IsBoundary text 0 := isBoundary_iff.2 ⟨[], text, rfl, rfl⟩
    have hbefore : slice? text ⟨0, pos⟩ = .error ⟨pos⟩ := by
      simp [slice?, hzero, h]
    rw [hbefore, if_neg h]
    rfl

/-- The ranges between separating commas. The scan stands at byte `pos` with depth `d`; what it
passes belongs to the range from `start`. -/
def ranges (start pos : Nat) (d : Int) : List Char → List Span
  | [] => [⟨start, pos⟩]
  | c :: cs =>
    if c == ',' && d == 0 then ⟨start, pos⟩ :: ranges (pos + 1) (pos + 1) 0 cs
    else ranges start (pos + c.utf8Size) (d + weight c) cs

/-- Adds what a range holds, without the white space around it. -/
def pushTrimmed (content : List Char) (out : List Segment) (s : Span) :
    Except OutsideText (List Segment) := do
  let raw ← slice? content s
  if trim raw = [] then .ok out
  else .ok (out ++ [⟨s.start + (byteLength raw - byteLength (trimStart raw)), trim raw⟩])

/-- The segments of a text. -/
def split (content : List Char) : Except OutsideText (List Segment) :=
  (ranges 0 0 0 content).foldlM (pushTrimmed content) []

theorem pushTrimmed_eq {content p : List Char} {k : Nat} (h : At content k p)
    (out : List Segment) :
    pushTrimmed content out ⟨k, k + byteLength p⟩ = .ok (out ++ locate k [p]) := by
  have hlead : byteLength p - byteLength (trimStart p) = byteLength (p.takeWhile isBlank) := by
    have hlength := congrArg byteLength (List.takeWhile_append_dropWhile (p := isBlank) (l := p))
    rw [byteLength_append] at hlength
    unfold trimStart
    omega
  unfold pushTrimmed
  rw [h.slice?_eq, ok_bind, hlead]
  by_cases hblank : trim p = []
  · simp [hblank, locate]
  · simp [hblank, locate]

/-- Every range holds a stretch between commas, `passed` at first. -/
theorem foldlM_pushTrimmed (before passed cs : List Char) (d : Int) {content : List Char}
    (h : content = before ++ passed ++ cs) (out : List Segment) :
    (ranges (byteLength before) (byteLength before + byteLength passed) d cs).foldlM
        (pushTrimmed content) out =
      .ok (out ++ locate (byteLength before) ((pieces d cs).modifyHead (passed ++ ·))) := by
  induction cs generalizing before passed d out with
  | nil =>
    have hat : At content (byteLength before) passed := ⟨before, [], h, rfl⟩
    unfold ranges pieces
    rw [List.foldlM_cons, pushTrimmed_eq hat, ok_bind]
    simp
    rfl
  | cons c cs ih =>
    unfold ranges pieces
    by_cases hcut : (c == ',' && d == 0) = true
    · rw [if_pos hcut, if_pos hcut, List.foldlM_cons]
      have hat : At content (byteLength before) passed := ⟨before, c :: cs, h, rfl⟩
      rw [pushTrimmed_eq hat, ok_bind]
      obtain ⟨rfl, rfl⟩ : c = ',' ∧ d = 0 := by simpa using hcut
      have hnext : byteLength (before ++ passed ++ [',']) =
          byteLength before + byteLength passed + 1 := by
        simp only [byteLength_append]
        rfl
      have hrest := ih (before ++ passed ++ [',']) [] 0 (by simpa using h)
        (out ++ locate (byteLength before) [passed])
      rw [hnext, byteLength_nil, Nat.add_zero] at hrest
      obtain ⟨q, qs, hq⟩ := List.exists_cons_of_ne_nil (pieces_ne_nil 0 cs)
      rw [hrest, hq, List.modifyHead_cons, List.modifyHead_cons, List.nil_append, List.append_nil,
        locate_append _ passed (q :: qs), List.append_assoc]
    · rw [if_neg hcut, if_neg hcut]
      have hrest := ih before (passed ++ [c]) (d + weight c) (by simpa using h) out
      rw [byteLength_append, byteLength_cons, byteLength_nil, Nat.add_zero, ← Nat.add_assoc]
        at hrest
      obtain ⟨q, qs, hq⟩ := List.exists_cons_of_ne_nil (pieces_ne_nil (d + weight c) cs)
      rw [hrest, hq]
      simp

theorem split_eq (content : List Char) : split content = .ok (Segment.split content) := by
  have hwhole : content = [] ++ [] ++ content := rfl
  have h := foldlM_pushTrimmed [] [] content 0 hwhole []
  obtain ⟨q, qs, hq⟩ := List.exists_cons_of_ne_nil (pieces_ne_nil 0 content)
  rw [hq] at h
  rw [split, Segment.split, hq]
  simpa using h

/-- The key of a segment and the offset of the colon behind it. -/
def splitKey (segment : List Char) : Except OutsideText (Option (List Char × Nat)) :=
  if ':' ∈ segment then do
    let colon := byteLength (segment.takeWhile (· != ':'))
    let head ← slice? segment ⟨0, colon⟩
    .ok (if head.any isOpening then none else some (trim head, colon))
  else .ok none

theorem splitKey_eq (segment : List Char) :
    splitKey segment = .ok ((Value.splitKey? segment).map fun kv =>
      (kv.1, byteLength segment - byteLength kv.2 - 1)) := by
  have hsplit := List.takeWhile_append_dropWhile (p := (· != ':')) (l := segment)
  unfold splitKey Value.splitKey?
  simp only [drop_length_takeWhile]
  cases hrest : segment.dropWhile (· != ':') with
  | nil =>
    have hnone : ':' ∉ segment := by
      intro hmem
      have := List.dropWhile_eq_nil_iff.1 hrest _ hmem
      simp at this
    simp [hnone]
  | cons c value =>
    obtain rfl : c = ':' := by
      have hhead := List.head?_dropWhile_not (· != ':') segment
      rw [hrest] at hhead
      simpa using hhead
    rw [hrest] at hsplit
    have hmem : ':' ∈ segment := by
      rw [← hsplit]
      simp
    have hslice := slice?_left (segment.takeWhile (· != ':')) (':' :: value)
    rw [hsplit] at hslice
    have hlength := congrArg byteLength hsplit
    rw [byteLength_append, byteLength_cons, show (':').utf8Size = 1 from rfl] at hlength
    have hcolon : byteLength segment - byteLength value - 1 =
        byteLength (segment.takeWhile (· != ':')) := by omega
    simp only [hmem, if_true, hslice, ok_bind]
    split
    · simp
    · simp [hcolon]

/-- The fields found so far. The last of them may go on. -/
structure Grouping where
  settled : List Field
  current : Option Field

namespace Grouping

def fields (g : Grouping) : List Field := g.settled ++ g.current.toList

/-- Takes in one more segment of a body. -/
def step (g : Grouping) (s : Segment) : Except OutsideText Grouping := do
  match ← splitKey s.chars with
  | some (key, colon) =>
    if g.fields.any (·.key == key) then .ok ⟨g.fields, none⟩
    else if Field.isUsableKey key then
      .ok ⟨g.fields, some ⟨key, s.offset, s.offset + colon + 1, s.stop⟩⟩
    else .ok ⟨g.fields, none⟩
  | none => .ok ⟨g.settled, g.current.map fun f => { f with valueStop := s.stop }⟩

/-- What a step comes to. -/
def after (g : Grouping) (s : Segment) : Grouping :=
  match Value.splitKey? s.chars with
  | some (key, value) =>
    if g.fields.any (·.key == key) || !Field.isUsableKey key then ⟨g.fields, none⟩
    else ⟨g.fields, some ⟨key, s.offset, s.stop - byteLength value, s.stop⟩⟩
  | none => ⟨g.settled, g.current.map fun f => { f with valueStop := s.stop }⟩

theorem step_eq (g : Grouping) (s : Segment) : g.step s = .ok (g.after s) := by
  unfold step after
  rw [splitKey_eq]
  cases hkey : Value.splitKey? s.chars with
  | none => rfl
  | some kv =>
    obtain ⟨head, hchars, -, -⟩ := Value.splitKey?_eq_some_iff.1 hkey
    have hlength := congrArg byteLength hchars
    rw [byteLength_append, byteLength_cons, show (':').utf8Size = 1 from rfl] at hlength
    have hvalue : s.offset + (byteLength s.chars - byteLength kv.2 - 1) + 1 =
        s.stop - byteLength kv.2 := by
      unfold stop
      omega
    simp only [Option.map_some, ok_bind, hvalue]
    cases g.fields.any (·.key == kv.1) <;> cases Field.isUsableKey kv.1 <;> rfl

theorem foldlM_step (segs : List Segment) (g : Grouping) :
    segs.foldlM step g = .ok (segs.foldl after g) := by
  induction segs generalizing g with
  | nil => rfl
  | cons s segs ih => rw [List.foldlM_cons, step_eq, ok_bind, ih, List.foldl_cons]

/-- The field with the segments that go on with it. -/
def extended (segs : List Segment) (f : Field) : Field :=
  { f with valueStop := ((Field.continuation segs).getLast?.map stop).getD f.valueStop }

theorem extended_of_keyed {s : Segment} (h : (Value.splitKey? s.chars).isSome = true)
    (segs : List Segment) : extended (s :: segs) = id := by
  have hkeyed : (Value.splitKey? s.chars).isNone = false := by simp [h]
  funext f
  simp [extended, Field.continuation, hkeyed]

theorem extended_of_keyless {s : Segment} (h : Value.splitKey? s.chars = none)
    (segs : List Segment) :
    extended (s :: segs) = fun f => extended segs { f with valueStop := s.stop } := by
  have hcontinuation : Field.continuation (s :: segs) = s :: Field.continuation segs := by
    simp [Field.continuation, h]
  funext f
  unfold extended
  rw [hcontinuation, List.getLast?_cons]
  cases (Field.continuation segs).getLast? <;> rfl

/-- A run over segments puts their fields behind those found before, whose keys are taken. -/
theorem fields_foldl_after (segs : List Segment) (g : Grouping) (seen : List (List Char))
    (hseen : ∀ key, seen.contains key = g.fields.any (·.key == key)) :
    (segs.foldl after g).fields =
      g.settled ++ (g.current.map (extended segs)).toList ++ Field.group seen segs := by
  induction segs generalizing g seen with
  | nil => cases h : g.current <;> simp [fields, h, extended, Field.continuation, Field.group]
  | cons s segs ih =>
    rw [List.foldl_cons, Field.group]
    cases hkey : Value.splitKey? s.chars with
    | none =>
      have hafter : g.after s =
          ⟨g.settled, g.current.map fun f => { f with valueStop := s.stop }⟩ := by
        simp only [after, hkey]
      have hkeys : ∀ key, seen.contains key = (g.after s).fields.any (·.key == key) := by
        intro key
        rw [hseen, hafter]
        cases h : g.current <;> simp [fields, h]
      rw [ih _ seen hkeys, hafter, extended_of_keyless hkey, Option.map_map]
      rfl
    | some kv =>
      have hkeyed : (Value.splitKey? s.chars).isSome = true := by simp [hkey]
      rw [extended_of_keyed hkeyed, Option.map_id, id, ← fields]
      by_cases hskip : (seen.contains kv.1 || !Field.isUsableKey kv.1) = true
      · have hafter : g.after s = ⟨g.fields, none⟩ := by
          simp only [after, hkey, ← hseen, hskip, if_true]
        have hkeys : ∀ key, seen.contains key = (g.after s).fields.any (·.key == key) := by
          intro key
          rw [hseen, hafter]
          simp [fields]
        rw [ih _ seen hkeys, hafter]
        simp only [hskip, if_true, Option.map_none, Option.toList_none, List.append_nil]
      · have hafter : g.after s =
            ⟨g.fields, some ⟨kv.1, s.offset, s.stop - byteLength kv.2, s.stop⟩⟩ := by
          simp only [after, hkey, ← hseen, hskip, Bool.false_eq_true, if_false]
        have hkeys : ∀ key,
            (kv.1 :: seen).contains key = (g.after s).fields.any (·.key == key) := by
          intro key
          have hfields : (g.after s).fields =
              g.fields ++ [⟨kv.1, s.offset, s.stop - byteLength kv.2, s.stop⟩] := by
            rw [hafter]
            rfl
          rw [List.contains_cons, hseen, hfields, List.any_append, Bool.or_comm]
          simp [Bool.beq_comm]
        rw [ih _ (kv.1 :: seen) hkeys, hafter]
        simp only [hskip, Bool.false_eq_true, if_false]
        simp [extended, List.getLastD_eq_getLast?]

end Grouping

/-- The fields of a body. -/
def group (body : List Char) : Except OutsideText (List Field) := do
  let segments ← split body
  let g ← segments.foldlM Grouping.step ⟨[], none⟩
  .ok g.fields

theorem group_eq (body : List Char) : group body = .ok (Field.ofBody body) := by
  have hfields := Grouping.fields_foldl_after (Segment.split body) ⟨[], none⟩ [] fun _ => rfl
  unfold group
  rw [split_eq, ok_bind, Grouping.foldlM_step, ok_bind, hfields]
  rfl

end Slicing

/-- The value of a field can be cut out of its body. -/
theorem Field.slice?_value {body : List Char} {segs : List Segment} {seen : List (List Char)}
    (hat : ∀ s ∈ segs, At body s.offset s.chars)
    (hordered : segs.Pairwise fun s t => s.stop < t.offset) {f : Field}
    (hf : f ∈ group seen segs) :
    slice? body ⟨f.valueStart, f.valueStop⟩ = .ok (f.rawValue body) := by
  induction segs generalizing seen with
  | nil => simp [group] at hf
  | cons s segs ih =>
    have hlater := fun seen => @ih seen (fun t ht => hat t (by simp [ht]))
      (List.pairwise_cons.1 hordered).2
    unfold group at hf
    cases hkey : Value.splitKey? s.chars with
    | none =>
      simp only [hkey] at hf
      exact hlater _ hf
    | some kv =>
      simp only [hkey] at hf
      split at hf
      · exact hlater _ hf
      rcases List.mem_cons.1 hf with rfl | hf
      · obtain ⟨head, hchars, -, -⟩ := Value.splitKey?_eq_some_iff.1 hkey
        have hs := hat s (by simp)
        have hcat : head ++ ':' :: kv.2 = head ++ [':'] ++ kv.2 := by simp
        have hvalue : At body (s.offset + byteLength (head ++ [':'])) kv.2 := by
          rw [hchars, hcat] at hs
          exact hs.right
        have hstart : s.stop - byteLength kv.2 = s.offset + byteLength (head ++ [':']) := by
          rw [stop, hchars, hcat, byteLength_append _ kv.2]
          omega
        -- The value ends with the last segment that goes on with it, here or further on.
        have hlast : IsBoundary body ((continuation segs).getLastD s).stop ∧
            s.stop ≤ ((continuation segs).getLastD s).stop := by
          rw [List.getLastD_eq_getLast?]
          cases hlast : (continuation segs).getLast? with
          | none => exact ⟨hs.isBoundary_stop, Nat.le_refl _⟩
          | some t =>
            have ht : t ∈ segs := (List.takeWhile_sublist _).subset (List.mem_of_getLast? hlast)
            have hlt := (List.pairwise_cons.1 hordered).1 t ht
            refine ⟨(hat t (by simp [ht])).isBoundary_stop, ?_⟩
            simp only [Option.getD_some, stop] at hlt ⊢
            omega
        refine slice?_eq_ok_iff.2 ⟨?_, hlast.1, ?_, rfl⟩
        · rw [hstart]
          exact hvalue.isBoundary
        · simp only
          omega
      · exact hlater _ hf

theorem Field.slice?_of_mem_ofBody {body : List Char} {f : Field} (hf : f ∈ ofBody body) :
    slice? body ⟨f.valueStart, f.valueStop⟩ = .ok (f.rawValue body) := by
  have hat : ∀ s ∈ split body, At body s.offset s.chars := fun s hs =>
    at_of_mem_splitFrom (At.whole body) hs
  exact slice?_value hat (pairwise_stop_lt 0 body) hf

namespace Slicing

/-- The property node of a field, for an entity with the body `inner` at byte `start`. -/
def property (text inner : List Char) (start : Nat) (owner : String) (bounds : Span) (f : Field) :
    Except OutsideText Node := do
  let span ← lineWithin text (start + f.keyOffset) bounds
  let value ← slice? inner ⟨f.valueStart, f.valueStop⟩
  let items := (← split value).map fun s => String.ofList (collapse s.chars)
  let path := Path.propertyIn owner (.ofList f.key)
  .ok ⟨.property, path, span, some (Value.join items), Node.itemsOf path span items⟩

/-- The segment `raw` at byte `start` of `text` as the entity at slot `index` of an operation, if it
has that form. -/
def entity (text raw : List Char) (index start : Nat) (parent : String) :
    Except OutsideText (Option Node) :=
  let size := byteLength (leadingName raw)
  if size = 0 then .ok none
  else do
    let type ← slice? raw ⟨0, size⟩
    let rest := trimStart (← slice? raw ⟨size, byteLength raw⟩)
    if rest.head? = some '[' ∧ raw.getLast? = some ']' then
      let innerStart := byteLength raw - byteLength rest + 1
      let inner ← slice? raw ⟨innerStart, byteLength raw - 1⟩
      let bounds : Span := ⟨start, start + byteLength raw⟩
      let path := Path.slotIn parent index
      let fields ← group inner
      let children ← fields.mapM (property text inner (start + innerStart) path bounds)
      .ok (some ⟨.ofType (.ofList type), path, bounds, some (.ofList type), children⟩)
    else .ok none

theorem property_eq {text inner : List Char} {start : Nat} {f : Field}
    (hf : f ∈ Field.ofBody inner) (hkey : IsBoundary text (start + f.keyOffset)) (owner : String)
    (bounds : Span) :
    property text inner start owner bounds f =
      .ok (PropertySource.node text (Path.propertyIn owner (.ofList f.key)) bounds
        ⟨f.key, start + f.keyOffset, f.rawValue inner⟩) := by
  unfold property
  rw [lineWithin_eq, lineWithin?, if_pos hkey, ok_bind, Field.slice?_of_mem_ofBody hf, ok_bind,
    split_eq]
  rfl

/-- Where the body of an entity is cut out of its segment. -/
theorem exists_inner {start : Nat} {raw : List Char} {e : EntitySource}
    (h : EntitySource.ofSegment? start raw = some e) :
    let rest := trimStart (raw.drop (leadingName raw).length)
    let innerStart := byteLength raw - byteLength rest + 1
    byteLength (leadingName raw) ≠ 0 ∧ leadingName raw = e.type ∧
      (rest.head? = some '[' ∧ raw.getLast? = some ']') ∧
      ∃ inner, slice? raw ⟨innerStart, byteLength raw - 1⟩ = .ok inner ∧
        e.properties = PropertySource.ofBody (start + innerStart) inner := by
  obtain ⟨htype, -, b, inner, hb, rfl, hprops⟩ := EntitySource.ofSegment?_eq_some h
  have hcat : e.type ++ b ++ '[' :: inner ++ [']'] = e.type ++ b ++ '[' :: (inner ++ [']']) := by
    simp
  obtain ⟨hname, hrest⟩ := leadingName_bracket htype hb (show isOpening '[' = true from rfl)
    (inner ++ [']'])
  have hstands : At (e.type ++ b ++ '[' :: inner ++ [']']) (byteLength (e.type ++ b ++ ['[']))
      inner := ⟨e.type ++ b ++ ['['], [']'], by simp, rfl⟩
  have hstart : byteLength (e.type ++ b ++ '[' :: inner ++ [']']) -
      byteLength ('[' :: (inner ++ [']'])) + 1 = byteLength (e.type ++ b ++ ['[']) := by
    simp only [byteLength_append, byteLength_cons, byteLength_nil, show ('[').utf8Size = 1 from rfl]
    omega
  have hstop : byteLength (e.type ++ b ++ '[' :: inner ++ [']']) - 1 =
      byteLength (e.type ++ b ++ ['[']) + byteLength inner := by
    simp only [byteLength_append, byteLength_cons, byteLength_nil, show (']').utf8Size = 1 from rfl]
    omega
  rw [← hcat] at hname hrest
  simp only [hrest, hstart, hstop]
  refine ⟨?_, hname, ⟨rfl, List.getLast?_concat⟩, inner, hstands.slice?_eq, hprops⟩
  obtain ⟨c, cs, hcons, -⟩ := exists_of_isIdentifier htype
  have hne : e.type ≠ [] := by simp [hcons]
  have hpos := byteLength_pos hne
  rw [hname]
  omega

/-- No cut fails for a segment that stands in the text. -/
theorem entity_eq {text raw : List Char} {start : Nat} (hat : At text start raw) (index : Nat)
    (parent : String) :
    entity text raw index start parent =
      .ok ((EntitySource.ofSegment? start raw).map (·.node text (Path.slotIn parent index))) := by
  unfold entity
  simp only [slice?_leadingName, slice?_drop_leadingName, ok_bind]
  cases hread : EntitySource.ofSegment? start raw with
  | none =>
    split
    · rfl
    · rename_i hsize
      have hform : ¬((trimStart (raw.drop (leadingName raw).length)).head? = some '[' ∧
          raw.getLast? = some ']') := by
        rintro ⟨hopen, hclose⟩
        obtain ⟨rest, hrest⟩ := List.head?_eq_some_iff.1 hopen
        cases hname : leadingName raw with
        | nil => simp [hname] at hsize
        | cons c cs =>
          rw [hname, List.length_cons] at hrest
          simp [EntitySource.ofSegment?, hname, hrest, hclose] at hread
      rw [if_neg hform]
      rfl
  | some e =>
    obtain ⟨hsize, hname, hform, inner, hinner, hprops⟩ := exists_inner hread
    generalize byteLength raw - byteLength (trimStart (raw.drop (leadingName raw).length)) + 1 =
      innerStart at hinner hprops ⊢
    obtain ⟨-, hspan, -⟩ := EntitySource.ofSegment?_eq_some hread
    have hlies := EntitySource.ofSegment?_liesIn hread hat
    have hkey : ∀ f ∈ Field.ofBody inner, IsBoundary text (start + innerStart + f.keyOffset) := by
      intro f hf
      have hmem : ⟨f.key, start + innerStart + f.keyOffset, f.rawValue inner⟩ ∈ e.properties := by
        rw [hprops]
        exact List.mem_map_of_mem hf
      exact (hlies.properties.1 _ hmem).isBoundary
    have hchildren := mapM_eq_ok fun f hf =>
      property_eq hf (hkey f hf) (Path.slotIn parent index) e.span
    rw [hspan] at hchildren
    rw [if_neg hsize, if_pos hform, hinner, ok_bind, group_eq, ok_bind, hchildren, ok_bind]
    simp only [EntitySource.node, Option.map_some, hname, hspan, hprops, PropertySource.ofBody,
      List.map_map, Function.comp_def]

end Slicing
end ProblemScript
