import ProblemScript.Proofs.Grammar.Source

/-! What the segments of a body state. A segment states a property if its key is usable and new;
the property's items are the remainder of that segment and the keyless segments up to the next
key. Reading by offsets gives one child for each property that is stated, with just those items. -/
namespace ProblemScript
open Text ProblemScript.Bracket Segment

/-- A property as segments state it, with its items as they are written. -/
structure StatedProperty where
  key : List Char
  offset : Nat
  items : List (List Char)
deriving DecidableEq, Repr

namespace Segment

def keyText? (s : Segment) : Option (List Char) := (Value.splitKey? s.chars).map (·.1)

/-- The items of a property with `value` behind its colon and the segments `rest` behind it. -/
def itemsFrom (value : List Char) (rest : List Segment) : List (List Char) :=
  (if trim value = [] then [] else [trim value]) ++
    (rest.takeWhile fun t => t.keyText?.isNone).map (·.chars)

/-- The property that a segment states between others. Its key has to be usable, and no segment
before it has the same key. -/
def statedBetween? (before : List Segment) (s : Segment) (rest : List Segment) :
    Option StatedProperty :=
  match Value.splitKey? s.chars with
  | none => none
  | some (key, value) =>
    if Field.isUsableKey key = true ∧ some key ∉ before.map keyText? then
      some ⟨key, s.offset, itemsFrom value rest⟩
    else none

/-- The properties that segments state, in order. -/
def stated (segs : List Segment) : List StatedProperty :=
  (List.range segs.length).filterMap fun i =>
    segs[i]?.bind fun s => statedBetween? (segs.take i) s (segs.drop (i + 1))

/-- One more segment in front takes its key from those behind it. -/
theorem statedBetween?_cons (t : Segment) (before : List Segment) (s : Segment)
    (rest : List Segment) :
    statedBetween? (t :: before) s rest =
      (statedBetween? before s rest).filter fun p => decide (some p.key ≠ t.keyText?) := by
  unfold statedBetween?
  cases Value.splitKey? s.chars with
  | none => rfl
  | some kv =>
    have htaken : some kv.1 ∉ (t :: before).map keyText? ↔
        some kv.1 ≠ t.keyText? ∧ some kv.1 ∉ before.map keyText? := by
      rw [List.map_cons, List.mem_cons, not_or]
    simp only [htaken]
    by_cases hnew : Field.isUsableKey kv.1 = true ∧ some kv.1 ∉ before.map keyText?
    · simp only [hnew, not_false_eq_true, and_true, true_and, if_true, Option.filter_some,
        decide_eq_true_eq]
    · have hnew' : ¬(Field.isUsableKey kv.1 = true ∧ some kv.1 ≠ t.keyText? ∧
          some kv.1 ∉ before.map keyText?) := fun h => hnew ⟨h.1, h.2.2⟩
      simp only [hnew, hnew', if_false, Option.filter_none]

theorem stated_cons (s : Segment) (segs : List Segment) :
    stated (s :: segs) = (statedBetween? [] s segs).toList ++
      (stated segs).filter fun p => decide (some p.key ≠ s.keyText?) := by
  have hlater : ∀ i, ((s :: segs)[i + 1]?.bind fun t =>
      statedBetween? ((s :: segs).take (i + 1)) t ((s :: segs).drop (i + 1 + 1))) =
      (segs[i]?.bind fun t => statedBetween? (segs.take i) t (segs.drop (i + 1))).filter
        fun p => decide (some p.key ≠ s.keyText?) := by
    intro i
    cases h : segs[i]? <;> simp [h, statedBetween?_cons]
  unfold stated
  rw [List.length_cons, List.range_succ_eq_map, List.filterMap_cons, List.filterMap_map,
    List.filter_filterMap]
  simp only [Function.comp_def, Nat.succ_eq_add_one, hlater]
  cases h : statedBetween? [] s segs <;> simp [h]

theorem isUsableKey_of_mem_stated {segs : List Segment} {p : StatedProperty}
    (h : p ∈ stated segs) : Field.isUsableKey p.key = true := by
  obtain ⟨i, -, hi⟩ := List.mem_filterMap.1 h
  obtain ⟨s, -, hs⟩ := Option.bind_eq_some_iff.1 hi
  unfold statedBetween? at hs
  split at hs
  · simp at hs
  · split at hs
    · rename_i hkey
      obtain rfl := Option.some.inj hs
      exact hkey.1
    · simp at hs

end Segment

/-- The remainder of a solid segment behind a usable key is solid. -/
theorem Value.solid_of_splitKey? {seg key value : List Char} (h : Solid seg)
    (hkey : splitKey? seg = some (key, value)) (husable : Field.isUsableKey key = true) :
    Solid value := by
  obtain ⟨head, rfl, -, rfl⟩ := splitKey?_eq_some_iff.1 hkey
  have hsplit : head ++ ':' :: value = head ++ [':'] ++ value := by simp
  rw [hsplit] at h
  exact h.of_append_right (depth_of_neutral (Field.neutral_of_isUsableKey husable))

namespace StatedProperty

/-- What is read of a stated property: its white space is collapsed. -/
def reading (p : StatedProperty) : PropertyReading :=
  ⟨p.key, p.offset, p.items.map fun x => .ofList (collapse x)⟩

theorem map_itemsFrom {value : List Char} (h : Solid value) (rest : List Segment) :
    (itemsFrom value rest).map (fun x => String.ofList (collapse x)) =
      Value.items value ++ PropertyReading.itemsOf (Field.continuation rest) := by
  have hkeyless : (fun t : Segment => t.keyText?.isNone) =
      fun t => (Value.splitKey? t.chars).isNone := by
    funext t
    simp [keyText?]
  unfold itemsFrom Field.continuation PropertyReading.itemsOf
  rw [Value.items_of_solid h, hkeyless]
  by_cases hblank : trim value = [] <;> simp [hblank]

/-- Grouping finds the properties that are stated, but for those whose keys are taken. -/
theorem group_eq (segs : List Segment) (hsolid : ∀ s ∈ segs, Solid s.chars)
    (seen : List (List Char)) :
    PropertyReading.group seen segs =
      ((stated segs).filter fun p => decide (p.key ∉ seen)).map reading := by
  induction segs generalizing seen with
  | nil => rfl
  | cons s segs ih =>
    have ih := ih fun t ht => hsolid t (by simp [ht])
    rw [stated_cons, List.filter_append, List.map_append, List.filter_filter]
    unfold PropertyReading.group statedBetween? keyText?
    cases hkey : Value.splitKey? s.chars with
    | none => simp [ih]
    | some kv =>
      obtain ⟨key, value⟩ := kv
      -- The keys that are taken behind this segment, `seen'`, are `seen` and its own key.
      have hrest : ∀ seen', (∀ p ∈ stated segs, p.key ∉ seen' ↔ p.key ∉ seen ∧ p.key ≠ key) →
          PropertyReading.group seen' segs = ((stated segs).filter fun p =>
            decide (p.key ∉ seen) && decide (some p.key ≠ some key)).map reading := by
        intro seen' hseen'
        rw [ih, List.filter_congr]
        intro p hp
        simp [hseen' p hp]
      by_cases husable : Field.isUsableKey key = true
      · by_cases hseen : key ∈ seen
        · have hsame := hrest seen fun p _ => by grind
          simp only [hsame]
          simp [husable, hseen]
        · have hvalue := Value.solid_of_splitKey? (hsolid s (by simp)) hkey husable
          have hmore := hrest (key :: seen) fun p _ => by grind
          simp only [hmore]
          simp [husable, hseen, reading, map_itemsFrom hvalue]
      · have hsame := hrest seen fun p hp => by grind [isUsableKey_of_mem_stated hp]
        simp only [hsame]
        simp [husable]

/-- The node of a stated property at the given place of a text. -/
def node (text : List Char) (owner : String) (bounds : Span) (place : Nat) (p : StatedProperty) :
    Node :=
  let items := p.items.map fun x => String.ofList (collapse x)
  let path := Path.propertyIn owner (.ofList p.key)
  let span := lineWithin text place bounds
  { kind := .property, path, span, value := some (Value.join items)
    children :=
      if 2 ≤ items.length then
        items.mapIdx fun j item => ⟨.property, Path.itemIn path j, span, some item, []⟩
      else [] }

theorem node_eq_reading (text : List Char) (owner : String) (bounds : Span) (place : Nat)
    (p : StatedProperty) :
    p.node text owner bounds place =
      PropertyReading.node text (Path.propertyIn owner (.ofList p.key)) bounds
        { p.reading with position := place } := by
  unfold node PropertyReading.node reading Node.itemsOf
  by_cases hlist : 2 ≤ (p.items.map fun x => String.ofList (collapse x)).length
  · have hone : ¬(p.items.map fun x => String.ofList (collapse x)).length ≤ 1 := by omega
    simp only [hlist, hone, if_true, if_false]
  · have hone : (p.items.map fun x => String.ofList (collapse x)).length ≤ 1 := by omega
    simp only [hlist, hone, if_true, if_false]

end StatedProperty

/-- The properties of a body are those that its segments state. -/
theorem PropertySource.map_reading_stated (start : Nat) (body : List Char) :
    (ofBody start body).map reading =
      (stated (split body)).map fun p => { p.reading with position := start + p.offset } := by
  have hsolid : ∀ s ∈ split body, Solid s.chars := fun s hs =>
    (isSegmentOf_of_mem (k := 0) hs).solid
  rw [map_reading_ofBody, splitFrom_eq_map, PropertyReading.group_map_moved,
    StatedProperty.group_eq _ hsolid, List.map_map]
  simp [PropertyReading.moved, StatedProperty.reading, Function.comp_def]

namespace Node

/-- Where the key of a stated property lies, for an entity that is said to start at byte `start`
with `opening` up to its bracket. -/
def placeOf (start : Nat) (opening : List Char) (p : StatedProperty) : Nat :=
  (start + byteLength opening + p.offset) % Span.wordBound

/-- The entity that a type and a body are read as. -/
def statedEntity (type opening body : List Char) (start : Nat) (path : String)
    (text : List Char) : Node :=
  let bounds : Span :=
    ⟨start % Span.wordBound, (start + byteLength (opening ++ body ++ [']'])) % Span.wordBound⟩
  { kind := .ofType (.ofList type), path, span := bounds, value := some (.ofList type)
    children := (stated (split body)).map fun p =>
      p.node text path bounds (placeOf start opening p) }

end Node

namespace EntitySource
variable {e : EntitySource} {start : Nat} {opening body : List Char}

/-- The entity that a type, a gap and a body in brackets make up. -/
theorem exists_ofSegment? {type gap : List Char} (htype : isIdentifier type = true)
    (hgap : AllBlank gap) (start : Nat) (body : List Char) :
    ∃ e, ofSegment? start (type ++ gap ++ ['['] ++ body ++ [']']) = some e ∧ e.type = type ∧
      e.span = ⟨start, start + byteLength (type ++ gap ++ ['['] ++ body ++ [']'])⟩ ∧
      e.properties = PropertySource.ofBody (start + byteLength (type ++ gap ++ ['['])) body := by
  have hcat : type ++ gap ++ ['['] ++ body ++ [']'] = type ++ gap ++ '[' :: body ++ [']'] := by simp
  rw [hcat, ofSegment?_of_type htype hgap]
  exact ⟨_, rfl, rfl, rfl, rfl⟩

theorem map_reading_wrapped
    (h : e.properties = PropertySource.ofBody (start + byteLength opening) body) :
    e.wrapped.properties.map PropertySource.reading =
      (stated (split body)).map fun p =>
        { p.reading with position := Node.placeOf start opening p } := by
  have hstated := congrArg (List.map fun r : PropertyReading =>
    { r with position := r.position % Span.wordBound })
    (PropertySource.map_reading_stated (start + byteLength opening) body)
  rw [← h, List.map_map, List.map_map] at hstated
  unfold wrapped
  rw [List.map_map]
  exact hstated

theorem strayKey?_wrapped (text : List Char)
    (h : e.properties = PropertySource.ofBody (start + byteLength opening) body) :
    e.wrapped.strayKey? text = none ↔
      ∀ p ∈ stated (split body), IsBoundary text (Node.placeOf start opening p) := by
  have hreadings := congrArg (List.map PropertyReading.position) (map_reading_wrapped h)
  rw [List.map_map, List.map_map] at hreadings
  have hplaces : e.wrapped.properties.map (·.position) =
      (stated (split body)).map (Node.placeOf start opening) := hreadings
  unfold strayKey?
  rw [hplaces]
  simp

/-- The keys of an entity that stands in a text lie at character boundaries. -/
theorem LiesIn.isBoundary_placeOf {text : List Char} (hlies : e.LiesIn text)
    (hshort : byteLength text < Span.wordBound)
    (h : e.properties = PropertySource.ofBody (start + byteLength opening) body)
    {p : StatedProperty} (hp : p ∈ stated (split body)) :
    IsBoundary text (Node.placeOf start opening p) := by
  have hreadings := congrArg (List.map PropertyReading.position)
    (PropertySource.map_reading_stated (start + byteLength opening) body)
  rw [← h, List.map_map, List.map_map] at hreadings
  have hplaces : e.properties.map (·.position) =
      (stated (split body)).map (start + byteLength opening + ·.offset) := hreadings
  have hmem : start + byteLength opening + p.offset ∈ e.properties.map (·.position) := by
    rw [hplaces]
    exact List.mem_map_of_mem hp
  obtain ⟨q, hq, hposition⟩ := List.mem_map.1 hmem
  have hboundary := (hlies.properties.1 q hq).isBoundary
  obtain ⟨before, after, htext, hlength⟩ := isBoundary_iff.1 hboundary
  have hle : q.position ≤ byteLength text := by
    rw [htext, byteLength_append]
    omega
  unfold Node.placeOf
  rwa [← hposition, Nat.mod_eq_of_lt (by omega)]

end EntitySource

namespace Node

/-- An entity is read with the properties that the segments of its body state, if their keys lie at
character boundaries of the text. They do where the entity stands in the text. -/
theorem ofEntity_eq_stated {type gap : List Char} (htype : isIdentifier type = true)
    (hgap : AllBlank gap) (body : List Char) (index start : Nat) (parent text : String) :
    let opening := type ++ gap ++ ['[']
    let raw := opening ++ body ++ [']']
    (∀ n, ofEntity (.ofList raw) index start parent text = .ok (some n) ↔
        (∀ p ∈ stated (split body), IsBoundary text.toList (placeOf start opening p)) ∧
          n = statedEntity type opening body start (Path.slotIn parent index) text.toList) ∧
      (At text.toList start raw → byteLength text.toList < Span.wordBound →
        ∀ p ∈ stated (split body), IsBoundary text.toList (placeOf start opening p)) := by
  intro opening raw
  obtain ⟨e, hread, htype', hspan, hprops⟩ := EntitySource.exists_ofSegment? htype hgap start body
  have hstray := EntitySource.strayKey?_wrapped text.toList hprops
  constructor
  · intro n
    have hnode : e.wrapped.node text.toList (Path.slotIn parent index) =
        statedEntity type opening body start (Path.slotIn parent index) text.toList := by
      rw [EntitySource.node_eq, EntitySource.map_reading_wrapped hprops]
      unfold statedEntity EntitySource.wrapped
      simp only [htype', hspan, List.map_map, Function.comp_def, StatedProperty.node_eq_reading]
      rfl
    unfold ofEntity
    rw [String.toList_ofList, hread, ← hstray, ← hnode]
    cases hs : EntitySource.strayKey? text.toList e.wrapped with
    | none => simp [hs, eq_comm]
    | some pos => simp [hs]
  · intro hat hshort p hp
    have hlies := EntitySource.ofSegment?_liesIn hread hat
    exact hlies.isBoundary_placeOf hshort hprops hp

/-- What follows a repeated key or an unusable one goes with no property. -/
theorem ofEntity_eq_stated_repeated :
    let opening := ['e'] ++ [' '] ++ ['[']
    let body := " x, a: 1 ,, (2\n,3) ,9: q, y, a: 4, z, b:, 5], 6".toList
    let raw := opening ++ body ++ [']']
    isIdentifier ['e'] = true ∧ AllBlank [' '] ∧
      (stated (split body)).map (fun p => (String.ofList p.key, p.items.map String.ofList)) =
        [("a", ["1", "(2\n,3)"]), ("b", ["5], 6"])] ∧
      ofEntity (.ofList raw) 0 0 "operation" (.ofList raw) =
        .ok (some (statedEntity ['e'] opening body 0 (Path.slotIn "operation" 0) raw)) := by
  intro opening body raw
  have htype : isIdentifier ['e'] = true := by decide +kernel
  have hgap : AllBlank [' '] := by simp [AllBlank, isBlank]
  have hread := ofEntity_eq_stated htype hgap body 0 0 "operation" (.ofList raw)
  rw [String.toList_ofList] at hread
  have hplaces := hread.2 (At.whole raw) (by decide +kernel)
  exact ⟨htype, hgap, by decide +kernel, (hread.1 _).2 ⟨hplaces, rfl⟩⟩

end Node
end ProblemScript
