import ProblemScript.Proofs.Tree.Regular

/-! Every script reads as a regular tree, and as a level one if the parenthesis of its root is
closed. The text between parentheses never goes below its own depth, so that an entity can have at
most one closing bracket too many at a time, and a segment before a comma is level. -/
namespace ProblemScript
open Text ProblemScript.Bracket Segment

namespace Value

theorem isSome_splitKey?_iff (cs : List Char) :
    (splitKey? cs).isSome = true ↔ cs.find? (fun c => c == ':' || isOpening c) = some ':' := by
  rw [List.find?_eq_some_iff_append]
  constructor
  · intro h
    obtain ⟨⟨key, value⟩, hkv⟩ := Option.isSome_iff_exists.1 h
    obtain ⟨head, rfl, hhead, -⟩ := splitKey?_eq_some_iff.1 hkv
    exact ⟨by simp, head, value, rfl, fun c hc => by simp [hhead c hc]⟩
  · rintro ⟨-, head, value, rfl, hhead⟩
    have hk : splitKey? (head ++ ':' :: value) = some (trim head, value) := by
      refine splitKey?_eq_some_iff.2 ⟨head, rfl, fun c hc => ?_, rfl⟩
      simpa using hhead c hc
    simp [hk]

/-- White space does not decide whether a segment has a key. -/
theorem splitKey?_collapse_eq_none_iff (cs : List Char) :
    splitKey? (collapse cs) = none ↔ splitKey? cs = none := by
  have key : ∀ xs : List Char, xs.find? (fun c => c == ':' || isOpening c) =
      (xs.filter fun c => !isBlank c).find? (fun c => c == ':' || isOpening c) := by
    intro xs
    rw [List.find?_filter]
    congr 1
    funext c
    cases hb : isBlank c with
    | false => by_cases hc : c = ':' <;> simp [hc]
    | true =>
      have h1 : (c == ':') = false := by
        rw [beq_eq_false_iff_ne]
        rintro rfl
        exact absurd hb (by decide)
      have h2 : isOpening c = false := by
        cases ho : isOpening c with
        | false => rfl
        | true =>
          have := (neutral_of_isBlank hb).1
          rw [weight_of_isOpening ho] at this
          omega
      simp [h1, h2]
  rw [← Option.not_isSome_iff_eq_none, ← Option.not_isSome_iff_eq_none, isSome_splitKey?_iff,
    isSome_splitKey?_iff, key, filter_collapse, ← key]

theorem isItem_collapse {cs : List Char} (hne : trim cs ≠ []) (hw : Within (-1) 1 0 cs)
    (hd : 0 ≤ depth cs) : IsItem (.ofList (collapse cs)) := by
  refine ⟨?_, by simp, ?_, by simpa using hd⟩
  · simpa [collapse_eq_nil_iff] using hne
  · simpa [within_collapse] using hw

end Value

namespace PropertyReading

/-- A segment of the body of an entity. -/
structure InBody (seg : List Char) : Prop where
  nonempty : seg ≠ []
  trimmed : trim seg = seg
  within : Within (-1) 1 0 seg
  depth_nonneg : 0 ≤ depth seg

def IsLevel (r : PropertyReading) : Prop := ∀ x ∈ r.items, depth x.toList = 0

/-- Each property comes from a segment with a usable key that is not taken. -/
theorem exists_of_mem_group {seen : List (List Char)} {segs : List Segment} {r : PropertyReading}
    (h : r ∈ group seen segs) :
    ∃ s rest value, s :: rest <:+ segs ∧ Value.splitKey? s.chars = some (r.key, value) ∧
      r.key ∉ seen ∧ Field.isUsableKey r.key = true ∧
      r.items = Value.items value ++ itemsOf (Field.continuation rest) := by
  induction segs generalizing seen with
  | nil => simp [group] at h
  | cons s segs ih =>
    have later : ∀ {seen'}, r ∈ group seen' segs → (∀ k ∈ seen, k ∈ seen') → ∃ s' rest value,
        s' :: rest <:+ s :: segs ∧ Value.splitKey? s'.chars = some (r.key, value) ∧
        r.key ∉ seen ∧ Field.isUsableKey r.key = true ∧
        r.items = Value.items value ++ itemsOf (Field.continuation rest) := by
      intro seen' hr hsub
      obtain ⟨s', rest, value, h1, h2, h3, h4⟩ := ih hr
      exact ⟨s', rest, value, h1.trans (List.suffix_cons s segs), h2,
        fun hm => h3 (hsub _ hm), h4⟩
    unfold group at h
    split at h
    · exact later h fun _ hk => hk
    · rename_i key value hkey
      split at h
      · exact later h fun _ hk => hk
      · rename_i hc
        simp only [Bool.or_eq_true, List.contains_iff_mem, Bool.not_eq_true', not_or,
          Bool.not_eq_false] at hc
        rcases List.mem_cons.1 h with rfl | h
        · exact ⟨s, segs, value, List.suffix_refl _, hkey, hc.1, hc.2, rfl⟩
        · exact later h fun _ hk => List.mem_cons_of_mem _ hk

/-- The remainder of a segment behind a usable key keeps the bounds of the segment. -/
private theorem remainder_inBody {seg key value : List Char} (h : InBody seg)
    (hk : Value.splitKey? seg = some (key, value)) (hu : Field.isUsableKey key = true) :
    Within (-1) 1 0 value ∧ depth value = depth seg := by
  obtain ⟨head, rfl, -, rfl⟩ := Value.splitKey?_eq_some_iff.1 hk
  have hn := depth_of_neutral (Field.neutral_of_isUsableKey hu)
  have he : head ++ ':' :: value = head ++ [':'] ++ value := by simp
  have hw := h.within
  rw [he] at hw ⊢
  have hv := (within_append.1 hw).2
  rw [hn] at hv
  exact ⟨hv, by rw [depth_append, hn, Int.zero_add]⟩

private theorem mem_items_remainder {value : List Char} (h : Within (-1) 1 0 value) {x : String}
    (hx : x ∈ Value.items value) : trim value ≠ [] ∧ x = .ofList (collapse value) := by
  rw [Value.items_of_solid (solid_of_within h)] at hx
  split at hx
  · simp at hx
  · rename_i hne
    exact ⟨hne, List.mem_singleton.1 hx⟩

theorem mem_continuation {segs : List Segment} {s : Segment} (h : s ∈ Field.continuation segs) :
    s ∈ segs ∧ Value.splitKey? s.chars = none := by
  refine ⟨(List.takeWhile_sublist _).subset h, ?_⟩
  simpa using List.mem_takeWhile_imp h

/-- Depth of an item in terms of the segment that it comes from. -/
theorem depth_of_mem_items {s : Segment} {rest : List Segment} {key value : List Char}
    (hs : ∀ t ∈ s :: rest, InBody t.chars) (hk : Value.splitKey? s.chars = some (key, value))
    (hu : Field.isUsableKey key = true) {x : String}
    (hx : x ∈ Value.items value ++ itemsOf (Field.continuation rest)) :
    Value.IsItem x ∧ ∃ t ∈ s :: Field.continuation rest, depth x.toList = depth t.chars := by
  obtain ⟨hw, hd⟩ := remainder_inBody (hs s (by simp)) hk hu
  rcases List.mem_append.1 hx with hx | hx
  · obtain ⟨hne, rfl⟩ := mem_items_remainder hw hx
    have hd0 := (hs s (by simp)).depth_nonneg
    refine ⟨Value.isItem_collapse hne hw (by omega), s, by simp, ?_⟩
    simp [hd]
  · obtain ⟨t, ht, rfl⟩ := List.mem_map.1 hx
    have hb := hs t (List.mem_cons_of_mem _ (mem_continuation ht).1)
    refine ⟨Value.isItem_collapse ?_ hb.within hb.depth_nonneg, t, by simp [ht], by simp⟩
    rw [hb.trimmed]
    exact hb.nonempty

/-- The items of a property are what `IsItemList` asks for. -/
theorem isItemList {s : Segment} {rest : List Segment} {key value : List Char}
    (hs : ∀ t ∈ s :: rest, InBody t.chars)
    (hlevel : (s :: rest).Pairwise fun t _ => depth t.chars = 0)
    (hk : Value.splitKey? s.chars = some (key, value)) (hu : Field.isUsableKey key = true) :
    Value.IsItemList (Value.items value ++ itemsOf (Field.continuation rest)) := by
  obtain ⟨hw, hd⟩ := remainder_inBody (hs s (by simp)) hk hu
  have hkeyless : ∀ x ∈ itemsOf (Field.continuation rest),
      Value.splitKey? x.toList = none := by
    intro x hx
    obtain ⟨t, ht, rfl⟩ := List.mem_map.1 hx
    rw [String.toList_ofList, Value.splitKey?_collapse_eq_none_iff]
    exact (mem_continuation ht).2
  have hcont : (itemsOf (Field.continuation rest)).Pairwise fun x _ => depth x.toList = 0 := by
    rw [itemsOf, List.pairwise_map]
    refine ((List.pairwise_cons.1 hlevel).2.sublist (List.takeWhile_sublist _)).imp ?_
    intro t _ ht
    simpa using ht
  have hvalue : ∀ x ∈ Value.items value, ∀ y ∈ itemsOf (Field.continuation rest),
      depth x.toList = 0 := by
    intro x hx y hy
    obtain ⟨t, ht, -⟩ := List.mem_map.1 hy
    obtain ⟨-, rfl⟩ := mem_items_remainder hw hx
    rw [String.toList_ofList, depth_collapse, hd]
    exact (List.pairwise_cons.1 hlevel).1 t (mem_continuation ht).1
  refine ⟨fun x hx => (depth_of_mem_items hs hk hu hx).1, ?_, ?_⟩
  · intro x hx
    rw [Value.items_of_solid (solid_of_within hw)] at hx
    split at hx
    · exact hkeyless x (List.mem_of_mem_tail (by simpa using hx))
    · exact hkeyless x (by simpa using hx)
  · refine List.pairwise_append.2 ⟨?_, hcont, hvalue⟩
    rw [Value.items_of_solid (solid_of_within hw)]
    split <;> simp

/-- A property that another one follows is level, and its key differs from the other's. -/
theorem pairwise_group {segs : List Segment} (hs : ∀ s ∈ segs, InBody s.chars)
    (hlevel : segs.Pairwise fun s _ => depth s.chars = 0) (seen : List (List Char)) :
    (group seen segs).Pairwise fun r r' => r.IsLevel ∧ r.key ≠ r'.key := by
  induction segs generalizing seen with
  | nil => simp [group]
  | cons s segs ih =>
    have htail := ih (fun t ht => hs t (by simp [ht])) (List.pairwise_cons.1 hlevel).2
    unfold group
    split
    · exact htail seen
    · rename_i key value hkey
      split
      · exact htail seen
      · rename_i hc
        simp only [Bool.or_eq_true, Bool.not_eq_true', not_or, Bool.not_eq_false] at hc
        refine List.pairwise_cons.2 ⟨fun r hr => ?_, htail _⟩
        obtain ⟨t, rest, value', hsuffix, ht, hseen, -, -⟩ := exists_of_mem_group hr
        refine ⟨fun x hx => ?_, fun he => hseen (by simp [← he])⟩
        -- The other property has a segment of its own, which comes behind all those of this one.
        have htmem : t ∈ segs := hsuffix.subset (by simp)
        have hbefore : ∀ u ∈ Field.continuation segs, depth u.chars = 0 := by
          intro u hu
          have hsplit := List.takeWhile_append_dropWhile
            (p := fun s : Segment => (Value.splitKey? s.chars).isNone) (l := segs)
          have hpair := (List.pairwise_cons.1 hlevel).2
          rw [← hsplit] at hpair htmem
          refine (List.pairwise_append.1 hpair).2.2 u hu t ?_
          rcases List.mem_append.1 htmem with h | h
          · have := List.mem_takeWhile_imp h
            simp [ht] at this
          · exact h
        obtain ⟨-, u, hu, hd⟩ := depth_of_mem_items hs hkey hc.2 hx
        rw [hd]
        rcases List.mem_cons.1 hu with rfl | hu
        · exact (List.pairwise_cons.1 hlevel).1 t (hsuffix.subset (by simp))
        · exact hbefore u hu

theorem isLevel_of_mem_group {segs : List Segment} (hs : ∀ s ∈ segs, InBody s.chars)
    (hd : ∀ s ∈ segs, depth s.chars = 0) {seen : List (List Char)} {r : PropertyReading}
    (hr : r ∈ group seen segs) : r.IsLevel := by
  obtain ⟨s, rest, value, hsuffix, hk, -, hu, hitems⟩ := exists_of_mem_group hr
  intro x hx
  rw [hitems] at hx
  obtain ⟨-, t, ht, he⟩ := depth_of_mem_items (fun t ht => hs t (hsuffix.subset ht)) hk hu hx
  rw [he]
  apply hd t (hsuffix.subset ?_)
  rcases List.mem_cons.1 ht with rfl | ht
  · simp
  · exact List.mem_cons_of_mem _ (mem_continuation ht).1

theorem isItemList_of_mem_group {segs : List Segment} (hs : ∀ s ∈ segs, InBody s.chars)
    (hlevel : segs.Pairwise fun s _ => depth s.chars = 0) {seen : List (List Char)}
    {r : PropertyReading} (hr : r ∈ group seen segs) : Value.IsItemList r.items := by
  obtain ⟨s, rest, value, hsuffix, hk, -, hu, hitems⟩ := exists_of_mem_group hr
  rw [hitems]
  exact isItemList (fun t ht => hs t (hsuffix.subset ht)) (hlevel.sublist hsuffix.sublist) hk hu

theorem isLevel_node_iff {r : PropertyReading} (h : Value.IsItemList r.items) (text : List Char)
    (path : String) (bounds : Span) : (r.node text path bounds).IsLevel ↔ r.IsLevel :=
  Node.isLevel_property_iff fun x hx => (h.item x hx).depth_nonneg

end PropertyReading

namespace EntitySource

/-- The body of an entity may go one below its own depth, and no further. -/
theorem within_body {type b body : List Char} (ht : isIdentifier type = true) (hb : AllBlank b)
    (h : Within 0 1 0 (type ++ b ++ '[' :: body ++ [']'])) :
    Within (-1) 0 0 body ∧ depth (type ++ b ++ '[' :: body ++ [']']) = depth body := by
  have hlead : depth (type ++ b) = 0 := by
    rw [depth_append, depth_of_neutral (neutral_of_isIdentifier ht),
      depth_of_neutral (neutral_of_allBlank hb)]
    rfl
  obtain ⟨h1, -⟩ := within_append.1 h
  obtain ⟨-, h2⟩ := within_append.1 h1
  rw [hlead] at h2
  constructor
  · exact (within_add 1).1 h2.2.2
  · simp only [depth_append, depth_cons, depth_nil] at hlead ⊢
    have h1 : weight '[' = 1 := rfl
    have h2 : weight ']' = -1 := rfl
    omega

theorem inBody_of_mem {body : List Char} (hw : Within (-1) 0 0 body) (hd : 0 ≤ depth body)
    {k : Nat} {s : Segment} (hs : s ∈ splitFrom k body) : PropertyReading.InBody s.chars := by
  have h := isSegmentOf_of_mem hs
  exact ⟨h.nonempty, h.trimmed, h.within (by omega) hw, by have := h.depth; omega⟩

theorem regularEntity_node {start : Nat} {raw : List Char} {e : EntitySource}
    (h : ofSegment? start raw = some e) (hw : Within 0 1 0 raw) (text : List Char) (path : String) :
    Node.RegularEntity path (e.node text path) ∧
      (depth raw = 0 → (e.node text path).IsLevel) := by
  obtain ⟨htype, -, b, body, hb, hraw, hprops⟩ := ofSegment?_eq_some h
  rw [hraw] at hw ⊢
  obtain ⟨hbody, hdepth⟩ := within_body htype hb hw
  have hnonneg : 0 ≤ depth body := by
    have := hw.le_depth (by omega)
    omega
  have hin := fun s => inBody_of_mem hbody hnonneg (k := start + byteLength (e.type ++ b ++ ['[']))
    (s := s)
  have hlevel := pairwise_splitFrom (start + byteLength (e.type ++ b ++ ['['])) body
  have hreading :=
    PropertySource.map_reading_ofBody (start + byteLength (e.type ++ b ++ ['['])) body
  rw [← hprops] at hreading
  rw [node_eq, hreading]
  have hitems : ∀ r ∈ PropertyReading.group []
      (splitFrom (start + byteLength (e.type ++ b ++ ['['])) body), Value.IsItemList r.items :=
    fun r hr => PropertyReading.isItemList_of_mem_group hin hlevel hr
  constructor
  · refine ⟨.ofList e.type, e.span, _, by simpa using htype, ?_, ?_, rfl⟩
    · intro p hp
      obtain ⟨r, hr, rfl⟩ := List.mem_map.1 hp
      obtain ⟨-, -, -, -, -, -, hu, -⟩ := PropertyReading.exists_of_mem_group hr
      exact ⟨.ofList r.key, _, r.items, by simpa using hu, hitems r hr, rfl⟩
    · rw [List.pairwise_map]
      refine (PropertyReading.pairwise_group hin hlevel []).imp_of_mem ?_
      rintro r r' hr - ⟨hrl, hne⟩
      refine ⟨(PropertyReading.isLevel_node_iff (hitems r hr) _ _ _).2 hrl, fun he => hne ?_⟩
      exact String.ofList_injective (Path.propertyIn_inj.1 he)
  · intro hd
    rw [Node.isLevel_iff]
    refine ⟨fun hk => ?_, fun c hc => ?_⟩
    · simp only [Kind.ofType] at hk
      split at hk <;> simp at hk
    · obtain ⟨r, hr, rfl⟩ := List.mem_map.1 hc
      refine (PropertyReading.isLevel_node_iff (hitems r hr) _ _ _).2 ?_
      refine PropertyReading.isLevel_of_mem_group hin (fun s hs => ?_) hr
      have := (isSegmentOf_of_mem hs).depth
      omega

end EntitySource

namespace Slot

/-- What reading has to show of a slot, given the segment that it was read from. -/
def ReadsRegular (text : List Char) (path : String) (s : Segment) (slot : Slot) : Prop :=
  ∀ i, Node.RegularSlot path i (slot.node text path i) ∧
    (depth s.chars = 0 → (slot.node text path i).IsLevel)

theorem regularSlots_mapIdx {text : List Char} {path : String} {segs : List Segment}
    (h : ∀ s ∈ segs, ∀ slot ∈ ofSegment? s, ReadsRegular text path s slot)
    (hlevel : segs.Pairwise fun s _ => depth s.chars = 0) (k : Nat) :
    Node.RegularSlots path k ((segs.filterMap ofSegment?).mapIdx fun i => node text path (k + i)) ∧
      ((segs.filterMap ofSegment?).mapIdx fun i => node text path (k + i)).Pairwise
        fun m _ => m.IsLevel := by
  induction segs generalizing k with
  | nil => exact ⟨trivial, List.Pairwise.nil⟩
  | cons s segs ih =>
    obtain ⟨hhead, htail⟩ := List.pairwise_cons.1 hlevel
    have ih := ih (fun t ht => h t (by simp [ht])) htail
    cases hs : ofSegment? s with
    | none => simpa [List.filterMap_cons, hs] using ih k
    | some slot =>
      obtain ⟨hreg, hlev⟩ := h s (by simp) slot hs k
      obtain ⟨ih1, ih2⟩ := ih (k + 1)
      simp only [List.filterMap_cons, hs, mapIdx_node_cons]
      refine ⟨(Node.regularSlots_cons _ _ _ _).2 ⟨hreg, ih1⟩, List.pairwise_cons.2 ⟨?_, ih2⟩⟩
      -- A further slot comes from a further segment, so that this segment is level.
      intro m hm
      obtain ⟨i, hi, -⟩ := List.mem_mapIdx.1 hm
      rw [List.length_filterMap_eq_countP] at hi
      obtain ⟨t, ht, -⟩ := List.countP_pos_iff.1 (Nat.zero_lt_of_lt hi)
      exact hlev (hhead t ht)

end Slot

namespace Call

theorem within_body (c : Call) : Within 0 0 0 c.body := by
  have h := within_enclosed (n := 1) (by omega) c.rest
  exact (within_add 1).1 h

theorem depth_body_of_isClosed {c : Call} (h : c.isClosed = true) : depth c.body = 0 := by
  have := depth_enclosed (n := 1) (by omega) c.rest h
  unfold body
  omega

/-- A call in a level segment is closed there. -/
theorem isClosed_of_ofSegment? {start : Nat} {raw : List Char} {c : Call}
    (h : ofSegment? start raw = some c) (hd : depth raw = 0) : c.isClosed = true := by
  obtain ⟨hname, -, b, hb, hraw⟩ := ofSegment?_eq_some h
  apply enclosed_closed_of_depth (by omega)
  rw [hraw, depth_append, depth_append, depth_of_neutral (neutral_of_isIdentifier hname),
    depth_of_neutral (neutral_of_allBlank hb), depth_cons, show weight '(' = 1 from rfl] at hd
  omega

/-- The tree of a call is regular, and level if the call is closed. -/
theorem regularOperation_node (text : List Char) (path : String) (c : Call)
    (hname : isIdentifier c.name = true) :
    Node.RegularOperation path (c.node text path) ∧
      (c.isClosed = true → (c.node text path).IsLevel) := by
  have hslot : ∀ s ∈ splitFrom c.bodyStart c.body, ∀ slot ∈ Slot.ofSegment? s,
      Slot.ReadsRegular text path s slot := by
    intro s hs slot hslot i
    have hseg := isSegmentOf_of_mem hs
    have hw := hseg.within (by omega) c.within_body
    cases hcall : ofSegment? s.offset s.chars with
    | some c' =>
      obtain rfl : slot = .call c' := by simpa [Slot.ofSegment?, hcall, eq_comm] using hslot
      have hmem : Slot.call c' ∈ c.slots := by
        rw [slots_eq]
        exact List.mem_filterMap.2 ⟨s, hs, hslot⟩
      have hlt := length_rest_lt hmem
      obtain ⟨h1, h2⟩ := regularOperation_node text (Path.operationIn (Path.slotIn path i)) c'
        (ofSegment?_eq_some hcall).1
      exact ⟨.inl h1, fun hd => h2 (isClosed_of_ofSegment? hcall hd)⟩
    | none =>
      cases hentity : EntitySource.ofSegment? s.offset s.chars with
      | none => simp [Slot.ofSegment?, hcall, hentity] at hslot
      | some e =>
        obtain rfl : slot = .entity e := by
          simpa [Slot.ofSegment?, hcall, hentity, eq_comm] using hslot
        obtain ⟨h1, h2⟩ := EntitySource.regularEntity_node hentity hw text (Path.slotIn path i)
        exact ⟨.inr h1, h2⟩
  have hchildren := Slot.regularSlots_mapIdx hslot (pairwise_splitFrom _ _) 0
  simp only [Nat.zero_add] at hchildren
  rw [node_eq, slots_eq, Node.regularOperation_iff]
  refine ⟨⟨rfl, rfl, ⟨_, rfl, by simpa using hname⟩, hchildren.2, hchildren.1⟩, fun hclosed => ?_⟩
  rw [Node.isLevel_iff]
  refine ⟨by simp, fun m hm => ?_⟩
  obtain ⟨i, hi, rfl⟩ := List.mem_mapIdx.1 hm
  obtain ⟨s, hs, hget⟩ := List.mem_filterMap.1 (List.getElem_mem hi)
  refine (hslot s hs _ hget i).2 ?_
  have := (isSegmentOf_of_mem hs).depth
  have := depth_body_of_isClosed hclosed
  omega
termination_by c.rest.length

theorem isIdentifier_of_root? {text : List Char} {c : Call} (h : root? text = some c) :
    isIdentifier c.name = true := by
  have later : ∀ (cs : List Char) (start : Nat), ofLaterLine? start cs = some c →
      isIdentifier c.name = true := by
    intro cs
    induction cs with
    | nil => intro start h; simp [ofLaterLine?] at h
    | cons d cs ih =>
      intro start h
      unfold ofLaterLine? at h
      rw [Option.orElse_eq_orElse, Option.orElse_eq_or] at h
      rcases Option.or_eq_some_iff.1 h with h | ⟨-, h⟩
      · split at h
        · exact (ofLine?_eq_some h).1
        · simp at h
      · exact ih _ h
  rw [root?, Option.orElse_eq_orElse, Option.orElse_eq_or] at h
  rcases Option.or_eq_some_iff.1 h with h | ⟨-, h⟩
  · exact (ofLine?_eq_some h).1
  · exact later _ _ h

end Call

namespace Node

/-- The root operation of a text, if there is one, is closed. -/
def RootCloses (text : String) : Prop := ∀ c ∈ Call.root? text.toList, c.isClosed = true

instance (text : String) : Decidable (RootCloses text) :=
  inferInstanceAs (Decidable (∀ c ∈ Call.root? text.toList, _))

/-- A script reads as the placeholder or as a regular tree. -/
theorem ofScript_cases (text : String) :
    (Call.root? text.toList = none ∧ (ofScript text).isPlaceholder = true) ∨
      (RegularOperation Path.operationWord (ofScript text) ∧
        (RootCloses text → (ofScript text).IsLevel)) := by
  cases h : Call.root? text.toList with
  | none => exact .inl ⟨rfl, by simp [ofScript, h, placeholder, isPlaceholder]⟩
  | some c =>
    have hn := Call.isIdentifier_of_root? h
    obtain ⟨h1, h2⟩ := c.regularOperation_node text.toList Path.operationWord hn
    refine .inr ⟨by simpa [ofScript, h] using h1, fun hc => ?_⟩
    simpa [ofScript, h] using h2 (hc c h)

end Node
end ProblemScript
