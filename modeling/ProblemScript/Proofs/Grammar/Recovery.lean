import ProblemScript.Proofs.Grammar.Written

/-! Reading recovers a tree of the grammar from every text that the grammar allows for it. The three
kinds of lists are told apart by depth and by keys: within an entity, the segments with a key open
the properties and the segments without one hold their further items. -/
namespace ProblemScript
open Text ProblemScript.Bracket Segment Layout

/-- An element with white space around it is one segment. -/
theorem Segment.splitFrom_element {b x b' : List Char} (hb : AllBlank b) (hx : IsElement 0 x)
    (hb' : AllBlank b') (k : Nat) : splitFrom k (b ++ x ++ b') = [⟨k + byteLength b, x⟩] := by
  have hsolid : Solid (b ++ x ++ b') := by
    have hneutral := neutral_of_allBlank hb
    have hfront : Solid (b ++ x) := (solid_of_neutral hneutral).append (depth_of_neutral hneutral)
      (solid_of_within hx.within)
    exact hfront.append_of_not_mem fun hmem => (neutral_of_allBlank hb' _ hmem).2 rfl
  rw [hsolid.splitFrom_eq, locate_singleton hb hx.trimmed hx.nonempty hb']

namespace PropertyReading

/-- The segments of a list of items are keyless, and hold the items. -/
theorem itemsOf_splitFrom {items : List String} (h : ∀ x ∈ items, Value.IsGrammatical x)
    {cs : List Char} (hlist : Listed Node.ItemWritten items cs) (k : Nat) :
    (∀ s ∈ splitFrom k cs, Value.splitKey? s.chars = none) ∧
      itemsOf (splitFrom k cs) = items := by
  have hchars : (splitFrom k cs).map (·.chars) = items.map String.toList := by
    obtain ⟨parts, hparts, hcs⟩ := hlist.exists_segments
      (S := fun x segs => ∃ s : Segment, segs = [s] ∧ s.chars = x.toList)
      (fun x hx cs hcs => by
        rw [hcs]
        exact (h x hx).level)
      (fun x hx k b cs b' hb hcs hb' => by
        rw [hcs, splitFrom_element hb (h x hx).isElement.1 hb']
        exact ⟨_, rfl, rfl⟩) k
    rw [hcs]
    clear hlist h hcs
    induction hparts with
    | nil => rfl
    | cons hx _ ih =>
      obtain ⟨s, rfl, hs⟩ := hx
      simp [hs, ih]
  constructor
  · intro s hs
    have hmem : s.chars ∈ items.map String.toList := hchars ▸ List.mem_map_of_mem hs
    obtain ⟨x, hx, he⟩ := List.mem_map.1 hmem
    rw [← he]
    exact (h x hx).keyless
  · have hitems := congrArg (List.map fun cs => String.ofList (collapse cs)) hchars
    rw [List.map_map, List.map_map] at hitems
    refine hitems.trans ((List.map_congr_left fun x hx => ?_).trans (List.map_id items))
    simp [(h x hx).collapsed]

/-- The text `head` opens a property: it has the key and, with `first`, none or one of the items. -/
structure Opens (key : List Char) (first : List String) (head : List Char) : Prop where
  element : IsElement 0 head
  depth_eq : depth head = 0
  keyed : ∃ value, Value.splitKey? head = some (key, value) ∧ Value.items value = first

variable {key b : List Char}

theorem opens_key (hname : isIdentifier key = true) (hkey : Field.isUsableKey key = true)
    (hb : AllBlank b) : Opens key [] (key ++ b ++ [':']) := by
  have hneutral := (neutral_of_isIdentifier hname).append (neutral_of_allBlank hb)
  have hcolon : IsElement 0 [':'] := ⟨by simp, rfl, ⟨by simp, by decide, trivial⟩, by decide⟩
  obtain ⟨helement, hdepth⟩ := hcolon.lead hneutral (head?_of_isIdentifier hname b) (by omega)
  exact ⟨helement, hdepth, [], Field.splitKey?_of_isUsableKey hkey hb [], rfl⟩

theorem opens_item (hname : isIdentifier key = true) (hkey : Field.isUsableKey key = true)
    (hb : AllBlank b) {c : List Char} (hc : AllBlank c) {x : String} (hx : Value.IsGrammatical x) :
    Opens key [x] (key ++ b ++ [':'] ++ c ++ x.toList) := by
  have hneutral : Neutral (key ++ b ++ [':'] ++ c) :=
    (((neutral_of_isIdentifier hname).append (neutral_of_allBlank hb)).append neutral_colon).append
      (neutral_of_allBlank hc)
  obtain ⟨hitem, hzero⟩ := hx.isElement
  have hstart : ∀ d ∈ (key ++ b ++ [':'] ++ c).head?, isBlank d = false := by
    rw [List.append_assoc, List.append_assoc]
    exact head?_of_isIdentifier hname _
  obtain ⟨helement, hdepth⟩ := hitem.lead hneutral hstart (by omega)
  have hsolid : Solid (c ++ x.toList) := (solid_of_neutral (neutral_of_allBlank hc)).append
    (depth_of_neutral (neutral_of_allBlank hc)) (solid_of_within hitem.within)
  have hitems := items_of_trimmed hc hitem.trimmed hx.ne_nil hsolid
  rw [hx.collapsed, String.ofList_toList] at hitems
  refine ⟨helement, hdepth.trans hzero, c ++ x.toList, ?_, hitems⟩
  have hsplit := Field.splitKey?_of_isUsableKey hkey hb (c ++ x.toList)
  simpa using hsplit

variable {first : List String} {head c c' : List Char}

/-- A property of which all stands in one segment. -/
theorem Opens.isMadeOf (h : Opens key first head) (hc : AllBlank c) (hc' : AllBlank c') (k : Nat) :
    IsMadeOf ⟨key, k + byteLength c, first⟩ (splitFrom k (c ++ head ++ c')) := by
  obtain ⟨value, hkey, hitems⟩ := h.keyed
  rw [splitFrom_element hc h.element hc']
  exact ⟨_, [], value, rfl, rfl, hkey, by simp, by simp [hitems, itemsOf]⟩

/-- A property with further items behind a comma. -/
theorem Opens.isMadeOf_append (h : Opens key first head) (hc : AllBlank c) (hc' : AllBlank c')
    {items : List String} (hitems : ∀ x ∈ items, Value.IsGrammatical x) {ys : List Char}
    (hlist : Listed Node.ItemWritten items ys) (k : Nat) :
    IsMadeOf ⟨key, k + byteLength c, first ++ items⟩
      (splitFrom k (c ++ head ++ c' ++ ',' :: ys)) := by
  obtain ⟨value, hkey, hfirst⟩ := h.keyed
  have hd : depth (c ++ head ++ c') = 0 := by
    rw [depth_surrounded hc hc', h.depth_eq]
  obtain ⟨hkeyless, hmore⟩ :=
    itemsOf_splitFrom hitems hlist (k + byteLength (c ++ head ++ c') + 1)
  rw [splitFrom_append_comma hd, splitFrom_element hc h.element hc']
  exact ⟨_, _, value, List.singleton_append, rfl, hkey, hkeyless, by rw [hfirst, hmore]⟩

end PropertyReading

namespace Node

/-- A property is read with its own key and items, however it is written. -/
theorem PropertyWritten.isMadeOf {owner : String} {n : Node} (h : Spells owner n) {x : List Char}
    (hx : PropertyWritten n x) {b b' : List Char} (hb : AllBlank b) (hb' : AllBlank b') (k : Nat) :
    PropertyReading.IsMadeOf ⟨n.keyText.toList, k + byteLength b, n.itemTexts⟩
      (splitFrom k (b ++ x ++ b')) := by
  obtain ⟨g, rest, hg, rfl, hlist⟩ := hx
  have hkey := PropertyReading.opens_key h.name h.key hg
  have hitem := h.item
  have hlist := hlist.append_allBlank hb'
  have hassoc : b ++ (n.keyText.toList ++ g ++ ':' :: rest) ++ b' =
      b ++ (n.keyText.toList ++ g ++ [':']) ++ (rest ++ b') := by simp
  rw [hassoc]
  generalize n.itemTexts = items at hitem hlist ⊢
  generalize rest ++ b' = tail at hlist ⊢
  -- The first item is in the segment of the key, unless there is a comma before it.
  cases hlist with
  | blank hc => exact hkey.isMadeOf hb hc k
  | @last y c ys c' hc hy hc' =>
    have hopens := PropertyReading.opens_item h.name h.key hg hc (hitem y (by simp))
    have hread := hopens.isMadeOf hb hc' k
    rw [hy]
    simpa using hread
  | skip hc hys =>
    have hread := hkey.isMadeOf_append hb hc hitem hys k
    simpa using hread
  | @cons y items c x c' ys hc hy hc' hys =>
    have hopens := PropertyReading.opens_item h.name h.key hg hc (hitem y (by simp))
    have hread := hopens.isMadeOf_append hb hc' (fun z hz => hitem z (by simp [hz])) hys k
    rw [hy]
    simpa using hread

/-- The readings of properties, given what each of them is made of. -/
theorem exists_readings {ps : List Node} {parts : List (List Segment)}
    (h : List.Forall₂ (fun p segs => ∃ position,
      PropertyReading.IsMadeOf ⟨p.keyText.toList, position, p.itemTexts⟩ segs) ps parts) :
    ∃ rs, List.Forall₂ PropertyReading.IsMadeOf rs parts ∧
      rs.map (fun r => (r.key, r.items)) = ps.map fun p => (p.keyText.toList, p.itemTexts) := by
  induction h with
  | nil => exact ⟨[], .nil, rfl⟩
  | cons hp _ ih =>
    obtain ⟨position, hp⟩ := hp
    obtain ⟨rs, hrs, hmap⟩ := ih
    exact ⟨_ :: rs, .cons hp hrs, by simp [hmap]⟩

variable {path : String} {n : Node} {body : List Char}

theorem GrammaticalEntity.pairwise_keyText (h : GrammaticalEntity path n) :
    n.children.Pairwise fun p q => p.keyText ≠ q.keyText := by
  obtain ⟨type, -, -, -, -, hprops, hpair⟩ := h
  refine hpair.imp_of_mem fun {p q} hp hq hne he => hne ?_
  rw [(hprops p hp).spells.key?_eq, (hprops q hq).spells.key?_eq, he]

/-- The properties of an entity are read from its body with their keys and items. -/
theorem map_group_body (h : GrammaticalEntity path n)
    (hbody : Listed PropertyWritten n.children body) (k : Nat) :
    (PropertyReading.group [] (splitFrom k body)).map (fun r => (r.key, r.items)) =
      n.children.map fun p => (p.keyText.toList, p.itemTexts) := by
  have hpair := h.pairwise_keyText
  obtain ⟨type, -, -, -, -, hprops, -⟩ := h
  have hspells := fun p hp => (hprops p hp).spells
  obtain ⟨parts, hparts, hflat⟩ := hbody.exists_segments
    (S := fun p segs => ∃ position,
      PropertyReading.IsMadeOf ⟨p.keyText.toList, position, p.itemTexts⟩ segs)
    (fun p hp _ hx => hx.level (hspells p hp))
    (fun p hp k b _ b' hb hx hb' => ⟨_, hx.isMadeOf (hspells p hp) hb hb' k⟩) k
  obtain ⟨rs, hrs, hmap⟩ := exists_readings hparts
  have hkeys : rs.map (·.key) = n.children.map (·.keyText.toList) := by
    simpa [Function.comp_def] using congrArg (List.map Prod.fst) hmap
  have hgroup : PropertyReading.group [] parts.flatten = rs := by
    apply PropertyReading.group_flatten hrs
    · rw [hkeys]
      simpa using fun p hp => (hspells p hp).key
    · rw [hkeys]
      exact List.pairwise_map.2 (hpair.imp fun hne he => hne (String.toList_inj.1 he))
    · simp
  rw [hflat, hgroup, hmap]

theorem shape_properties (h : GrammaticalEntity path n)
    (hbody : Listed PropertyWritten n.children body) (text : List Char) (bounds : Span) (k : Nat) :
    ((PropertyReading.group [] (splitFrom k body)).map fun r =>
        r.node text (Path.propertyIn path (.ofList r.key)) bounds).map shape =
      n.children.map shape := by
  -- Up to its range, the node of a property depends on its key and items alone.
  calc ((PropertyReading.group [] (splitFrom k body)).map fun r =>
        r.node text (Path.propertyIn path (.ofList r.key)) bounds).map shape
      = ((PropertyReading.group [] (splitFrom k body)).map fun r => (r.key, r.items)).map fun r =>
          propertyShape path (.ofList r.1) r.2 := by
        rw [List.map_map, List.map_map]
        apply List.map_congr_left
        intro r _
        simp only [Function.comp_apply, shape_eq, PropertyReading.node, itemsOf_shape,
          propertyShape]
    _ = n.children.map shape := by
        rw [map_group_body h hbody, List.map_map]
        obtain ⟨type, -, -, -, -, hprops, -⟩ := h
        apply List.map_congr_left
        intro p hp
        simp only [Function.comp_apply, (hprops p hp).spells.shape, String.ofList_toList]

/-- The text is read as the slot with number `i` of the operation written `path`, up to ranges. -/
def ReadsAsSlot (text : List Char) (path : String) (i : Nat) (n : Node) (cs : List Char) : Prop :=
  ∀ start, ∃ slot, Slot.ofSegment? ⟨start, cs⟩ = some slot ∧
    (slot.node text path i).shape = n.shape

theorem GrammaticalEntity.readsAsSlot {i : Nat} (h : GrammaticalEntity (Path.slotIn path i) n)
    {b : List Char} (hb : AllBlank b) (hbody : Listed PropertyWritten n.children body)
    (text : List Char) :
    ReadsAsSlot text path i n ((n.value.getD "").toList ++ b ++ '[' :: body ++ [']']) := by
  intro start
  have hproperties := shape_properties h hbody text
  obtain ⟨type, htype, hkind, hpath, hvalue, -⟩ := h
  rw [hvalue, Option.getD_some]
  have hcall := Call.ofSegment?_of_square htype hb (body ++ [']']) start
  have hentity := EntitySource.ofSegment?_of_type htype hb start body
  rw [← List.cons_append, ← List.append_assoc] at hcall
  refine ⟨_, by rw [Slot.ofSegment?, hcall, hentity]; rfl, ?_⟩
  rw [Slot.node, EntitySource.node_eq, PropertySource.map_reading_ofBody, shape_eq, hproperties,
    shape_eq n, hkind, hpath, hvalue, String.ofList_toList]

/-- Slots are read in order, each with its own number. -/
theorem shape_slots {text : List Char} {ns : List Node} {parts : List (List Segment)}
    (h : List.Forall₂ (fun n segs => ∃ s : Segment, segs = [s] ∧ Written n s.chars) ns parts)
    (index : Nat) (hread : ∀ j n, ns[j]? = some n → ∀ cs, Written n cs →
      ReadsAsSlot text path (index + j) n cs) :
    ((parts.flatten.filterMap Slot.ofSegment?).mapIdx fun j =>
      Slot.node text path (index + j)).map shape = ns.map shape := by
  induction h generalizing index with
  | nil => rfl
  | @cons n segs ns parts hn _ ih =>
    obtain ⟨s, rfl, hs⟩ := hn
    obtain ⟨slot, hslot, hshape⟩ := hread 0 n rfl s.chars hs s.offset
    have hrest := ih (index + 1) fun j m hm cs hcs => by
      have hnext := hread (j + 1) m (by simpa using hm) cs hcs
      rwa [Nat.add_comm j, ← Nat.add_assoc] at hnext
    rw [List.flatten_cons, List.singleton_append, List.filterMap_cons_some hslot,
      Slot.mapIdx_node_cons, List.map_cons, hrest, List.map_cons]
    exact congrArg (· :: _) hshape

/-- A call is read as the operation that is written there, if the slots are. -/
theorem GrammaticalOperation.shape_call {text rest : List Char} (h : GrammaticalOperation path n)
    (hbody : Listed Written n.children body)
    (hread : ∀ i c, n.children[i]? = some c → ∀ cs, Written c cs → ReadsAsSlot text path i c cs)
    {c : Call} (hname : c.name = (n.value.getD "").toList) (hrest : c.rest = body ++ ')' :: rest) :
    (c.node text path).shape = n.shape := by
  have helement : ∀ m ∈ n.children, ∀ cs, Written m cs → IsElement 0 cs ∧ depth cs = 0 := by
    intro m hm cs hcs
    obtain ⟨i, hi⟩ := List.mem_iff_getElem?.1 hm
    exact hcs.isElement (h.slot hi)
  have hlevel : ∀ m ∈ n.children, ∀ cs, Written m cs → Level cs := by
    intro m hm cs hcs
    obtain ⟨he, hd⟩ := helement m hm cs hcs
    exact he.level hd
  have hclosed : c.body = body := by
    have hl := hbody.level hlevel
    rw [Call.body, hrest, enclosed_eq hl.within hl.depth_eq rfl]
  obtain ⟨parts, hparts, hflat⟩ := hbody.exists_segments
    (S := fun n segs => ∃ s : Segment, segs = [s] ∧ Written n s.chars) hlevel
    (fun m hm k b cs b' hb hcs hb' =>
      ⟨_, splitFrom_element hb (helement m hm cs hcs).1 hb' k, hcs⟩) c.bodyStart
  have hslots := shape_slots hparts 0 (by simpa using hread)
  cases h with
  | intro hkind hpath hvalue =>
    simp only [Nat.zero_add] at hslots
    rw [Call.node_eq, Call.slots_eq, hclosed, hflat, shape_eq, shape_eq n, hslots, hkind, hpath,
      hname, hvalue, Option.getD_some, String.ofList_toList]

/-- A slot is read as what is written there. -/
theorem Written.readsAsSlot {i : Nat} (h : GrammaticalSlot path i n) {cs : List Char}
    (hw : Written n cs) (text : List Char) : ReadsAsSlot text path i n cs := by
  induction n using children_induction generalizing path i cs with
  | node n ih =>
    cases hw with
    | entity hk hb hbody =>
      rcases h with h | h
      · simp [h.kind, Kind.isEntityLike] at hk
      · exact h.readsAsSlot hb hbody text
    | @operation _ b body hk hb hbody =>
      have hname := h.isIdentifier
      rcases h with h | h
      · intro start
        have hlast : (body ++ [')']).getLast? = some ')' := List.getLast?_concat
        have hcall := Call.ofSegment?_of_name hname hb hlast start
        refine ⟨_, by rw [Slot.ofSegment?, List.append_assoc, List.cons_append, hcall]; rfl, ?_⟩
        exact h.shape_call hbody
          (fun j c hc _ hcs => ih c (List.mem_of_getElem? hc) (h.slot hc) hcs) rfl rfl
      · exact absurd hk h.kind_ne_operation

end Node

namespace Call

/-- What comes behind a line break does not make the lines before it open a call. -/
theorem ofLine?_append {start : Nat} {lines : List Char} (h : ofLine? start lines = none)
    (rest : List Char) : ofLine? start (lines ++ '\n' :: rest) = none := by
  by_contra hne
  obtain ⟨c, hc⟩ := Option.ne_none_iff_exists'.1 hne
  obtain ⟨hname, indent, gap, hindent, hgap, he, -⟩ := ofLine?_eq_some hc
  have hbreak : '\n' ∉ indent ++ c.name ++ gap ++ ['('] := by
    simp only [List.mem_append, List.mem_singleton, not_or]
    refine ⟨⟨⟨fun hmem => ?_, fun hmem => ?_⟩, fun hmem => ?_⟩, by decide⟩
    · exact absurd (hindent _ hmem) (by decide)
    · exact absurd (isNameChar_of_isIdentifier hname _ hmem) (by decide)
    · exact absurd (hgap _ hmem) (by decide)
  -- No line break stands before the parenthesis, so the parenthesis stands in `lines`.
  have hlines : ∃ more, lines = indent ++ c.name ++ gap ++ '(' :: more := by
    have hsplit : lines ++ '\n' :: rest = indent ++ c.name ++ gap ++ ['('] ++ c.rest := by
      rw [he]
      simp
    rcases List.append_eq_append_iff.1 hsplit with ⟨as, hopening, has⟩ | ⟨more, hmore, -⟩
    · cases as with
      | nil => exact ⟨[], by simpa using hopening.symm⟩
      | cons d as =>
        obtain rfl : '\n' = d := by simpa using congrArg List.head? has
        rw [hopening] at hbreak
        simp at hbreak
    · exact ⟨more, by simpa using hmore⟩
  obtain ⟨more, rfl⟩ := hlines
  rw [ofLine?_of_name hindent hname hgap] at h
  simp at h

theorem ofLaterLine?_append {start : Nat} {lines : List Char} (h : ofLaterLine? start lines = none)
    (rest : List Char) :
    ofLaterLine? start (lines ++ '\n' :: rest) =
      (ofLine? (start + byteLength lines + 1) rest).or
        (ofLaterLine? (start + byteLength lines + 1) rest) := by
  induction lines generalizing start with
  | nil => simp [ofLaterLine?, show ('\n').utf8Size = 1 from rfl]
  | cons d lines ih =>
    unfold ofLaterLine? at h
    rw [Option.orElse_eq_orElse, Option.orElse_eq_or, Option.or_eq_none_iff] at h
    have hhere : (if d == '\n' then ofLine? (start + d.utf8Size) (lines ++ '\n' :: rest)
        else none) = none := by
      have hline := h.1
      split at hline
      · rename_i hd
        rw [if_pos hd, ofLine?_append hline]
      · rename_i hd
        rw [if_neg hd]
    rw [List.cons_append, ofLaterLine?, hhere, Option.orElse_eq_orElse, Option.orElse_eq_or,
      Option.none_or, ih h.2, byteLength_cons, ← Nat.add_assoc]

/-- Lines that open no call may stand before the root. -/
theorem root?_of_preface {preface rest : List Char} {c : Call}
    (h : preface = [] ∨ ∃ lines, preface = lines ++ ['\n'] ∧ root? lines = none)
    (hrest : ofLine? (byteLength preface) rest = some c) : root? (preface ++ rest) = some c := by
  rcases h with rfl | ⟨lines, rfl, hnone⟩
  · rw [byteLength_nil] at hrest
    rw [List.nil_append, root?, hrest]
    rfl
  · rw [root?, Option.orElse_eq_orElse, Option.orElse_eq_or, Option.or_eq_none_iff] at hnone
    rw [byteLength_append, byteLength_cons, byteLength_nil, Nat.add_zero,
      show ('\n').utf8Size = 1 from rfl] at hrest
    rw [root?, List.append_assoc, List.singleton_append, ofLine?_append hnone.1,
      ofLaterLine?_append hnone.2, Nat.zero_add, hrest]
    rfl

end Call

namespace Node

/-- Every script of a tree is read as the tree, up to ranges. -/
theorem IsScriptOf.shape_ofScript {T : Node} (h : GrammaticalOperation Path.operationWord T)
    {text : String} (ht : IsScriptOf T text.toList) : (ofScript text).shape = T.shape := by
  obtain ⟨preface, indent, gap, body, rest, htext, hpreface, hindent, hgap, hbody⟩ := ht
  have hname : isIdentifier (T.value.getD "").toList = true := h.isIdentifier
  have hline := Call.ofLine?_of_name hindent hname hgap (byteLength preface) (body ++ ')' :: rest)
  have hroot := Call.root?_of_preface hpreface hline
  rw [ofScript, htext, hroot]
  exact h.shape_call hbody (fun i c hc cs hcs => hcs.readsAsSlot (h.slot hc) _) rfl rfl

end Node
end ProblemScript
