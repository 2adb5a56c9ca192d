import Mathlib.Logic.Relation
import ProblemScript.Proofs.RangeTable
import ProblemScript.Wire.Editor

/-! What travels comes back. Every form of the interchange decodes to the value that was encoded,
and it does so whatever is added under names that the form does not know and whichever empty
optional fields are left out, at any depth. The forms are described by their fields; one step of
loosening changes one field, and a decoder reads the same from its fields after the step. -/
namespace ProblemScript
namespace Wire

/-- The forms that are made of fields, with the lists and tables of them. -/
inductive Form where
  | span
  | node
  | forest
  | entry
  | table
  | layout
  | document
  | prose
  | component
  | request
  | response
deriving DecidableEq, Repr

/-- A field of a form: whether it may be left out or empty, and the form of its value if that has
fields of its own. -/
structure Slot where
  name : String
  optional : Bool
  inner : Option Form
deriving DecidableEq, Repr

namespace Form

/-- The fields of a record. A forest is a list and a table has names of its own. -/
def slots : Form → List Slot
  | span => [⟨"start", false, none⟩, ⟨"end", false, none⟩]
  | node =>
    [⟨"kind", false, none⟩, ⟨"path", false, none⟩, ⟨"span", false, some span⟩,
     ⟨"value", true, none⟩, ⟨"children", false, some forest⟩]
  | entry => [⟨"range", false, some span⟩, ⟨"property_value", true, none⟩]
  | layout => [⟨"indent_width", false, none⟩, ⟨"style", false, none⟩]
  | document => [⟨"text", false, none⟩, ⟨"mapping", false, some table⟩]
  | prose =>
    [⟨"case_insensitive", false, none⟩, ⟨"match_plurals", false, none⟩,
     ⟨"max_matches", true, none⟩]
  | component =>
    [⟨"kind", false, none⟩, ⟨"data_path", false, none⟩, ⟨"element_id", true, none⟩,
     ⟨"tag", false, none⟩]
  | request =>
    [⟨"mwp", true, none⟩, ⟨"formula", true, none⟩, ⟨"hint", true, none⟩, ⟨"dsl", true, none⟩]
  | response =>
    [⟨"visual_language", false, none⟩, ⟨"svg_formal", true, none⟩, ⟨"svg_intuitive", true, none⟩,
     ⟨"formal_error", true, none⟩, ⟨"intuitive_error", true, none⟩,
     ⟨"missing_svg_entities", true, none⟩]
  | forest | table => []

/-- The form is a record, and no field of it has the name. -/
def lacks (f : Form) (name : String) : Prop :=
  f ≠ forest ∧ f ≠ table ∧ ∀ slot ∈ f.slots, slot.name ≠ name

/-- The types of the values that are interchanged. -/
def Value : Form → Type
  | span => Span
  | node => Node
  | forest => List Node
  | entry => RangeEntry
  | table => RangeTable
  | layout => Layout.Options
  | document => Layout.Document
  | prose => Prose.Options
  | component => Diagram.Component
  | request => Editor.Request
  | response => Editor.Response

def encode : (f : Form) → f.Value → Wire
  | span => Span.toWire
  | node => Node.toWire
  | forest => fun ns => .list (Node.listToWire ns)
  | entry => RangeEntry.toWire
  | table => RangeTable.toWire
  | layout => Layout.Options.toWire
  | document => Layout.Document.toWire
  | prose => Prose.Options.toWire
  | component => Diagram.Component.toWire
  | request => Editor.Request.toWire
  | response => Editor.Response.toWire

def decode : (f : Form) → Wire → Option f.Value
  | span => Span.ofWire?
  | node => Node.ofWire?
  | forest => Node.forestOfWire?
  | entry => RangeEntry.ofWire?
  | table => RangeTable.ofWire?
  | layout => Layout.Options.ofWire?
  | document => Layout.Document.ofWire?
  | prose => Prose.Options.ofWire?
  | component => Diagram.Component.ofWire?
  | request => Editor.Request.ofWire?
  | response => Editor.Response.ofWire?

/-- One step of loosening: an unknown field is put into a record, an empty optional field is taken
out of it, or a step is made further inside. -/
inductive Loosens : Form → Wire → Wire → Prop
  | add {f : Form} {before after : List (String × Wire)} {name : String} (w : Wire)
      (hname : f.lacks name) :
      Loosens f (.record (before ++ after)) (.record (before ++ (name, w) :: after))
  | drop {f : Form} {before after : List (String × Wire)} {name : String}
      (hname : ⟨name, true, none⟩ ∈ f.slots) (hunique : name ∉ after.map Prod.fst) :
      Loosens f (.record (before ++ (name, .null) :: after)) (.record (before ++ after))
  | field {f g : Form} {before after : List (String × Wire)} {name : String} {w w' : Wire}
      (hname : ⟨name, false, some g⟩ ∈ f.slots) (h : Loosens g w w') :
      Loosens f (.record (before ++ (name, w) :: after)) (.record (before ++ (name, w') :: after))
  | row {before after : List (String × Wire)} {path : String} {w w' : Wire}
      (h : Loosens entry w w') :
      Loosens table (.record (before ++ (path, w) :: after))
        (.record (before ++ (path, w') :: after))
  | item {before after : List Wire} {w w' : Wire} (h : Loosens node w w') :
      Loosens forest (.list (before ++ w :: after)) (.list (before ++ w' :: after))

end Form

section Fields
variable {before after fields : List (String × Wire)} {name other : String} {w : Wire}

theorem field?_cons (entry : String × Wire) (fields : List (String × Wire)) (name : String) :
    field? (entry :: fields) name =
      if entry.1 = name then some entry.2 else field? fields name := by
  by_cases h : entry.1 = name <;> simp [field?, h]

theorem field?_append :
    field? (before ++ after) name = (field? before name).or (field? after name) := by
  simp only [field?, List.find?_append]
  cases before.find? (·.1 == name) <;> simp

theorem field?_insert (h : name ≠ other) :
    field? (before ++ (name, w) :: after) other = field? (before ++ after) other := by
  simp only [field?_append, field?_cons, h, if_false]

theorem field?_insert_self :
    field? (before ++ (name, w) :: after) name = (field? before name).or (some w) := by
  simp only [field?_append, field?_cons, if_true]

theorem field?_eq_none (h : name ∉ fields.map Prod.fst) : field? fields name = none := by
  induction fields with
  | nil => rfl
  | cons e es ih =>
    simp only [List.map_cons, List.mem_cons, not_or] at h
    simp only [field?_cons, if_neg (Ne.symm h.1), ih h.2]

end Fields

namespace Form

/-- Two lists of fields that a decoder of the form cannot tell apart. -/
structure Alike (f : Form) (fields fields' : List (String × Wire)) : Prop where
  plain : ∀ name, ⟨name, false, none⟩ ∈ f.slots → field? fields' name = field? fields name
  optional : ∀ name, ⟨name, true, none⟩ ∈ f.slots → ∀ {α : Type} (decode : Wire → Option α),
    Wire.optional decode fields' name = Wire.optional decode fields name
  nested : ∀ name g, ⟨name, false, some g⟩ ∈ f.slots →
    required g.decode fields' name = required g.decode fields name

variable {f g : Form} {before after : List (String × Wire)} {name : String}

theorem alike_of_field? {fields fields' : List (String × Wire)}
    (h : ∀ slot ∈ f.slots, field? fields' slot.name = field? fields slot.name) :
    f.Alike fields fields' where
  plain _ hslot := h _ hslot
  optional _ hslot _ decode := by simp only [Wire.optional, defaulted, h _ hslot]
  nested _ _ hslot := by simp only [required, h _ hslot]

theorem alike_add (hname : f.lacks name) (w : Wire) :
    f.Alike (before ++ after) (before ++ (name, w) :: after) :=
  alike_of_field? fun slot hslot => field?_insert (hname.2.2 slot hslot).symm

/-- A form has no two fields of one name. -/
theorem eq_of_name_eq {slot slot' : Slot} (h : slot ∈ f.slots) (h' : slot' ∈ f.slots)
    (hname : slot.name = slot'.name) : slot = slot' := by
  have hdistinct : (f.slots.map (·.name)).Nodup := by cases f <;> decide
  exact List.inj_on_of_nodup_map hdistinct h h' hname

theorem name_ne {slot slot' : Slot} (h : slot ∈ f.slots) (h' : slot' ∈ f.slots)
    (hne : slot ≠ slot') : slot.name ≠ slot'.name :=
  fun hname => hne (eq_of_name_eq h h' hname)

theorem alike_drop (hname : ⟨name, true, none⟩ ∈ f.slots) (hunique : name ∉ after.map Prod.fst) :
    f.Alike (before ++ (name, .null) :: after) (before ++ after) := by
  have hother : ∀ {other}, name ≠ other →
      field? (before ++ after) other = field? (before ++ (name, .null) :: after) other :=
    fun h => (field?_insert h).symm
  constructor
  · intro other hslot
    exact hother (name_ne hname hslot (by simp))
  · intro other hslot α decode
    by_cases h : name = other
    · subst h
      have hrest : field? (before ++ after) name = field? before name := by
        rw [field?_append, field?_eq_none hunique, Option.or_none]
      simp only [Wire.optional, defaulted, field?_insert_self, hrest]
      cases field? before name <;> rfl
    · simp only [Wire.optional, defaulted, hother h]
  · intro other g hslot
    have hne : name ≠ other := name_ne hname hslot (by simp)
    simp only [required, hother hne]

theorem alike_field (hname : ⟨name, false, some g⟩ ∈ f.slots) {w w' : Wire}
    (h : g.decode w' = g.decode w) :
    f.Alike (before ++ (name, w) :: after) (before ++ (name, w') :: after) := by
  have hother : ∀ {other}, name ≠ other → field? (before ++ (name, w') :: after) other =
      field? (before ++ (name, w) :: after) other :=
    fun h => (field?_insert h).trans (field?_insert h).symm
  constructor
  · intro other hslot
    exact hother (name_ne hname hslot (by simp))
  · intro other hslot α decode
    have hne : name ≠ other := name_ne hname hslot (by simp)
    simp only [Wire.optional, defaulted, hother hne]
  · intro other g' hslot
    by_cases hsame : name = other
    · subst hsame
      -- The field has one form, so the step inside was made in that form.
      cases eq_of_name_eq hname hslot rfl
      simp only [required, field?_insert_self]
      cases field? before name <;> simp [h]
    · simp only [required, hother hsame]

end Form

end Wire

theorem Node.childrenOfWire?_eq (fields : List (String × Wire)) :
    childrenOfWire? fields = Wire.required forestOfWire? fields "children" := by
  induction fields with
  | nil => rfl
  | cons e fields ih =>
    obtain ⟨name, w⟩ := e
    by_cases h : name = "children"
    · simp [childrenOfWire?, Wire.required, Wire.field?_cons, h]
    · simp [childrenOfWire?, Wire.required, Wire.field?_cons, h, ih]

theorem Node.listOfWire?_eq (ws : List Wire) : listOfWire? ws = ws.mapM ofWire? := by
  induction ws with
  | nil => rfl
  | cons w ws ih => simp [listOfWire?, ih]

namespace Wire.Form
variable {f : Form} {fields fields' : List (String × Wire)}

theorem Alike.required (h : f.Alike fields fields') {name : String}
    (hslot : ⟨name, false, none⟩ ∈ f.slots) {α : Type} (decode : Wire → Option α) :
    Wire.required decode fields' name = Wire.required decode fields name := by
  simp only [Wire.required, h.plain name hslot]

theorem Alike.defaulted (h : f.Alike fields fields') {name : String}
    (hslot : ⟨name, false, none⟩ ∈ f.slots) {α : Type} (decode : Wire → Option α) (fallback : α) :
    Wire.defaulted decode fallback fields' name = Wire.defaulted decode fallback fields name := by
  simp only [Wire.defaulted, h.plain name hslot]

/-- A decoder reads the same from fields that are alike. -/
theorem decode_of_alike (hf : f ≠ table) (h : f.Alike fields fields') :
    f.decode (.record fields') = f.decode (.record fields) := by
  cases f with
  | span =>
    change Span.ofWire? _ = Span.ofWire? _
    simp (disch := decide) only [Span.ofWire?, asRecord?, Option.bind_eq_bind, Option.bind_some,
      h.required]
  | node =>
    change Node.ofWire? _ = Node.ofWire? _
    -- The children are decoded while their field is looked for, apart from the other fields.
    have hspan : Wire.required Span.ofWire? fields' "span" = Wire.required Span.ofWire? fields _ :=
      h.nested "span" .span (by decide)
    have hchildren : Wire.required Node.forestOfWire? fields' "children" =
        Wire.required Node.forestOfWire? fields _ := h.nested "children" .forest (by decide)
    have hfields : Node.ofFields? fields' = Node.ofFields? fields := by
      funext children
      simp (disch := decide) only [Node.ofFields?, h.required, hspan, h.optional]
    simp only [Node.ofWire?, Node.childrenOfWire?_eq, hchildren, hfields]
  | forest => rfl
  | entry =>
    change RangeEntry.ofWire? _ = RangeEntry.ofWire? _
    have hrange : Wire.required Span.ofWire? fields' "range" =
        Wire.required Span.ofWire? fields _ := h.nested "range" .span (by decide)
    simp (disch := decide) only [RangeEntry.ofWire?, asRecord?, Option.bind_eq_bind,
      Option.bind_some, hrange, h.optional]
  | table => exact absurd rfl hf
  | layout =>
    change Layout.Options.ofWire? _ = Layout.Options.ofWire? _
    simp (disch := decide) only [Layout.Options.ofWire?, asRecord?, Option.bind_eq_bind,
      Option.bind_some, h.defaulted]
  | document =>
    change Layout.Document.ofWire? _ = Layout.Document.ofWire? _
    have hmapping : Wire.required RangeTable.ofWire? fields' "mapping" =
        Wire.required RangeTable.ofWire? fields _ := h.nested "mapping" .table (by decide)
    simp (disch := decide) only [Layout.Document.ofWire?, asRecord?, Option.bind_eq_bind,
      Option.bind_some, h.required, hmapping]
  | prose =>
    change Prose.Options.ofWire? _ = Prose.Options.ofWire? _
    have hmost := h.optional "max_matches" (by decide) asNat?
    simp only [Wire.optional] at hmost
    simp (disch := decide) only [Prose.Options.ofWire?, asRecord?, Option.bind_eq_bind,
      Option.bind_some, h.defaulted, hmost]
  | component =>
    change Diagram.Component.ofWire? _ = Diagram.Component.ofWire? _
    simp (disch := decide) only [Diagram.Component.ofWire?, asRecord?, Option.bind_eq_bind,
      Option.bind_some, h.required, h.optional]
  | request =>
    change Editor.Request.ofWire? _ = Editor.Request.ofWire? _
    simp (disch := decide) only [Editor.Request.ofWire?, asRecord?, Option.bind_eq_bind,
      Option.bind_some, h.optional]
  | response =>
    change Editor.Response.ofWire? _ = Editor.Response.ofWire? _
    simp (disch := decide) only [Editor.Response.ofWire?, asRecord?, Option.bind_eq_bind,
      Option.bind_some, h.required, h.optional]

/-- A step of loosening is not seen by the decoder. -/
theorem decode_of_loosens {w w' : Wire} (h : f.Loosens w w') : f.decode w' = f.decode w := by
  induction h with
  | add w hname => exact decode_of_alike hname.2.1 (alike_add hname w)
  | drop hname hunique =>
    refine decode_of_alike ?_ (alike_drop hname hunique)
    rintro rfl
    simp [slots] at hname
  | field hname _ ih =>
    refine decode_of_alike ?_ (alike_field hname ih)
    rintro rfl
    simp [slots] at hname
  | @row before after path w w' _ ih =>
    change RangeTable.ofWire? _ = RangeTable.ofWire? _
    have hentry : RangeEntry.ofWire? w' = RangeEntry.ofWire? w := ih
    simp [RangeTable.ofWire?, asTable?, hentry]
  | @item before after w w' _ ih =>
    change Node.forestOfWire? _ = Node.forestOfWire? _
    have hnode : Node.ofWire? w' = Node.ofWire? w := ih
    simp [Node.forestOfWire?, Node.listOfWire?_eq, hnode]

theorem decode_of_loosened {w w' : Wire} (h : Relation.ReflTransGen f.Loosens w w') :
    f.decode w' = f.decode w := by
  induction h with
  | refl => rfl
  | tail _ hstep ih => exact (decode_of_loosens hstep).trans ih

end Wire.Form

namespace Wire

/-- An optional value comes back if its encodings are not empty. -/
theorem nullable_ofOption {α : Type} {encode : α → Wire} {decode : Wire → Option α}
    (hnull : ∀ a, encode a ≠ .null) (h : ∀ a, decode (encode a) = some a) (o : Option α) :
    nullable decode (ofOption encode o) = some o := by
  cases o with
  | none => rfl
  | some a =>
    have hsome : nullable decode (encode a) = (decode (encode a)).map some := by
      unfold nullable
      split
      · exact absurd ‹_› (hnull a)
      · rfl
    simp only [ofOption, hsome, h, Option.map_some]

@[simp] theorem nullable_asText?_ofOption (o : Option String) :
    nullable asText? (ofOption text o) = some o := by
  apply nullable_ofOption
  · nofun
  · exact fun _ => rfl

@[simp] theorem nullable_asNat?_ofOption (o : Option Nat) :
    nullable asNat? (ofOption nat o) = some o := by
  apply nullable_ofOption
  · nofun
  · exact fun _ => rfl

theorem listOf_asText?_list (xs : List String) : listOf asText? (list (xs.map text)) = some xs := by
  change (xs.map text).mapM asText? = some xs
  induction xs with
  | nil => rfl
  | cons x xs ih => simp [asText?, ih]

@[simp] theorem nullable_listOf_ofOption (o : Option (List String)) :
    nullable (listOf asText?) (ofOption (fun xs => list (xs.map text)) o) = some o := by
  apply nullable_ofOption
  · nofun
  · exact listOf_asText?_list

end Wire

@[simp] theorem Span.ofWire?_toWire (s : Span) : Span.ofWire? s.toWire = some s := rfl

@[simp] theorem Kind.ofWire?_toWire (k : Kind) : Kind.ofWire? k.toWire = some k := by
  cases k <;> rfl

@[simp] theorem Layout.Style.ofWire?_toWire (s : Layout.Style) :
    Layout.Style.ofWire? s.toWire = some s := by
  cases s <;> rfl

@[simp] theorem Diagram.View.ofWire?_toWire (v : Diagram.View) :
    Diagram.View.ofWire? v.toWire = some v := by
  cases v <;> rfl

section Records
attribute [local simp] Wire.required Wire.optional Wire.defaulted Wire.field?_cons Wire.asText?
  Wire.asNat? Wire.asBool? Wire.asRecord? Wire.asTable?

mutual

theorem Node.ofWire?_toWire : (n : Node) → Node.ofWire? n.toWire = some n
  | ⟨kind, path, span, value, children⟩ => by
    have hchildren : Node.listOfWire? (listToWire children) = some children :=
      listOfWire?_listToWire children
    simp [toWire, ofWire?, childrenOfWire?_eq, ofFields?, forestOfWire?, hchildren]

theorem Node.listOfWire?_listToWire : (ns : List Node) → Node.listOfWire? (listToWire ns) = some ns
  | [] => rfl
  | n :: ns => by
    simp [Node.listToWire, Node.listOfWire?, ofWire?_toWire n, listOfWire?_listToWire ns]

end

@[simp] theorem RangeEntry.ofWire?_toWire (e : RangeEntry) :
    RangeEntry.ofWire? e.toWire = some e := by
  simp [toWire, ofWire?]

/-- A table comes back with its rows in order, since no two of them have the same path. -/
@[simp] theorem RangeTable.ofWire?_toWire (t : RangeTable) :
    RangeTable.ofWire? t.toWire = some t := by
  have hrows : (t.entries.map fun e => (e.1, e.2.toWire)).mapM
      (fun f => (RangeEntry.ofWire? f.2).bind fun e => some (f.1, e)) = some t.entries := by
    induction t.entries with
    | nil => rfl
    | cons e es ih => simp [ih]
  have htable : ofList t.entries = t := RangeTable.ext (entries_ofList t.distinct)
  simp [toWire, ofWire?, hrows, htable]

theorem Layout.Options.ofWire?_toWire (o : Layout.Options) :
    Layout.Options.ofWire? o.toWire = some o := by
  simp [toWire, ofWire?]

theorem Layout.Document.ofWire?_toWire (d : Layout.Document) :
    Layout.Document.ofWire? d.toWire = some d := by
  simp [toWire, ofWire?]

theorem Prose.Options.ofWire?_toWire (o : Prose.Options) :
    Prose.Options.ofWire? o.toWire = some o := by
  simp [toWire, ofWire?]

theorem Diagram.Component.ofWire?_toWire (c : Diagram.Component) :
    Diagram.Component.ofWire? c.toWire = some c := by
  simp [toWire, ofWire?]

/-- A part that is left out is read as not given. -/
theorem Editor.Request.ofWire?_toWire (r : Editor.Request) :
    Editor.Request.ofWire? r.toWire = some r := by
  obtain ⟨wordProblem, formula, hint, script⟩ := r
  cases wordProblem <;> cases formula <;> cases hint <;> cases script <;> rfl

theorem Editor.Response.ofWire?_toWire (r : Editor.Response) :
    Editor.Response.ofWire? r.toWire = some r := by
  simp [toWire, ofWire?]

end Records

namespace Wire.Form

theorem decode_encode (f : Form) (v : f.Value) : f.decode (f.encode v) = some v := by
  cases f with
  | span => exact Span.ofWire?_toWire v
  | node => exact Node.ofWire?_toWire v
  | forest => exact Node.listOfWire?_listToWire v
  | entry => exact RangeEntry.ofWire?_toWire v
  | table => exact RangeTable.ofWire?_toWire v
  | layout => exact Layout.Options.ofWire?_toWire v
  | document => exact Layout.Document.ofWire?_toWire v
  | prose => exact Prose.Options.ofWire?_toWire v
  | component => exact Diagram.Component.ofWire?_toWire v
  | request => exact Editor.Request.ofWire?_toWire v
  | response => exact Editor.Response.ofWire?_toWire v

/-- Whatever was encoded is what is decoded, and steps of loosening change nothing in it. -/
theorem decode_faithful (f : Form) :
    (∀ v : f.Value, f.decode (f.encode v) = some v) ∧
      ∀ w w' : Wire, Relation.ReflTransGen f.Loosens w w' → f.decode w' = f.decode w :=
  ⟨decode_encode f, fun _ _ h => decode_of_loosened h⟩

/-- The root loses its empty value and the child gets a field of no meaning. -/
theorem decode_faithful_child :
    Node.ofWire? (.record
      [("kind", .text "operation"), ("path", .text "/"), ("span", Span.toWire ⟨0, 9⟩),
       ("children", .list [.record
         [("note", .bool true), ("kind", .text "property"), ("path", .text "p"),
          ("span", Span.toWire ⟨2, 4⟩), ("value", .null), ("children", .list [])]])]) =
      some ⟨.operation, "/", ⟨0, 9⟩, none, [⟨.property, "p", ⟨2, 4⟩, none, []⟩]⟩ := by
  let child : Node := ⟨.property, "p", ⟨2, 4⟩, none, []⟩
  let root : Node := ⟨.operation, "/", ⟨0, 9⟩, none, [child]⟩
  let front : List (String × Wire) :=
    [("kind", .text "operation"), ("path", .text "/"), ("span", Span.toWire ⟨0, 9⟩)]
  have hdrop : node.Loosens root.toWire
      (.record (front ++ [("children", .list [child.toWire])])) :=
    @Loosens.drop node front [("children", .list [child.toWire])] "value" (by decide) (by decide)
  have hadd : node.Loosens child.toWire _ :=
    @Loosens.add node [] _ "note" (.bool true) ⟨by decide, by decide, by decide⟩
  have hfield : node.Loosens (.record (front ++ [("children", .list [child.toWire])])) _ :=
    Loosens.field (by decide) (@Loosens.item [] [] _ _ hadd)
  have hsame := (decode_faithful node).2 _ _ ((Relation.ReflTransGen.single hdrop).tail hfield)
  exact hsame.trans ((decode_faithful node).1 root)

end Wire.Form
end ProblemScript
