import ProblemScript.Layout.Options
import ProblemScript.RangeTable
import ProblemScript.Grammar.Value
import ProblemScript.Text.Line

/-! Scripts laid out from trees. A document is the text together with the range of every part of
it. Paths are given by position; those that the nodes carry are not looked at. -/
namespace ProblemScript.Layout

open Text

/-- A laid-out text and its ranges. -/
structure Document where
  text : String
  table : RangeTable
deriving DecidableEq

/-- Where a part of a document lies: from one byte to another, or the line of a key within its
entity, which is known once the whole text is. -/
inductive Extent where
  | exact (span : Span)
  | line (key : Nat) (bounds : Span)
deriving DecidableEq, Repr

/-- The range that an extent takes up in the finished text. -/
def Extent.range (text : List Char) : Extent → Span
  | exact span => span
  | line key bounds => lineWithin text key bounds

/-- A part of a document under its path. -/
structure Mark where
  path : String
  extent : Extent
  value : Option String
deriving DecidableEq, Repr

/-- Text in the making, with the marks of its parts in pre-order. -/
structure Draft where
  chars : List Char
  marks : List Mark
deriving DecidableEq, Repr

/-- The value that a property is written with. Items win over the value stored beside them. -/
def propertyValue (n : Node) : String :=
  if n.children.isEmpty then n.value.getD "" else Value.join (n.children.map (·.value.getD ""))

/-- A property as written: the key, a colon, and the value if it is not empty. -/
def propertyChars (n : Node) : List Char :=
  let value := (propertyValue n).toList
  (n.key?.getD "").toList ++ ':' :: if value.isEmpty then [] else ' ' :: value

/-- The properties of an entity, the first of which has number `index`. -/
def propertiesChars (o : Options) (depth : Nat) : (index : Nat) → List Node → List Char
  | _, [] => []
  | index, n :: ns =>
    o.lead depth index ++ propertyChars n ++ propertiesChars o depth (index + 1) ns

/-- The marks of a property whose key stands at byte `key`, and of its items. -/
def propertyMarks (owner : String) (bounds : Span) (key : Nat) (n : Node) : List Mark :=
  let path := Path.propertyIn owner (n.key?.getD "")
  ⟨path, .line key bounds, some (propertyValue n)⟩ ::
    n.children.mapIdx fun j item => ⟨Path.itemIn path j, .line key bounds, item.value⟩

/-- The marks of properties that are written from byte `start` on. -/
def propertiesMarks (o : Options) (owner : String) (bounds : Span) (depth : Nat) :
    (index start : Nat) → List Node → List Mark
  | _, _, [] => []
  | index, start, n :: ns =>
    let key := start + byteLength (o.lead depth index)
    propertyMarks owner bounds key n ++
      propertiesMarks o owner bounds depth (index + 1) (key + byteLength (propertyChars n)) ns

/-- The type that an entity is written with. -/
def entityType (n : Node) : String :=
  n.value.getD (if n.kind = .container then Kind.containerType else "entity")

/-- An entity at the given path and nesting level, written from byte `start` on. -/
def entityDraft (o : Options) (path : String) (depth start : Nat) (n : Node) : Draft :=
  let properties := n.children.filter (·.kind == .property)
  let opening := (entityType n).toList ++ ['[']
  let chars := opening ++ propertiesChars o (depth + 1) 0 properties ++
    o.tail depth properties.length ++ [']']
  let span : Span := ⟨start, start + byteLength chars⟩
  { chars
    marks := ⟨path, .exact span, some (entityType n)⟩ ::
      propertiesMarks o path span (depth + 1) 0 (start + byteLength opening) properties }

/-- Number of children that take up a slot. -/
def slotCount (ns : List Node) : Nat := ns.countP (·.kind != .property)

mutual

/-- An operation at the given path and nesting level, written from byte `start` on. -/
def operationDraft (o : Options) (path : String) (depth start : Nat) : Node → Draft
  | ⟨_, _, _, value, children⟩ =>
    let opening := (value.getD "").toList ++ ['(']
    let slots := slotsDraft o path (depth + 1) 0 (start + byteLength opening) children
    let chars := opening ++ slots.chars ++ o.tail depth (slotCount children) ++ [')']
    ⟨chars, ⟨path, .exact ⟨start, start + byteLength chars⟩, value⟩ :: slots.marks⟩

/-- The slots of the operation written `owner`, the first of which has number `index`. Properties
among the nodes are passed over. -/
def slotsDraft (o : Options) (owner : String) (depth : Nat) :
    (index start : Nat) → List Node → Draft
  | _, _, [] => ⟨[], []⟩
  | index, start, n :: ns =>
    if n.kind = .property then slotsDraft o owner depth index start ns
    else
      let lead := o.lead depth index
      let slot := Path.slotIn owner index
      let here := start + byteLength lead
      let draft :=
        if n.kind = .operation then operationDraft o (Path.operationIn slot) depth here n
        else entityDraft o slot depth here n
      let rest := slotsDraft o owner depth (index + 1) (here + byteLength draft.chars) ns
      ⟨lead ++ draft.chars ++ rest.chars, draft.marks ++ rest.marks⟩

end

/-- A finished draft as a document. -/
def Document.ofDraft (d : Draft) : Document where
  text := .ofList d.chars
  table := .ofList (d.marks.map fun m => (m.path, ⟨m.extent.range d.chars, m.value⟩))

/-- The draft of a tree. Only an operation can be laid out, and the placeholder has no text. -/
def draft (o : Options) (tree : Node) : Draft :=
  if tree.isPlaceholder || tree.kind != .operation then ⟨[], []⟩
  else operationDraft o Path.operationWord 0 0 tree

/-- Lays out a tree. -/
def document (o : Options) (tree : Node) : Document := .ofDraft (draft o tree)

/-- A tree on one line. -/
def minify (tree : Node) : String := (document .minified tree).text

end ProblemScript.Layout
