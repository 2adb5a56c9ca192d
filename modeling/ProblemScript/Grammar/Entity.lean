import ProblemScript.Grammar.Field
import ProblemScript.Text.Line
import ProblemScript.Tree.Node

/-! Entities `type[key: value, ...]`. A property takes the range of its line, cut down to its
entity; its items share that range. -/
namespace ProblemScript

/-- A property found in a text: where its key starts, and its value as written. -/
structure PropertySource where
  key : List Char
  position : Nat
  value : List Char
deriving DecidableEq, Repr

/-- An entity found in a text, by absolute byte offsets. -/
structure EntitySource where
  type : List Char
  span : Span
  properties : List PropertySource
deriving DecidableEq, Repr

namespace PropertySource

/-- The property node at the given path, for an entity with range `bounds` in `text`. -/
def node (text : List Char) (path : String) (bounds : Span) (p : PropertySource) : Node :=
  let span := Text.lineWithin text p.position bounds
  let items := Value.items p.value
  ⟨.property, path, span, some (Value.join items), Node.itemsOf path span items⟩

/-- The properties of a body that starts at byte offset `start`. -/
def ofBody (start : Nat) (body : List Char) : List PropertySource :=
  (Field.ofBody body).map fun f => ⟨f.key, start + f.keyOffset, f.rawValue body⟩

end PropertySource

namespace EntitySource

open Text

/-- The segment `raw` at byte offset `start`, if it has the form of an entity. -/
def ofSegment? (start : Nat) (raw : List Char) : Option EntitySource :=
  let type := leadingName raw
  match type, trimStart (raw.drop type.length) with
  | _ :: _, '[' :: rest =>
    if raw.getLast? = some ']' then
      some
        { type, span := ⟨start, start + byteLength raw⟩,
          properties :=
            PropertySource.ofBody (start + (byteLength raw - byteLength rest)) rest.dropLast }
    else none
  | _, _ => none

/-- The node of an entity at the given path. -/
def node (text : List Char) (path : String) (e : EntitySource) : Node where
  kind := .ofType (.ofList e.type)
  path := path
  span := e.span
  value := some (.ofList e.type)
  children := e.properties.map fun p =>
    p.node text (Path.propertyIn path (.ofList p.key)) e.span

/-- The first key that does not lie at a character boundary of `text`. -/
def strayKey? (text : List Char) (e : EntitySource) : Option Nat :=
  (e.properties.map (·.position)).find? fun pos => !decide (IsBoundary text pos)

/-- The entity with its offsets as 64-bit words: those past the end of the range wrap around. -/
def wrapped (e : EntitySource) : EntitySource :=
  { e with
    span := ⟨e.span.start % Span.wordBound, e.span.stop % Span.wordBound⟩
    properties := e.properties.map fun p => { p with position := p.position % Span.wordBound } }

end EntitySource

namespace Node

/-- Reads `raw` as the entity at slot `index` of the operation written `parent`, where it is said
to start at byte `start` of `text`. There is no node when `raw` does not have the form of an
entity. -/
def ofEntity (raw : String) (index start : Nat) (parent text : String) :
    Except Text.OutsideText (Option Node) :=
  match EntitySource.ofSegment? start raw.toList with
  | none => .ok none
  | some e =>
    match e.wrapped.strayKey? text.toList with
    | some pos => .error ⟨pos⟩
    | none => .ok (some (e.wrapped.node text.toList (Path.slotIn parent index)))

end Node
end ProblemScript
