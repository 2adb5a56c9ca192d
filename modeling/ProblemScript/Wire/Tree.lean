import ProblemScript.Path.Reader
import ProblemScript.RangeTable
import ProblemScript.Wire.Basic

/-! Interchange form of paths, ranges, trees and range tables. -/
namespace ProblemScript

namespace Path

def toWire (p : Path) : Wire := .text p.text

def ofWire? (w : Wire) : Option Path := do
  match parse (← w.asText?) with
  | .ok p => some p
  | .error _ => none

end Path

namespace Span

def toWire (s : Span) : Wire := .record [("start", .nat s.start), ("end", .nat s.stop)]

def ofWire? (w : Wire) : Option Span := do
  let fields ← w.asRecord? ["start", "end"] 2
  let start ← Wire.required Wire.asNat? fields "start"
  let stop ← Wire.required Wire.asNat? fields "end"
  pure ⟨start, stop⟩

end Span

namespace Kind

def name : Kind → String
  | operation => "operation"
  | entity => "entity"
  | container => "container"
  | property => "property"

def ofName? : String → Option Kind
  | "operation" => some operation
  | "entity" => some entity
  | "container" => some container
  | "property" => some property
  | _ => none

def toWire (k : Kind) : Wire := .text k.name

def ofWire? (w : Wire) : Option Kind := w.asName?.bind ofName?

end Kind

namespace Node

mutual

def toWire : Node → Wire
  | ⟨kind, path, span, value, children⟩ =>
    .record
      [("kind", kind.toWire), ("path", .text path), ("span", span.toWire),
       ("value", .ofOption .text value), ("children", .list (listToWire children))]

def listToWire : List Node → List Wire
  | [] => []
  | n :: ns => n.toWire :: listToWire ns

end

/-- A node from its fields, apart from the children. -/
def ofFields? (fields : List (String × Wire)) (children : List Node) : Option Node := do
  let kind ← Wire.required Kind.ofWire? fields "kind"
  let path ← Wire.required Wire.asText? fields "path"
  let span ← Wire.required Span.ofWire? fields "span"
  let value ← Wire.optional Wire.asText? fields "value"
  pure ⟨kind, path, span, value, children⟩

mutual

/-- Decodes a tree. The children are decoded along with the search for their field. -/
def ofWire? : Wire → Option Node
  | .record fields => (childrenOfWire? fields).bind (ofFields? fields)
  | .list [kind, path, span, value, children] =>
    (forestOfWire? children).bind
      (ofFields? [("kind", kind), ("path", path), ("span", span), ("value", value)])
  | _ => none

/-- The trees in the field that holds the children. -/
def childrenOfWire? : List (String × Wire) → Option (List Node)
  | [] => none
  | (name, w) :: fields => if name = "children" then forestOfWire? w else childrenOfWire? fields

def forestOfWire? : Wire → Option (List Node)
  | .list items => listOfWire? items
  | _ => none

def listOfWire? : List Wire → Option (List Node)
  | [] => some []
  | w :: ws => do
    let n ← ofWire? w
    let ns ← listOfWire? ws
    pure (n :: ns)

end

end Node

namespace RangeEntry

def toWire (e : RangeEntry) : Wire :=
  .record [("range", e.range.toWire), ("property_value", .ofOption .text e.value)]

def ofWire? (w : Wire) : Option RangeEntry := do
  let fields ← w.asRecord? ["range", "property_value"] 2
  let range ← Wire.required Span.ofWire? fields "range"
  let value ← Wire.optional Wire.asText? fields "property_value"
  pure ⟨range, value⟩

end RangeEntry

namespace RangeTable

/-- A table is a record with the paths as names. -/
def toWire (t : RangeTable) : Wire := .record (t.entries.map fun e => (e.1, e.2.toWire))

def ofWire? (w : Wire) : Option RangeTable := do
  let entries ← (← w.asTable?).mapM fun f => do pure (f.1, ← RangeEntry.ofWire? f.2)
  pure (ofList entries)

end RangeTable
end ProblemScript
