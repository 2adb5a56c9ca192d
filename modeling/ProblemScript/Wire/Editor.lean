import ProblemScript.Diagram.Index
import ProblemScript.Editor.Service
import ProblemScript.Layout.Document
import ProblemScript.Prose.Matcher
import ProblemScript.Wire.Tree

/-! Interchange form of layout settings and documents, of prose settings, of diagram components,
and of what is said to the generation service and back. -/
namespace ProblemScript

namespace Layout.Style

def name : Style → String
  | pretty => "pretty"
  | minified => "minified"

def ofName? : String → Option Style
  | "pretty" => some pretty
  | "minified" => some minified
  | _ => none

def toWire (s : Style) : Wire := .text s.name

def ofWire? (w : Wire) : Option Style := w.asName?.bind ofName?

end Layout.Style

namespace Layout.Options

def toWire (o : Options) : Wire :=
  .record [("indent_width", .nat o.indentWidth), ("style", o.style.toWire)]

/-- Settings that are left out have their usual values. -/
def ofWire? (w : Wire) : Option Options := do
  let usual : Options := {}
  let fields ← w.asRecord? ["indent_width", "style"] 0
  let indentWidth ← Wire.defaulted Wire.asNat? usual.indentWidth fields "indent_width"
  let style ← Wire.defaulted Style.ofWire? usual.style fields "style"
  pure { indentWidth, style }

end Layout.Options

namespace Layout.Document

def toWire (d : Document) : Wire := .record [("text", .text d.text), ("mapping", d.table.toWire)]

def ofWire? (w : Wire) : Option Document := do
  let fields ← w.asRecord? ["text", "mapping"] 2
  let text ← Wire.required Wire.asText? fields "text"
  let table ← Wire.required RangeTable.ofWire? fields "mapping"
  pure ⟨text, table⟩

end Layout.Document

namespace Prose.Options

def toWire (o : Options) : Wire :=
  .record
    [("case_insensitive", .bool o.caseInsensitive), ("match_plurals", .bool o.matchPlurals),
     ("max_matches", .ofOption .nat o.maxMatches)]

/-- Settings that are left out have their usual values. -/
def ofWire? (w : Wire) : Option Options := do
  let usual : Options := {}
  let fields ← w.asRecord? ["case_insensitive", "match_plurals", "max_matches"] 0
  let caseInsensitive ←
    Wire.defaulted Wire.asBool? usual.caseInsensitive fields "case_insensitive"
  let matchPlurals ← Wire.defaulted Wire.asBool? usual.matchPlurals fields "match_plurals"
  let maxMatches ←
    Wire.defaulted (Wire.nullable Wire.asNat?) usual.maxMatches fields "max_matches"
  pure { caseInsensitive, matchPlurals, maxMatches }

end Prose.Options

namespace Diagram

def View.name : View → String
  | formal => "formal"
  | intuitive => "intuitive"

def View.ofName? : String → Option View
  | "formal" => some formal
  | "intuitive" => some intuitive
  | _ => none

def View.toWire (v : View) : Wire := .text v.name

def View.ofWire? (w : Wire) : Option View := w.asName?.bind ofName?

def Component.toWire (c : Component) : Wire :=
  .record
    [("kind", c.view.toWire), ("data_path", .text c.dataPath),
     ("element_id", .ofOption .text c.elementId), ("tag", .text c.tag)]

def Component.ofWire? (w : Wire) : Option Component := do
  let fields ← w.asRecord? ["kind", "data_path", "element_id", "tag"] 4
  let view ← Wire.required View.ofWire? fields "kind"
  let dataPath ← Wire.required Wire.asText? fields "data_path"
  let elementId ← Wire.optional Wire.asText? fields "element_id"
  let tag ← Wire.required Wire.asText? fields "tag"
  pure { view, dataPath, elementId, tag }

end Diagram

namespace Editor

/-- Parts of a request that are not given are left out. -/
def Request.toWire (r : Request) : Wire :=
  .record (Wire.present
    [("mwp", r.wordProblem.map .text), ("formula", r.formula.map .text),
     ("hint", r.hint.map .text), ("dsl", r.script.map .text)])

def Request.ofWire? (w : Wire) : Option Request := do
  let fields ← w.asRecord? ["mwp", "formula", "hint", "dsl"] 0
  let wordProblem ← Wire.optional Wire.asText? fields "mwp"
  let formula ← Wire.optional Wire.asText? fields "formula"
  let hint ← Wire.optional Wire.asText? fields "hint"
  let script ← Wire.optional Wire.asText? fields "dsl"
  pure { wordProblem, formula, hint, script }

def Response.toWire (r : Response) : Wire :=
  .record
    [("visual_language", .text r.script), ("svg_formal", .ofOption .text r.formalSvg),
     ("svg_intuitive", .ofOption .text r.intuitiveSvg),
     ("formal_error", .ofOption .text r.formalError),
     ("intuitive_error", .ofOption .text r.intuitiveError),
     ("missing_svg_entities", .ofOption (fun xs => .list (xs.map .text)) r.missingEntities)]

def Response.ofWire? (w : Wire) : Option Response := do
  let fields ← w.asRecord?
    ["visual_language", "svg_formal", "svg_intuitive", "formal_error", "intuitive_error",
     "missing_svg_entities"] 1
  let script ← Wire.required Wire.asText? fields "visual_language"
  let formalSvg ← Wire.optional Wire.asText? fields "svg_formal"
  let intuitiveSvg ← Wire.optional Wire.asText? fields "svg_intuitive"
  let formalError ← Wire.optional Wire.asText? fields "formal_error"
  let intuitiveError ← Wire.optional Wire.asText? fields "intuitive_error"
  let missingEntities ←
    Wire.optional (Wire.listOf Wire.asText?) fields "missing_svg_entities"
  pure { script, formalSvg, intuitiveSvg, formalError, intuitiveError, missingEntities }

end Editor
end ProblemScript
