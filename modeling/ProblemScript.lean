import ProblemScript.Diagram.Index
import ProblemScript.Diagram.Markup
import ProblemScript.Editor.Selection
import ProblemScript.Editor.Service
import ProblemScript.Editor.Session
import ProblemScript.Editor.TextEdit
import ProblemScript.Grammar.Bracket
import ProblemScript.Grammar.Entity
import ProblemScript.Grammar.Field
import ProblemScript.Grammar.Script
import ProblemScript.Grammar.Segment
import ProblemScript.Grammar.Value
import ProblemScript.Layout.Document
import ProblemScript.Layout.Options
import ProblemScript.Numeric.Binary64
import ProblemScript.Numeric.Quantity
import ProblemScript.Path.Basic
import ProblemScript.Path.Limits
import ProblemScript.Path.Reader
import ProblemScript.Path.Text
import ProblemScript.Prose.Matcher
import ProblemScript.RangeTable
import ProblemScript.Span
import ProblemScript.Text.Blank
import ProblemScript.Text.Bytes
import ProblemScript.Text.CaseFold
import ProblemScript.Text.CharRange
import ProblemScript.Text.Decimal
import ProblemScript.Text.DecimalDigit
import ProblemScript.Text.Identifier
import ProblemScript.Text.Line
import ProblemScript.Text.Occurrence
import ProblemScript.Text.WordChar
import ProblemScript.Tree.Cursor
import ProblemScript.Tree.Edit
import ProblemScript.Tree.Lookup
import ProblemScript.Tree.Node
import ProblemScript.Tree.Traversal
import ProblemScript.Wire.Basic
import ProblemScript.Wire.Editor
import ProblemScript.Wire.Tree
import ProblemScript.Proofs.Text.Blank
import ProblemScript.Proofs.Grammar.Depth
import ProblemScript.Proofs.Grammar.Split
import ProblemScript.Proofs.Grammar.Listed
import ProblemScript.Proofs.Grammar.Reading
import ProblemScript.Proofs.Grammar.Call
import ProblemScript.Proofs.Text.Place
import ProblemScript.Proofs.Grammar.Tree
import ProblemScript.Proofs.Grammar.Source
import ProblemScript.Proofs.Grammar.Written
import ProblemScript.Proofs.Grammar.Recovery
import ProblemScript.Proofs.Tree.Regular
import ProblemScript.Proofs.Tree.Shape
import ProblemScript.Proofs.Tree.Edit
import ProblemScript.Proofs.Tree.Paths
import ProblemScript.Proofs.Tree.Descent
import ProblemScript.Proofs.Path.Codec
import ProblemScript.Proofs.Path.Syntax
import ProblemScript.Proofs.Path.Ancestry
import ProblemScript.Proofs.Tree.Spelling
import ProblemScript.Proofs.Tree.Placement
import ProblemScript.Proofs.Tree.Position
import ProblemScript.Proofs.Tree.Leads
import ProblemScript.Proofs.Tree.Role
import ProblemScript.Proofs.Tree.Change
import ProblemScript.Proofs.Tree.Lens
import ProblemScript.Proofs.Tree.Locality
import ProblemScript.Proofs.Tree.Address
import ProblemScript.Proofs.RangeTable
import ProblemScript.Proofs.Layout.Row
import ProblemScript.Proofs.Layout.Draft
import ProblemScript.Proofs.Layout.Grammatical
import ProblemScript.Proofs.Layout.Shape
import ProblemScript.Proofs.Layout.Reread
import ProblemScript.Proofs.Layout.Loss
import ProblemScript.Proofs.Layout.RoundTrip
import ProblemScript.Proofs.Editor.Lockstep
import ProblemScript.Proofs.Editor.Snapshot
import ProblemScript.Proofs.Tree.Lookup
import ProblemScript.Proofs.Tree.Search
import ProblemScript.Proofs.Tree.Walk
import ProblemScript.Proofs.Tree.Cursor
import ProblemScript.Proofs.Tree.Narrowest
import ProblemScript.Proofs.Editor.Highlight
import ProblemScript.Proofs.Tree.Refusal
import ProblemScript.Proofs.Grammar.Surroundings
import ProblemScript.Proofs.Layout.Parts
import ProblemScript.Proofs.Layout.Lines
import ProblemScript.Proofs.Grammar.Cuts
import ProblemScript.Proofs.Grammar.Grouping
import ProblemScript.Proofs.Grammar.Slices
import ProblemScript.Proofs.Grammar.SlicedScript
import ProblemScript.Proofs.Layout.Extents
import ProblemScript.Proofs.Layout.Ranges
import ProblemScript.Proofs.Grammar.Canonical
import ProblemScript.Proofs.Grammar.Overclosing
import ProblemScript.Proofs.Grammar.Pairing
import ProblemScript.Proofs.Prose.Boundaries
import ProblemScript.Proofs.Prose.Merging
import ProblemScript.Proofs.Diagram.Nearest
import ProblemScript.Proofs.Text.Occurrence
import ProblemScript.Proofs.Diagram.Rendered
import ProblemScript.Proofs.Diagram.Patterns
import ProblemScript.Proofs.Wire.Forms
