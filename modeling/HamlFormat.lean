import HamlFormat.Doc.Basic
import HamlFormat.Doc.Breaks
import HamlFormat.Doc.Describe
import HamlFormat.Fault
import HamlFormat.Json.Access
import HamlFormat.Json.Basic
import HamlFormat.Json.Escape
import HamlFormat.Json.Literal
import HamlFormat.Json.Read
import HamlFormat.Json.Write
import HamlFormat.Layout.Fits
import HamlFormat.Layout.Machine
import HamlFormat.Layout.Measure
import HamlFormat.Layout.Page
import HamlFormat.Layout.Render
import HamlFormat.Number.Binary64
import HamlFormat.Number.Decimal
import HamlFormat.Parser.External
import HamlFormat.Parser.Journal
import HamlFormat.Print.Markup
import HamlFormat.Print.Ruby
import HamlFormat.Print.Source
import HamlFormat.Print.Tag
import HamlFormat.Session
import HamlFormat.Settings
import HamlFormat.Spaces
import HamlFormat.Text.Basic
import HamlFormat.Text.Blank
import HamlFormat.Text.Combining
import HamlFormat.Text.Margin
import HamlFormat.Text.Printable
import HamlFormat.Text.Ranges
import HamlFormat.Text.Trim
import HamlFormat.Text.Utf8
import HamlFormat.Text.Wide
import HamlFormat.Text.Width
import HamlFormat.Tree.Capability
import HamlFormat.Tree.Item
import HamlFormat.Tree.Markup
import HamlFormat.Tree.Node
import HamlFormat.Tree.Read
import HamlFormat.Tree.Ruby
import HamlFormat.Tree.Trail
import HamlFormat.Tree.Write
import HamlFormat.Proofs.Text.Width
import HamlFormat.Proofs.Text.Lines
import HamlFormat.Proofs.Text.Trim
import HamlFormat.Proofs.Doc.Shape
import HamlFormat.Proofs.Layout.Step
import HamlFormat.Proofs.Layout.Completion
import HamlFormat.Proofs.Layout.Margin
import HamlFormat.Proofs.Layout.Fits
import HamlFormat.Proofs.Layout.Column
import HamlFormat.Proofs.Layout.Content
import HamlFormat.Proofs.Layout.Preservation
import HamlFormat.Proofs.Layout.Width
import HamlFormat.Proofs.Layout.Rows
import HamlFormat.Proofs.Fault
import HamlFormat.Proofs.Print.Ruby
import HamlFormat.Proofs.Json.Access
import HamlFormat.Proofs.Tree.Normal
import HamlFormat.Proofs.Tree.Inversion
import HamlFormat.Proofs.Tree.Kinds
import HamlFormat.Proofs.Tree.RoundTrip
import HamlFormat.Proofs.Json.Names
import HamlFormat.Proofs.Layout.Fixed
import HamlFormat.Proofs.Tree.Shape
import HamlFormat.Proofs.Print.Outline
import HamlFormat.Proofs.Print.Format
import HamlFormat.Proofs.Print.Nesting
import HamlFormat.Proofs.Layout.Alike
import HamlFormat.Proofs.Number.Rounding
import HamlFormat.Proofs.Layout.Normalize
import HamlFormat.Proofs.Print.Keys
import HamlFormat.Proofs.Layout.Flat
import HamlFormat.Proofs.Number.Decimal
import HamlFormat.Proofs.Json.Number
import HamlFormat.Proofs.Json.Strings
import HamlFormat.Proofs.Json.RoundTrip
import HamlFormat.Proofs.Json.Sort
import HamlFormat.Proofs.Tree.Names
import HamlFormat.Proofs.Tree.Sorted
import HamlFormat.Proofs.Tree.TextRoundTrip
import HamlFormat.Proofs.Layout.Lines
import HamlFormat.Proofs.Layout.Shift
import HamlFormat.Proofs.Layout.Depth
import HamlFormat.Proofs.Json.Failure
import HamlFormat.Proofs.Layout.Tabs
import HamlFormat.Proofs.Parser.Containment
import HamlFormat.Proofs.Layout.Failure
import HamlFormat.Proofs.Print.Demand
import HamlFormat.Proofs.Print.Totality
import HamlFormat.Proofs.Session.Scope
import HamlFormat.Proofs.Session.Blocks
import HamlFormat.Proofs.Doc.Describe
import HamlFormat.Proofs.Layout.Decision
import HamlFormat.Proofs.Layout.Placement
import HamlFormat.Proofs.Layout.Wrap
import HamlFormat.Proofs.Print.Header
import HamlFormat.Proofs.Print.Page
import HamlFormat.Proofs.Doc.Preorder
import HamlFormat.Proofs.Layout.Rejection
import HamlFormat.Proofs.Layout.Obedience
import HamlFormat.Proofs.Layout.Whole
import HamlFormat.Proofs.Layout.Greedy
import HamlFormat.Proofs.Print.Hash
import HamlFormat.Proofs.Layout.Ahead
import HamlFormat.Proofs.Print.Element
import HamlFormat.Proofs.Text.Margin
import HamlFormat.Proofs.Print.Block
import HamlFormat.Proofs.Print.Comment
import HamlFormat.Proofs.Tree.Trail
import HamlFormat.Proofs.Tree.Walk
import HamlFormat.Proofs.Tree.Callback
import HamlFormat.Proofs.Print.Classes
import HamlFormat.Proofs.Layout.Outcome
import HamlFormat.Proofs.Print.Composition
import HamlFormat.Proofs.Print.Literals
import HamlFormat.Proofs.Print.Interpolation
import HamlFormat.Proofs.Layout.Position
import HamlFormat.Proofs.Doc.Sharing
import HamlFormat.Proofs.Layout.Loop
