import SvgCompact.Color
import SvgCompact.CommandLine.Arguments
import SvgCompact.CommandLine.Run
import SvgCompact.Config
import SvgCompact.Css.Component
import SvgCompact.Css.Declaration
import SvgCompact.Css.Lexer
import SvgCompact.Css.Spelling
import SvgCompact.Css.Token
import SvgCompact.DataUri
import SvgCompact.Decimal.Binary
import SvgCompact.Decimal.Reader
import SvgCompact.Decimal.Rounding
import SvgCompact.Decimal.Shortest
import SvgCompact.Document.Basic
import SvgCompact.Document.Moves
import SvgCompact.Document.Wording
import SvgCompact.Element.Basic
import SvgCompact.Element.ClassList
import SvgCompact.Element.Inheritance
import SvgCompact.Element.Kinds
import SvgCompact.Element.Name
import SvgCompact.Element.Style
import SvgCompact.Geometry.Box
import SvgCompact.Geometry.Hull
import SvgCompact.Geometry.Overlap
import SvgCompact.Json.Decoder
import SvgCompact.Json.Draft
import SvgCompact.Json.Value
import SvgCompact.Main
import SvgCompact.Markup.Error
import SvgCompact.Markup.Piece
import SvgCompact.Markup.Printer
import SvgCompact.Markup.Reader
import SvgCompact.Markup.Reference
import SvgCompact.Markup.Tag
import SvgCompact.Optimizer
import SvgCompact.Pass.Basic
import SvgCompact.Pass.Defaults
import SvgCompact.Pass.Groups
import SvgCompact.Pass.Inlining
import SvgCompact.Pass.Merging
import SvgCompact.Pass.Order
import SvgCompact.Pass.References
import SvgCompact.Pass.Removal
import SvgCompact.Pass.Values
import SvgCompact.Path.Basic
import SvgCompact.Path.Printer
import SvgCompact.Path.Reader
import SvgCompact.Pipeline
import SvgCompact.Plugin
import SvgCompact.Proofs.Color
import SvgCompact.Proofs.Css.Cutting
import SvgCompact.Proofs.Css.Declarations
import SvgCompact.Proofs.Css.Enclosed
import SvgCompact.Proofs.Css.Gluing
import SvgCompact.Proofs.Css.Length
import SvgCompact.Proofs.Css.Lookahead
import SvgCompact.Proofs.Css.Numbers
import SvgCompact.Proofs.Css.Rejoining
import SvgCompact.Proofs.Css.Scanning
import SvgCompact.Proofs.Css.Settling
import SvgCompact.Proofs.Css.Spelling
import SvgCompact.Proofs.Css.Stopping
import SvgCompact.Proofs.Css.Tokens
import SvgCompact.Proofs.Css.Values
import SvgCompact.Proofs.DataUri
import SvgCompact.Proofs.Decimal.Bits
import SvgCompact.Proofs.Decimal.Nearest
import SvgCompact.Proofs.Decimal.Numeral
import SvgCompact.Proofs.Decimal.Order
import SvgCompact.Proofs.Decimal.ReadBack
import SvgCompact.Proofs.Decimal.Shortest
import SvgCompact.Proofs.Decimal.Sums
import SvgCompact.Proofs.Document.Branches
import SvgCompact.Proofs.Document.Copying
import SvgCompact.Proofs.Document.Cutting
import SvgCompact.Proofs.Document.Editing
import SvgCompact.Proofs.Document.Forest
import SvgCompact.Proofs.Document.Lineage
import SvgCompact.Proofs.Document.Numbering
import SvgCompact.Proofs.Document.Order
import SvgCompact.Proofs.Document.References
import SvgCompact.Proofs.Document.Relinking
import SvgCompact.Proofs.Document.Unlinking
import SvgCompact.Proofs.Document.Views
import SvgCompact.Proofs.Element.Changes
import SvgCompact.Proofs.Element.Forms
import SvgCompact.Proofs.Element.Lookup
import SvgCompact.Proofs.Element.Names
import SvgCompact.Proofs.Element.Size
import SvgCompact.Proofs.Element.Style
import SvgCompact.Proofs.Geometry.Convexity
import SvgCompact.Proofs.Geometry.Hull
import SvgCompact.Proofs.Geometry.Joined
import SvgCompact.Proofs.Geometry.Outline
import SvgCompact.Proofs.Geometry.Overlap
import SvgCompact.Proofs.Geometry.Separation
import SvgCompact.Proofs.Inlining.Applying
import SvgCompact.Proofs.Inlining.Candidate
import SvgCompact.Proofs.Inlining.Cascade
import SvgCompact.Proofs.Inlining.Disturbance
import SvgCompact.Proofs.Inlining.DroppedIds
import SvgCompact.Proofs.Inlining.Preservation
import SvgCompact.Proofs.Inlining.SheetTexts
import SvgCompact.Proofs.Inlining.Staying
import SvgCompact.Proofs.Inlining.Survival
import SvgCompact.Proofs.Inlining.WrittenBack
import SvgCompact.Proofs.Markup.Acceptance
import SvgCompact.Proofs.Markup.Building
import SvgCompact.Proofs.Markup.Front
import SvgCompact.Proofs.Markup.Growth
import SvgCompact.Proofs.Markup.Indentation
import SvgCompact.Proofs.Markup.Layout
import SvgCompact.Proofs.Markup.Printing
import SvgCompact.Proofs.Markup.Replanting
import SvgCompact.Proofs.Markup.RoundTrip
import SvgCompact.Proofs.Markup.Size
import SvgCompact.Proofs.Markup.Tags
import SvgCompact.Proofs.Markup.Writable
import SvgCompact.Proofs.Optimizer.Convergence
import SvgCompact.Proofs.Optimizer.Validity
import SvgCompact.Proofs.Order.Sorting
import SvgCompact.Proofs.Pass.Apart
import SvgCompact.Proofs.Pass.Cascading
import SvgCompact.Proofs.Pass.Clipping
import SvgCompact.Proofs.Pass.Collapsing
import SvgCompact.Proofs.Pass.Dangling
import SvgCompact.Proofs.Pass.Departing
import SvgCompact.Proofs.Pass.Editing
import SvgCompact.Proofs.Pass.Effective
import SvgCompact.Proofs.Pass.FixedPoint
import SvgCompact.Proofs.Pass.Giving
import SvgCompact.Proofs.Pass.Hidden
import SvgCompact.Proofs.Pass.Lasting
import SvgCompact.Proofs.Pass.Locality
import SvgCompact.Proofs.Pass.Merging
import SvgCompact.Proofs.Pass.Ordering
import SvgCompact.Proofs.Pass.Pruning
import SvgCompact.Proofs.Pass.Receiving
import SvgCompact.Proofs.Pass.Regrouping
import SvgCompact.Proofs.Pass.Rising
import SvgCompact.Proofs.Pass.Shrinking
import SvgCompact.Proofs.Pass.Spelling
import SvgCompact.Proofs.Pass.Stranding
import SvgCompact.Proofs.Pass.Termination
import SvgCompact.Proofs.Pass.Tracing
import SvgCompact.Proofs.Pass.Uncovering
import SvgCompact.Proofs.Pass.Unread
import SvgCompact.Proofs.Pass.Visiting
import SvgCompact.Proofs.Pass.Walks
import SvgCompact.Proofs.Path.Alphabet
import SvgCompact.Proofs.Path.Joining
import SvgCompact.Proofs.Path.RoundTrip
import SvgCompact.Proofs.Path.Rows
import SvgCompact.Proofs.Path.Scanning
import SvgCompact.Proofs.Pipeline.Editing
import SvgCompact.Proofs.Selector.Agreement
import SvgCompact.Proofs.Selector.Chains
import SvgCompact.Proofs.Selector.Equations
import SvgCompact.Proofs.Selector.Leaves
import SvgCompact.Proofs.Selector.Loops
import SvgCompact.Proofs.Selector.Names
import SvgCompact.Proofs.Selector.Places
import SvgCompact.Proofs.Selector.Positions
import SvgCompact.Proofs.Selector.Pseudos
import SvgCompact.Proofs.Selector.ReadBack
import SvgCompact.Proofs.Selector.Restyled
import SvgCompact.Proofs.Selector.Senses
import SvgCompact.Proofs.Selector.Shape
import SvgCompact.Proofs.Selector.Splitting
import SvgCompact.Proofs.Selector.Tables
import SvgCompact.Proofs.Selector.Writing
import SvgCompact.Proofs.Stylesheet.Pieces
import SvgCompact.Proofs.Stylesheet.Rereading
import SvgCompact.Proofs.Stylesheet.Selectors
import SvgCompact.Proofs.Text.Search
import SvgCompact.Proofs.Text.Trimming
import SvgCompact.Scalar
import SvgCompact.Selector.Basic
import SvgCompact.Selector.Error
import SvgCompact.Selector.Matching
import SvgCompact.Selector.Names
import SvgCompact.Selector.Nth
import SvgCompact.Selector.Printer
import SvgCompact.Selector.Reader
import SvgCompact.Stylesheet.Basic
import SvgCompact.Stylesheet.Reader
import SvgCompact.Text.Base64
import SvgCompact.Text.Blank
import SvgCompact.Text.Measure
import SvgCompact.Text.Percent
import SvgCompact.Text.Quoted
import SvgCompact.Text.Search
import SvgCompact.Text.Shown
import SvgCompact.Text.Utf8
