import DotCascade.Atom
import DotCascade.Atom.Written
import DotCascade.Attributes
import DotCascade.BuildError
import DotCascade.CommandLine.Arguments
import DotCascade.CommandLine.Disk
import DotCascade.CommandLine.Path
import DotCascade.CommandLine.Run
import DotCascade.Edit
import DotCascade.Grammar.Follow
import DotCascade.Grammar.Meaning
import DotCascade.Grammar.Production
import DotCascade.Grammar.Symbol
import DotCascade.Grammar.Tree
import DotCascade.Graph.Basic
import DotCascade.Graph.Chain
import DotCascade.Graph.Nesting
import DotCascade.Graph.Same
import DotCascade.Graph.Written
import DotCascade.Main
import DotCascade.Markup.Basic
import DotCascade.Markup.Fault
import DotCascade.Markup.Reader
import DotCascade.Markup.Tag
import DotCascade.Markup.Written
import DotCascade.Proofs.Atom.Faithful
import DotCascade.Proofs.Atom.Legible
import DotCascade.Proofs.Atom.Range
import DotCascade.Proofs.Atom.RoundTrip
import DotCascade.Proofs.CommandLine.Disk
import DotCascade.Proofs.CommandLine.Documents
import DotCascade.Proofs.CommandLine.LineEnds
import DotCascade.Proofs.CommandLine.Stability
import DotCascade.Proofs.Edit.Faithful
import DotCascade.Proofs.Grammar.Agreement
import DotCascade.Proofs.Grammar.Atoms
import DotCascade.Proofs.Grammar.Correspondence
import DotCascade.Proofs.Grammar.Coverage
import DotCascade.Proofs.Grammar.Declared
import DotCascade.Proofs.Grammar.Denotation
import DotCascade.Proofs.Grammar.Joining
import DotCascade.Proofs.Grammar.Pattern
import DotCascade.Proofs.Grammar.Preservation
import DotCascade.Proofs.Grammar.Respelling
import DotCascade.Proofs.Grammar.Rules
import DotCascade.Proofs.Graph.Chains
import DotCascade.Proofs.Graph.Mentions
import DotCascade.Proofs.Graph.Merging
import DotCascade.Proofs.Graph.RoundTrip
import DotCascade.Proofs.Graph.Same
import DotCascade.Proofs.Markup.Brackets
import DotCascade.Proofs.Markup.Escaping
import DotCascade.Proofs.Markup.Extent
import DotCascade.Proofs.Markup.Normal
import DotCascade.Proofs.Markup.NormalForm
import DotCascade.Proofs.Markup.Parts
import DotCascade.Proofs.Markup.Rendition
import DotCascade.Proofs.Markup.RoundTrip
import DotCascade.Proofs.Markup.Splitting
import DotCascade.Proofs.Reading.Acceptance
import DotCascade.Proofs.Reading.Completion
import DotCascade.Proofs.Reading.Concatenation
import DotCascade.Proofs.Reading.Contexts
import DotCascade.Proofs.Reading.Cut
import DotCascade.Proofs.Reading.Expected
import DotCascade.Proofs.Reading.Gaps
import DotCascade.Proofs.Reading.Insertion
import DotCascade.Proofs.Reading.Keywords
import DotCascade.Proofs.Reading.Lookahead
import DotCascade.Proofs.Reading.Pieces
import DotCascade.Proofs.Reading.Positions
import DotCascade.Proofs.Reading.Renders
import DotCascade.Proofs.Reading.Respelling
import DotCascade.Proofs.Reading.Results
import DotCascade.Proofs.Reading.Scans
import DotCascade.Proofs.Reading.Seams
import DotCascade.Proofs.Reading.Segments
import DotCascade.Proofs.Reading.Spaced
import DotCascade.Proofs.Reading.Spelling
import DotCascade.Proofs.Reading.States
import DotCascade.Proofs.Reading.Steps
import DotCascade.Proofs.Reading.Tracking
import DotCascade.Proofs.Reading.ViablePrefix
import DotCascade.Proofs.Reading.Words
import DotCascade.Proofs.Stylesheet.Atoms
import DotCascade.Proofs.Stylesheet.AttributeOrder
import DotCascade.Proofs.Stylesheet.Cascade
import DotCascade.Proofs.Stylesheet.Defaults
import DotCascade.Proofs.Stylesheet.Expansion
import DotCascade.Proofs.Stylesheet.Idempotence
import DotCascade.Proofs.Stylesheet.Names
import DotCascade.Proofs.Stylesheet.Pipeline
import DotCascade.Proofs.Stylesheet.Precedence
import DotCascade.Proofs.Stylesheet.Reordering
import DotCascade.Proofs.Stylesheet.RoundTrip
import DotCascade.Proofs.Stylesheet.RuleTexts
import DotCascade.Proofs.Stylesheet.Selectors
import DotCascade.Reading.Failure
import DotCascade.Reading.Gap
import DotCascade.Reading.Lexeme
import DotCascade.Reading.Progress
import DotCascade.Reading.Source
import DotCascade.Reading.Stack
import DotCascade.Reading.State
import DotCascade.Reading.Tracking
import DotCascade.Stylesheet.Basic
import DotCascade.Stylesheet.Cascade
import DotCascade.Stylesheet.Written
import DotCascade.Text.Blank
import DotCascade.Text.ControlSequence
import DotCascade.Text.Cursor
import DotCascade.Text.Decoded
import DotCascade.Text.Letters
import DotCascade.Text.Numeral
import DotCascade.Text.Pieces
import DotCascade.Text.Position
import DotCascade.Text.Printable
import DotCascade.Text.Quoted
