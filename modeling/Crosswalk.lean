import Crosswalk.Command.Arguments
import Crosswalk.Command.Directory
import Crosswalk.Command.Request
import Crosswalk.Command.Run
import Crosswalk.Diagnostic
import Crosswalk.Dictionary
import Crosswalk.Forest
import Crosswalk.Main
import Crosswalk.Mapping
import Crosswalk.Markup.Event
import Crosswalk.Markup.Reference
import Crosswalk.Markup.Scan
import Crosswalk.Operator
import Crosswalk.Path
import Crosswalk.Path.Text
import Crosswalk.Program.Block
import Crosswalk.Program.Emission
import Crosswalk.Program.Focus
import Crosswalk.Program.Generation
import Crosswalk.Program.Numbering
import Crosswalk.Program.Scopes
import Crosswalk.Program.Script
import Crosswalk.Proofs.Context
import Crosswalk.Proofs.Names
import Crosswalk.Proofs.Scoping
import Crosswalk.Proofs.Tracking
import Crosswalk.Schema.Declaration
import Crosswalk.Schema.Error
import Crosswalk.Schema.Reading
import Crosswalk.Schema.Record
import Crosswalk.Schema.Reference
import Crosswalk.Schema.Resolution
import Crosswalk.Snippet
import Crosswalk.SortedMap
import Crosswalk.Tag
import Crosswalk.Tag.Text
import Crosswalk.Text.Blank
import Crosswalk.Text.Case
import Crosswalk.Text.Literal
import Crosswalk.Text.Numeral
import Crosswalk.Text.Printed
import Crosswalk.Text.Quoted
import Crosswalk.Text.Split
import Crosswalk.Tree.Edit
import Crosswalk.Tree.Instance
import Crosswalk.Tree.Node
import Crosswalk.Vocabulary
import Crosswalk.Vocabulary.Text
import Crosswalk.Proofs.Document
import Crosswalk.Proofs.Marks
import Crosswalk.Proofs.Coverage
import Crosswalk.Proofs.Layout
import Crosswalk.Proofs.Focus
import Crosswalk.Proofs.Edit
import Crosswalk.Proofs.Attachment
import Crosswalk.Proofs.Resolution
import Crosswalk.Proofs.Position
import Crosswalk.Proofs.Reference
import Crosswalk.Proofs.Expansion
import Crosswalk.Proofs.Inlining
import Crosswalk.Proofs.Origin
import Crosswalk.Proofs.Tables
import Crosswalk.Proofs.Sites
import Crosswalk.Proofs.Translation
import Crosswalk.Proofs.Sequence
import Crosswalk.Proofs.Variants
import Crosswalk.Proofs.Elements
import Crosswalk.Proofs.FixedFields
import Crosswalk.Proofs.JoinedText
import Crosswalk.Proofs.Navigation
import Crosswalk.Proofs.TagText
import Crosswalk.Proofs.PathText
import Crosswalk.Proofs.Reading
import Crosswalk.Proofs.Address
import Crosswalk.Proofs.Definitions
import Crosswalk.Proofs.Padding
import Crosswalk.Proofs.Extension
import Crosswalk.Proofs.Consistency
import Crosswalk.Proofs.Selection
import Crosswalk.Proofs.Listing
import Crosswalk.Proofs.Balance
import Crosswalk.Proofs.TagGrammar
import Crosswalk.Proofs.PathRendering
import Crosswalk.Proofs.OpenScopes
import Crosswalk.Proofs.Hoisting
import Crosswalk.Proofs.Writing
import Crosswalk.Proofs.Iteration
import Crosswalk.Proofs.SnippetLines
import Crosswalk.Proofs.SnippetText
import Crosswalk.Proofs.SharedScopes
import Crosswalk.Proofs.JoinedInputs
import Crosswalk.Proofs.Trimming
import Crosswalk.Proofs.Dictionary
import Crosswalk.Proofs.SnippetContent
import Crosswalk.Proofs.Capture
import Crosswalk.Proofs.Validation
import Crosswalk.Proofs.Recognition
import Crosswalk.Proofs.Truncation
import Crosswalk.Proofs.Streaming
import Crosswalk.Proofs.Preorder
import Crosswalk.Proofs.Filling
import Crosswalk.Proofs.Arena
import Crosswalk.Proofs.MappingText
import Crosswalk.Proofs.PathAlgebra
import Crosswalk.Proofs.PathOrder
import Crosswalk.Proofs.Components
import Crosswalk.Proofs.Literal
import Crosswalk.Proofs.FreshName
