import Restyle.Aliases
import Restyle.Binary
import Restyle.Binding
import Restyle.Bracket
import Restyle.CommandLine
import Restyle.Declaration
import Restyle.Expansion
import Restyle.Fault
import Restyle.FileTree
import Restyle.Fragments
import Restyle.Glob
import Restyle.Lexeme
import Restyle.Lexeme.Scan
import Restyle.Main
import Restyle.Module
import Restyle.Moment
import Restyle.Output
import Restyle.Plan
import Restyle.Proofs.Aliases.Requests
import Restyle.Proofs.Bracket.Balance
import Restyle.Proofs.Bracket.Depth
import Restyle.Proofs.Bracket.Search
import Restyle.Proofs.Declaration.Extent
import Restyle.Proofs.Declaration.Listing
import Restyle.Proofs.Declaration.Phrases
import Restyle.Proofs.Declaration.Plain
import Restyle.Proofs.Declaration.PropertyName
import Restyle.Proofs.Declaration.Reading
import Restyle.Proofs.Declaration.Sections
import Restyle.Proofs.Declaration.Spelled
import Restyle.Proofs.Declaration.Words
import Restyle.Proofs.Edit.Simultaneous
import Restyle.Proofs.Edit.Substitution
import Restyle.Proofs.Expansion.Accounts
import Restyle.Proofs.Expansion.Amended
import Restyle.Proofs.Expansion.Arrays
import Restyle.Proofs.Expansion.Asked
import Restyle.Proofs.Expansion.Calls
import Restyle.Proofs.Expansion.Complete
import Restyle.Proofs.Expansion.Dropped
import Restyle.Proofs.Expansion.Echoes
import Restyle.Proofs.Expansion.Faults
import Restyle.Proofs.Expansion.Fidelity
import Restyle.Proofs.Expansion.Imports
import Restyle.Proofs.Expansion.Inert
import Restyle.Proofs.Expansion.LeftAlone
import Restyle.Proofs.Expansion.Located
import Restyle.Proofs.Expansion.Metadata
import Restyle.Proofs.Expansion.Nested
import Restyle.Proofs.Expansion.Remade
import Restyle.Proofs.Expansion.Repeated
import Restyle.Proofs.Expansion.Residual
import Restyle.Proofs.Expansion.RuntimeImport
import Restyle.Proofs.Expansion.Statements
import Restyle.Proofs.Expansion.Written
import Restyle.Proofs.FileTree.Writing
import Restyle.Proofs.Fragments.Growth
import Restyle.Proofs.Fragments.Replay
import Restyle.Proofs.Fragments.Sequence
import Restyle.Proofs.Lexeme.Context
import Restyle.Proofs.Lexeme.Ends
import Restyle.Proofs.Lexeme.Extent
import Restyle.Proofs.Lexeme.Machine
import Restyle.Proofs.Lexeme.Nesting
import Restyle.Proofs.Lexeme.Regex
import Restyle.Proofs.Lexeme.Rules
import Restyle.Proofs.Lexeme.Steps
import Restyle.Proofs.Location.Caret
import Restyle.Proofs.Module.Parsed
import Restyle.Proofs.Module.Reproduced
import Restyle.Proofs.Outcome
import Restyle.Proofs.Output.Aliased
import Restyle.Proofs.Output.Complete
import Restyle.Proofs.Output.Copied
import Restyle.Proofs.Output.Elements
import Restyle.Proofs.Output.Lossless
import Restyle.Proofs.Output.Outline
import Restyle.Proofs.Output.Pieces
import Restyle.Proofs.Output.Recast
import Restyle.Proofs.Output.Replaced
import Restyle.Proofs.Output.Seen
import Restyle.Proofs.Output.Stops
import Restyle.Proofs.Output.Woven
import Restyle.Proofs.Output.Writing
import Restyle.Proofs.Output.Yields
import Restyle.Proofs.Plan.Trace
import Restyle.Proofs.Run.Accounted
import Restyle.Proofs.Run.Recorded
import Restyle.Proofs.Run.Verbatim
import Restyle.Proofs.Settings.Placeholder
import Restyle.Proofs.Template.Cooked
import Restyle.Proofs.Template.Inert
import Restyle.Proofs.Template.Reread
import Restyle.Proofs.Text
import Restyle.Proofs.Token.Braces
import Restyle.Proofs.Token.Copy
import Restyle.Proofs.Token.Ends
import Restyle.Proofs.Token.Everywhere
import Restyle.Proofs.Token.Faults
import Restyle.Proofs.Token.Lockstep
import Restyle.Proofs.Token.Placement
import Restyle.Proofs.Token.Pushing
import Restyle.Proofs.Token.Reading
import Restyle.Proofs.Token.Run
import Restyle.Proofs.Token.Standing
import Restyle.Proofs.Token.Trim
import Restyle.Proofs.Use.Arguments
import Restyle.Proofs.Use.Enclosed
import Restyle.Proofs.Use.Entries
import Restyle.Proofs.Use.Extent
import Restyle.Proofs.Use.Faults
import Restyle.Proofs.Use.Found
import Restyle.Proofs.Use.Layout
import Restyle.Proofs.Use.Scanned
import Restyle.Proofs.Use.Shapes
import Restyle.Proofs.Use.Standing
import Restyle.Registry
import Restyle.Registry.Packaged
import Restyle.Run
import Restyle.Run.Stage
import Restyle.Settings
import Restyle.Settings.Reader
import Restyle.Split
import Restyle.Text
import Restyle.Text.Printable
import Restyle.Text.Word
import Restyle.Token
import Restyle.Token.Reader
import Restyle.Use
import Restyle.Use.Match
import Restyle.Use.Parts
import Restyle.Use.Roles
import Restyle.Use.Weight
import Restyle.Value
import Restyle.Value.Json
import Restyle.Yaml.Block
import Restyle.Yaml.Document
import Restyle.Yaml.Node
import Restyle.Yaml.Plain
import Restyle.Yaml.Scalar
import Restyle.Yaml.Scan
import Restyle.Yaml.Token
