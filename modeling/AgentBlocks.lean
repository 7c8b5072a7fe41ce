import AgentBlocks.Main
import AgentBlocks.Project.Program
import AgentBlocks.Proofs.Registry.Coherence
import AgentBlocks.Proofs.Catalog.Slots
import AgentBlocks.Proofs.Walk.Depth
import AgentBlocks.Proofs.Walk.Step
import AgentBlocks.Proofs.Walk.Route
import AgentBlocks.Proofs.Workspace.Graph
import AgentBlocks.Session
import AgentBlocks.Proofs.Walk.Soundness
import AgentBlocks.Proofs.Walk.Totality
import AgentBlocks.Proofs.Expression.Tokens
import AgentBlocks.Proofs.Expression.Grammar
import AgentBlocks.Proofs.Expression.Spelling
import AgentBlocks.Proofs.Catalog.Nodes
import AgentBlocks.Proofs.Expression.Vocabulary
import AgentBlocks.Proofs.Expression.RoundTrip
import AgentBlocks.Proofs.Registry.Persistence
import AgentBlocks.Proofs.Session.Run
import AgentBlocks.Proofs.Workspace.Order
import AgentBlocks.Proofs.Walk.Expansion
import AgentBlocks.Proofs.Walk.Moment
import AgentBlocks.Proofs.Walk.Termination
import AgentBlocks.Proofs.Registry.Observation
import AgentBlocks.Proofs.Registry.Declarations
import AgentBlocks.Proofs.Walk.Locality
import AgentBlocks.Proofs.Walk.Moved
import AgentBlocks.Proofs.Json.RoundTrip
import AgentBlocks.Proofs.Project.RoundTrip
import AgentBlocks.Proofs.Workspace.Renaming
import AgentBlocks.Proofs.Walk.Renaming
import AgentBlocks.Proofs.Text.Lines
import AgentBlocks.Proofs.Text.Rows
import AgentBlocks.Proofs.Catalog.Endings
import AgentBlocks.Proofs.Walk.Widths
import AgentBlocks.Proofs.Text.Brackets
import AgentBlocks.Proofs.Text.Inline
import AgentBlocks.Proofs.Catalog.Framing
import AgentBlocks.Proofs.Walk.Assembly
import AgentBlocks.Proofs.Catalog.Wording
import AgentBlocks.Proofs.Walk.Layout
import AgentBlocks.Proofs.Outline.Reading
import AgentBlocks.Proofs.Outline.Beginnings
import AgentBlocks.Proofs.Outline.Nesting
import AgentBlocks.Proofs.Outline.RoundTrip
import AgentBlocks.Proofs.Workspace.Reach
import AgentBlocks.Proofs.Walk.Reach
import AgentBlocks.Proofs.Session.Log
import AgentBlocks.Proofs.Session.Reopening
import AgentBlocks.Proofs.Session.Edits
import AgentBlocks.Proofs.Session.Options
import AgentBlocks.Proofs.Text.Skeleton
import AgentBlocks.Proofs.Catalog.Inert
import AgentBlocks.Proofs.Walk.Fields
import AgentBlocks.Proofs.Files.Place
import AgentBlocks.Proofs.Files.Tree
import AgentBlocks.Proofs.CommandLine.Agreement
import AgentBlocks.Proofs.Registry.Replay
import AgentBlocks.Proofs.Registry.Naming
import AgentBlocks.Proofs.Walk.Blame
import AgentBlocks.Proofs.Expression.Parentheses
import AgentBlocks.Proofs.Registry.Addressing
import AgentBlocks.Proofs.Registry.Extent
import AgentBlocks.Proofs.Registry.Undo
import AgentBlocks.Proofs.Registry.Redeclaration
import AgentBlocks.Proofs.Text.Bytes
import AgentBlocks.Proofs.Workspace.TopLevel
import AgentBlocks.Proofs.Text.Literal
import AgentBlocks.Proofs.Walk.Literals
import AgentBlocks.Proofs.Walk.SameRules
import AgentBlocks.Proofs.Catalog.DeclaredNames
import AgentBlocks.Proofs.Walk.Respelled
import AgentBlocks.Proofs.Text.EndLines
import AgentBlocks.Proofs.Catalog.EndWords
import AgentBlocks.Proofs.Walk.Occurrences
import AgentBlocks.Proofs.Walk.EndLines
import AgentBlocks.Proofs.Registry.Cascades
import AgentBlocks.Proofs.Registry.Listing
import AgentBlocks.Proofs.Catalog.DerivedWords
import AgentBlocks.Proofs.Catalog.NameTokens
import AgentBlocks.Proofs.Catalog.Registration
import AgentBlocks.Proofs.Walk.Calls
import AgentBlocks.Proofs.Number.Rounding
import AgentBlocks.Proofs.Number.Reading
import AgentBlocks.Proofs.Number.Written
import AgentBlocks.Proofs.Project.Fields
import AgentBlocks.Proofs.Catalog.PlainNumbers
