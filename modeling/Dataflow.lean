import Dataflow.Command.Arguments
import Dataflow.Command.Files
import Dataflow.Command.Help
import Dataflow.Command.Perform
import Dataflow.Config
import Dataflow.Config.Json
import Dataflow.Config.Override
import Dataflow.Digest
import Dataflow.Engine.Error
import Dataflow.Engine.Eval
import Dataflow.Engine.Records
import Dataflow.Engine.Relation
import Dataflow.Engine.Run
import Dataflow.Engine.Stages
import Dataflow.Engine.Storage
import Dataflow.Error
import Dataflow.Expr.Basic
import Dataflow.Expr.Formula
import Dataflow.Graph.Basic
import Dataflow.Graph.Copy
import Dataflow.Graph.Edit
import Dataflow.Graph.Fault
import Dataflow.Graph.Isomorphism
import Dataflow.Graph.Order
import Dataflow.Graph.Walk
import Dataflow.Id
import Dataflow.Json.Basic
import Dataflow.Json.Fault
import Dataflow.Json.Reader
import Dataflow.Location
import Dataflow.Main
import Dataflow.Number.Binary
import Dataflow.Number.Decimal
import Dataflow.Number.Width
import Dataflow.Operator.Basic
import Dataflow.Plan.Basic
import Dataflow.Plan.Derive
import Dataflow.Plan.MapKeys
import Dataflow.Plan.Schemas
import Dataflow.Plan.Text
import Dataflow.Plan.Validate
import Dataflow.Proofs.Command.Acts
import Dataflow.Proofs.Command.Files
import Dataflow.Proofs.Command.Inputs
import Dataflow.Proofs.Command.Outputs
import Dataflow.Proofs.Engine.Agreement
import Dataflow.Proofs.Engine.Distinct
import Dataflow.Proofs.Engine.Fitting
import Dataflow.Proofs.Engine.Jobs
import Dataflow.Proofs.Engine.Joins
import Dataflow.Proofs.Engine.Operations
import Dataflow.Proofs.Engine.Outcome
import Dataflow.Proofs.Engine.Outputs
import Dataflow.Proofs.Engine.Pruned
import Dataflow.Proofs.Engine.Pruning
import Dataflow.Proofs.Engine.Records
import Dataflow.Proofs.Engine.Running
import Dataflow.Proofs.Engine.Stages
import Dataflow.Proofs.Engine.Timely
import Dataflow.Proofs.Engine.Widths
import Dataflow.Proofs.Formula.Building
import Dataflow.Proofs.Formula.Conjunction
import Dataflow.Proofs.Formula.Conjuncts
import Dataflow.Proofs.Formula.Evaluation
import Dataflow.Proofs.Formula.Legible
import Dataflow.Proofs.Formula.Planting
import Dataflow.Proofs.Formula.Readable
import Dataflow.Proofs.Formula.Tree
import Dataflow.Proofs.Formula.Typing
import Dataflow.Proofs.Formula.Undone
import Dataflow.Proofs.Formula.Unfolding
import Dataflow.Proofs.Formula.Value
import Dataflow.Proofs.Graph.Calls
import Dataflow.Proofs.Graph.Clone
import Dataflow.Proofs.Graph.Copy
import Dataflow.Proofs.Graph.Cycles
import Dataflow.Proofs.Graph.Edit
import Dataflow.Proofs.Graph.Fresh
import Dataflow.Proofs.Graph.Isomorphism
import Dataflow.Proofs.Graph.Order
import Dataflow.Proofs.Graph.Reach
import Dataflow.Proofs.Graph.Refused
import Dataflow.Proofs.Graph.Turns
import Dataflow.Proofs.Graph.Typing
import Dataflow.Proofs.Graph.WellFormed
import Dataflow.Proofs.Json.Line
import Dataflow.Proofs.Json.Reading
import Dataflow.Proofs.Json.RoundTrip
import Dataflow.Proofs.Json.Tokens
import Dataflow.Proofs.Lists
import Dataflow.Proofs.Location.Canonical
import Dataflow.Proofs.Number.Rounding
import Dataflow.Proofs.Pass
import Dataflow.Proofs.Plan.Checked
import Dataflow.Proofs.Plan.Clone
import Dataflow.Proofs.Plan.Coherent
import Dataflow.Proofs.Plan.Columns
import Dataflow.Proofs.Plan.Edit
import Dataflow.Proofs.Plan.Entries
import Dataflow.Proofs.Plan.Growth
import Dataflow.Proofs.Plan.History
import Dataflow.Proofs.Plan.Identities
import Dataflow.Proofs.Plan.Issued
import Dataflow.Proofs.Plan.Layout
import Dataflow.Proofs.Plan.Ledger
import Dataflow.Proofs.Plan.Legible
import Dataflow.Proofs.Plan.Lineage
import Dataflow.Proofs.Plan.MapKeys
import Dataflow.Proofs.Plan.Mirror
import Dataflow.Proofs.Plan.Noted
import Dataflow.Proofs.Plan.Outline
import Dataflow.Proofs.Plan.Rederive
import Dataflow.Proofs.Plan.Repeats
import Dataflow.Proofs.Plan.Requests
import Dataflow.Proofs.Plan.Separation
import Dataflow.Proofs.Plan.Typing
import Dataflow.Proofs.Plan.Unnamed
import Dataflow.Proofs.Plan.Unnumbered
import Dataflow.Proofs.Plan.Valid
import Dataflow.Proofs.Rescan.Agreement
import Dataflow.Proofs.Rescan.Crossing
import Dataflow.Proofs.Rescan.Descent
import Dataflow.Proofs.Rescan.Edits
import Dataflow.Proofs.Rescan.Flow
import Dataflow.Proofs.Rescan.Merging
import Dataflow.Proofs.Rescan.Moving
import Dataflow.Proofs.Rescan.Net
import Dataflow.Proofs.Rescan.Pruning
import Dataflow.Proofs.Rescan.Pushdown
import Dataflow.Proofs.Rescan.Rounds
import Dataflow.Proofs.Rescan.Sources
import Dataflow.Proofs.Rescan.Splitting
import Dataflow.Proofs.Rewrite.Attempts
import Dataflow.Proofs.Rewrite.Default
import Dataflow.Proofs.Rewrite.Eligible
import Dataflow.Proofs.Rewrite.Embeddings
import Dataflow.Proofs.Rewrite.Faithful
import Dataflow.Proofs.Rewrite.Filters
import Dataflow.Proofs.Rewrite.Fixpoint
import Dataflow.Proofs.Rewrite.Impassable
import Dataflow.Proofs.Rewrite.Intact
import Dataflow.Proofs.Rewrite.Meaning
import Dataflow.Proofs.Rewrite.Opportunities
import Dataflow.Proofs.Rewrite.Places
import Dataflow.Proofs.Rewrite.Reached
import Dataflow.Proofs.Rewrite.Refinement
import Dataflow.Proofs.Rewrite.Reports
import Dataflow.Proofs.Rewrite.Revisits
import Dataflow.Proofs.Rewrite.Runs
import Dataflow.Proofs.Rewrite.Schemas
import Dataflow.Proofs.Rewrite.Search
import Dataflow.Proofs.Rewrite.Splitting
import Dataflow.Proofs.Rewrite.Steps
import Dataflow.Proofs.Rewrite.Transforms
import Dataflow.Proofs.Rewrite.Undone
import Dataflow.Proofs.Schema.Legible
import Dataflow.Proofs.Schema.Merging
import Dataflow.Proofs.Schema.Strip
import Dataflow.Proofs.Script.Drafts
import Dataflow.Proofs.Script.Drawing
import Dataflow.Proofs.Script.Histories
import Dataflow.Proofs.Script.Lasting
import Dataflow.Proofs.Script.Places
import Dataflow.Proofs.Script.Rejection
import Dataflow.Proofs.Script.Reordering
import Dataflow.Proofs.Script.Sessions
import Dataflow.Proofs.Script.Subplans
import Dataflow.Proofs.Sorting.Naturality
import Dataflow.Proofs.Text.Parts
import Dataflow.Proofs.Text.Separation
import Dataflow.Proofs.Value.Order
import Dataflow.Proofs.Value.Plain
import Dataflow.Rewrite.FilterRules
import Dataflow.Rewrite.Optimizer
import Dataflow.Rewrite.Pattern
import Dataflow.Schema.Basic
import Dataflow.Schema.DataType
import Dataflow.Schema.Json
import Dataflow.Script.Basic
import Dataflow.Script.Draft
import Dataflow.Script.Expression
import Dataflow.Script.Session
import Dataflow.Script.Statement
import Dataflow.Sorting.Block
import Dataflow.Sorting.Runs
import Dataflow.Text.Basic
import Dataflow.Text.Utf8
import Dataflow.Text.Visible
import Dataflow.Value.Basic
import Dataflow.Value.Text
import Dataflow.Yaml.Character
import Dataflow.Yaml.Document
import Dataflow.Yaml.Layout
import Dataflow.Yaml.Node
import Dataflow.Yaml.Record
import Dataflow.Yaml.Scalar
import Dataflow.Yaml.Tag
import Dataflow.Yaml.Value
import Dataflow.Yaml.Writer
