import Schemata.Calendar.Date
import Schemata.Calendar.Instant
import Schemata.Calendar.Reading
import Schemata.Change.Apply
import Schemata.Change.Basic
import Schemata.Collection.Ascending
import Schemata.Collection.Keyed
import Schemata.Console.Arguments
import Schemata.Console.Emitter
import Schemata.Console.Fault
import Schemata.Console.Json
import Schemata.Console.Page
import Schemata.Console.Run
import Schemata.Console.Settings
import Schemata.Console.Style
import Schemata.Console.Usage
import Schemata.Datum
import Schemata.Ddl.Render
import Schemata.Ddl.Script
import Schemata.Ddl.Statement
import Schemata.Diff.Basic
import Schemata.Diff.Between
import Schemata.Diff.Creation
import Schemata.Diff.Deletion
import Schemata.Diff.Revision
import Schemata.Digest.Sha256
import Schemata.Document.Change
import Schemata.Document.Field
import Schemata.Document.Migration
import Schemata.Document.Model
import Schemata.Engine.Adapter
import Schemata.Engine.Directory
import Schemata.Engine.Migrate
import Schemata.Engine.Plan
import Schemata.Engine.Status
import Schemata.Engine.World
import Schemata.EngineName
import Schemata.Failure
import Schemata.History.Chain
import Schemata.History.Label
import Schemata.History.Migration
import Schemata.History.Name
import Schemata.History.Replay
import Schemata.Ledger.Entry
import Schemata.Ledger.Files
import Schemata.Ledger.Memory
import Schemata.Ledger.Verify
import Schemata.Main
import Schemata.Number.Binary64
import Schemata.Number.Shortest
import Schemata.Schema.Draft
import Schemata.Schema.Field
import Schemata.Schema.Index
import Schemata.Schema.Model
import Schemata.Schema.Normal
import Schemata.Schema.State
import Schemata.Store.Disk
import Schemata.Store.Path
import Schemata.Text.Blank
import Schemata.Text.CaseTable
import Schemata.Text.Digits
import Schemata.Text.Lowercase
import Schemata.Text.Pieces
import Schemata.Text.Quoted
import Schemata.Toml.Assembly
import Schemata.Toml.Item
import Schemata.Toml.Number
import Schemata.Toml.Quoted
import Schemata.Toml.Reader
import Schemata.Toml.Writer
import Schemata.Proofs.Collection
import Schemata.Proofs.History.Linear
import Schemata.Proofs.Schema.Same
import Schemata.Proofs.Schema.Alike
import Schemata.Proofs.Change.Locality
import Schemata.Proofs.Change.WellFormed
import Schemata.Proofs.Change.Attempts
import Schemata.Proofs.Change.Paired
import Schemata.Proofs.Change.Batches
import Schemata.Proofs.Change.Fields
import Schemata.Proofs.Change.Commuting
import Schemata.Proofs.Change.Alike
import Schemata.Proofs.Change.Renaming
import Schemata.Proofs.Schema.Normal
import Schemata.Proofs.Schema.Columns
import Schemata.Proofs.Schema.Indexes
import Schemata.Proofs.Change.Indexes
import Schemata.Proofs.Diff.Revision
import Schemata.Proofs.Diff.Creation
import Schemata.Proofs.Diff.Parts
import Schemata.Proofs.Diff.Deletion
import Schemata.Proofs.Diff.RoundTrip
import Schemata.Proofs.History.Replay
import Schemata.Proofs.Change.References
import Schemata.Proofs.Diff.Between
import Schemata.Proofs.Diff.References
import Schemata.Proofs.Engine.Script
import Schemata.Proofs.Engine.Transactions
import Schemata.Proofs.Engine.FieldOrder
import Schemata.Proofs.Ddl.Alike
import Schemata.Proofs.Ddl.Alteration
import Schemata.Proofs.Ddl.Catalogue
import Schemata.Proofs.Ddl.Typing
import Schemata.Proofs.Ddl.Roster
import Schemata.Proofs.Ddl.Constraining
import Schemata.Proofs.Diff.Vacating
import Schemata.Proofs.Ddl.Collision
import Schemata.Proofs.Diff.Order
import Schemata.Proofs.Ddl.Lookup
import Schemata.Proofs.Ddl.Targets
import Schemata.Proofs.Store.Path
import Schemata.Proofs.Store.Disk
import Schemata.Proofs.Ledger.Files
import Schemata.Proofs.Calendar.Date
import Schemata.Proofs.Text.Digits
import Schemata.Proofs.Calendar.Reading
import Schemata.Proofs.Toml.Quoted
import Schemata.Proofs.Toml.Lines
import Schemata.Proofs.Ledger.Entry
import Schemata.Proofs.Engine.Ledger
import Schemata.Proofs.Engine.Refusal
import Schemata.Proofs.Engine.Migrate
import Schemata.Proofs.Document.Data
import Schemata.Proofs.Document.Migration
import Schemata.Proofs.Document.Identity
import Schemata.Proofs.Change.Settled
import Schemata.Proofs.Diff.Emptiness
import Schemata.Proofs.Diff.Sparing
import Schemata.Proofs.Diff.Circles
import Schemata.Proofs.Diff.Recorded
import Schemata.Proofs.Store.Ways
import Schemata.Proofs.Engine.Directory
import Schemata.Proofs.History.Name
import Schemata.Proofs.History.Growth
import Schemata.Proofs.History.Faults
import Schemata.Proofs.History.Search
import Schemata.Proofs.Engine.Make
import Schemata.Proofs.Ledger.Keeping
import Schemata.Proofs.Ledger.Position
import Schemata.Proofs.Ledger.Fitting
import Schemata.Proofs.Engine.Interchange
import Schemata.Proofs.Engine.Keeping
import Schemata.Proofs.Engine.Standing
import Schemata.Proofs.Engine.Carry
import Schemata.Proofs.Engine.Stages
import Schemata.Proofs.Engine.Course
import Schemata.Proofs.Ddl.Registry
import Schemata.Proofs.Ddl.Reindexing
import Schemata.Proofs.Diff.Indexing
import Schemata.Proofs.Diff.Registered
import Schemata.Proofs.Diff.Constrained
import Schemata.Proofs.Store.Steady
import Schemata.Proofs.Engine.Views
import Schemata.Proofs.Engine.Parallel
import Schemata.Proofs.Engine.Isolation
import Schemata.Proofs.Engine.Adapter
import Schemata.Proofs.Console.Emitter
import Schemata.Proofs.Console.Migrating
import Schemata.Proofs.Store.Spares
import Schemata.Proofs.Console.Output
import Schemata.Proofs.Engine.Upkeep
import Schemata.Proofs.Console.Entries
import Schemata.Proofs.Console.Command
import Schemata.Proofs.History.Label
import Schemata.Proofs.History.Naming
import Schemata.Proofs.Engine.Locking
import Schemata.Proofs.Engine.Drafting
import Schemata.Proofs.Engine.Rehearsal
import Schemata.Proofs.Text.Quoted
import Schemata.Proofs.Ddl.Checks
