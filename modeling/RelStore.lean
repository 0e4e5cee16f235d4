import RelStore.Action
import RelStore.Arrangement
import RelStore.BTree.Basic
import RelStore.BTree.Comparing
import RelStore.BTree.Cursor
import RelStore.BTree.Insertion
import RelStore.BTree.Node
import RelStore.BTree.Removal
import RelStore.BTree.Slots
import RelStore.BTree.Store
import RelStore.Coercion
import RelStore.ColumnName
import RelStore.Database
import RelStore.Error
import RelStore.Halving
import RelStore.Http.Connection
import RelStore.Http.Host
import RelStore.Http.Incoming
import RelStore.Http.Message
import RelStore.Http.Service
import RelStore.Http.Settings
import RelStore.Http.Target
import RelStore.Joining
import RelStore.Json.Reader
import RelStore.Json.Value
import RelStore.Json.Writer
import RelStore.Main
import RelStore.Mapping
import RelStore.Number.Binary64
import RelStore.Number.Decimal
import RelStore.Number.Reading
import RelStore.Pattern
import RelStore.Predicate
import RelStore.Result
import RelStore.Row
import RelStore.Schema
import RelStore.Snapshot
import RelStore.Sorting.Basic
import RelStore.Sorting.Merge
import RelStore.Sorting.Run
import RelStore.Sql.Parser
import RelStore.Sql.Printer
import RelStore.Sql.Scan
import RelStore.Sql.Statement
import RelStore.Sql.Token
import RelStore.Table
import RelStore.Table.Actions
import RelStore.Text.Basic
import RelStore.Text.Blank
import RelStore.Text.Case
import RelStore.Text.DecimalDigit
import RelStore.Text.Encoding
import RelStore.Text.Folding
import RelStore.Text.Printable
import RelStore.Text.Quoted
import RelStore.Text.Splitting
import RelStore.Text.Utf8
import RelStore.Value
import RelStore.Proofs.Decimals
import RelStore.Proofs.KeyOrder
import RelStore.Proofs.BTree.Contents
import RelStore.Proofs.BTree.Search
import RelStore.Proofs.BTree.Insertion
import RelStore.Proofs.BTree.Removal
import RelStore.Proofs.BTree.WellKept
import RelStore.Proofs.BTree.Multimap
import RelStore.Proofs.BTree.History
import RelStore.Proofs.Mapping
import RelStore.Proofs.Outcome
import RelStore.Proofs.Action
import RelStore.Proofs.Coercion
import RelStore.Proofs.Encoding
import RelStore.Proofs.Table.Rows
import RelStore.Proofs.Table.Coverage
import RelStore.Proofs.Table.Consistency
import RelStore.Proofs.Table.Building
import RelStore.Proofs.Table.Actions
import RelStore.Proofs.Table.History
import RelStore.Proofs.Table.Targets
import RelStore.Proofs.Table.Uniqueness
import RelStore.Proofs.References
import RelStore.Proofs.Joining.Sources
import RelStore.Proofs.Joining.Reading
import RelStore.Proofs.Database.Actions
import RelStore.Proofs.Database.History
import RelStore.Proofs.Sql.WellRead
import RelStore.Proofs.Joining.Qualified
import RelStore.Proofs.Database.Failure
import RelStore.Proofs.Table.Admission
import RelStore.Proofs.Table.Replay
import RelStore.Proofs.Table.Remaking
import RelStore.Proofs.Snapshot.Loading
import RelStore.Proofs.Database.Agreement
import RelStore.Proofs.Snapshot.RoundTrip
import RelStore.Proofs.Table.Typing
import RelStore.Proofs.Joining.Attribution
import RelStore.Proofs.Joining.Kinds
import RelStore.Proofs.Numerals
import RelStore.Proofs.ValueOrder
import RelStore.Proofs.Snapshot.Numbering
import RelStore.Proofs.Table.Contents
import RelStore.Proofs.Table.Layout
import RelStore.Proofs.Table.Effects
import RelStore.Proofs.Database.Layout
import RelStore.Proofs.Joining.Filtering
import RelStore.Proofs.Joining.Exchange
import RelStore.Proofs.Sql.Reading
import RelStore.Proofs.Sql.Clauses
import RelStore.Proofs.Sql.Definitions
import RelStore.Proofs.Sql.RoundTrip
import RelStore.Proofs.Database.Independence
import RelStore.Proofs.Http.Framing
import RelStore.Proofs.Http.Pipelining
import RelStore.Proofs.Http.Answering
import RelStore.Proofs.Http.Receiving
import RelStore.Proofs.Sql.Retention
import RelStore.Proofs.BTree.Occupancy
import RelStore.Proofs.BTree.Listing
import RelStore.Proofs.BTree.Comparing
import RelStore.Proofs.BTree.Kept
import RelStore.Proofs.BTree.Range
import RelStore.Proofs.BTree.Height
import RelStore.Proofs.BTree.Store.Cells
import RelStore.Proofs.BTree.Store.Subtrees
import RelStore.Proofs.BTree.Store.Search
import RelStore.Proofs.BTree.Store.Splitting
import RelStore.Proofs.BTree.Store.Insertion
import RelStore.Proofs.BTree.Store.Release
import RelStore.Proofs.BTree.Store.Removal
import RelStore.Proofs.BTree.Store.Runs
import RelStore.Proofs.BTree.Store.Shape
import RelStore.Proofs.BTree.Store.Nesting
import RelStore.Proofs.BTree.Store.Maximum
import RelStore.Proofs.Sorting.Gallop
import RelStore.Proofs.Sorting.Merge
import RelStore.Proofs.Sorting.Runs
import RelStore.Proofs.Sorting.Stable
import RelStore.Proofs.Arrangement
import RelStore.Proofs.Joining.Narrowing
import RelStore.Proofs.Pattern
import RelStore.Proofs.Sorting.Elements
import RelStore.Proofs.Table.Filling
import RelStore.Proofs.Joining.Lookups
import RelStore.Proofs.Sql.Tiling
import RelStore.Proofs.Sql.Placement
import RelStore.Proofs.Sql.Spacing
