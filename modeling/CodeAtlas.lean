import CodeAtlas.Main
import CodeAtlas.Store.Memory
import CodeAtlas.Store.Unreliable
import CodeAtlas.Proofs.SortedMap
import CodeAtlas.Proofs.Table.Edges
import CodeAtlas.Proofs.Table.Cells
import CodeAtlas.Proofs.Table.Symbols
import CodeAtlas.Proofs.Table.Updates
import CodeAtlas.Proofs.Table.Placeholders
import CodeAtlas.Proofs.Project.Marking
import CodeAtlas.Proofs.Project.Tracking
import CodeAtlas.Proofs.Project.Beginning
import CodeAtlas.Proofs.Project.Steps
import CodeAtlas.Proofs.Project.Collection
import CodeAtlas.Proofs.Project.Resolution
import CodeAtlas.Proofs.Project.Working
import CodeAtlas.Proofs.Store.Memory
import CodeAtlas.Proofs.Scope
import CodeAtlas.Proofs.Project.Delivery
import CodeAtlas.Proofs.Project.Histories
import CodeAtlas.Proofs.Resolve.Findings
import CodeAtlas.Proofs.Project.Agreement
import CodeAtlas.Proofs.Table.Integrity
import CodeAtlas.Proofs.Table.Ledger
import CodeAtlas.Proofs.Project.Synchrony
import CodeAtlas.Proofs.Project.Account
import CodeAtlas.Proofs.Project.Leftovers
import CodeAtlas.Proofs.Project.Recovery
import CodeAtlas.Proofs.Table.Namespaces
import CodeAtlas.Proofs.Table.Recomputation
import CodeAtlas.Proofs.Table.Reports
import CodeAtlas.Proofs.Table.Commits
import CodeAtlas.Proofs.Project.Catalogue
import CodeAtlas.Proofs.Project.Removals
import CodeAtlas.Proofs.Project.Endpoints
import CodeAtlas.Proofs.Project.Frame
import CodeAtlas.Proofs.Project.Alike
import CodeAtlas.Proofs.Project.AlikePasses
import CodeAtlas.Proofs.Project.Isolation
import CodeAtlas.Proofs.Project.Retries
import CodeAtlas.Proofs.Resolve.Arrival
import CodeAtlas.Proofs.Resolve.Sources
import CodeAtlas.Proofs.Query.Cycles
import CodeAtlas.Proofs.Resolve.Inheritance
import CodeAtlas.Proofs.Store.Rows
import CodeAtlas.Proofs.Project.Declarations
import CodeAtlas.Proofs.Project.Closing
import CodeAtlas.Proofs.Project.Rewriting
import CodeAtlas.Proofs.Project.Rest
import CodeAtlas.Proofs.Project.Repetition
import CodeAtlas.Proofs.Project.Resync
import CodeAtlas.Proofs.Project.Restoring
import CodeAtlas.Proofs.Resolve.Committing
import CodeAtlas.Proofs.Resolve.Definitions
import CodeAtlas.Proofs.Resolve.Scores
import CodeAtlas.Proofs.Table.Listing
import CodeAtlas.Proofs.Table.Changes
import CodeAtlas.Proofs.Table.Cascades
import CodeAtlas.Proofs.Table.Snapshots
import CodeAtlas.Proofs.Project.Batching
import CodeAtlas.Proofs.Project.Repairs
import CodeAtlas.Proofs.Equality
import CodeAtlas.Proofs.Table.Repeats
import CodeAtlas.Proofs.Table.Sketched
import CodeAtlas.Proofs.Collector.Notes
import CodeAtlas.Proofs.Collector.Overloads
import CodeAtlas.Proofs.Collector.Scopes
