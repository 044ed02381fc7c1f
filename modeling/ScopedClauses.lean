import ScopedClauses.Aggregation.Shorthand
import ScopedClauses.Main
import ScopedClauses.Proofs.Query.Run
import ScopedClauses.Query.Shorthand
import ScopedClauses.Response.Selection
import ScopedClauses.Proofs.Aggregation.Displacing
import ScopedClauses.Proofs.Aggregation.Inserting
import ScopedClauses.Proofs.Aggregation.Names
import ScopedClauses.Proofs.Query.Meaning
import ScopedClauses.Proofs.Aggregation.Grouping
import ScopedClauses.Proofs.Tree.Links
import ScopedClauses.Proofs.Tree.Running
import ScopedClauses.Proofs.Json.Alike
import ScopedClauses.Proofs.Query.Legible
import ScopedClauses.Proofs.Query.Written
import ScopedClauses.Proofs.Query.Exact
import ScopedClauses.Proofs.Query.Intact
import ScopedClauses.Proofs.Query.Merging
import ScopedClauses.Proofs.Query.RoundTrip
import ScopedClauses.Proofs.Query.Normal
import ScopedClauses.Proofs.Response.Assembling
import ScopedClauses.Proofs.Response.Scopes
import ScopedClauses.Proofs.Response.Walking
import ScopedClauses.Proofs.Response.Regular
import ScopedClauses.Proofs.Tree.Hanging
import ScopedClauses.Proofs.Aggregation.Sheltered
import ScopedClauses.Proofs.Response.Collecting
import ScopedClauses.Proofs.Query.Accepted
import ScopedClauses.Proofs.Response.Selecting
import ScopedClauses.Proofs.Query.Structured
import ScopedClauses.Proofs.Query.Rescoping
import ScopedClauses.Proofs.Mapping.RoundTrip
import ScopedClauses.Proofs.Query.Conjoining
import ScopedClauses.Proofs.Aggregation.Pointer
import ScopedClauses.Proofs.Aggregation.Exact
import ScopedClauses.Proofs.Uncorrected
import ScopedClauses.Proofs.Response.Parsing
import ScopedClauses.Proofs.Response.Stable
import ScopedClauses.Proofs.Aggregation.Normal
import ScopedClauses.Proofs.Tree.Restoring
import ScopedClauses.Proofs.Scope.Shortest
import ScopedClauses.Proofs.Query.Conserving
import ScopedClauses.Proofs.Reconciled
import ScopedClauses.Proofs.Query.Naming
import ScopedClauses.Proofs.Query.Acceptance
import ScopedClauses.Proofs.Query.Grammar
import ScopedClauses.Proofs.Query.Modes
import ScopedClauses.Proofs.Tree.Copying
import ScopedClauses.Proofs.Tree.Histories
import ScopedClauses.Proofs.Mapping.Index
import ScopedClauses.Proofs.Response.Rows
import ScopedClauses.Proofs.Response.Finding
import ScopedClauses.Proofs.Response.Placed
import ScopedClauses.Proofs.Response.Filters
import ScopedClauses.Proofs.Response.Adjacency
import ScopedClauses.Proofs.Response.Histogram
