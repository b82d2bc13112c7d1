import CallGraph.Build
import CallGraph.Calls
import CallGraph.Command.Args
import CallGraph.Command.Run
import CallGraph.Decimal.Shortest
import CallGraph.Decl
import CallGraph.Decl.Form
import CallGraph.Decl.Kind
import CallGraph.Decl.MethodTable
import CallGraph.Graph
import CallGraph.Graph.Node
import CallGraph.Graph.Order
import CallGraph.Graph.Print
import CallGraph.Identity
import CallGraph.Json.Basic
import CallGraph.Json.Decode
import CallGraph.Json.Literal
import CallGraph.Json.Number
import CallGraph.Json.Printer
import CallGraph.Json.Reader
import CallGraph.Json.Record
import CallGraph.Json.Token
import CallGraph.Key
import CallGraph.Key.Mangling
import CallGraph.Main
import CallGraph.Options
import CallGraph.Options.Form
import CallGraph.Report
import CallGraph.SourceUnit
import CallGraph.SourceUnit.Form
import CallGraph.SourceUnit.Validation
import CallGraph.Stmt
import CallGraph.Stmt.Form
import CallGraph.Text.Blank
import CallGraph.Text.Bytes
import CallGraph.Text.Pieces
import CallGraph.Text.Printable
import CallGraph.Text.Quoted
import CallGraph.Traversal
import CallGraph.UnitFile
import CallGraph.Proofs.Session
import CallGraph.Proofs.Traversal
import CallGraph.Proofs.Contents
import CallGraph.Proofs.CallEdges
import CallGraph.Proofs.Nodes
import CallGraph.Proofs.Overrides
import CallGraph.Proofs.OneUnit
import CallGraph.Proofs.Order
import CallGraph.Proofs.Codes
import CallGraph.Proofs.Forms
import CallGraph.Proofs.Signatures
import CallGraph.Proofs.Reordering
import CallGraph.Proofs.JsonText
import CallGraph.Proofs.Queries
import CallGraph.Proofs.References
import CallGraph.Proofs.RoundTrip
import CallGraph.Proofs.Counts
import CallGraph.Proofs.Reports
import CallGraph.Proofs.KeyListing
import CallGraph.Proofs.FunctionPointers
import CallGraph.Proofs.Inclusion
import CallGraph.Proofs.Linking
import CallGraph.Proofs.Checked
import CallGraph.Proofs.NestedText
import CallGraph.Proofs.ReadAhead
import CallGraph.Proofs.UnitFiles
import CallGraph.Proofs.Chains
import CallGraph.Proofs.Redeclarations
import CallGraph.Proofs.Identities
import CallGraph.Proofs.KeyOwners
import CallGraph.Proofs.Superclasses
import CallGraph.Proofs.FirstVisits
import CallGraph.Proofs.UnitErrors
import CallGraph.Proofs.Repetition
import CallGraph.Proofs.RecordSpellings
import CallGraph.Proofs.StatementSpellings
import CallGraph.Proofs.UnitSpellings
import CallGraph.Proofs.BlockSearch
import CallGraph.Proofs.Drawing
import CallGraph.Proofs.Growth
