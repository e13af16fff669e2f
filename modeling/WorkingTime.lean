import WorkingTime.Capacity
import WorkingTime.Command.Effect
import WorkingTime.Command.Journal
import WorkingTime.Stored.Commands
import WorkingTime.CommandLine.Session
import WorkingTime.Main
import WorkingTime.Proofs.Answer
import WorkingTime.Proofs.Table
import WorkingTime.Proofs.Text.Blank
import WorkingTime.Proofs.Text.Decimal
import WorkingTime.Proofs.Date.Civil
import WorkingTime.Proofs.Date.Written
import WorkingTime.Proofs.Version.Chain
import WorkingTime.Proofs.Calendar.Edit
import WorkingTime.Proofs.Json.Numeral
import WorkingTime.Proofs.Json.Token
import WorkingTime.Proofs.Json.Reader
import WorkingTime.Proofs.Stored.Record
import WorkingTime.Proofs.Stored.RoundTrip
import WorkingTime.Proofs.Registry.Parents
import WorkingTime.Proofs.Registry.Operation
import WorkingTime.Proofs.Registry.Invariant
import WorkingTime.Proofs.Registry.Assembly
import WorkingTime.Proofs.Registry.Reachable
import WorkingTime.Proofs.Registry.Lineage
import WorkingTime.Proofs.Registry.Walk
import WorkingTime.Proofs.Registry.Saved
import WorkingTime.Proofs.Capacity
import WorkingTime.Proofs.Registry.Names
import WorkingTime.Proofs.Registry.InPlace
import WorkingTime.Proofs.Registry.Frame
import WorkingTime.Proofs.Registry.Past
import WorkingTime.Proofs.Registry.Agreement
import WorkingTime.Proofs.Registry.Unaffected
import WorkingTime.Proofs.Command.Operation
import WorkingTime.Proofs.Registry.Derived
import WorkingTime.Proofs.Calendar.Renumber
import WorkingTime.Proofs.Registry.Renumbered
import WorkingTime.Proofs.Registry.Issued
import WorkingTime.Proofs.Registry.History
import WorkingTime.Proofs.Command.Portable
import WorkingTime.Proofs.Command.Reordered
import WorkingTime.Proofs.CommandLine.Document
import WorkingTime.Proofs.Registry.Accepted
import WorkingTime.Proofs.Registry.Reparented
import WorkingTime.Proofs.Registry.Exceptions
import WorkingTime.Proofs.Calendar.Rules
import WorkingTime.Proofs.Registry.Visited
import WorkingTime.Proofs.Registry.RuleEdits
import WorkingTime.Proofs.Calendar.Boundary
import WorkingTime.Proofs.Date.Range
import WorkingTime.Proofs.Registry.Boundaries
import WorkingTime.Proofs.Registry.Sums
import WorkingTime.Proofs.Registry.ZeroHours
import WorkingTime.Proofs.Calendar.Selection
import WorkingTime.Proofs.Registry.Dismantled
import WorkingTime.Proofs.Registry.Copied
import WorkingTime.Proofs.Calendar.BulkHours
import WorkingTime.Proofs.Json.Double
import WorkingTime.Proofs.Stored.Commands
import WorkingTime.Proofs.Date.Order
import WorkingTime.Proofs.Stored.Exceptions
import WorkingTime.Proofs.Date.Week
import WorkingTime.Proofs.Registry.Weeks
import WorkingTime.Proofs.Registry.Search
import WorkingTime.Proofs.Date.Spelling
