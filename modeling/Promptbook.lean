import Promptbook.Body.Check
import Promptbook.Body.Fill
import Promptbook.Calendar.Basic
import Promptbook.Calendar.Iso
import Promptbook.Catalog.Basic
import Promptbook.Catalog.Definition
import Promptbook.Catalog.Load
import Promptbook.Failure
import Promptbook.Failure.Construct
import Promptbook.Fault
import Promptbook.Files.Document
import Promptbook.Files.Path
import Promptbook.Files.Tree
import Promptbook.Guard
import Promptbook.Heap.Basic
import Promptbook.Heap.Copy
import Promptbook.Heap.Display
import Promptbook.Heap.Equal
import Promptbook.Heap.Shape
import Promptbook.Json.Basic
import Promptbook.Json.OfValue
import Promptbook.Json.Reader
import Promptbook.Kind
import Promptbook.Ledger.Basic
import Promptbook.Ledger.Report
import Promptbook.LogLevel
import Promptbook.Number.Binary64
import Promptbook.Number.Numeral
import Promptbook.Number.Shortest
import Promptbook.Placeholder
import Promptbook.Prompt.Basic
import Promptbook.Proofs.Action
import Promptbook.Proofs.Body.Alike
import Promptbook.Proofs.Body.Answered
import Promptbook.Proofs.Body.Contents
import Promptbook.Proofs.Body.Endings
import Promptbook.Proofs.Body.Entries
import Promptbook.Proofs.Body.Expanded
import Promptbook.Proofs.Body.Filling
import Promptbook.Proofs.Body.Found
import Promptbook.Proofs.Body.Growth
import Promptbook.Proofs.Body.Moves
import Promptbook.Proofs.Body.Referenced
import Promptbook.Proofs.Body.Reported
import Promptbook.Proofs.Body.Resolutions
import Promptbook.Proofs.Body.Resolved
import Promptbook.Proofs.Body.Separate
import Promptbook.Proofs.Body.Sharing
import Promptbook.Proofs.Body.Shifted
import Promptbook.Proofs.Body.Slots
import Promptbook.Proofs.Body.Sole
import Promptbook.Proofs.Body.Steady
import Promptbook.Proofs.Body.Texts
import Promptbook.Proofs.Body.Tour
import Promptbook.Proofs.Body.Trodden
import Promptbook.Proofs.Body.Untouched
import Promptbook.Proofs.Body.Walk
import Promptbook.Proofs.Catalog.Anywhere
import Promptbook.Proofs.Catalog.Candidates
import Promptbook.Proofs.Catalog.Directory
import Promptbook.Proofs.Catalog.Effective
import Promptbook.Proofs.Catalog.File
import Promptbook.Proofs.Catalog.Identified
import Promptbook.Proofs.Catalog.Listing
import Promptbook.Proofs.Catalog.Modes
import Promptbook.Proofs.Files.Data
import Promptbook.Proofs.Files.Loading
import Promptbook.Proofs.Files.Places
import Promptbook.Proofs.Files.Shifted
import Promptbook.Proofs.Heap.Compared
import Promptbook.Proofs.Heap.Copy
import Promptbook.Proofs.Heap.Depth
import Promptbook.Proofs.Heap.Expansion
import Promptbook.Proofs.Heap.Frame
import Promptbook.Proofs.Heap.GivenBack
import Promptbook.Proofs.Heap.Literal
import Promptbook.Proofs.Heap.Loops
import Promptbook.Proofs.Heap.Nested
import Promptbook.Proofs.Heap.Ordinary
import Promptbook.Proofs.Heap.Parts
import Promptbook.Proofs.Heap.Records
import Promptbook.Proofs.Heap.Renamed
import Promptbook.Proofs.Heap.Route
import Promptbook.Proofs.Heap.Shifted
import Promptbook.Proofs.Heap.Tree
import Promptbook.Proofs.Heap.Unfolding
import Promptbook.Proofs.Json.RoundTrip
import Promptbook.Proofs.Json.Text
import Promptbook.Proofs.Ledger.Changes
import Promptbook.Proofs.Matched
import Promptbook.Proofs.Outcome
import Promptbook.Proofs.Placeholder
import Promptbook.Proofs.Placeholder.Neighbours
import Promptbook.Proofs.Placeholder.Rescanned
import Promptbook.Proofs.Placeholder.Stages
import Promptbook.Proofs.Prompt.Equal
import Promptbook.Proofs.Prompt.Held
import Promptbook.Proofs.Prompt.Made
import Promptbook.Proofs.Prompt.Parts
import Promptbook.Proofs.Prompt.Recorded
import Promptbook.Proofs.Prompt.RoundTrip
import Promptbook.Proofs.Prompt.Shifted
import Promptbook.Proofs.Prompt.Sufficient
import Promptbook.Proofs.Registry.Agreement
import Promptbook.Proofs.Registry.Calls
import Promptbook.Proofs.Registry.Changes
import Promptbook.Proofs.Registry.Holdings
import Promptbook.Proofs.Registry.Keys
import Promptbook.Proofs.Registry.Owned
import Promptbook.Proofs.Registry.Runs
import Promptbook.Proofs.Registry.Simulation
import Promptbook.Proofs.Registry.Spared
import Promptbook.Proofs.Registry.Tidy
import Promptbook.Proofs.Report.Account
import Promptbook.Proofs.Report.Answers
import Promptbook.Proofs.Report.Assessments
import Promptbook.Proofs.Report.Attempted
import Promptbook.Proofs.Report.Closure
import Promptbook.Proofs.Report.History
import Promptbook.Proofs.Report.Mild
import Promptbook.Proofs.Report.Moments
import Promptbook.Proofs.Report.Occurrences
import Promptbook.Proofs.Report.Returns
import Promptbook.Proofs.Report.Runs
import Promptbook.Proofs.Report.Transparent
import Promptbook.Proofs.Report.Unlogged
import Promptbook.Proofs.Review.Accepted
import Promptbook.Proofs.Review.Again
import Promptbook.Proofs.Review.Nesting
import Promptbook.Proofs.Review.References
import Promptbook.Proofs.Review.Renamed
import Promptbook.Proofs.Settings.Assigned
import Promptbook.Proofs.Settings.Landing
import Promptbook.Proofs.Settings.Loaded
import Promptbook.Proofs.Settings.Override
import Promptbook.Proofs.Settings.Path
import Promptbook.Proofs.Settings.Spared
import Promptbook.Proofs.Settings.Written
import Promptbook.Registry.Access
import Promptbook.Registry.Basic
import Promptbook.Render
import Promptbook.Request
import Promptbook.Resolve
import Promptbook.Review.Basic
import Promptbook.Review.Body
import Promptbook.Review.Record
import Promptbook.Session
import Promptbook.Settings.Basic
import Promptbook.Settings.Flaw
import Promptbook.Settings.Load
import Promptbook.Settings.Override
import Promptbook.Settings.Reading
import Promptbook.Settings.WholeNumber
import Promptbook.Strategy
import Promptbook.Text.Base64
import Promptbook.Text.Basic
import Promptbook.Text.Casing
import Promptbook.Text.Lowercase
import Promptbook.Text.Printable
import Promptbook.Text.Quoted
import Promptbook.Text.Utf8
import Promptbook.Value
import Promptbook.Verdict
import Promptbook.Yaml.Cursor
import Promptbook.Yaml.Load
import Promptbook.Yaml.Node
import Promptbook.Yaml.Scalar
import Promptbook.Yaml.Tag
import Promptbook.Yaml.Timestamp
import Promptbook.Yaml.Token
import Promptbook.Yaml.Token.Block
import Promptbook.Yaml.Token.Lexer
import Promptbook.Yaml.Token.Name
import Promptbook.Yaml.Token.Plain
import Promptbook.Yaml.Token.Quoted
