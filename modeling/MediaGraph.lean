import MediaGraph.Argument.Basic
import MediaGraph.Argument.Document
import MediaGraph.Argument.Escape
import MediaGraph.Call
import MediaGraph.Catalog.Basic
import MediaGraph.Catalog.Document
import MediaGraph.Catalog.Listing
import MediaGraph.CommandLine.Files
import MediaGraph.CommandLine.Folder
import MediaGraph.CommandLine.Request
import MediaGraph.CommandLine.Run
import MediaGraph.Compile
import MediaGraph.Concat
import MediaGraph.Decimal.Layout
import MediaGraph.Decimal.Shortest
import MediaGraph.Error
import MediaGraph.Handle
import MediaGraph.Json.Print
import MediaGraph.Json.Record
import MediaGraph.Json.Token
import MediaGraph.Json.Tree
import MediaGraph.Json.Value
import MediaGraph.Main
import MediaGraph.Media
import MediaGraph.Media.Document
import MediaGraph.Operation
import MediaGraph.Pipe
import MediaGraph.Proofs.Accounts
import MediaGraph.Proofs.Acyclic
import MediaGraph.Proofs.Additions
import MediaGraph.Proofs.Allotments
import MediaGraph.Proofs.Arguments
import MediaGraph.Proofs.Aside
import MediaGraph.Proofs.Assembly
import MediaGraph.Proofs.Attempts
import MediaGraph.Proofs.Build
import MediaGraph.Proofs.Building
import MediaGraph.Proofs.Calls
import MediaGraph.Proofs.Catalogs
import MediaGraph.Proofs.Chaining
import MediaGraph.Proofs.Changes
import MediaGraph.Proofs.Clashes
import MediaGraph.Proofs.Commands
import MediaGraph.Proofs.Connecting
import MediaGraph.Proofs.Consumers
import MediaGraph.Proofs.Counts
import MediaGraph.Proofs.Declared
import MediaGraph.Proofs.Decoding
import MediaGraph.Proofs.Documents
import MediaGraph.Proofs.Effects
import MediaGraph.Proofs.Exporting
import MediaGraph.Proofs.Exports
import MediaGraph.Proofs.FanOut
import MediaGraph.Proofs.Feeding
import MediaGraph.Proofs.Filters
import MediaGraph.Proofs.Folders
import MediaGraph.Proofs.Following
import MediaGraph.Proofs.Frozen
import MediaGraph.Proofs.Gains
import MediaGraph.Proofs.Groups
import MediaGraph.Proofs.Growth
import MediaGraph.Proofs.Handles
import MediaGraph.Proofs.Holders
import MediaGraph.Proofs.Iterations
import MediaGraph.Proofs.Labelling
import MediaGraph.Proofs.Lasting
import MediaGraph.Proofs.Layout
import MediaGraph.Proofs.Lexing
import MediaGraph.Proofs.Lines
import MediaGraph.Proofs.Linking
import MediaGraph.Proofs.Listings
import MediaGraph.Proofs.Mirrors
import MediaGraph.Proofs.Moves
import MediaGraph.Proofs.Naming
import MediaGraph.Proofs.Obstacles
import MediaGraph.Proofs.Offline
import MediaGraph.Proofs.Onward
import MediaGraph.Proofs.Outlets
import MediaGraph.Proofs.Pads
import MediaGraph.Proofs.Placing
import MediaGraph.Proofs.Plains
import MediaGraph.Proofs.Plans
import MediaGraph.Proofs.Printing
import MediaGraph.Proofs.Ranks
import MediaGraph.Proofs.Reading
import MediaGraph.Proofs.Refusals
import MediaGraph.Proofs.Renaming
import MediaGraph.Proofs.Rivals
import MediaGraph.Proofs.Runs
import MediaGraph.Proofs.Sheets
import MediaGraph.Proofs.Soundness
import MediaGraph.Proofs.Splitting
import MediaGraph.Proofs.Steps
import MediaGraph.Proofs.Tables
import MediaGraph.Proofs.Titles
import MediaGraph.Proofs.Traces
import MediaGraph.Proofs.Upstream
import MediaGraph.Proofs.Verdicts
import MediaGraph.Proofs.WellFormed
import MediaGraph.Proofs.Wiring
import MediaGraph.Schedule
import MediaGraph.Script.Basic
import MediaGraph.Script.Build
import MediaGraph.Script.Document
import MediaGraph.Session.Basic
import MediaGraph.Session.Chain
import MediaGraph.Session.Export
import MediaGraph.Session.FanOut
import MediaGraph.Session.Outputs
import MediaGraph.Session.Perform
import MediaGraph.Session.Placement
import MediaGraph.Session.Render
import MediaGraph.Table
import MediaGraph.Text.Blank
import MediaGraph.Text.Literal
import MediaGraph.Text.Shape
