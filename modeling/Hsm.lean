import Hsm.Json.Value
import Hsm.Json.Write
import Hsm.Json.Error
import Hsm.Json.Read
import Hsm.Json.Decode
import Hsm.Json.Library
import Hsm.Decimal.Binary
import Hsm.Decimal.Shortest
import Hsm.Text.Extend
import Hsm.Text.Printable
import Hsm.Text.Quoted
import Hsm.Event.Basic
import Hsm.Event.Codec
import Hsm.Content.Data
import Hsm.Content.Guard
import Hsm.Content.Send
import Hsm.Content.Command
import Hsm.Content.Evaluate
import Hsm.Order
import Hsm.OrderedSet
import Hsm.History
import Hsm.Document.Basic
import Hsm.Document.Schema
import Hsm.Document.Issue
import Hsm.Document.Build
import Hsm.Session.Error
import Hsm.Session.Select
import Hsm.Session.Basic
import Hsm.Session.World
import Hsm.Session.Step
import Hsm.Session.Task
import Hsm.Session.Config
import Hsm.Chart.Basic
import Hsm.Chart.Guard
import Hsm.Chart.Command
import Hsm.Chart.Document
import Hsm.Dump.Basic
import Hsm.Dump.Chart
import Hsm.Request.Basic
import Hsm.Request.Core
import Hsm.Request.Document
import Hsm.Request.Session
import Hsm.Request.Respond
import Hsm.Proofs.Frame
import Hsm.Proofs.Failure
import Hsm.Proofs.Macrostep
import Hsm.Proofs.Host
import Hsm.Proofs.Tree
import Hsm.Proofs.Entry
import Hsm.Proofs.Unbounded
import Hsm.Proofs.Termination
import Hsm.Proofs.Arena
import Hsm.Proofs.Conflict
import Hsm.Proofs.Layout
import Hsm.Proofs.Walk
import Hsm.Proofs.Compiled
import Hsm.Proofs.DepthBound
import Hsm.Proofs.Checks
import Hsm.Proofs.Link
import Hsm.Proofs.Fatal
import Hsm.Proofs.Scripts
import Hsm.Proofs.Validity
import Hsm.Proofs.Poised
import Hsm.Proofs.Stopping
import Hsm.Proofs.Transcript
import Hsm.Proofs.Books
import Hsm.Proofs.Teardown
import Hsm.Proofs.Reading
import Hsm.Proofs.ValueText
import Hsm.Proofs.EventText
import Hsm.Proofs.Reentry
import Hsm.Proofs.Completion
import Hsm.Proofs.CompletionCount
import Hsm.Proofs.Shutdown
import Hsm.Proofs.Handles
import Hsm.Proofs.Launch
import Hsm.Proofs.StableSort
import Hsm.Proofs.Patterns
import Hsm.Proofs.Outbox
import Hsm.Proofs.Invocations
import Hsm.Proofs.LastRecord
import Hsm.Proofs.InsertionOrder
import Hsm.Proofs.Legal
import Hsm.Proofs.Fill
import Hsm.Proofs.Pieces
import Hsm.Proofs.Orderly
import Hsm.Proofs.Microstep
import Hsm.Proofs.Legality
