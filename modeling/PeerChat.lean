import PeerChat.Bridge.Config
import PeerChat.Bridge.Destination
import PeerChat.Bridge.Enrollment
import PeerChat.Bridge.Lifecycle
import PeerChat.Bridge.Recovery
import PeerChat.Bridge.Rollout
import PeerChat.Budget.Accounting
import PeerChat.Budget.Allowance
import PeerChat.Budget.Coherence
import PeerChat.Budget.Wakes
import PeerChat.Budget.Window
import PeerChat.Dispatch.Guarded
import PeerChat.Dispatch.Judged
import PeerChat.Dispatch.Receipts
import PeerChat.Dispatch.SentSteps
import PeerChat.Dispatch.Transactions
import PeerChat.Dispatch.WrittenOnce
import PeerChat.Hooks.Accepted
import PeerChat.Hooks.Batch
import PeerChat.Hooks.Deliver
import PeerChat.Hooks.Displaced
import PeerChat.Hooks.Drained
import PeerChat.Hooks.Evidence
import PeerChat.Hooks.Notices
import PeerChat.Hooks.Ownership
import PeerChat.Hooks.Payload
import PeerChat.Hooks.Printing
import PeerChat.Hooks.Quoting
import PeerChat.Hooks.Reconciled
import PeerChat.Hooks.Seeded
import PeerChat.Inbox.Content
import PeerChat.Inbox.DeliveredOnce
import PeerChat.Inbox.Details
import PeerChat.Inbox.Isolation
import PeerChat.Inbox.KeySteps
import PeerChat.Inbox.Order
import PeerChat.Inbox.ReadAck
import PeerChat.Inbox.StatusSteps
import PeerChat.Interleaving.Alone
import PeerChat.Interleaving.Beside
import PeerChat.Interleaving.Demux
import PeerChat.Interleaving.Exceptions
import PeerChat.Interleaving.Exclusive
import PeerChat.Interleaving.Log
import PeerChat.Interleaving.Only
import PeerChat.Interleaving.Pool
import PeerChat.Interleaving.Prepared
import PeerChat.Interleaving.Program
import PeerChat.Machine
import PeerChat.Mesh.Genuine
import PeerChat.Mesh.Hops
import PeerChat.Mesh.Keeps
import PeerChat.Mesh.Programs
import PeerChat.Mesh.Session
import PeerChat.Mesh.Sources
import PeerChat.Notify.Coverage
import PeerChat.Notify.Once
import PeerChat.Notify.Pass
import PeerChat.Notify.Program
import PeerChat.Notify.Understood
import PeerChat.Observe.MessageStatus
import PeerChat.Observe.Preview
import PeerChat.Observe.Snapshot
import PeerChat.Peers.Hints
import PeerChat.Peers.Records
import PeerChat.Peers.Resolve
import PeerChat.Programs.Commands
import PeerChat.Programs.Dispatch
import PeerChat.Programs.Inbox
import PeerChat.Programs.Listener
import PeerChat.Programs.Start
import PeerChat.Python.Dict
import PeerChat.Python.Json
import PeerChat.Python.JsonAscii
import PeerChat.Python.JsonIndent
import PeerChat.Python.JsonLength
import PeerChat.Python.JsonLimits
import PeerChat.Python.JsonObject
import PeerChat.Python.JsonOrder
import PeerChat.Python.JsonRoundTrip
import PeerChat.Python.Lines
import PeerChat.Python.Loops
import PeerChat.Python.Scalar
import PeerChat.Python.Sha256
import PeerChat.Python.Text
import PeerChat.Python.Utf16
import PeerChat.Python.Utf8
import PeerChat.Python.Uuid
import PeerChat.Registry.Listed
import PeerChat.Registry.Sessions
import PeerChat.Registry.Sources
import PeerChat.Relational.FirstWins
import PeerChat.Relational.Latest
import PeerChat.Relational.Table
import PeerChat.Relational.UniqueMatch
import PeerChat.Serve.Endpoint
import PeerChat.Serve.Isolated
import PeerChat.Serve.Loop
import PeerChat.Setup.Consent
import PeerChat.Setup.Install
import PeerChat.Setup.MergeHooks
import PeerChat.Setup.Preserved
import PeerChat.Setup.Recoverable
import PeerChat.Setup.Recovery
import PeerChat.Setup.Review
import PeerChat.Store.Inbox
import PeerChat.Store.Migration
import PeerChat.Store.Schema
import PeerChat.System.Bridge
import PeerChat.System.Frame
import PeerChat.System.Listening
import PeerChat.System.Made
import PeerChat.System.Op
import PeerChat.Wake.Claim
import PeerChat.Wake.Cleared
import PeerChat.Wake.Monotone
import PeerChat.Wake.OneWake
import PeerChat.Wake.Producer
import PeerChat.Wake.Readiness
import PeerChat.Wake.Record
import PeerChat.Wake.Release
import PeerChat.Wake.Transitions
import PeerChat.Watch.Spacing
import PeerChat.Watch.Watchdog
import PeerChat.Watch.Window
import PeerChat.Wire.Admission
import PeerChat.Wire.Carried
import PeerChat.Wire.Envelope
import PeerChat.Wire.Frame
import PeerChat.Wire.Framing
import PeerChat.Wire.Grammar
import PeerChat.Wire.Outbound
import PeerChat.Wire.Plain
import PeerChat.Wire.RoundTrip
