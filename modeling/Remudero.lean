import Remudero.Lib.Transition
import Remudero.Lib.Text
import Remudero.Lib.Refs
import Remudero.Lib.Closure
import Remudero.Lib.Json
import Remudero.Lib.JsonText
import Remudero.Lib.JsonParse
import Remudero.Lib.Blocks
import Remudero.Lib.Custody
import Remudero.Lib.Commits
import Remudero.Lib.Record
import Remudero.Lib.Checks
import Remudero.Lib.FirstSeen
import Remudero.Lib.Window
import Remudero.Lib.Greedy
import Remudero.Lib.Lineage
import Remudero.Lib.Comparators
import Remudero.Lib.Regex
import Remudero.Lib.Row
import Remudero.Lib.Later
import Remudero.Lib.Calendar
import Remudero.Lib.Utf8
import Remudero.Lib.Lines
import Remudero.Lib.Loop
import Remudero.Lib.Glob
import Remudero.Lib.Worklist
import Remudero.Lib.Components
import Remudero.Lib.Encode
import Remudero.Lib.Number
import Remudero.Lib.JsNumber
import Remudero.Lib.NumberText
import Remudero.Lib.Newest
import Remudero.Lib.Utf16
import Remudero.Lib.UriComponent
import Remudero.Lib.Vlq
import Remudero.Lib.JsonNumber
import Remudero.Lib.JsonSize
import Remudero.Lib.KeepNewest
import Remudero.Lib.Service
import Remudero.Host
import Remudero.Claim.Anchor
import Remudero.Claim.Hold
import Remudero.Claim.Lanes
import Remudero.Claim.LanesSafety
import Remudero.Claim.Stamps
import Remudero.Claim.Silence
import Remudero.Claim.Repair
import Remudero.TaskId.Reservation
import Remudero.TaskId.ReservationSafety
import Remudero.TaskId.LocalReservation
import Remudero.TaskId.LocalReservationSafety
import Remudero.TaskId.HolderLine
import Remudero.Lock.Holder
import Remudero.Lock.FileLock
import Remudero.Lock.LockSafety
import Remudero.Lock.Published
import Remudero.Plan.Task
import Remudero.Plan.Merge
import Remudero.Plan.Quarantine
import Remudero.Plan.BlobBatch
import Remudero.Plan.BlobCache
import Remudero.Drain.Select
import Remudero.Drain.Order
import Remudero.Drain.Overlap
import Remudero.Drain.Pack
import Remudero.Drain.Glob
import Remudero.Drain.PushedBranch
import Remudero.Suites.Affected
import Remudero.Suites.SourceMap
import Remudero.Suites.ScanSource
import Remudero.Suites.ScanTokens
import Remudero.Feedback.Merge
import Remudero.Delegation.Envelope
import Remudero.Delegation.Safety
import Remudero.Delegation.Revocation
import Remudero.Dispatch.Streak
import Remudero.Dispatch.Breaker
import Remudero.Dispatch.Index
import Remudero.Dispatch.Union
import Remudero.Dispatch.Dependents
import Remudero.Dispatch.DependentValue
import Remudero.Dispatch.NearAge
import Remudero.Dispatch.Fanout
import Remudero.Dispatch.Lifetime
import Remudero.Cash.Allowance
import Remudero.Cash.AllowanceSafety
import Remudero.Cash.Grant
import Remudero.Cash.Price
import Remudero.Cash.Trial
import Remudero.TestSlot.Mutation
import Remudero.TestSlot.Memory
import Remudero.TestSlot.MemorySafety
import Remudero.TestSlot.Queue
import Remudero.Ledger.Projections
import Remudero.Ledger.Archive
import Remudero.Ledger.Rotation
import Remudero.Ledger.History
import Remudero.Ledger.Seal
import Remudero.Ledger.SealSafety
import Remudero.Ledger.Carry
import Remudero.Ledger.Retain
import Remudero.Ledger.Shed
import Remudero.Ledger.Budget
import Remudero.Ledger.Compact
import Remudero.Ledger.CompactProgress
import Remudero.Ledger.Ndjson
import Remudero.Ledger.LineSeen
import Remudero.Ledger.Tail
import Remudero.Ledger.LiveTail
import Remudero.Ledger.LiveTailSafety
import Remudero.Ledger.ArchiveParts
import Remudero.Ledger.CompactRows
import Remudero.Corpus.Read
import Remudero.Corpus.Resume
import Remudero.Corpus.Keyed
import Remudero.Corpus.RawRead
import Remudero.Memory.Admission
import Remudero.Memory.AdmissionSafety
import Remudero.Memory.Starvation
import Remudero.Memory.Ledger
import Remudero.Memory.LedgerSafety
import Remudero.Memory.Walk
import Remudero.Review.Arm
import Remudero.Review.Tap
import Remudero.Review.Acceptance
import Remudero.Review.RoundTrip
import Remudero.Review.Ownership
import Remudero.Automation.Action
import Remudero.Automation.Trigger
import Remudero.Automation.TriggerSafety
import Remudero.Automation.Profile
import Remudero.Automation.Execution
import Remudero.Board.Rules
import Remudero.Board.Retention
import Remudero.Board.Selection
import Remudero.Board.Holds
import Remudero.Board.RetentionSafety
import Remudero.Board.RetentionRun
import Remudero.Board.TaskCache
import Remudero.Board.StepCache
import Remudero.Credit.Store
import Remudero.Credit.Quarantine
import Remudero.Incident.Lifecycle
import Remudero.Serve.RouteReads
import Remudero.Fleet.Anchor
import Remudero.Fleet.SharedPause
import Remudero.Release.Pin
import Remudero.Output.Bounded
import Remudero.Escalation.Spool
