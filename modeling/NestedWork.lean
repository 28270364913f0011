import NestedWork.Identifier
import NestedWork.Session.Run
import NestedWork.Proofs.Transaction.Event
import NestedWork.Proofs.Transaction.Step
import NestedWork.Proofs.Transaction.Schedule
import NestedWork.Proofs.Transaction.Consistent
import NestedWork.Proofs.Transaction.Ledger
import NestedWork.Proofs.Transaction.Agreement
import NestedWork.Proofs.Transaction.Dependents
import NestedWork.Proofs.Transaction.Finality
import NestedWork.Proofs.Transaction.Abort
import NestedWork.Proofs.Transaction.Reason
import NestedWork.Proofs.Transaction.Decision
import NestedWork.Proofs.Transaction.Wake
import NestedWork.Proofs.Transaction.Timeless
import NestedWork.Proofs.Transaction.Cause
import NestedWork.Proofs.Transaction.Dealing
import NestedWork.Proofs.Transaction.Count
import NestedWork.Proofs.Transaction.Enlisting
import NestedWork.Proofs.Transaction.Deadline
import NestedWork.Proofs.World.Stage
import NestedWork.Proofs.World.Step
import NestedWork.Proofs.World.Perform
import NestedWork.Proofs.World.Frame
import NestedWork.Proofs.World.Orderly
import NestedWork.Proofs.World.Lives
import NestedWork.Proofs.World.Tree
import NestedWork.Proofs.World.Forest
import NestedWork.Proofs.World.Verdict
import NestedWork.Proofs.World.Course
import NestedWork.Proofs.World.Lifecycle
import NestedWork.Proofs.World.Capability
import NestedWork.Proofs.World.Within
import NestedWork.Proofs.World.Opening
import NestedWork.Proofs.World.Timeout
import NestedWork.Proofs.World.Construction
import NestedWork.Proofs.World.Deadline
import NestedWork.Proofs.World.Closed
import NestedWork.Proofs.World.Stem
import NestedWork.Proofs.World.Return
import NestedWork.Proofs.World.Doom
import NestedWork.Proofs.World.Proceed
import NestedWork.Proofs.World.Edit
import NestedWork.Proofs.World.Admission
import NestedWork.Proofs.World.Registry
import NestedWork.Proofs.World.Disposal
import NestedWork.Proofs.World.Farewell
import NestedWork.Proofs.World.Roll
import NestedWork.Proofs.World.Handle
import NestedWork.Proofs.World.Founding
import NestedWork.Proofs.World.Naming
import NestedWork.Proofs.World.Batch
import NestedWork.Proofs.World.Mirror
import NestedWork.Proofs.World.Locality
import NestedWork.Proofs.World.Reference
import NestedWork.Proofs.World.Share
import NestedWork.Proofs.World.Division
import NestedWork.Proofs.World.Task
import NestedWork.Proofs.World.Scene
import NestedWork.Proofs.World.Independence
import NestedWork.Proofs.World.Refusal
import NestedWork.Proofs.World.Straggler
import NestedWork.Proofs.World.Lease
import NestedWork.Proofs.World.Balance
import NestedWork.Proofs.World.Window
import NestedWork.Proofs.Settings.Timeout
import NestedWork.Proofs.Json.Literal
import NestedWork.Proofs.Json.Number
import NestedWork.Proofs.Json.Value
import NestedWork.Proofs.Json.Record
import NestedWork.Proofs.Json.Level
import NestedWork.Proofs.Text.Style
import NestedWork.Proofs.Isolation
import NestedWork.Proofs.Settings.Json
import NestedWork.Proofs.Calendar.Date
import NestedWork.Proofs.Calendar.Timestamp
import NestedWork.Proofs.Transaction.Information
