import Taquba.Job.Record
import Taquba.Snapshot.Actions

/-! # The key spaces of the store and their values

Job records, the job and dedup indexes, attempt histories, inbox records, counts
and the caller's own keys. User keys `κ` and user values `β` are opaque. The
counters are kept apart: their merges are exempt from conflict detection.
-/

namespace Taquba

open Snapshot

inductive AttemptOutcome where
  | completed
  | retried
  | deadLettered
  | leaseExpired
  | interrupted
  | requeued
  deriving DecidableEq, Repr

/-- One recorded event of a job's delivery history. -/
structure JobAttempt where
  attempt : ℕ
  claimedAt : Option ℕ
  recordedAt : ℕ
  outcome : AttemptOutcome
  error : Option String
  deriving DecidableEq, Repr

/-- A named number of active items and the job waiting for zero. -/
structure CountRecord where
  active : Int64 := 0
  waiter : Option String := none
  deriving DecidableEq, Repr

inductive EnqueueResult where
  | new (id : String)
  | alreadyEnqueued (id : String)
  deriving DecidableEq, Repr

inductive CancelOutcome where
  | removed
  | requested
  | notFound
  deriving DecidableEq, Repr

inductive SignalOutcome where
  | delivered
  | notWaiting
  deriving DecidableEq, Repr

/-- Why an inbox entry was rejected. -/
inductive Rejection where
  | unknownKind
  | unordered
  | malformed (detail : String)
  | tooLarge (size : ℕ)
  | unreadable (detail : String)
  | queueNotAccepted
  | otherQueue (jobQueue : String)
  | invalidId (reason : FormError)
  | duplicateJobId
  | signalWaitWithoutRunAt
  | countWaitWithoutRunAt
  | countWaiterExists
  | failed (message : String)
  deriving DecidableEq, Repr

inductive InboxOutcome where
  | enqueue (result : EnqueueResult)
  | cancel (outcome : CancelOutcome)
  | signal (outcome : SignalOutcome)
  | rejected (rejection : Rejection)
  deriving DecidableEq, Repr

structure InboxRecord where
  appliedAtMs : ℕ
  outcome : InboxOutcome
  deriving DecidableEq, Repr

/-- The counter changes of a job of `queue` that moves between states. The done
counter counts completions: a job that leaves the done state keeps it. -/
def countDelta (queue : QueueName) (source target : Option JobStatus) (q : QueueName)
    (status : JobStatus) : ℤ :=
  if source = target then 0
  else
    (if q = queue ∧ target = some status then 1 else 0) -
      (if q = queue ∧ source = some status ∧ status ≠ .done then 1 else 0)

/-- A time-ordered index over one part of the user keys, named by its leading bytes. -/
structure ExpiryIndex where
  leading : List UInt8
  deriving DecidableEq, Repr

inductive Key (κ : Type) where
  | record (key : RecordKey)
  | jobIndex (id : String)
  | dedup (queue : QueueName) (key : String)
  | attemptHistory (id : String)
  | inboxRecord (queue : QueueName) (id : String)
  | inboxExpiry (appliedAt : ℕ) (queue : QueueName) (id : String)
  | count (name : String)
  | user (key : κ)
  deriving DecidableEq

@[reducible] def Val (κ β : Type) : Key κ → Type
  | .record _ => JobRecord
  | .jobIndex _ => RecordKey
  | .dedup _ _ => String
  | .attemptHistory _ => List JobAttempt
  | .inboxRecord _ _ => InboxRecord
  | .inboxExpiry _ _ _ => Unit
  | .count _ => CountRecord
  | .user _ => β

/-- Attempt histories append their operand; no other key of the store is merged. -/
instance (κ β : Type) : MergeOperator (Val κ β) where
  merge
    | .attemptHistory _, old, operand => old.getD [] ++ operand
    | .record _, _, operand => operand
    | .jobIndex _, _, operand => operand
    | .dedup _ _, _, operand => operand
    | .inboxRecord _ _, _, operand => operand
    | .inboxExpiry _ _ _, _, operand => operand
    | .count _, _, operand => operand
    | .user _, _, operand => operand

end Taquba
