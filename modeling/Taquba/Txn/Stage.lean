import Taquba.Txn.Basic

/-! # Staged transitions

The transitions that a transaction stages for a job: the end of a claim, a wake, a
cancel, a new job, a change of a count, and the effects of a settlement. A
transition reads through the transaction, so it sees what was staged before it.
-/

namespace Taquba

open Snapshot

inductive ClaimEnd where
  | done (keep : Bool)
  | retry (runAt : Option ℕ) (outcome : AttemptOutcome) (error : Option String)
  | dead (error : String)
  deriving DecidableEq, Repr

def ClaimEnd.isTerminal : ClaimEnd → Bool
  | .retry _ _ _ => false
  | _ => true

/-- The current claim of each job, as its expiry and its claim id. -/
abbrev Leases := QueueName → String → Option (ℕ × ℕ)

/-- What moves a scheduled job to pending. -/
inductive Wake where
  | signal (payload : List UInt8)
  | count (name : String)
  | early
  deriving DecidableEq, Repr

/-- Why a wake left a job unchanged. -/
inductive NotWoken where
  | missing
  | unscheduled
  | noWait
  deriving DecidableEq, Repr

inductive StagedCancel where
  | removed (job : JobRecord)
  | requested (job : JobRecord)
  | alreadyRequested (job : JobRecord)
  | notFound
  deriving DecidableEq

def StagedCancel.outcome : StagedCancel → CancelOutcome
  | .removed _ => .removed
  | .requested _ | .alreadyRequested _ => .requested
  | .notFound => .notFound

structure PreparedJob where
  job : JobRecord
  idOverrideUsed : Bool := false
  status_eq : job.status = if job.runAt.isSome then .scheduled else .pending := by rfl
  isNew : job.IsNew := by decide

theorem PreparedJob.status_waiting (prepared : PreparedJob) :
    prepared.job.status = .pending ∨ prepared.job.status = .scheduled := by
  rw [prepared.status_eq]
  split
  · exact .inr rfl
  · exact .inl rfl

/-- A condition on a user key: its value, or its absence. -/
structure KvCompare (κ β : Type) where
  key : κ
  expected : Option β
  deriving DecidableEq

/-- The claim that must be live for effects to apply. -/
structure ClaimFence where
  queue : QueueName
  id : String
  claimId : ℕ
  deriving DecidableEq

/-- Validated effects of a settlement, ready to be staged by a build with or without
overflow checks. -/
structure PreparedEffects (κ β : Type) where
  kvCompares : List (KvCompare κ β) := []
  claimFence : Option ClaimFence := none
  preparedJobs : List PreparedJob := []
  kvWrites : List (κ × β) := []
  kvDeletes : List κ := []
  expiryEntries : List (ExpiryIndex × ℕ) := []
  countChanges : List (String × Int64) := []
  overflowChecks : Bool := false

namespace Txn

variable {κ β : Type} [DecidableEq κ]

def stageToPending (t : Txn κ β) (source : RecordKey) (job : JobRecord) :
    Except (Error κ) (Txn κ β × JobRecord) :=
  t.moveJob source { job with status := .pending, runAt := none }

def stageDeadLetter (t : Txn κ β) (source : RecordKey) (job : JobRecord) (now : ℕ)
    (error : String) : Except (Error κ) (Txn κ β × JobRecord) :=
  let t := t.appendAttempt job.id
    { attempt := job.attempts, claimedAt := job.claimedAt, recordedAt := now,
      outcome := .deadLettered, error := some error }
  t.moveJob source
    { job with
      claimedAt := none
      status := .dead
      lastError := some error
      failedAt := some now }

def stageClaimEnd (t : Txn κ β) (job : JobRecord) (claimEnd : ClaimEnd) (now : ℕ) :
    Except (Error κ) (Txn κ β × JobRecord) :=
  let source := RecordKey.claimed job.queue job.id
  match claimEnd with
  | .done keep =>
    let job := { job with status := .done, completedAt := some now }
    if keep then
      let t := t.appendAttempt job.id
        { attempt := job.attempts, claimedAt := job.claimedAt, recordedAt := now,
          outcome := .completed, error := none }
      t.moveJob source job
    else .ok (t.stageRemove source job, job)
  | .retry runAt outcome error =>
    let t := t.appendAttempt job.id
      { attempt := job.attempts, claimedAt := job.claimedAt, recordedAt := now, outcome, error }
    let job := { job with claimedAt := none, lastError := error <|> job.lastError }
    match runAt with
    | none => t.stageToPending source job
    | some runAt => t.moveJob source { job with status := .scheduled, runAt := some runAt }
  | .dead error => t.stageDeadLetter source job now error

/-- Stage the claim of a waiting job and release its dedup entry. The record loses its
dedup key, so that a later return to pending cannot release another job's entry. -/
def stageClaim (t : Txn κ β) (source : RecordKey) (job : JobRecord) (now : ℕ) :
    Except (Error κ) (Txn κ β × JobRecord) := do
  let (t, claimed) ← t.moveJob source
    { job with
      status := .claimed
      claimedAt := some now
      attempts := job.attempts + 1
      dedupKey := none }
  return (match job.dedupKey with
    | some dedupKey => t.delete (.dedup claimed.queue dedupKey)
    | none => t, claimed)

/-- Check that `claimId` is the job's live claim; its record joins the read set. -/
def readClaim (t : Txn κ β) (leases : Leases) (queue : QueueName) (id : String) (claimId : ℕ) :
    Except (Error κ) (Txn κ β × JobRecord) :=
  match leases queue id with
  | some (_, current) =>
    if current = claimId then
      match t.get (.record (.claimed queue id)) with
      | some job =>
        .ok (t.markRead (.record (.claimed queue id)), JobRecord.decode (.claimed queue id) job)
      | none => .error .claimLost
    else .error .claimLost
  | none => .error .claimLost

/-- As `readClaim`, and stage the deletion of the claimed record. -/
def takeClaim (t : Txn κ β) (leases : Leases) (queue : QueueName) (id : String) (claimId : ℕ) :
    Except (Error κ) (Txn κ β × JobRecord) := do
  let (t, job) ← t.readClaim leases queue id claimId
  return (t.delete (.record (.claimed queue id)), job)

def wakeRecord (job : JobRecord) : Wake → Except NotWoken JobRecord
  | .signal payload =>
    if job.signalWait then .ok { job with signal := some payload } else .error .noWait
  | .count name => if job.countWait = some name then .ok job else .error .noWait
  | .early => .ok job

def stageWake (t : Txn κ β) (jobId : String) (wake : Wake) :
    Except (Error κ) (Txn κ β × Except NotWoken QueueName) :=
  match t.getIndexedJob jobId with
  | none => .ok (t, .error .missing)
  | some (key, job) =>
    if job.status ≠ .scheduled then .ok (t, .error .unscheduled)
    else
      match wakeRecord job wake with
      | .error reason => .ok (t, .error reason)
      | .ok job => do
        let (t, job) ← t.stageToPending key job
        return (t, .ok job.queue)

def stageSignal (t : Txn κ β) (jobId : String) (payload : List UInt8) :
    Except (Error κ) (Txn κ β × SignalOutcome) := do
  let (t, woken) ← t.stageWake jobId (.signal payload)
  return (t, match woken with
    | .ok _ => .delivered
    | .error _ => .notWaiting)

/-- Stage the removal of a waiting job or the cancellation flag of a claimed one. -/
def stageCancel (t : Txn κ β) (jobId : String) :
    Except (Error κ) (Txn κ β × StagedCancel) :=
  match t.getIndexedJob jobId with
  | none => .ok (t, .notFound)
  | some (key, job) =>
    match job.status with
    | .pending | .scheduled => .ok (t.stageRemove key job, .removed job)
    | .claimed =>
      if job.cancelRequested then .ok (t, .alreadyRequested job)
      else do
        let (t, job) ← t.moveJob key { job with cancelRequested := true }
        return (t, .requested job)
    | .done | .dead => .ok (t, .notFound)

end Txn

end Taquba
