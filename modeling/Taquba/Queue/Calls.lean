import Taquba.Txn.Effects

/-! # The transactions of the queue

One attempt of every call that writes to the store, on a transaction that the
retry loop began: an enqueue, the claims, the settlements, the reaper, the open,
the scheduler, the control calls, the inbox, the retention sweeps and the user
keys. An attempt commits its transaction or gives it up.
-/

namespace Taquba

open Snapshot

inductive Attempt (α : Type) where
  | commit (value : α)
  | abort (value : α)

inductive ClaimOutcome where
  | notFound
  | notClaimable
  deriving DecidableEq, Repr

inductive WakeOutcome where
  | notFound
  | notScheduled
  deriving DecidableEq, Repr

/-- How a worker settles its claim. `backoff` is the retry delay in milliseconds of
a job with that many attempts, `none` for no delay. -/
inductive Settlement where
  | ack (keep : Bool)
  | nack (error : String) (backoff : ℕ → Option ℕ)
  | deadLetter (reason : String)

def Settlement.endFor (settlement : Settlement) (stored : JobRecord) (now : ℕ) : ClaimEnd :=
  match settlement with
  | .ack keep => .done keep
  | .nack error backoff =>
    if stored.isLastAttempt then .dead error
    else .retry ((backoff stored.attempts).map (now + ·)) .retried (some error)
  | .deadLetter reason => .dead reason

def unsettledClaimEnd (job : JobRecord) (outcome : AttemptOutcome) (error : String) : ClaimEnd :=
  if job.isLastAttempt then .dead error else .retry none outcome none

namespace Txn

variable {κ β : Type} [DecidableEq κ] [DecidableEq β]

/-- An attempt of an enqueue: the new id with the results of the effects, or the
holder of the dedup key. -/
def writeJobTxn (t : Txn κ β) (leases : Leases) (prepared : PreparedJob)
    (effects : PreparedEffects κ β) :
    Except (Error κ) (Txn κ β × Attempt (Except String (String × List EnqueueResult))) := do
  let (t, written) ← t.stageJobWrites prepared
  match written with
  | .error existing => return (t, .abort (.error existing))
  | .ok id =>
    let (t, results) ← t.stageEffects leases effects
    return (t, .commit (.ok (id, results)))

def commitEffects (t : Txn κ β) (leases : Leases) (effects : PreparedEffects κ β) :
    Except (Error κ) (Txn κ β × Attempt (List EnqueueResult)) := do
  let (t, results) ← t.stageEffects leases effects
  return (t, .commit results)

def stageClaims (t : Txn κ β) (now : ℕ) :
    List (RecordKey × JobRecord) → Except (Error κ) (Txn κ β × List JobRecord)
  | [] => .ok (t, [])
  | (key, stored) :: rest => do
    let (t, job) ← t.stageClaim key (JobRecord.decode key stored) now
    let (t, jobs) ← t.stageClaims now rest
    return (t, job :: jobs)

def candidates (t : Txn κ β) (queue : QueueName) (keys : List PendingKey) :
    List (RecordKey × JobRecord) :=
  keys.filterMap fun key =>
    (t.get (.record (.pending queue key))).map fun stored => (.pending queue key, stored)

/-- An attempt of a scan claim of the pending keys that its scan yielded. -/
def claimBatch (t : Txn κ β) (queue : QueueName) (keys : List PendingKey) (now : ℕ) :
    Except (Error κ) (Txn κ β × Attempt (List JobRecord)) :=
  match t.candidates queue keys with
  | [] => .ok (t, .abort [])
  | candidates => do
    let (t, jobs) ← t.stageClaims now candidates
    return (t, .commit jobs)

def claimById (t : Txn κ β) (id : String) (now : ℕ) :
    Except (Error κ) (Txn κ β × Attempt (Except ClaimOutcome JobRecord)) :=
  match t.getIndexedJob id with
  | none => .ok (t, .abort (.error .notFound))
  | some (key, job) =>
    if job.status = .pending ∨ job.status = .scheduled then do
      let (t, claimed) ← t.stageClaim key job now
      return (t, .commit (.ok claimed))
    else .ok (t, .abort (.error .notClaimable))

/-- An attempt of a settlement: the fence, the end of the claim and, when it ends the
job, the effects, whose own fence reads the leases later. -/
def settleClaim (t : Txn κ β) (leases effectLeases : Leases) (queue : QueueName) (id : String)
    (claimId : ℕ)
    (settlement : Settlement) (effects : PreparedEffects κ β) (now : ℕ) :
    Except (Error κ) (Txn κ β × Attempt (JobRecord × ClaimEnd × Option (List EnqueueResult))) := do
  let (t, job) ← t.takeClaim leases queue id claimId
  let claimEnd := settlement.endFor job now
  let (t, job) ← t.stageClaimEnd job claimEnd now
  if claimEnd.isTerminal then
    let (t, results) ← t.stageEffects effectLeases effects
    return (t, .commit (job, claimEnd, some results))
  else return (t, .commit (job, claimEnd, none))

/-- An attempt of the reap of a due entry of claim `claimId`. -/
def reapJob (t : Txn κ β) (leases : Leases) (queue : QueueName) (id : String) (claimId : ℕ)
    (now : ℕ) : Except (Error κ) (Txn κ β × Attempt (Option (JobRecord × ClaimEnd))) :=
  if (leases queue id).any fun current => current.2 = claimId then
    match t.get (.record (.claimed queue id)) with
    | none => .ok (t, .abort none)
    | some stored => do
      let job := JobRecord.decode (.claimed queue id) stored
      let claimEnd := unsettledClaimEnd job .leaseExpired "lease expired"
      let (t, job) ← t.stageClaimEnd job claimEnd now
      return (t, .commit (some (job, claimEnd)))
  else .ok (t, .abort none)

/-- The requeue of a claimed record found at open, which does not read it again. -/
def requeueInterrupted (t : Txn κ β) (job : JobRecord) (now : ℕ) :
    Except (Error κ) (Txn κ β × Attempt Unit) := do
  let claimEnd := unsettledClaimEnd job .interrupted "claim interrupted by process exit"
  let (t, _) ← t.stageClaimEnd job claimEnd now
  return (t, .commit ())

def promoteJob (t : Txn κ β) (runAt : ℕ) (queue : QueueName) (id : String) :
    Except (Error κ) (Txn κ β × Attempt (Option JobRecord)) :=
  match t.get (.record (.scheduled runAt queue id)) with
  | none => .ok (t, .abort none)
  | some stored => do
    let key := RecordKey.scheduled runAt queue id
    let (t, job) ← t.stageToPending key (JobRecord.decode key stored)
    return (t, .commit (some job))

def wakeScheduled (t : Txn κ β) (id : String) :
    Except (Error κ) (Txn κ β × Attempt (Except WakeOutcome QueueName)) := do
  let (t, woken) ← t.stageWake id .early
  return (t, match woken with
    | .ok queue => .commit (.ok queue)
    | .error .missing => .abort (.error .notFound)
    | .error _ => .abort (.error .notScheduled))

def signal (t : Txn κ β) (id : String) (payload : List UInt8) :
    Except (Error κ) (Txn κ β × Attempt SignalOutcome) := do
  let (t, outcome) ← t.stageSignal id payload
  return (t, .commit outcome)

/-- An attempt of a cancel; the effects apply only with a removal. -/
def cancel (t : Txn κ β) (leases : Leases) (id : String) (effects : PreparedEffects κ β) :
    Except (Error κ) (Txn κ β × Attempt (StagedCancel × Option (List EnqueueResult))) := do
  let (t, staged) ← t.stageCancel id
  match staged with
  | .removed job =>
    let (t, results) ← t.stageEffects leases effects
    return (t, .commit (.removed job, some results))
  | .requested job => return (t, .commit (.requested job, none))
  | .alreadyRequested job => return (t, .abort (.alreadyRequested job, none))
  | .notFound => return (t, .abort (.notFound, none))

/-- Revive a dead job with a reset attempt count. -/
def requeueDeadJob (t : Txn κ β) (id : String) (now : ℕ) :
    Except (Error κ) (Txn κ β × Attempt JobRecord) :=
  match t.getIndexedJob id with
  | none => .error (.jobNotFound id)
  | some (key, job) =>
    if job.status ≠ .dead then .error .invalidState
    else do
      let (t, job) ← t.stageToPending key
        { job with
          attempts := 0
          lastError := none
          claimedAt := none
          failedAt := none
          cancelRequested := false }
      let t := t.appendAttempt job.id
        { attempt := 0, claimedAt := none, recordedAt := now, outcome := .requeued, error := none }
      return (t, .commit job)

/-- The rejection of an inbox entry about a job of another queue. -/
def onAnotherQueue (t : Txn κ β) (jobId : String) (queue : QueueName) : Option Rejection :=
  match t.getIndexedJob jobId with
  | some (_, job) => if job.queue ≠ queue then some (.otherQueue job.queue.name) else none
  | none => none

def applyEnqueue (t : Txn κ β) (queue : QueueName) (entryId : String) (appliedAt : ℕ)
    (prepared : PreparedJob) : Except (Error κ) (Txn κ β × Attempt InboxOutcome) := do
  let (t, written) ← t.stageJobWrites prepared
  let outcome := InboxOutcome.enqueue (match written with
    | .ok id => .new id
    | .error existing => .alreadyEnqueued existing)
  return (t.stageInboxRecord queue entryId ⟨appliedAt, outcome⟩, .commit outcome)

def applyCancel (t : Txn κ β) (queue : QueueName) (entryId : String) (appliedAt : ℕ)
    (jobId : String) : Except (Error κ) (Txn κ β × Attempt (InboxOutcome × Option StagedCancel)) :=
  match t.onAnotherQueue jobId queue with
  | some rejection =>
    .ok (t.stageInboxRecord queue entryId ⟨appliedAt, .rejected rejection⟩,
      .commit (.rejected rejection, none))
  | none => do
    let (t, staged) ← t.stageCancel jobId
    let outcome := InboxOutcome.cancel staged.outcome
    return (t.stageInboxRecord queue entryId ⟨appliedAt, outcome⟩, .commit (outcome, some staged))

def applySignal (t : Txn κ β) (queue : QueueName) (entryId : String) (appliedAt : ℕ)
    (jobId : String) (payload : List UInt8) :
    Except (Error κ) (Txn κ β × Attempt InboxOutcome) :=
  match t.onAnotherQueue jobId queue with
  | some rejection =>
    .ok (t.stageInboxRecord queue entryId ⟨appliedAt, .rejected rejection⟩,
      .commit (.rejected rejection))
  | none => do
    let (t, outcome) ← t.stageSignal jobId payload
    return (t.stageInboxRecord queue entryId ⟨appliedAt, .signal outcome⟩,
      .commit (.signal outcome))

def commitRejection (t : Txn κ β) (queue : QueueName) (entryId : String) (appliedAt : ℕ)
    (rejection : Rejection) : Except (Error κ) (Txn κ β × Attempt Unit) :=
  .ok (t.stageInboxRecord queue entryId ⟨appliedAt, .rejected rejection⟩, .commit ())

/-- Remove one expired record, as it was read by the sweep, when it still exists. -/
def sweepVictim (t : Txn κ β) (key : RecordKey) (job : JobRecord) :
    Except (Error κ) (Txn κ β × Attempt Bool) :=
  if (t.get (.record key)).isSome then .ok (t.stageRemove key job, .commit true)
  else .ok (t, .commit false)

def sweepInboxRecords (t : Txn κ β) (entries : List (ℕ × QueueName × String)) :
    Except (Error κ) (Txn κ β × Attempt Unit) :=
  .ok (entries.foldl (fun t e =>
    (t.delete (.inboxExpiry e.1 e.2.1 e.2.2)).delete (.inboxRecord e.2.1 e.2.2)) t, .commit ())

def kvCompareThen (t : Txn κ β) (key : κ) (expected : Option β) (value : Option β) :
    Except (Error κ) (Txn κ β × Attempt Bool) :=
  if t.get (.user key) = expected then
    let t := t.markRead (.user key)
    .ok (match value with
      | some v => t.put (.user key) v
      | none => t.delete (.user key), .commit true)
  else .ok (t, .abort false)

def kvPut (t : Txn κ β) (key : κ) (value : β) : Except (Error κ) (Txn κ β × Attempt Unit) :=
  .ok (t.put (.user key) value, .commit ())

def kvDelete (t : Txn κ β) (key : κ) : Except (Error κ) (Txn κ β × Attempt Unit) :=
  .ok (t.delete (.user key), .commit ())

end Txn

/-- A call that writes to the store, with what it read outside its transaction: the
clock, the leases, its prepared jobs and the records of an earlier scan. -/
inductive Call (κ β : Type) where
  | enqueue (leases : Leases) (prepared : PreparedJob) (effects : PreparedEffects κ β)
  | commitEffects (leases : Leases) (effects : PreparedEffects κ β)
  | claimBatch (queue : QueueName) (keys : List PendingKey) (claimIds : List ℕ) (now : ℕ)
  | claimById (id : String) (claimId now : ℕ)
  | settle (leases effectLeases : Leases) (queue : QueueName) (id : String) (claimId : ℕ)
      (settlement : Settlement) (effects : PreparedEffects κ β) (now : ℕ)
  | reap (leases : Leases) (queue : QueueName) (id : String) (claimId now : ℕ)
  | requeueInterrupted (job : JobRecord) (now : ℕ)
  | promote (runAt : ℕ) (queue : QueueName) (id : String)
  | wakeScheduled (id : String)
  | signal (id : String) (payload : List UInt8)
  | cancel (leases : Leases) (id : String) (effects : PreparedEffects κ β)
  | requeueDeadJob (id : String) (now : ℕ)
  | applyEnqueue (queue : QueueName) (entryId : String) (appliedAt : ℕ) (prepared : PreparedJob)
  | applyCancel (queue : QueueName) (entryId : String) (appliedAt : ℕ) (jobId : String)
  | applySignal (queue : QueueName) (entryId : String) (appliedAt : ℕ) (jobId : String)
      (payload : List UInt8)
  | commitRejection (queue : QueueName) (entryId : String) (appliedAt : ℕ) (rejection : Rejection)
  | sweepVictim (key : RecordKey) (job : JobRecord)
  | sweepInboxRecords (entries : List (ℕ × QueueName × String))
  | kvCompareThen (key : κ) (expected value : Option β)
  | kvPut (key : κ) (value : β)
  | kvDelete (key : κ)

namespace Call

variable {κ β : Type} [DecidableEq κ] [DecidableEq β]

def committing {α : Type} (delivered : α → List JobRecord)
    (r : Except (Error κ) (Txn κ β × Attempt α)) : Option (Txn κ β × List JobRecord) :=
  match r with
  | .ok (t, .commit value) => some (t, delivered value)
  | _ => none

def noJobs {α : Type} (_ : α) : List JobRecord := []

/-- The transaction that an attempt of the call commits on a snapshot, if it does,
with the jobs it delivers. -/
def attempt (call : Call κ β) (s : Store (Val κ β)) : Option (Txn κ β × List JobRecord) :=
  let t := Txn.begin s
  match call with
  | .enqueue leases prepared effects => committing noJobs (t.writeJobTxn leases prepared effects)
  | .commitEffects leases effects => committing noJobs (t.commitEffects leases effects)
  | .claimBatch queue keys _ now => committing id (t.claimBatch queue keys now)
  | .claimById id _ now =>
    committing (fun outcome => outcome.toOption.toList) (t.claimById id now)
  | .settle leases effectLeases queue id claimId settlement effects now =>
    committing noJobs (t.settleClaim leases effectLeases queue id claimId settlement effects now)
  | .reap leases queue id claimId now => committing noJobs (t.reapJob leases queue id claimId now)
  | .requeueInterrupted job now => committing noJobs (t.requeueInterrupted job now)
  | .promote runAt queue id => committing noJobs (t.promoteJob runAt queue id)
  | .wakeScheduled id => committing noJobs (t.wakeScheduled id)
  | .signal id payload => committing noJobs (t.signal id payload)
  | .cancel leases id effects => committing noJobs (t.cancel leases id effects)
  | .requeueDeadJob id now => committing noJobs (t.requeueDeadJob id now)
  | .applyEnqueue queue entryId appliedAt prepared =>
    committing noJobs (t.applyEnqueue queue entryId appliedAt prepared)
  | .applyCancel queue entryId appliedAt jobId =>
    committing noJobs (t.applyCancel queue entryId appliedAt jobId)
  | .applySignal queue entryId appliedAt jobId payload =>
    committing noJobs (t.applySignal queue entryId appliedAt jobId payload)
  | .commitRejection queue entryId appliedAt rejection =>
    committing noJobs (t.commitRejection queue entryId appliedAt rejection)
  | .sweepVictim key job => committing noJobs (t.sweepVictim key job)
  | .sweepInboxRecords entries => committing noJobs (t.sweepInboxRecords entries)
  | .kvCompareThen key expected value => committing noJobs (t.kvCompareThen key expected value)
  | .kvPut key value => committing noJobs (t.kvPut key value)
  | .kvDelete key => committing noJobs (t.kvDelete key)

end Call

end Taquba
