import Taquba.Clock.Duration
import Taquba.Txn.Stage

/-! # New jobs, counts and settlement effects

A new job is written unless its dedup key is taken. A count wakes its waiting job
when it returns to zero. Effects apply in order: the fence, the compares, the
count changes, the enqueues and the user writes.
-/

namespace Taquba.Txn

open Clock Snapshot

variable {κ β : Type} [DecidableEq κ]

def readRecord (t : Txn κ β) (name : String) : CountRecord :=
  (t.get (.count name)).getD {}

/-- Stage the net change of a count. The change that leaves it at zero deletes its
record and wakes the waiting job. -/
def stageCountChange (t : Txn κ β) (checks : Bool) (name : String) (delta : Int64) :
    Except (Error κ) (Txn κ β) :=
  if delta = 0 then .ok t
  else
    let record := t.readRecord name
    match addI64 checks record.active delta with
    | none => .error .panicked
    | some active =>
      if active ≠ 0 then .ok (t.put (.count name) { record with active })
      else
        let t := t.delete (.count name)
        match record.waiter with
        | some waiter => do
          let (t, _) ← t.stageWake waiter (.count name)
          return t
        | none => .ok t

def stillWaiting (t : Txn κ β) (waiter name : String) : Bool :=
  match t.getIndexedJob waiter with
  | some (_, current) => current.status = .scheduled && current.countWait = some name
  | none => false

/-- Stage the wait of a new scheduled job for its count, and return the job. At
zero the job is pending without a wait. -/
def stageCountWait (t : Txn κ β) (job : JobRecord) : Except (Error κ) (Txn κ β × JobRecord) :=
  match job.countWait with
  | none => .ok (t, job)
  | some name =>
    let record := t.readRecord name
    if record.active = 0 then
      .ok (t, { job with
        status := .pending, runAt := none, signalWait := false, countWait := none })
    else
      match record.waiter with
      | some waiter =>
        if t.stillWaiting waiter name then .error (.countWaiterExists name waiter)
        else .ok (t.put (.count name) { record with waiter := some job.id }, job)
      | none => .ok (t.put (.count name) { record with waiter := some job.id }, job)

def dedupHolder (t : Txn κ β) (job : JobRecord) : Option String :=
  job.dedupKey.bind fun dedupKey => t.get (.dedup job.queue dedupKey)

def putDedup (t : Txn κ β) (job : JobRecord) : Txn κ β :=
  match job.dedupKey with
  | some dedupKey => t.put (.dedup job.queue dedupKey) job.id
  | none => t

/-- Write one prepared job. The inner error is the holder of its dedup key, and
then nothing is written. -/
def stageJobWrites (t : Txn κ β) (prepared : PreparedJob) :
    Except (Error κ) (Txn κ β × Except String String) :=
  let job := prepared.job
  match t.dedupHolder job with
  | some existing => .ok (t, .error existing)
  | none =>
    if prepared.idOverrideUsed ∧ (t.get (.jobIndex job.id)).isSome then
      .error (.duplicateJobId job.id)
    else do
      let (t, written) ← t.stageCountWait job
      let t ← t.insertJob written
      return (t.putDedup job, .ok job.id)

def stageJobs (t : Txn κ β) : List PreparedJob → Except (Error κ) (Txn κ β × List EnqueueResult)
  | [] => .ok (t, [])
  | prepared :: rest => do
    let (t, written) ← t.stageJobWrites prepared
    let result := match written with
      | .ok id => EnqueueResult.new id
      | .error existing => EnqueueResult.alreadyEnqueued existing
    let (t, results) ← t.stageJobs rest
    return (t, result :: results)

def stageCountChanges (t : Txn κ β) (checks : Bool) :
    List (String × Int64) → Except (Error κ) (Txn κ β)
  | [] => .ok t
  | (name, delta) :: rest => do
    let t ← t.stageCountChange checks name delta
    t.stageCountChanges checks rest

/-- Test the compares; their keys join the read set. -/
def stageCompares [DecidableEq β] (t : Txn κ β) :
    List (KvCompare κ β) → Except (Error κ) (Txn κ β)
  | [] => .ok t
  | compare :: rest =>
    if t.get (.user compare.key) = compare.expected then
      (t.markRead (.user compare.key)).stageCompares rest
    else .error (.kvCompareFailed compare.key)

def stageFence (t : Txn κ β) (leases : Leases) : Option ClaimFence → Except (Error κ) (Txn κ β)
  | none => .ok t
  | some fence => do
    let (t, _) ← t.readClaim leases fence.queue fence.id fence.claimId
    return t

def stageKv (t : Txn κ β) (kvWrites : List (κ × β)) (kvDeletes : List κ) : Txn κ β :=
  let t := kvWrites.foldl (fun t w => t.put (.user w.1) w.2) t
  kvDeletes.foldl (fun t k => t.delete (.user k)) t

def stageEffects [DecidableEq β] (t : Txn κ β) (leases : Leases)
    (prepared : PreparedEffects κ β) : Except (Error κ) (Txn κ β × List EnqueueResult) := do
  let t ← t.stageFence leases prepared.claimFence
  let t ← t.stageCompares prepared.kvCompares
  let t ← t.stageCountChanges prepared.overflowChecks prepared.countChanges
  let (t, results) ← t.stageJobs prepared.preparedJobs
  let t := t.stageKv prepared.kvWrites prepared.kvDeletes
  return (prepared.expiryEntries.foldl (fun t e => t.noteExpiryEntry e.1 e.2) t, results)

end Taquba.Txn
