import Taquba.Queue.Calls
import Taquba.Workflow.Keys

/-! # The records of a workflow runtime

The run record of an active run, the terminal record that replaces it, the
current-step pointer, the member record of a group and the queues with the owned
runs of an owner, and the reads of them. A stored value is kept decoded; a value
that is not of the kind its key holds fails to decode.
-/

namespace Taquba.Workflow

open Snapshot

inductive CancelOrigin where
  | runner
  | request
  | owner
  deriving DecidableEq, Repr

inductive TerminalStatus where
  | succeeded
  | failed
  | cancelled
  deriving DecidableEq, Repr

inductive StepErrorKind where
  | transient
  | permanent
  deriving DecidableEq, Repr

/-- The cancellation request on the record of a run. -/
structure CancelRequest where
  reason : Option String
  origin : CancelOrigin
  requestedAtMs : ℕ
  deriving DecidableEq, Repr

structure RunRecord where
  runId : RunId
  submissionId : String
  submittedAtMs : ℕ
  inputHash : List UInt8
  cancelRequest : Option CancelRequest
  deriving DecidableEq

/-- The submission of a run, which a termination copies into the terminal record. -/
structure Submission where
  submissionId : String
  inputHash : List UInt8
  submittedAtMs : ℕ
  deriving DecidableEq

def RunRecord.submission (record : RunRecord) : Submission where
  submissionId := record.submissionId
  inputHash := record.inputHash
  submittedAtMs := record.submittedAtMs

def Submission.owner (submission : Submission) (runId : RunId) : OwnerRef :=
  ⟨runId, submission.submissionId⟩

structure StepRef where
  stepNumber : ℕ
  jobId : String
  deriving DecidableEq, Repr

/-- The reference to the result of a succeeded run. -/
inductive StoredResult where
  | empty
  | object (attempt : ℕ)
  deriving DecidableEq, Repr

structure Termination where
  status : TerminalStatus
  error : Option String
  cancelledBy : Option CancelOrigin
  errorKind : Option StepErrorKind
  finalStep : StepRef
  terminatedAtMs : ℕ
  inputHash : List UInt8
  submittedAtMs : ℕ
  headers : Headers
  result : Option StoredResult
  deriving DecidableEq

inductive Run where
  | active (record : RunRecord)
  | terminated (termination : Termination)
  deriving DecidableEq

structure Member where
  runId : RunId
  terminated : Option Termination
  deriving DecidableEq

/-- A stored value. Markers and index entries are empty. -/
inductive Value where
  | run (run : Run)
  | step (ref : StepRef)
  | member (member : Member)
  | queues (queues : List QueueName)
  | bytes (bytes : List UInt8)
  deriving DecidableEq

abbrev Db := Store (Val KvKey Value)

inductive Failure where
  | missingHeader (header : String)
  | invalidStepHeader (header value : String)
  | invalidRunId (runId : String) (reason : FormError)
  | groupNotFound (groupId : RunId)
  | groupActive (groupId : RunId)
  | deserialization
  | queue (error : Error KvKey) (permanent : Bool)
  deriving DecidableEq

def Failure.isPermanent : Failure → Bool
  | .groupActive _ => false
  | .queue _ permanent => permanent
  | _ => true

section Reads

variable (db : Db)

def runEntry (runId : RunId) : Except Failure (Option Run) :=
  match db (.user (.run runId)) with
  | none => .ok none
  | some (.run run) => .ok (some run)
  | some _ => .error .deserialization

def runRecord (runId : RunId) : Except Failure (Option RunRecord) := do
  match ← runEntry db runId with
  | some (.active record) => return some record
  | _ => return none

theorem runRecord_of_active {db : Db} {runId : RunId} {record : RunRecord}
    (h : db (.user (.run runId)) = some (.run (.active record))) :
    runRecord db runId = .ok (some record) := by
  unfold runRecord runEntry
  rw [h]
  rfl

def currentStepIfActive (runId : RunId) : Except Failure (Option StepRef) :=
  match db (.user (.step runId)) with
  | none => .ok none
  | some (.step ref) => .ok (some ref)
  | some _ => .error .deserialization

def readOwnedQueues (owner : OwnerRef) : Except Failure (Option (List QueueName)) :=
  match db (.user (.ownerQueues owner)) with
  | none => .ok none
  | some (.queues queues) => .ok (some queues)
  | some _ => .error .deserialization

def ownedQueues (owner : OwnerRef) : Except Failure (List QueueName) :=
  (readOwnedQueues db owner).map (·.getD [])

end Reads

def runOf (job : JobRecord) : Option String := List.lookup headerRunId job.headers

structure ClaimedStep where
  runId : RunId
  stepNumber : ℕ
  membership : Option Membership
  owner : Option OwnerRef
  headers : Headers
  job : JobRecord
  deriving DecidableEq

def parseRunId (value : String) : Except Failure RunId :=
  match RunId.new value with
  | .ok runId => .ok runId
  | .error reason => .error (.invalidRunId value reason)

/-- The membership that the headers name, when both are present. -/
def Membership.fromHeaders (headers : Headers) : Except Failure (Option Membership) :=
  match List.lookup headerGroup headers, List.lookup headerGroupKey headers with
  | some groupId, some key => do
    let groupId ← parseRunId groupId
    return some ⟨groupId, key⟩
  | _, _ => .ok none

def parseOwner (digests : Digests) (value : String) : Except Failure OwnerRef :=
  match OwnerRef.fromHeader digests value with
  | .ok owner => .ok owner
  | .error none => .error (.invalidStepHeader headerOwner value)
  | .error (some reason) =>
    .error (.invalidRunId (String.ofList (value.toList.takeWhile (· ≠ ':'))) reason)

def ClaimedStep.parse (digests : Digests) (job : JobRecord) : Except Failure ClaimedStep := do
  let runId ← match runOf job with
    | some value => parseRunId value
    | none => .error (.missingHeader headerRunId)
  let stepText ← match List.lookup headerStep job.headers with
    | some value => .ok value
    | none => .error (.missingHeader headerStep)
  let stepNumber ← match parseU32 stepText with
    | some n => .ok n
    | none => .error (.invalidStepHeader headerStep stepText)
  let membership ← Membership.fromHeaders job.headers
  let owner ← match List.lookup headerOwner job.headers with
    | some value => (parseOwner digests value).map some
    | none => .ok none
  return { runId, stepNumber, membership, owner, headers := submitterHeaders job.headers, job }

end Taquba.Workflow
