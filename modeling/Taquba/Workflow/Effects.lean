import Taquba.Effects.Calls
import Taquba.Workflow.Handles

/-! # The effects of submissions, advances and terminations

The jobs, keys and count changes that the runtime commits with a submission, with
the settlement of a step and with a cancel, and the choice of the settlement from
the outcome of a step.
-/

namespace Taquba.Workflow

open Snapshot

/-- A runtime: the queue of its steps, and whether it marks terminated runs for its memo
sweep. -/
structure Runtime where
  queueName : QueueName
  memoSweep : Bool
  deriving DecidableEq

/-- The settings of the queues. The value of a caller is stored as it is. -/
structure RunConfigs extends Configs Value where
  valueSize_bytes : ∀ value, valueSize (.bytes value) = value.length

structure Settings where
  digests : Digests
  configs : RunConfigs

/-- The wake of a scheduled step before its `runAt`. -/
inductive StepWait where
  | signal
  | count (name : String)
  deriving DecidableEq

structure StepEnqueueOpts where
  runAt : Option ℕ := none
  priority : Option ℕ := none
  maxAttempts : Option ℕ := none
  wait : Option StepWait := none
  membership : Option Membership := none
  owner : Option OwnerRef := none
  deriving DecidableEq

/-- The headers of the runtime on a step job, besides the run and the step. -/
def StepEnqueueOpts.reservedHeaders (opts : StepEnqueueOpts) : List (String × String) :=
  opts.membership.elim [] Membership.reservedHeaders ++
    opts.owner.elim [] fun owner => [(headerOwner, owner.headerValue)]

def stepHeaders (runId : RunId) (stepNumber : ℕ) (userHeaders : Headers)
    (opts : StepEnqueueOpts) : Headers :=
  opts.reservedHeaders.foldl (fun headers h => headers.insert h.1 h.2)
    ((userHeaders.insert headerRunId runId.id).insert headerStep (toString stepNumber))

def stepEnqueueRequest (queue : QueueName) (jobId : String) (runId : RunId) (stepNumber : ℕ)
    (payload : List UInt8) (userHeaders : Headers) (opts : StepEnqueueOpts) : EnqueueRequest where
  queue := queue.name
  payload := payload
  options :=
    { headers := stepHeaders runId stepNumber userHeaders opts
      runAt := opts.runAt
      priority := opts.priority
      maxAttempts := opts.maxAttempts
      dedupKey := some (stepDedupKey runId stepNumber)
      idOverride := some jobId
      signalWait := opts.wait = some .signal
      countWait := match opts.wait with
        | some (.count name) => some name
        | _ => none }

/-- The options of the next step of a run: the settings of this step. -/
def ClaimedStep.nextStepOpts (claimed : ClaimedStep) : StepEnqueueOpts where
  priority := some claimed.job.priority
  maxAttempts := some claimed.job.maxAttempts
  membership := claimed.membership
  owner := claimed.owner

def advance (digests : Digests) (queue : QueueName) (claimed : ClaimedStep)
    (payload : List UInt8) (opts : StepEnqueueOpts) : RunEffects :=
  let nextStep := (claimed.stepNumber + 1) % 2 ^ 32
  let nextJobId := digests.nextStepJobId claimed.job.id
  let effects : RunEffects := {}
  (effects.enqueue (stepEnqueueRequest queue nextJobId claimed.runId nextStep payload
    claimed.headers opts)).kvPut (.step claimed.runId) (.step ⟨nextStep, nextJobId⟩)

structure Ending where
  status : TerminalStatus
  error : Option String
  cancelledBy : Option CancelOrigin
  errorKind : Option StepErrorKind
  deriving DecidableEq

def Ending.succeeded : Ending := ⟨.succeeded, none, none, none⟩

def Ending.failed (error : String) (kind : Option StepErrorKind) : Ending :=
  ⟨.failed, some error, none, kind⟩

def Ending.cancelled (origin : CancelOrigin) (reason : Option String) : Ending :=
  ⟨.cancelled, reason, some origin, none⟩

/-- The terminal record of the run of a step that ends so. -/
def termination (claimed : ClaimedStep) (ending : Ending) (result : Option StoredResult)
    (submission : Submission) (now : ℕ) : Termination where
  status := ending.status
  error := ending.error
  cancelledBy := ending.cancelledBy
  errorKind := ending.errorKind
  finalStep := ⟨claimed.stepNumber, claimed.job.id⟩
  terminatedAtMs := now
  inputHash := submission.inputHash
  submittedAtMs := submission.submittedAtMs
  headers := claimed.headers
  result := result

/-- The queues with owned runs of an owner, as they were read. -/
structure OwnedQueues where
  owner : OwnerRef
  queues : List QueueName

def ownedCancelRequest (owner : OwnerRef) (queue : QueueName) : EnqueueRequest where
  queue := queue.name
  payload := []
  options :=
    { headers := [(headerOwned, owner.headerValue)]
      dedupKey := some owner.cancelDedupKey }

def ownerTerminationEffects (effects : RunEffects) (owned : OwnedQueues) : RunEffects :=
  { effects with
    enqueues := effects.enqueues ++ owned.queues.map (ownedCancelRequest owned.owner) }

/-- What a termination is built from: the step it ends at, how, the submission of the run
record, the queues with owned runs, what the hook staged and the time. -/
structure Terminating where
  runtime : Runtime
  claimed : ClaimedStep
  ending : Ending
  result : Option StoredResult
  submission : Submission
  owned : OwnedQueues
  hook : StagedEffects
  now : ℕ

def terminalIndex : ExpiryIndex :=
  ⟨"workflow/terminals/".toList.map fun c => UInt8.ofNat c.toNat⟩

namespace Terminating

variable (t : Terminating)

def record : Termination := termination t.claimed t.ending t.result t.submission t.now

def memberEffects (effects : RunEffects) : RunEffects :=
  match t.claimed.membership with
  | some m =>
    (effects.kvPut (.member m.groupId m.key) (.member ⟨t.claimed.runId, some t.record⟩)).countDown
      m.countName
  | none => effects

def ownedEffects (effects : RunEffects) : RunEffects :=
  match t.claimed.owner with
  | some owner => effects.kvDelete (.owned owner t.runtime.queueName t.claimed.runId)
  | none => effects

def markEffects (effects : RunEffects) : RunEffects :=
  if t.runtime.memoSweep then
    effects.expiryEntry terminalIndex t.now (.terminal t.now t.claimed.runId) (.bytes [])
  else effects

/-- What the hook staged, the delete of the pointer and the terminal record over the run
record. -/
def runEffects : RunEffects :=
  ((t.hook.addTo {}).kvDelete (.step t.claimed.runId)).kvPut (.run t.claimed.runId)
    (.run (.terminated t.record))

/-- The effects of a termination: the pointer is deleted, the terminal record replaces the
run record, the member record of the group is written and its count goes down, the index
entry of an owned run is deleted, the owned runs are cancelled, and the run is marked for
the memo sweep. -/
def effects : RunEffects :=
  t.markEffects
    (ownerTerminationEffects (t.ownedEffects (t.memberEffects t.runEffects)) t.owned)

end Terminating

/-- When the next step of a run becomes claimable. -/
inductive Trigger where
  | immediate
  | after (delay : ℕ)
  | onSignal (timeout : ℕ)
  | onGroup (groupId : RunId) (timeout : ℕ)
  deriving DecidableEq

inductive StepOutcome where
  | continue (payload : List UInt8) (when : Trigger)
  | succeed (result : List UInt8)
  | fail (reason : String)
  | cancel (reason : String)
  deriving DecidableEq

structure StepError where
  kind : StepErrorKind
  message : String
  deriving DecidableEq

def Failure.stepError (failure : Failure) (message : String) : StepError :=
  ⟨if failure.isPermanent then .permanent else .transient, message⟩

/-- An external cancellation that a settlement observed. -/
structure ExternalCancel where
  reason : Option String
  origin : CancelOrigin
  deriving DecidableEq

/-- How a step is settled: the run advances or terminates with an acknowledgement, it
terminates with a failed settlement, or the settlement leaves the run. -/
inductive Decision where
  | advance (payload : List UInt8) (opts : StepEnqueueOpts)
  | terminate (ending : Ending) (result : Option StoredResult)
  | failing (error : StepError)
  | error (error : StepError)
  deriving DecidableEq

def stepFailure (claimed : ClaimedStep) (error : StepError) : Decision :=
  if error.kind = .permanent ∨ claimed.job.isLastAttempt then .failing error else .error error

def storedResult (claimed : ClaimedStep) (result : List UInt8) : StoredResult :=
  if result = [] then .empty else .object claimed.job.attempts

/-- The settlement of an outcome. An external cancellation overrides every outcome. A step
that waits for a group without a member fails. -/
def settleOutcome (claimed : ClaimedStep) (outcome : Except StepError StepOutcome)
    (external : Option ExternalCancel) (groupHasMember : Bool) (now : ℕ) : Decision :=
  match outcome, external with
  | _, some cancel => .terminate (.cancelled cancel.origin cancel.reason) none
  | .ok (.cancel reason), none => .terminate (.cancelled .runner (some reason)) none
  | .ok (.continue payload when), none =>
    let opts := claimed.nextStepOpts
    match when with
    | .immediate => .advance payload opts
    | .after delay => .advance payload { opts with runAt := some (now + delay) }
    | .onSignal timeout =>
      .advance payload { opts with runAt := some (now + timeout), wait := some .signal }
    | .onGroup groupId timeout =>
      if groupHasMember then
        .advance payload
          { opts with
            runAt := some (now + timeout)
            wait := some (.count (groupCountName groupId)) }
      else stepFailure claimed (Failure.stepError (.groupNotFound groupId) "group not found")
  | .ok (.succeed result), none => .terminate .succeeded (some (storedResult claimed result))
  | .ok (.fail reason), none => .terminate (.failed reason (some .permanent)) none
  | .error error, none => stepFailure claimed error

/-- Add what the step staged. The override of an external cancellation discards it, except
for the cancel of the runner itself. -/
def addCallerEffects (outcome : Except StepError StepOutcome) (external : Option ExternalCancel)
    (caller : StagedEffects) (effects : RunEffects) : RunEffects :=
  match outcome, external with
  | .ok (.cancel _), _ | _, none => caller.addTo effects
  | _, some _ => effects

end Taquba.Workflow
