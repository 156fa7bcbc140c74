import Taquba.Queue.Machine

/-! # Completion waits

A wait registers for a job, reads the record of the job, and then returns at once or
waits for the delivery of an outcome. A transition that ends a job applies its commit,
waits for its durability where it is awaited, and only then delivers the outcome to the
waiters that are registered at that time. These are separate steps, and other calls and
waits run between them.
-/

namespace Taquba

open Snapshot Transition

variable {κ β : Type}

/-- The outcome of a wait. The payload of the record is as stored. -/
inductive WaitOutcome where
  | done (job : JobRecord)
  | dead (job : JobRecord)
  | cancelled
  | notFound
  deriving DecidableEq

/-- The outcome of a claim end that wrote the record. -/
def WaitOutcome.ofRecord (job : JobRecord) : WaitOutcome :=
  match job.status with
  | .dead => .dead job
  | _ => .done job

namespace Call

variable [DecidableEq κ] [DecidableEq β]

/-- The job that the call ends when it commits on the snapshot, with the outcome that it
delivers to the waiters of the job. -/
def ending (s : Store (Val κ β)) : Call κ β → Option (String × WaitOutcome)
  | .settle leases effectLeases queue id claimId settlement effects now =>
    match (Txn.begin s).settleClaim leases effectLeases queue id claimId settlement effects now with
    | .ok (_, .commit (job, claimEnd, _)) =>
      if claimEnd.isTerminal then some (job.id, .ofRecord job) else none
    | _ => none
  | .reap leases queue id claimId now =>
    match (Txn.begin s).reapJob leases queue id claimId now with
    | .ok (_, .commit (some (job, claimEnd))) =>
      if claimEnd.isTerminal then some (job.id, .ofRecord job) else none
    | _ => none
  | .cancel leases id effects =>
    match (Txn.begin s).cancel leases id effects with
    | .ok (_, .commit (.removed job, _)) => some (job.id, .cancelled)
    | _ => none
  | .applyCancel queue entryId appliedAt jobId =>
    match (Txn.begin s).applyCancel queue entryId appliedAt jobId with
    | .ok (_, .commit (_, some (.removed job))) => some (job.id, .cancelled)
    | _ => none
  | _ => none

/-- The call waits for the durability of its commit before it delivers. A reap and an
inbox pass do not. -/
def awaitsDurable : Call κ β → Bool
  | .reap _ _ _ _ _ | .applyCancel _ _ _ _ => false
  | _ => true

/-- A claim end asks first whether the job has waiters. A cancel delivers at once. -/
def checksWaiters : Call κ β → Bool
  | .cancel _ _ _ | .applyCancel _ _ _ _ => false
  | _ => true

def sweeps? : Call κ β → Option JobRecord
  | .sweepVictim _ job => some job
  | _ => none

end Call

/-- The registered waiters, each by its key and the job it waits for. -/
structure CompletionWaiters where
  nextKey : ℕ := 0
  waiters : List (ℕ × String) := []

namespace CompletionWaiters

def register (r : CompletionWaiters) (id : String) : CompletionWaiters where
  nextKey := r.nextKey + 1
  waiters := r.waiters ++ [(r.nextKey, id)]

def hasWaiters (r : CompletionWaiters) (id : String) : Bool := r.waiters.any (·.2 = id)

/-- A settlement takes the waiters of the job out of the registry. -/
def settle (r : CompletionWaiters) (id : String) : CompletionWaiters :=
  { r with waiters := r.waiters.filter (·.2 ≠ id) }

def withdraw (r : CompletionWaiters) (key : ℕ) : CompletionWaiters :=
  { r with waiters := r.waiters.filter (·.1 ≠ key) }

end CompletionWaiters

namespace Completion

/-- How far a wait is: it registered, it read the record of its job, it waits for the
delivery, it returned an outcome after it read such a record, or it returned an error. -/
inductive Phase where
  | registered
  | read (job : Option JobRecord)
  | pending (job : JobRecord)
  | returned (job : Option JobRecord) (outcome : WaitOutcome)
  | failed
  deriving DecidableEq

/-- A wait for the job `id` that registered after `since` commits, and what its channel
received. -/
structure Wait where
  id : String
  since : ℕ
  channel : Option WaitOutcome := none
  phase : Phase := .registered

/-- A transition that ended a job with the commit `index` and did not deliver yet. -/
structure Ending where
  index : ℕ
  id : String
  outcome : WaitOutcome
  awaited : Bool
  checked : Bool

structure State (κ β : Type) where
  queue : Queue.State κ β := {}
  durable : ℕ := 0
  registry : CompletionWaiters := {}
  waits : ℕ → Option Wait := fun _ => none
  endings : List Ending := []

inductive Label (κ β : Type) where
  | queue (label : Queue.Label κ β)
  | durable (count : ℕ)
  | check (index : ℕ)
  | settle (index : ℕ)
  | register (id : String)
  | read (key : ℕ)
  | payloadMissing (key : ℕ)
  | decide (key : ℕ)
  | receive (key : ℕ)
  | abandon (key : ℕ)

section Records

variable [DecidableEq κ]

def recordAt (log : History κ β) (m : ℕ) (id : String) : Option JobRecord :=
  ((Txn.begin (Log.store (log.take m))).getIndexedJob id).map (·.2)

end Records

namespace State

def setWait (s : State κ β) (key : ℕ) (wait : Option Wait) : State κ β :=
  { s with waits := Function.update s.waits key wait }

def endWait (s : State κ β) (key : ℕ) (wait : Wait) : State κ β :=
  { s.setWait key (some wait) with registry := s.registry.withdraw key }

def deliver (s : State κ β) (id : String) (outcome : WaitOutcome) : State κ β :=
  { s with
    registry := s.registry.settle id
    waits := fun key =>
      if (key, id) ∈ s.registry.waiters then
        (s.waits key).map fun wait => { wait with channel := some outcome }
      else s.waits key }

/-- The transition with the commit `index`, when it may deliver. -/
def ending? (s : State κ β) (index : ℕ) : Option Ending :=
  (s.endings.find? (·.index = index)).filter fun e => !e.awaited || index < s.durable

def dropEnding (s : State κ β) (index : ℕ) : State κ β :=
  { s with endings := s.endings.filter (·.index ≠ index) }

end State

variable [DecidableEq κ] [DecidableEq β]

def step (s : State κ β) : Label κ β → Option (State κ β)
  | .queue (.commit call snap) =>
    (Queue.step s.queue (.commit call snap)).map fun queue =>
      match call.ending (Log.store (s.queue.log.take snap)) with
      | some (id, outcome) =>
        { s with queue, endings := s.endings ++
          [⟨s.queue.log.length, id, outcome, call.awaitsDurable, !call.checksWaiters⟩] }
      | none => { s with queue }
  | .queue (.requeue now) =>
    (Queue.step s.queue (.requeue now)).map fun queue => { s with queue }
  | .queue (.reopen kept todo) =>
    if s.durable ≤ kept then
      (Queue.step s.queue (.reopen kept todo)).map fun queue =>
        { queue, durable := s.durable }
    else none
  | .durable count =>
    if s.durable ≤ count ∧ count ≤ s.queue.log.length then some { s with durable := count }
    else none
  | .check index =>
    (s.ending? index).bind fun e =>
      if e.checked then none
      else if s.registry.hasWaiters e.id then
        some { s.dropEnding index with
          endings := (s.dropEnding index).endings ++ [{ e with checked := true }] }
      else some (s.dropEnding index)
  | .settle index =>
    (s.ending? index).bind fun e =>
      if e.checked then some ((s.deliver e.id e.outcome).dropEnding index) else none
  | .register id =>
    if s.queue.todo = [] then
      some { s.setWait s.registry.nextKey (some ⟨id, s.queue.log.length, none, .registered⟩) with
        registry := s.registry.register id }
    else none
  | .read key =>
    (s.waits key).bind fun wait =>
      if wait.phase = .registered then
        some (s.setWait key (some { wait with
          phase := .read (recordAt s.queue.log s.queue.log.length wait.id) }))
      else none
  | .payloadMissing key =>
    (s.waits key).bind fun wait =>
      match wait.phase with
      | .read (some job) =>
        if job.payloadRef.isSome then
          if s.queue.log.store (.jobIndex wait.id) = none then
            some (s.setWait key (some { wait with phase := .read none }))
          else some (s.endWait key { wait with phase := .failed })
        else none
      | _ => none
  | .decide key =>
    (s.waits key).bind fun wait =>
      match wait.phase with
      | .read (some job) =>
        if job.status = .done ∨ job.status = .dead then
          some (s.endWait key { wait with phase := .returned (some job) (.ofRecord job) })
        else some (s.setWait key (some { wait with phase := .pending job }))
      | .read none =>
        some (s.endWait key { wait with
          phase := .returned none (wait.channel.getD .notFound) })
      | _ => none
  | .receive key =>
    (s.waits key).bind fun wait =>
      match wait.phase, wait.channel with
      | .pending job, some outcome =>
        some (s.endWait key { wait with phase := .returned (some job) outcome })
      | _, _ => none
  | .abandon key =>
    some { s.setWait key none with registry := s.registry.withdraw key }

/-- The runs of a queue with its completion waits. -/
def machine (κ β : Type) [DecidableEq κ] [DecidableEq β] : Machine (State κ β) (Label κ β) where
  init s := s = {}
  step := step

end Completion

end Taquba
