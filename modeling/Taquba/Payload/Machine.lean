import Taquba.Payload.Refs

/-! # Payload objects

A call offloads the large payloads of its new jobs before its transaction, one object
each under a name that was never used. After the transaction it deletes the objects of
the jobs that were not written, and that of the job it removed. A call that waits for
its commit to be durable deletes after the wait; the removals of a sweep or an inbox
batch are followed by one flush and then by the deletes. A crash keeps a number of the
commits, among them all that were durable.
-/

namespace Taquba

open Snapshot Transition

variable {κ β : Type}

/-- When a call deletes payload objects: after it waited for its commit, after its
commit, with the batch that it is part of, or never. -/
inductive Handling where
  | awaited
  | deferred
  | batched
  | never
  deriving DecidableEq, Repr

namespace Call

/-- The new jobs of the call, in the order in which their payloads are offloaded. -/
def prepared : Call κ β → List PreparedJob
  | .enqueue _ prepared effects => effects.preparedJobs ++ [prepared]
  | .commitEffects _ effects | .settle _ _ _ _ _ _ effects _ | .cancel _ _ effects =>
    effects.preparedJobs
  | .applyEnqueue _ _ _ prepared => [prepared]
  | _ => []

def handling : Call κ β → Handling
  | .enqueue _ _ _ | .commitEffects _ _ | .settle _ _ _ _ _ _ _ _ | .cancel _ _ _ => .awaited
  | .applyEnqueue _ _ _ _ => .deferred
  | .applyCancel _ _ _ _ | .sweepVictim _ _ => .batched
  | _ => .never

end Call

/-- The jobs of the effects whose objects are deleted once the call ends: all of them
when the call discarded the effects, and otherwise those that a dedup key stopped. -/
def PreparedEffects.finish (effects : PreparedEffects κ β) :
    Option (List EnqueueResult) → List PreparedJob
  | none => effects.preparedJobs
  | some results => discardedJobs effects.preparedJobs results

namespace Call

section Finish

variable [DecidableEq κ] [DecidableEq β]

def discarded (s : Store (Val κ β)) : Call κ β → List PreparedJob
  | .enqueue leases prepared effects =>
    match (Txn.begin s).writeJobTxn leases prepared effects with
    | .ok (_, .commit (.ok (_, results))) => effects.finish (some results)
    | _ => []
  | .commitEffects leases effects =>
    match (Txn.begin s).commitEffects leases effects with
    | .ok (_, .commit results) => effects.finish (some results)
    | _ => []
  | .settle leases effectLeases queue id claimId settlement effects now =>
    match (Txn.begin s).settleClaim leases effectLeases queue id claimId settlement effects now with
    | .ok (_, .commit (_, _, results)) => effects.finish results
    | _ => []
  | .cancel leases id effects =>
    match (Txn.begin s).cancel leases id effects with
    | .ok (_, .commit (_, results)) => effects.finish results
    | _ => []
  | .applyEnqueue queue entryId appliedAt prepared =>
    match (Txn.begin s).applyEnqueue queue entryId appliedAt prepared with
    | .ok (_, .commit (.enqueue result)) => discardedJobs [prepared] [result]
    | _ => []
  | _ => []

def removedRef (s : Store (Val κ β)) (call : Call κ β) : Option String :=
  (call.removed s).bind (·.payloadRef)

/-- The objects that the call deletes after it committed on the snapshot. -/
def finish (s : Store (Val κ β)) (call : Call κ β) : List String :=
  payloadRefs (call.discarded s) ++ (call.removedRef s).toList

end Finish

end Call

deriving instance DecidableEq for PreparedJob

namespace Payload

/-- A call or a batch in progress: it offloads payloads, its commit is applied with the
objects to delete after an error and after a success and the commits to wait for, it
removes records, or it deletes objects. -/
inductive Task where
  | preparing (ready todo : List PreparedJob)
  | applied (discard finish : List String) (awaited : Option ℕ)
  | batch (refs : List String) (count : ℕ)
  | deleting (refs : List String)

/-- The store, the number of commits that are durable, the payload objects, the names
given to them and the tasks of the process. -/
structure State (κ β : Type) where
  queue : Queue.State κ β := {}
  durable : ℕ := 0
  objects : String → Option (List UInt8) := fun _ => none
  named : List String := []
  tasks : ℕ → Option Task := fun _ => none

inductive Label (κ β : Type) where
  | queue (label : Queue.Label κ β)
  | start (i : ℕ) (jobs : List PreparedJob)
  | offload (i : ℕ) (name : String)
  | giveUp (i : ℕ)
  | commit (i : ℕ) (call : Call κ β) (snap : ℕ)
  | acknowledge (i : ℕ)
  | fail (i : ℕ)
  | remove (i : ℕ) (call : Call κ β) (snap : ℕ)
  | flush (i : ℕ)
  | delete (i : ℕ)
  | deleteFailed (i : ℕ)
  | abandon (i : ℕ)
  | durable (count : ℕ)

def isOversized (threshold : Option ℕ) (p : PreparedJob) : Bool :=
  threshold.any fun threshold => threshold < p.job.payload.length

def offloaded (p : PreparedJob) (name : String) : PreparedJob :=
  { p with job := { p.job with payload := [], payloadRef := some name } }

def State.setTask (s : State κ β) (i : ℕ) (task : Option Task) : State κ β :=
  { s with tasks := Function.update s.tasks i task }

variable [DecidableEq κ] [DecidableEq β]

def step (threshold : Option ℕ) (s : State κ β) : Label κ β → Option (State κ β)
  | .queue (.commit call snap) =>
    if call.handling = .never then
      (Queue.step s.queue (.commit call snap)).map fun queue => { s with queue }
    else none
  | .queue (.requeue now) =>
    (Queue.step s.queue (.requeue now)).map fun queue => { s with queue }
  | .queue (.reopen kept todo) =>
    if s.durable ≤ kept then
      (Queue.step s.queue (.reopen kept todo)).map fun queue =>
        { s with queue, tasks := fun _ => none }
    else none
  | .start i jobs =>
    if (s.tasks i).isNone ∧ ∀ p ∈ jobs, p.job.payloadRef = none then
      some (s.setTask i (some (.preparing [] jobs)))
    else none
  | .offload i name =>
    match s.tasks i with
    | some (.preparing ready (p :: todo)) =>
      if isOversized threshold p then
        if name ∈ s.named then none
        else some ({ s with
          objects := Function.update s.objects name (some p.job.payload)
          named := name :: s.named }.setTask i
            (some (.preparing (ready ++ [offloaded p name]) todo)))
      else some (s.setTask i (some (.preparing (ready ++ [p]) todo)))
    | _ => none
  | .giveUp i =>
    match s.tasks i with
    | some (.preparing ready _) => some (s.setTask i (some (.deleting (payloadRefs ready))))
    | _ => none
  | .commit i call snap =>
    match s.tasks i with
    | some (.preparing ready []) =>
      if call.prepared = ready ∧ (call.handling = .awaited ∨ call.handling = .deferred) then
        (Queue.step s.queue (.commit call snap)).map fun queue =>
          { s with queue }.setTask i (some (.applied (payloadRefs ready)
            (call.finish (Log.store (s.queue.log.take snap)))
            (if call.handling = Handling.awaited then some queue.log.length else none)))
      else none
    | _ => none
  | .acknowledge i =>
    match s.tasks i with
    | some (.applied _ finish awaited) =>
      if ∀ count ∈ awaited, count ≤ s.durable then some (s.setTask i (some (.deleting finish)))
      else none
    | _ => none
  | .fail i =>
    match s.tasks i with
    | some (.applied discard _ _) => some (s.setTask i (some (.deleting discard)))
    | _ => none
  | .remove i call snap =>
    if call.handling = .batched then
      match s.tasks i with
      | none =>
        (Queue.step s.queue (.commit call snap)).map fun queue =>
          { s with queue }.setTask i (some (.batch
            (call.removedRef (Log.store (s.queue.log.take snap))).toList queue.log.length))
      | some (.batch refs _) =>
        (Queue.step s.queue (.commit call snap)).map fun queue =>
          { s with queue }.setTask i (some (.batch
            (refs ++ (call.removedRef (Log.store (s.queue.log.take snap))).toList)
            queue.log.length))
      | _ => none
    else none
  | .flush i =>
    match s.tasks i with
    | some (.batch refs count) =>
      if count ≤ s.durable then some (s.setTask i (some (.deleting refs))) else none
    | _ => none
  | .delete i =>
    match s.tasks i with
    | some (.deleting (r :: refs)) =>
      some ({ s with objects := Function.update s.objects r none }.setTask i
        (some (.deleting refs)))
    | _ => none
  | .deleteFailed i =>
    match s.tasks i with
    | some (.deleting (_ :: refs)) => some (s.setTask i (some (.deleting refs)))
    | _ => none
  | .abandon i => some (s.setTask i none)
  | .durable count =>
    if s.durable ≤ count ∧ count ≤ s.queue.log.length then some { s with durable := count }
    else none

inductive Step (threshold : Option ℕ) (s : State κ β) : Label κ β → State κ β → Prop where
  | other {call snap q} (hnever : call.handling = .never)
      (hq : Queue.step s.queue (.commit call snap) = some q) :
    Step threshold s (.queue (.commit call snap)) { s with queue := q }
  | requeue {now q} (hq : Queue.step s.queue (.requeue now) = some q) :
    Step threshold s (.queue (.requeue now)) { s with queue := q }
  | reopen {kept todo q} (hkept : s.durable ≤ kept)
      (hq : Queue.step s.queue (.reopen kept todo) = some q) :
    Step threshold s (.queue (.reopen kept todo)) { s with queue := q, tasks := fun _ => none }
  | start {i jobs} (htask : (s.tasks i).isNone) (hjobs : ∀ p ∈ jobs, p.job.payloadRef = none) :
    Step threshold s (.start i jobs) (s.setTask i (some (.preparing [] jobs)))
  | offload {i name ready p todo} (htask : s.tasks i = some (.preparing ready (p :: todo)))
      (hsize : isOversized threshold p = true) (hname : name ∉ s.named) :
    Step threshold s (.offload i name) ({ s with
      objects := Function.update s.objects name (some p.job.payload)
      named := name :: s.named }.setTask i
        (some (.preparing (ready ++ [offloaded p name]) todo)))
  | inline {i name ready p todo} (htask : s.tasks i = some (.preparing ready (p :: todo)))
      (hsize : ¬ isOversized threshold p = true) :
    Step threshold s (.offload i name) (s.setTask i (some (.preparing (ready ++ [p]) todo)))
  | giveUp {i ready todo} (htask : s.tasks i = some (.preparing ready todo)) :
    Step threshold s (.giveUp i) (s.setTask i (some (.deleting (payloadRefs ready))))
  | commit {i call snap q} (htask : s.tasks i = some (.preparing call.prepared []))
      (hhandling : call.handling = .awaited ∨ call.handling = .deferred)
      (hq : Queue.step s.queue (.commit call snap) = some q) :
    Step threshold s (.commit i call snap) ({ s with queue := q }.setTask i
      (some (.applied (payloadRefs call.prepared)
        (call.finish (Log.store (s.queue.log.take snap)))
        (if call.handling = Handling.awaited then some q.log.length else none))))
  | acknowledge {i discard finish awaited}
      (htask : s.tasks i = some (.applied discard finish awaited))
      (hdurable : ∀ count ∈ awaited, count ≤ s.durable) :
    Step threshold s (.acknowledge i) (s.setTask i (some (.deleting finish)))
  | fail {i discard finish awaited} (htask : s.tasks i = some (.applied discard finish awaited)) :
    Step threshold s (.fail i) (s.setTask i (some (.deleting discard)))
  | remove {i call snap q} (hbatched : call.handling = .batched) (htask : s.tasks i = none)
      (hq : Queue.step s.queue (.commit call snap) = some q) :
    Step threshold s (.remove i call snap) ({ s with queue := q }.setTask i (some (.batch
      (call.removedRef (Log.store (s.queue.log.take snap))).toList q.log.length)))
  | removeNext {i call snap refs count q} (hbatched : call.handling = .batched)
      (htask : s.tasks i = some (.batch refs count))
      (hq : Queue.step s.queue (.commit call snap) = some q) :
    Step threshold s (.remove i call snap) ({ s with queue := q }.setTask i (some (.batch
      (refs ++ (call.removedRef (Log.store (s.queue.log.take snap))).toList) q.log.length)))
  | flush {i refs count} (htask : s.tasks i = some (.batch refs count))
      (hdurable : count ≤ s.durable) :
    Step threshold s (.flush i) (s.setTask i (some (.deleting refs)))
  | delete {i r refs} (htask : s.tasks i = some (.deleting (r :: refs))) :
    Step threshold s (.delete i) ({ s with
      objects := Function.update s.objects r none }.setTask i (some (.deleting refs)))
  | deleteFailed {i r refs} (htask : s.tasks i = some (.deleting (r :: refs))) :
    Step threshold s (.deleteFailed i) (s.setTask i (some (.deleting refs)))
  | abandon (i : ℕ) : Step threshold s (.abandon i) (s.setTask i none)
  | durable {count} (hle : s.durable ≤ count) (hlen : count ≤ s.queue.log.length) :
    Step threshold s (.durable count) { s with durable := count }

theorem step_cases {threshold : Option ℕ} {s s' : State κ β} {l : Label κ β}
    (h : step threshold s l = some s') : Step threshold s l s' := by
  cases l with
  | queue label =>
    cases label with
    | commit call snap =>
      obtain ⟨hnever, h⟩ := Option.ite_none_right_eq_some.mp h
      obtain ⟨q, hq, rfl⟩ := Option.map_eq_some_iff.mp h
      exact .other hnever hq
    | requeue now =>
      obtain ⟨q, hq, rfl⟩ := Option.map_eq_some_iff.mp h
      exact .requeue hq
    | reopen kept todo =>
      obtain ⟨hkept, h⟩ := Option.ite_none_right_eq_some.mp h
      obtain ⟨q, hq, rfl⟩ := Option.map_eq_some_iff.mp h
      exact .reopen hkept hq
  | start i jobs =>
    obtain ⟨⟨htask, hjobs⟩, ⟨⟩⟩ := Option.ite_none_right_eq_some.mp h
    exact .start htask hjobs
  | offload i name =>
    simp only [step] at h
    split at h
    · split_ifs at h with hsize hname <;> cases h
      · exact .offload ‹_› hsize hname
      · exact .inline ‹_› hsize
    · cases h
  | commit i call snap =>
    simp only [step] at h
    split at h
    · obtain ⟨⟨rfl, hhandling⟩, h⟩ := Option.ite_none_right_eq_some.mp h
      obtain ⟨q, hq, rfl⟩ := Option.map_eq_some_iff.mp h
      exact .commit ‹_› hhandling hq
    · cases h
  | acknowledge i =>
    simp only [step] at h
    split at h
    · obtain ⟨hdurable, ⟨⟩⟩ := Option.ite_none_right_eq_some.mp h
      exact .acknowledge ‹_› hdurable
    · cases h
  | remove i call snap =>
    obtain ⟨hbatched, h⟩ := Option.ite_none_right_eq_some.mp h
    split at h
    · obtain ⟨q, hq, rfl⟩ := Option.map_eq_some_iff.mp h
      exact .remove hbatched ‹_› hq
    · obtain ⟨q, hq, rfl⟩ := Option.map_eq_some_iff.mp h
      exact .removeNext hbatched ‹_› hq
    · cases h
  | flush i =>
    simp only [step] at h
    split at h
    · obtain ⟨hdurable, ⟨⟩⟩ := Option.ite_none_right_eq_some.mp h
      exact .flush ‹_› hdurable
    · cases h
  | giveUp i | fail i | delete i | deleteFailed i =>
    simp only [step] at h
    split at h <;> cases h
    constructor
    assumption
  | abandon i =>
    cases h
    exact .abandon i
  | durable count =>
    obtain ⟨⟨hle, hlen⟩, ⟨⟩⟩ := Option.ite_none_right_eq_some.mp h
    exact .durable hle hlen

/-- The runs of a queue with its payload store. -/
def machine (κ β : Type) [DecidableEq κ] [DecidableEq β] (threshold : Option ℕ) :
    Machine (State κ β) (Label κ β) where
  init s := s = {}
  step := step threshold

end Payload

end Taquba
