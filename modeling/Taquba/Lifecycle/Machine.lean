import Taquba.Transition.Machine
import Taquba.Txn.Basic

/-! # The lifecycle of one job

What can happen to a job, without a store and without other jobs: it is enqueued,
claimed, ended or retried, woken, cancelled, revived and removed. A life is the
record of the job, without its payload, and its attempt history. Every call of the
queue takes each job through a sequence of these events.
-/

namespace Taquba

open Transition

/-- The outcomes of an attempt after which the job is delivered again. -/
def AttemptOutcome.isRetry : AttemptOutcome → Bool
  | .retried | .leaseExpired | .interrupted => true
  | .completed | .deadLettered | .requeued => false

def AttemptOutcome.isFinal : AttemptOutcome → Bool
  | .completed | .deadLettered => true
  | .retried | .leaseExpired | .interrupted | .requeued => false

/-- What happens to a job. A dead letter is `forced` when the worker asked for it. -/
inductive JobEvent where
  | enqueue (job : JobRecord)
  | claim (source : JobStatus) (now : ℕ)
  | complete (now : ℕ)
  | retry (runAt : Option ℕ) (outcome : AttemptOutcome) (error : Option String) (now : ℕ)
  | deadLetter (forced : Bool) (error : String) (now : ℕ)
  | wake (signal : Option (List UInt8))
  | requestCancel
  | revive (now : ℕ)
  | remove
  deriving DecidableEq

structure Life where
  record : Option JobRecord := none
  history : Option (List JobAttempt) := none
  deriving DecidableEq

namespace JobEvent

def Allowed (old : JobRecord) : JobEvent → Prop
  | .claim source _ => old.status = source ∧ (source = .pending ∨ source = .scheduled)
  | .complete _ | .requestCancel => old.status = .claimed
  | .retry _ outcome _ _ =>
    old.status = .claimed ∧ old.isLastAttempt = false ∧ outcome.isRetry = true
  | .deadLetter forced _ _ => old.status = .claimed ∧ (forced || old.isLastAttempt) = true
  | .wake signal => old.status = .scheduled ∧ (signal.isSome = true → old.signalWait = true)
  | .revive _ => old.status = .dead
  | .enqueue _ | .remove => False

instance (old : JobRecord) : ∀ event : JobEvent, Decidable (event.Allowed old)
  | .claim _ _ | .retry _ _ _ _ | .deadLetter _ _ _ | .wake _ =>
    inferInstanceAs (Decidable (_ ∧ _))
  | .complete _ | .requestCancel | .revive _ => inferInstanceAs (Decidable (_ = _))
  | .enqueue _ | .remove => inferInstanceAs (Decidable False)

def apply (old : JobRecord) : JobEvent → JobRecord
  | .claim _ now =>
    Txn.leaveWaits
      { old with
        status := .claimed
        claimedAt := some now
        attempts := old.attempts + 1
        dedupKey := none }
  | .complete now => Txn.leaveWaits { old with status := .done, completedAt := some now }
  | .retry runAt _ error _ =>
    Txn.leaveWaits
      { old with
        claimedAt := none
        lastError := error <|> old.lastError
        status := if runAt.isSome then .scheduled else .pending
        runAt }
  | .deadLetter _ error now =>
    Txn.leaveWaits
      { old with
        claimedAt := none
        status := .dead
        lastError := some error
        failedAt := some now }
  | .wake signal =>
    Txn.leaveWaits
      { old with
        signal := signal <|> old.signal
        status := .pending
        runAt := none }
  | .requestCancel => Txn.leaveWaits { old with cancelRequested := true }
  | .revive _ =>
    Txn.leaveWaits
      { old with
        attempts := 0
        lastError := none
        claimedAt := none
        failedAt := none
        cancelRequested := false
        status := .pending
        runAt := none }
  | .enqueue _ | .remove => old

def entry (old : JobRecord) : JobEvent → Option JobAttempt
  | .complete now =>
    some { attempt := old.attempts, claimedAt := old.claimedAt, recordedAt := now,
           outcome := .completed, error := none }
  | .retry _ outcome error now =>
    some { attempt := old.attempts, claimedAt := old.claimedAt, recordedAt := now, outcome, error }
  | .deadLetter _ error now =>
    some { attempt := old.attempts, claimedAt := old.claimedAt, recordedAt := now,
           outcome := .deadLettered, error := some error }
  | .revive now =>
    some { attempt := 0, claimedAt := none, recordedAt := now, outcome := .requeued,
           error := none }
  | .enqueue _ | .claim _ _ | .wake _ | .requestCancel | .remove => none

end JobEvent

namespace Life

def append (history : Option (List JobAttempt)) : Option JobAttempt → Option (List JobAttempt)
  | some entry => some (history.getD [] ++ [entry])
  | none => history

def Starts (job : JobRecord) : Prop :=
  job.IsNew ∧ job.status = if job.runAt.isSome then .scheduled else .pending

instance (job : JobRecord) : Decidable (Starts job) := inferInstanceAs (Decidable (_ ∧ _))

def step (life : Life) (event : JobEvent) : Option Life :=
  match event, life.record with
  | .enqueue job, none => if Starts job then some { life with record := some job } else none
  | .enqueue _, some _ => none
  | .remove, some _ => some {}
  | _, some old =>
    if event.Allowed old then
      some ⟨some (event.apply old), append life.history (event.entry old)⟩
    else none
  | _, none => none

/-- The lives of a job whose id was never used. -/
def machine : Machine Life JobEvent where
  init life := life = {}
  step := step

variable {life life' : Life} {event : JobEvent} {old : JobRecord}

theorem step_of_allowed (hr : life.record = some old) (ha : event.Allowed old) :
    step life event = some ⟨some (event.apply old), append life.history (event.entry old)⟩ := by
  cases event with
  | enqueue job => exact ha.elim
  | remove => exact ha.elim
  | _ => simp only [step, hr, if_pos ha]

theorem step_enqueue {job : JobRecord} (hr : life.record = none) (hs : Starts job) :
    step life (.enqueue job) = some { life with record := some job } := by
  simp only [step, hr, if_pos hs]

theorem step_remove (hr : life.record = some old) : step life .remove = some {} := by
  simp only [step, hr]

theorem step_cases (h : step life event = some life') :
    (∃ job, event = .enqueue job ∧ life.record = none ∧ Starts job ∧
      life' = { life with record := some job }) ∨
    (event = .remove ∧ life.record ≠ none ∧ life' = {}) ∨
    ∃ old, life.record = some old ∧ event.Allowed old ∧
      life' = ⟨some (event.apply old), append life.history (event.entry old)⟩ := by
  unfold step at h
  split at h
  · rename_i job hr
    obtain ⟨hs, ⟨⟩⟩ := Option.ite_none_right_eq_some.mp h
    exact .inl ⟨job, rfl, hr, hs, rfl⟩
  · cases h
  · rename_i hr
    cases h
    exact .inr (.inl ⟨rfl, by simp [hr], rfl⟩)
  · rename_i old _ _ hr
    obtain ⟨ha, ⟨⟩⟩ := Option.ite_none_right_eq_some.mp h
    exact .inr (.inr ⟨old, hr, ha, rfl⟩)
  · cases h

end Life

end Taquba
