import Taquba.Queue.Calls
import Taquba.Txn.Transitions

/-! # What a committed call staged

A call that commits took the branch of its transaction that stages its writes. Each
transaction with branches is inverted here once.
-/

namespace Taquba

open Snapshot

variable {κ β : Type}

namespace Call

theorem committing_eq_some {α : Type} {t : Txn κ β} {delivered : List JobRecord}
    {jobs : α → List JobRecord} {r : Except (Error κ) (Txn κ β × Attempt α)}
    (h : committing jobs r = some (t, delivered)) :
    ∃ value, r = .ok (t, .commit value) ∧ delivered = jobs value := by
  unfold committing at h
  split at h
  · rename_i t' value
    cases h
    exact ⟨value, rfl, rfl⟩
  · cases h

end Call

namespace Txn

variable [DecidableEq κ] {t t' : Txn κ β} {queue : QueueName} {id : String} {now : ℕ}

theorem claimBatch_eq_ok {keys : List PendingKey} {jobs : List JobRecord}
    (h : t.claimBatch queue keys now = .ok (t', .commit jobs)) :
    t.stageClaims now (t.candidates queue keys) = .ok (t', jobs) := by
  unfold claimBatch at h
  split at h
  · cases h
  · obtain ⟨⟨t₁, jobs⟩, h₁, ⟨⟩⟩ := Except.bind_eq_ok.mp h
    exact h₁

theorem claimById_eq_ok {r : Except ClaimOutcome JobRecord}
    (h : t.claimById id now = .ok (t', .commit r)) :
    ∃ key job claimed, t.getIndexedJob id = some (key, job) ∧
      (job.status = .pending ∨ job.status = .scheduled) ∧
      t.stageClaim key job now = .ok (t', claimed) ∧ r = .ok claimed := by
  unfold claimById at h
  split at h
  · cases h
  · rename_i key job hj
    split_ifs at h with hst
    · obtain ⟨⟨t₁, claimed⟩, h₁, ⟨⟩⟩ := Except.bind_eq_ok.mp h
      exact ⟨key, job, claimed, hj, hst, h₁, rfl⟩
    · cases h

theorem promoteJob_eq_ok {runAt : ℕ} {r : Option JobRecord}
    (h : t.promoteJob runAt queue id = .ok (t', .commit r)) :
    ∃ stored job, t.get (.record (.scheduled runAt queue id)) = some stored ∧
      t.stageToPending (.scheduled runAt queue id)
        (JobRecord.decode (.scheduled runAt queue id) stored) = .ok (t', job) := by
  unfold promoteJob at h
  cases hg : t.get (.record (.scheduled runAt queue id)) with
  | none =>
    rw [hg] at h
    cases h
  | some stored =>
    rw [hg] at h
    obtain ⟨⟨t₁, job⟩, h₁, ⟨⟩⟩ := Except.bind_eq_ok.mp h
    exact ⟨stored, job, rfl, h₁⟩

theorem requeueDeadJob_eq_ok {r : JobRecord}
    (h : t.requeueDeadJob id now = .ok (t', .commit r)) :
    ∃ key job t₁, t.getIndexedJob id = some (key, job) ∧ job.status = .dead ∧
      t.stageToPending key { job with
        attempts := 0, lastError := none, claimedAt := none, failedAt := none
        cancelRequested := false } = .ok (t₁, r) ∧
      t' = t₁.appendAttempt r.id { attempt := 0, claimedAt := none, recordedAt := now
                                   outcome := .requeued, error := none } := by
  unfold requeueDeadJob at h
  cases hj : t.getIndexedJob id with
  | none =>
    rw [hj] at h
    cases h
  | some found =>
    rw [hj] at h
    simp only at h
    split_ifs at h with hdead
    obtain ⟨⟨t₁, job⟩, h₁, ⟨⟩⟩ := Except.bind_eq_ok.mp h
    exact ⟨_, _, t₁, rfl, not_not.mp hdead, h₁, rfl⟩

theorem wakeScheduled_eq_ok {r : Except WakeOutcome QueueName}
    (h : t.wakeScheduled id = .ok (t', .commit r)) :
    ∃ woken, t.stageWake id .early = .ok (t', woken) := by
  obtain ⟨⟨t₁, woken⟩, h₁, h⟩ := Except.bind_eq_ok.mp h
  obtain ⟨rfl, -⟩ := Prod.mk.inj (Except.ok.inj h)
  exact ⟨woken, h₁⟩

theorem signal_eq_ok {payload : List UInt8} {outcome : SignalOutcome}
    (h : t.signal id payload = .ok (t', .commit outcome)) :
    t.stageSignal id payload = .ok (t', outcome) := by
  obtain ⟨⟨t₁, outcome⟩, h₁, ⟨⟩⟩ := Except.bind_eq_ok.mp h
  exact h₁

variable [DecidableEq β] {leases : Leases} {effects : PreparedEffects κ β}

theorem writeJobTxn_eq_ok {prepared : PreparedJob}
    {r : Except String (String × List EnqueueResult)}
    (h : t.writeJobTxn leases prepared effects = .ok (t', .commit r)) :
    ∃ t₁ id results, t.stageJobWrites prepared = .ok (t₁, .ok id) ∧
      t₁.stageEffects leases effects = .ok (t', results) ∧ r = .ok (id, results) := by
  obtain ⟨⟨t₁, written⟩, h₁, h⟩ := Except.bind_eq_ok.mp h
  cases written with
  | error existing => cases h
  | ok id =>
    obtain ⟨⟨t₂, results⟩, h₂, ⟨⟩⟩ := Except.bind_eq_ok.mp h
    exact ⟨t₁, id, results, h₁, h₂, rfl⟩

theorem commitEffects_eq_ok {results : List EnqueueResult}
    (h : t.commitEffects leases effects = .ok (t', .commit results)) :
    t.stageEffects leases effects = .ok (t', results) := by
  obtain ⟨⟨t₁, results⟩, h₁, ⟨⟩⟩ := Except.bind_eq_ok.mp h
  exact h₁

theorem settleClaim_eq_commit {effectLeases : Leases} {claimId : ℕ} {settlement : Settlement}
    {r : JobRecord × ClaimEnd × Option (List EnqueueResult)}
    (h : t.settleClaim leases effectLeases queue id claimId settlement effects now
      = .ok (t', .commit r)) :
    ∃ t₁ t₂ job, t.takeClaim leases queue id claimId = .ok (t₁, job) ∧
      t₁.stageClaimEnd job (settlement.endFor job now) now = .ok (t₂, r.1) ∧
      r.2.1 = settlement.endFor job now ∧
      ((settlement.endFor job now).isTerminal = true ∧
          (∃ results, t₂.stageEffects effectLeases effects = .ok (t', results) ∧
            r.2.2 = some results) ∨
        (settlement.endFor job now).isTerminal = false ∧ t₂ = t' ∧ r.2.2 = none) := by
  obtain ⟨⟨t₁, job⟩, h₁, h⟩ := Except.bind_eq_ok.mp h
  obtain ⟨⟨t₂, job'⟩, h₂, h⟩ := Except.bind_eq_ok.mp h
  simp only at h
  split_ifs at h with hterm
  · obtain ⟨⟨t₃, results⟩, h₃, ⟨⟩⟩ := Except.bind_eq_ok.mp h
    exact ⟨t₁, t₂, job, h₁, h₂, rfl, .inl ⟨hterm, results, h₃, rfl⟩⟩
  · cases h
    exact ⟨t₁, t', job, h₁, h₂, rfl, .inr ⟨by simpa using hterm, rfl, rfl⟩⟩

theorem cancel_eq_ok {r : StagedCancel × Option (List EnqueueResult)}
    (h : t.cancel leases id effects = .ok (t', .commit r)) :
    ∃ key job, t.getIndexedJob id = some (key, job) ∧
      ((job.status = .pending ∨ job.status = .scheduled) ∧
          t.stageCancel id = .ok (t.stageRemove key job, .removed job) ∧
          (∃ results, (t.stageRemove key job).stageEffects leases effects = .ok (t', results) ∧
            r = (.removed job, some results)) ∨
        job.status = .claimed ∧ ∃ job', t.stageCancel id = .ok (t', .requested job') ∧
          t.moveJob key { job with cancelRequested := true } = .ok (t', job') ∧
          r = (.requested job', none)) := by
  obtain ⟨⟨t₁, staged⟩, h₁, h⟩ := Except.bind_eq_ok.mp h
  obtain ⟨-, rfl | ⟨job, rfl⟩⟩ | ⟨key, job, hj, hcase⟩ := stageCancel_eq_ok h₁
  · cases h
  · cases h
  obtain ⟨hst, rfl, rfl⟩ | ⟨hst, job', rfl, hm⟩ := hcase
  · obtain ⟨⟨t₂, results⟩, h₂, ⟨⟩⟩ := Except.bind_eq_ok.mp h
    exact ⟨key, job, hj, .inl ⟨hst, h₁, results, h₂, rfl⟩⟩
  · cases h
    exact ⟨key, job, hj, .inr ⟨hst, job', h₁, hm, rfl⟩⟩

theorem kvCompareThen_eq_ok {key : κ} {expected value : Option β} {r : Bool}
    (h : t.kvCompareThen key expected value = .ok (t', .commit r)) :
    t.get (.user key) = expected ∧ r = true ∧
      t' = value.elim ((t.markRead (.user key)).delete (.user key))
        ((t.markRead (.user key)).put (.user key)) := by
  unfold kvCompareThen at h
  split_ifs at h with hexpected
  · cases value <;> cases h <;> exact ⟨hexpected, rfl, rfl⟩
  · cases h

end Txn

namespace Call

variable [DecidableEq κ] [DecidableEq β]

/-- The calls that commit, each with its transaction. -/
inductive Committed (s : Store (Val κ β)) : Call κ β → Txn κ β → List JobRecord → Prop
  | enqueue {leases prepared effects t value}
      (h : (Txn.begin s).writeJobTxn leases prepared effects = .ok (t, .commit value)) :
      Committed s (.enqueue leases prepared effects) t []
  | commitEffects {leases effects t value}
      (h : (Txn.begin s).commitEffects leases effects = .ok (t, .commit value)) :
      Committed s (.commitEffects leases effects) t []
  | claimBatch {queue keys claimIds now t jobs}
      (h : (Txn.begin s).claimBatch queue keys now = .ok (t, .commit jobs)) :
      Committed s (.claimBatch queue keys claimIds now) t jobs
  | claimById {id claimId now t value}
      (h : (Txn.begin s).claimById id now = .ok (t, .commit value)) :
      Committed s (.claimById id claimId now) t value.toOption.toList
  | settle {leases effectLeases queue id claimId settlement effects now t value}
      (h : (Txn.begin s).settleClaim leases effectLeases queue id claimId settlement effects now =
        .ok (t, .commit value)) :
      Committed s (.settle leases effectLeases queue id claimId settlement effects now) t []
  | reap {leases queue id claimId now t value}
      (h : (Txn.begin s).reapJob leases queue id claimId now = .ok (t, .commit value)) :
      Committed s (.reap leases queue id claimId now) t []
  | requeueInterrupted {job now t value}
      (h : (Txn.begin s).requeueInterrupted job now = .ok (t, .commit value)) :
      Committed s (.requeueInterrupted job now) t []
  | promote {runAt queue id t value}
      (h : (Txn.begin s).promoteJob runAt queue id = .ok (t, .commit value)) :
      Committed s (.promote runAt queue id) t []
  | wakeScheduled {id t value} (h : (Txn.begin s).wakeScheduled id = .ok (t, .commit value)) :
      Committed s (.wakeScheduled id) t []
  | signal {id payload t value} (h : (Txn.begin s).signal id payload = .ok (t, .commit value)) :
      Committed s (.signal id payload) t []
  | cancel {leases id effects t value}
      (h : (Txn.begin s).cancel leases id effects = .ok (t, .commit value)) :
      Committed s (.cancel leases id effects) t []
  | requeueDeadJob {id now t value}
      (h : (Txn.begin s).requeueDeadJob id now = .ok (t, .commit value)) :
      Committed s (.requeueDeadJob id now) t []
  | applyEnqueue {queue entryId appliedAt prepared t value}
      (h : (Txn.begin s).applyEnqueue queue entryId appliedAt prepared = .ok (t, .commit value)) :
      Committed s (.applyEnqueue queue entryId appliedAt prepared) t []
  | applyCancel {queue entryId appliedAt jobId t value}
      (h : (Txn.begin s).applyCancel queue entryId appliedAt jobId = .ok (t, .commit value)) :
      Committed s (.applyCancel queue entryId appliedAt jobId) t []
  | applySignal {queue entryId appliedAt jobId payload t value}
      (h : (Txn.begin s).applySignal queue entryId appliedAt jobId payload =
        .ok (t, .commit value)) :
      Committed s (.applySignal queue entryId appliedAt jobId payload) t []
  | commitRejection {queue entryId appliedAt rejection} :
      Committed s (.commitRejection queue entryId appliedAt rejection)
        ((Txn.begin s).stageInboxRecord queue entryId ⟨appliedAt, .rejected rejection⟩) []
  | sweepVictim {key job t value} (h : (Txn.begin s).sweepVictim key job = .ok (t, .commit value)) :
      Committed s (.sweepVictim key job) t []
  | sweepInboxRecords {entries t value}
      (h : (Txn.begin s).sweepInboxRecords entries = .ok (t, .commit value)) :
      Committed s (.sweepInboxRecords entries) t []
  | kvCompareThen {key expected value t changed}
      (h : (Txn.begin s).kvCompareThen key expected value = .ok (t, .commit changed)) :
      Committed s (.kvCompareThen key expected value) t []
  | kvPut {key value} : Committed s (.kvPut key value) ((Txn.begin s).put (.user key) value) []
  | kvDelete {key} : Committed s (.kvDelete key) ((Txn.begin s).delete (.user key)) []

theorem committed_of_attempt {call : Call κ β} {s : Store (Val κ β)} {t : Txn κ β}
    {delivered : List JobRecord} (h : call.attempt s = some (t, delivered)) :
    call.Committed s t delivered := by
  cases call with
  | commitRejection | kvPut | kvDelete =>
    simp only [attempt] at h
    obtain ⟨value, ⟨⟩, rfl⟩ := committing_eq_some h
    constructor
  | _ =>
    simp only [attempt] at h
    obtain ⟨value, hr, rfl⟩ := committing_eq_some h
    constructor
    exact hr

end Call

end Taquba
