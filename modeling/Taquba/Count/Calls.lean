import Taquba.Count.Staging

/-! # Counts of the calls

Four calls apply settlement effects, a settlement only when it ends the job and a
cancel only when it removes it. The other calls change no count. A call that applies
effects keeps the waiting jobs, apart from one that it cancels: they stay scheduled or
become pending.
-/

namespace Taquba

open Snapshot

variable {κ β : Type} [DecidableEq κ]

namespace Call

def appliedEffects (s : Store (Val κ β)) : Call κ β → Option (PreparedEffects κ β)
  | .enqueue _ _ effects | .commitEffects _ effects => some effects
  | .settle _ _ queue id _ settlement effects now =>
    (s (.record (.claimed queue id))).bind fun stored =>
      let job := JobRecord.decode (.claimed queue id) stored
      if (settlement.endFor job now).isTerminal then some effects else none
  | .cancel _ id effects =>
    ((Txn.begin s).getIndexedJob id).bind fun found =>
      if found.2.status = .pending ∨ found.2.status = .scheduled then some effects else none
  | _ => none

/-- The net change of a count by an attempt on the snapshot. -/
def countChange (s : Store (Val κ β)) (call : Call κ β) (name : String) : ℤ :=
  (call.appliedEffects s).elim 0 fun effects => effects.countChange name

/-- Every count that the attempt changes stays a signed 64-bit integer. -/
def CountsFit (s : Store (Val κ β)) (call : Call κ β) : Prop :=
  ∀ effects ∈ call.appliedEffects s, ∀ c ∈ effects.countChanges,
    -2 ^ 63 ≤ (activeCount s c.1).toInt + effects.countChange c.1 ∧
      (activeCount s c.1).toInt + effects.countChange c.1 < 2 ^ 63

instance (s : Store (Val κ β)) (call : Call κ β) : Decidable (call.CountsFit s) :=
  inferInstanceAs (Decidable (∀ effects ∈ call.appliedEffects s, ∀ c ∈ effects.countChanges, _))

theorem CountsFit.bounds {s : Store (Val κ β)} {call : Call κ β} (h : call.CountsFit s)
    (name : String) :
    -2 ^ 63 ≤ (activeCount s name).toInt + call.countChange s name ∧
      (activeCount s name).toInt + call.countChange s name < 2 ^ 63 := by
  have hl := Int64.le_toInt (activeCount s name)
  have hu := Int64.toInt_lt (activeCount s name)
  unfold countChange
  cases he : call.appliedEffects s with
  | none => simpa using ⟨hl, hu⟩
  | some effects =>
    by_cases hn : name ∈ effects.countChanges.map Prod.fst
    · obtain ⟨c, hc, rfl⟩ := List.mem_map.mp hn
      exact h effects he c hc
    · have hz : effects.countChange name = 0 := by
        apply List.sum_eq_zero
        intro d hd
        obtain ⟨c, hc, rfl⟩ := List.mem_map.mp hd
        exact if_neg fun h => hn (List.mem_map.mpr ⟨c, hc, h.symm⟩)
      simpa [hz] using ⟨hl, hu⟩

/-- Whether the build of an attempt on the snapshot checks for overflow. -/
def overflowChecks (s : Store (Val κ β)) (call : Call κ β) : Bool :=
  (call.appliedEffects s).elim false PreparedEffects.overflowChecks

end Call

namespace Txn

variable {t t' : Txn κ β} {leases : Leases} {queue : QueueName} {id : String} {claimId now : ℕ}

theorem countWait_of_found (hc : CountInv t.view) {job : JobRecord}
    (h : JobAction.Found t.view (.claimed queue id) job) : job.countWait = none := by
  obtain ⟨stored, hs, rfl⟩ := Option.map_eq_some_iff.mp h
  exact hc.claimed queue id stored hs

theorem quietly_takeClaim {job : JobRecord}
    (h : t.takeClaim leases queue id claimId = .ok (t', job)) :
    Quietly t t' ∧ JobAction.Found t.view (.claimed queue id) job := by
  refine ⟨(staged_takeClaim ..).quietly h, ?_⟩
  obtain ⟨⟨t₁, job'⟩, h₁, h⟩ := Except.bind_eq_ok.mp h
  cases h
  obtain ⟨rfl, -, hf⟩ := extends_readClaim h₁
  exact hf

variable [DecidableEq β] {effects : PreparedEffects κ β}

theorem counts_writeJobTxn (hi : StoreInv t.view) (hc : CountInv t.view) {prepared : PreparedJob}
    (hf : FreshIds t.view (prepared :: effects.preparedJobs))
    {r : Except String (String × List EnqueueResult)}
    (h : t.writeJobTxn leases prepared effects = .ok (t', .commit r)) :
    Counts effects.overflowChecks t t' effects.countChange := by
  obtain ⟨t₁, id, results, h₁, h₂, -⟩ := writeJobTxn_eq_ok h
  obtain ⟨as, he, -, hins, -⟩ := extends_stageJobWrites (hf.1 prepared (.head _)) h₁
  have hc₁ : Counts effects.overflowChecks t t₁ 0 := counts_stageJobWrites hi hc h₁
  have hc₂ := counts_stageEffects (he.inv hi) hc₁.inv (hf.tail hi he hins) h₂
  simpa using hc₁.trans hc₂

theorem counts_settleClaim (hi : StoreInv t.view) (hc : CountInv t.view) {effectLeases : Leases}
    {settlement : Settlement} (hf : FreshIds t.view effects.preparedJobs)
    {r : JobRecord × ClaimEnd × Option (List EnqueueResult)}
    (h : t.settleClaim leases effectLeases queue id claimId settlement effects now
      = .ok (t', .commit r)) :
    Counts ((Call.settle leases effectLeases queue id claimId settlement effects now
      ).overflowChecks t.view) t t' ((Call.settle leases effectLeases queue id claimId settlement
        effects now).countChange t.view) := by
  obtain ⟨t₁, t₂, job, h₁, h₂, -, hcase⟩ := settleClaim_eq_commit h
  obtain ⟨hq₁, hfound⟩ := quietly_takeClaim h₁
  obtain ⟨stored, hst, hdec⟩ := Option.map_eq_some_iff.mp hfound
  have hq₂ := (staged_stageClaimEnd _ _ _ (.inr (countWait_of_found hc hfound))).quietly h₂
  have hc₂ : ∀ checks, Counts checks t t₂ 0 := fun _ => .of_quietly (hq₁.trans hq₂) hc
  obtain ⟨hterm, results, h₃, -⟩ | ⟨hterm, rfl, -⟩ := hcase
  · have hchange : (Call.settle leases effectLeases queue id claimId settlement effects now
        ).countChange t.view = 0 + effects.countChange := by
      funext name
      simp [Call.countChange, Call.appliedEffects, hst, hdec, hterm]
    have hchecks : (Call.settle leases effectLeases queue id claimId settlement effects now
        ).overflowChecks t.view = effects.overflowChecks := by
      simp [Call.overflowChecks, Call.appliedEffects, hst, hdec, hterm]
    rw [hchange, hchecks]
    obtain ⟨-, -, -, as, ha, -, he⟩ := extends_takeClaim_stageClaimEnd hi h₁ h₂
    exact (hc₂ _).trans (counts_stageEffects (he.inv hi) (hc₂ true).inv
      (hf.extends hi he ha.inserts (by simp)) h₃)
  · have hchange : (Call.settle leases effectLeases queue id claimId settlement effects now
        ).countChange t.view = 0 := by
      funext name
      simp [Call.countChange, Call.appliedEffects, hst, hdec, hterm]
    rw [hchange]
    exact hc₂ _

theorem counts_cancel (hi : StoreInv t.view) (hc : CountInv t.view)
    (hf : FreshIds t.view effects.preparedJobs)
    {r : StagedCancel × Option (List EnqueueResult)}
    (h : t.cancel leases id effects = .ok (t', .commit r)) :
    Counts ((Call.cancel leases id effects).overflowChecks t.view) t t'
      ((Call.cancel leases id effects).countChange t.view) := by
  have hget : (begin t.view).getIndexedJob id = t.getIndexedJob id := rfl
  obtain ⟨key, job, hj, ⟨hst, h₁, results, h₂, -⟩ | ⟨hst, job', h₁, -⟩⟩ := cancel_eq_ok h
  · have hc₁ : ∀ checks, Counts checks t (t.stageRemove key job) 0 :=
      fun _ => .of_quietly ((staged_stageCancel ..).quietly h₁) hc
    obtain ⟨as, he, hins, -⟩ := trace_stageCancel hi h₁
    have hchange : (Call.cancel leases id effects).countChange t.view
        = 0 + effects.countChange := by
      funext name
      simp [Call.countChange, Call.appliedEffects, hget, hj, hst]
    have hchecks : (Call.cancel leases id effects).overflowChecks t.view
        = effects.overflowChecks := by
      simp [Call.overflowChecks, Call.appliedEffects, hget, hj, hst]
    rw [hchange, hchecks]
    exact (hc₁ _).trans
      (counts_stageEffects (he.inv hi) (hc₁ true).inv (hf.extends hi he hins (by simp)) h₂)
  · have hchange : (Call.cancel leases id effects).countChange t.view = 0 := by
      funext name
      simp [Call.countChange, Call.appliedEffects, hget, hj, hst]
    rw [hchange]
    exact .of_quietly ((staged_stageCancel ..).quietly h₁) hc

end Txn

theorem Application.counts [DecidableEq β] {s : Store (Val κ β)} {t : Txn κ β}
    {delivered : List JobRecord} (a : Application) {checks : Bool}
    (hi : StoreInv (Txn.begin s).view)
    (hc : CountInv (Txn.begin s).view) (h : (a.call : Call κ β).attempt s = some (t, delivered)) :
    Txn.Counts checks (Txn.begin s) t 0 := by
  obtain ⟨t₁, outcome, h₁, rfl⟩ := a.attempt_eq_some h
  refine Txn.Counts.quietly ?_ (Txn.adds_stageInboxRecord _ trivial _ _ _).quietly
  cases he : a.effect with
  | enqueue prepared =>
    rw [he] at h₁
    obtain ⟨⟨t₂, written⟩, h₂, h₁⟩ := Except.bind_eq_ok.mp h₁
    cases h₁
    exact Txn.counts_stageJobWrites hi hc h₂
  | cancel | signal | reject =>
    exact .of_quietly ((InboxEffect.staged_stage _ _ _ (.inr (by simp [he]))).quietly h₁) hc

namespace Call

variable [DecidableEq β] {s : Store (Val κ β)} {t : Txn κ β} {call : Call κ β}
  {delivered : List JobRecord}

/-- What a call does to the counts of its snapshot. -/
theorem attempt_counts (hi : StoreInv s) (hc : CountInv s) (hp : call.Pre s)
    (h : call.attempt s = some (t, delivered)) :
    Txn.Counts (call.overflowChecks s) (Txn.begin s) t (call.countChange s) := by
  change StoreInv (Txn.begin s).view at hi
  change CountInv (Txn.begin s).view at hc
  change call.Pre (Txn.begin s).view at hp
  cases committed_of_attempt h with
  | enqueue hr => exact Txn.counts_writeJobTxn hi hc hp hr
  | commitEffects hr => exact Txn.counts_stageEffects hi hc hp (Txn.commitEffects_eq_ok hr)
  | settle hr => exact Txn.counts_settleClaim hi hc hp hr
  | cancel hr => exact Txn.counts_cancel hi hc hp hr
  | @applyEnqueue queue entryId appliedAt prepared =>
    exact Application.counts ⟨queue, entryId, appliedAt, .enqueue prepared⟩ hi hc h
  | @applyCancel queue entryId appliedAt jobId =>
    exact Application.counts ⟨queue, entryId, appliedAt, .cancel jobId⟩ hi hc h
  | @applySignal queue entryId appliedAt jobId payload =>
    exact Application.counts ⟨queue, entryId, appliedAt, .signal jobId payload⟩ hi hc h
  | @commitRejection queue entryId appliedAt rejection =>
    exact Application.counts ⟨queue, entryId, appliedAt, .reject rejection⟩ hi hc h
  | claimBatch hr => exact .of_quietly ((Txn.staged_claimBatch ..).quietly hr) hc
  | claimById hr => exact .of_quietly ((Txn.staged_claimById ..).quietly hr) hc
  | @reap _ queue id _ _ _ _ hr =>
    exact .of_quietly ((Txn.staged_reapJob _ _ _ _ _ _ (.inr (hc.claimed queue id))).quietly hr) hc
  | requeueInterrupted hr =>
    exact .of_quietly ((Txn.staged_requeueInterrupted _ _
      (.inr (Txn.countWait_of_found hc hp))).quietly hr) hc
  | promote hr => exact .of_quietly ((Txn.staged_promoteJob ..).quietly hr) hc
  | wakeScheduled hr => exact .of_quietly ((Txn.staged_wakeScheduled ..).quietly hr) hc
  | signal hr => exact .of_quietly ((Txn.staged_signal ..).quietly hr) hc
  | requeueDeadJob hr => exact .of_quietly ((Txn.staged_requeueDeadJob ..).quietly hr) hc
  | sweepVictim hr => exact .of_quietly ((Txn.staged_sweepVictim ..).quietly hr) hc
  | sweepInboxRecords hr =>
    exact .of_quietly ((Txn.staged_sweepInboxRecords _ trivial _).quietly hr) hc
  | kvCompareThen hr =>
    exact .of_quietly ((Txn.staged_kvCompareThen _ trivial _ _ _).quietly hr) hc
  | kvPut | kvDelete => exact .of_quietly (.write rfl rfl trivial) hc

end Call

end Taquba
