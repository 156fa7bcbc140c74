import Taquba.Lifecycle.Transitions
import Taquba.Queue.Machine

/-! # The lives of the jobs of a queue

Each call that commits takes every job through events of its life, and only through
those that the call makes. So the life of a job in a reachable store is the result of
a run of the lifecycle.
-/

namespace Taquba

open Snapshot Transition

variable {κ β : Type} [DecidableEq κ] [DecidableEq β]
variable {id : String} {log : History κ β}

theorem Txn.stages_cancel {t t' : Txn κ β} (hi : StoreInv t.view) {leases : Leases}
    {effects : PreparedEffects κ β} (hf : FreshIds t.view effects.preparedJobs)
    {staged : StagedCancel} {results : Option (List EnqueueResult)}
    (h : t.cancel leases id effects = .ok (t', .commit (staged, results))) :
    ∃ fs, Stages t t' (staged.events id ++ fs) ∧ (∀ e ∈ fs, e.2.IsEffect) ∧
      ((∃ job, staged = .removed job) ∨
        (∃ job, staged = .requested job) ∧ t.stageCancel id = .ok (t', staged)) := by
  obtain ⟨⟨t₁, staged'⟩, h₁, h⟩ := Except.bind_eq_ok.mp h
  have hs := stages_stageCancel hi h₁
  cases staged' with
  | removed job =>
    obtain ⟨⟨t₂, results'⟩, h₂, h⟩ := Except.bind_eq_ok.mp h
    cases h
    have hf : FreshIds t₁.view effects.preparedJobs :=
      hs.freshIds hi hf (by simp [StagedCancel.enqueuedIds_events])
    obtain ⟨fs, hs', hfs⟩ := stages_stageEffects (hs.inv hi) hf h₂
    exact ⟨fs, hs.trans hs', hfs, .inl ⟨job, rfl⟩⟩
  | requested job =>
    cases h
    exact ⟨[], by simpa using hs, by simp, .inr ⟨⟨job, rfl⟩, h₁⟩⟩
  | alreadyRequested job => cases h
  | notFound => cases h

namespace Call

/-- The job that the call reports to have received a signal, with the payload, when it
commits on the snapshot. -/
def delivers (s : Store (Val κ β)) : Call κ β → Option (String × List UInt8)
  | .signal id payload =>
    match (Txn.begin s).signal id payload with
    | .ok (_, .commit .delivered) => some (id, payload)
    | _ => none
  | .applySignal queue entryId appliedAt jobId payload =>
    match (Txn.begin s).applySignal queue entryId appliedAt jobId payload with
    | .ok (_, .commit (.signal .delivered)) => some (jobId, payload)
    | _ => none
  | _ => none

def Makes (s : Store (Val κ β)) (call : Call κ β) (id : String) (event : JobEvent) : Prop :=
  match call with
  | .enqueue _ _ _ | .commitEffects _ _ | .applyEnqueue _ _ _ _ => event.IsEffect
  | .claimBatch _ _ _ now => event = .claim .pending now
  | .claimById i _ now => id = i ∧
      ∃ key job, (Txn.begin s).getIndexedJob i = some (key, job) ∧ event = .claim job.status now
  | .settle _ _ _ i _ settlement _ now =>
    (id = i ∧ ∃ old, event = (settlement.endFor old now).event settlement.forces now) ∨
      event.IsEffect
  | .reap _ _ i _ now =>
    id = i ∧ ∃ old, event = (unsettledClaimEnd old .leaseExpired "lease expired").event false now
  | .requeueInterrupted job now =>
    id = job.id ∧ event =
      (unsettledClaimEnd job .interrupted "claim interrupted by process exit").event false now
  | .promote _ _ i | .wakeScheduled i => id = i ∧ event = .wake none
  | .signal _ _ | .applySignal _ _ _ _ _ =>
    ∃ payload, call.delivers s = some (id, payload) ∧ event = .wake (some payload)
  | .cancel _ i _ => (id = i ∧ (event = .remove ∨ event = .requestCancel)) ∨ event.IsEffect
  | .applyCancel _ _ _ i => id = i ∧ (event = .remove ∨ event = .requestCancel)
  | .requeueDeadJob i now => id = i ∧ event = .revive now
  | .sweepVictim key _ => id = key.id ∧ event = .remove
  | .commitRejection _ _ _ _ | .sweepInboxRecords _ | .kvCompareThen _ _ _ | .kvPut _ _
  | .kvDelete _ => False

/-- A worker asks for the dead letter, whatever the attempts of the job. -/
def forcesDeadLetter : Call κ β → Bool
  | .settle _ _ _ _ _ settlement _ _ => settlement.forces
  | _ => false

/-- The events that the calls make, by their kind. -/
inductive Made (call : Call κ β) (s : Store (Val κ β)) (id : String) : JobEvent → Prop where
  | effect {event} (h : event.IsEffect) : Made call s id event
  | remove : Made call s id .remove
  | requestCancel : Made call s id .requestCancel
  | revive {now} (hcall : call = .requeueDeadJob id now) : Made call s id (.revive now)
  | claim (now : ℕ) : Made call s id (.claim .pending now)
  | claimById {claimId now key job} (hcall : call = .claimById id claimId now)
      (hj : (Txn.begin s).getIndexedJob id = some (key, job)) :
    Made call s id (.claim job.status now)
  | wake {payload} (hd : call.delivers s = some (id, payload)) :
    Made call s id (.wake (some payload))
  | ended {event claimEnd now} (h : event = ClaimEnd.event call.forcesDeadLetter now claimEnd) :
    Made call s id event

omit [DecidableEq β] in
theorem Makes.made {s : Store (Val κ β)} {call : Call κ β} {event : JobEvent}
    (h : call.Makes s id event) : call.Made s id event := by
  cases call with
  | enqueue | commitEffects | applyEnqueue => exact .effect h
  | claimBatch queue keys claimIds now => exact h ▸ .claim now
  | claimById =>
    obtain ⟨rfl, key, job, hj, rfl⟩ := h
    exact .claimById rfl hj
  | settle =>
    rcases h with ⟨-, old, h⟩ | h
    · exact .ended h
    · exact .effect h
  | reap =>
    obtain ⟨-, old, h⟩ := h
    exact .ended h
  | requeueInterrupted => exact .ended h.2
  | promote | wakeScheduled => exact h.2 ▸ .effect trivial
  | signal | applySignal =>
    obtain ⟨payload, hd, rfl⟩ := h
    exact .wake hd
  | cancel =>
    rcases h with ⟨-, rfl | rfl⟩ | h
    · exact .remove
    · exact .requestCancel
    · exact .effect h
  | applyCancel =>
    rcases h with ⟨-, rfl | rfl⟩
    · exact .remove
    · exact .requestCancel
  | requeueDeadJob =>
    obtain ⟨rfl, rfl⟩ := h
    exact .revive rfl
  | sweepVictim => exact h.2 ▸ .remove
  | _ => exact h.elim

/-- What a call that commits on the snapshot does to the jobs. -/
structure Lives (call : Call κ β) (s : Store (Val κ β)) (es : List (String × JobEvent)) :
    Prop where
  makes : ∀ e ∈ es, call.Makes s e.1 e.2
  delivers : ∀ id payload, call.delivers s = some (id, payload) → (id, .wake (some payload)) ∈ es

omit [DecidableEq β] in
theorem lives_of_quiet {call : Call κ β} {s : Store (Val κ β)} {es : List (String × JobEvent)}
    (hd : call.delivers s = none) (h : ∀ e ∈ es, call.Makes s e.1 e.2) : call.Lives s es :=
  ⟨h, by simp [hd]⟩

omit [DecidableEq β] in
theorem lives_of_signal {call : Call κ β} {s : Store (Val κ β)} {payload : List UInt8}
    {outcome : SignalOutcome}
    (hd : call.delivers s = if outcome = .delivered then some (id, payload) else none)
    (hm : ∀ i event, call.Makes s i event ↔
      ∃ payload, call.delivers s = some (i, payload) ∧ event = .wake (some payload)) :
    call.Lives s (if outcome = .delivered then [(id, .wake (some payload))] else []) := by
  cases outcome with
  | delivered =>
    rw [if_pos rfl] at hd ⊢
    constructor
    · simp only [List.mem_singleton, forall_eq]
      exact (hm _ _).mpr ⟨payload, hd, rfl⟩
    · intro i p hp
      rw [hd] at hp
      cases hp
      exact .head _
  | notWaiting =>
    rw [if_neg (by decide)] at hd ⊢
    exact lives_of_quiet hd (by simp)

theorem mem_events {staged : StagedCancel} {e : String × JobEvent} (h : e ∈ staged.events id) :
    e.1 = id ∧ (e.2 = .remove ∨ e.2 = .requestCancel) := by
  cases staged with
  | removed job => exact List.mem_singleton.mp h ▸ ⟨rfl, .inl rfl⟩
  | requested job => exact List.mem_singleton.mp h ▸ ⟨rfl, .inr rfl⟩
  | alreadyRequested | notFound => cases h

variable {s : Store (Val κ β)} {t : Txn κ β} {call : Call κ β} {delivered : List JobRecord}

/-- Every call that commits takes the jobs of its snapshot through events of their lives. -/
theorem attempt_stages (hi : StoreInv s) (hp : call.Pre s)
    (h : call.attempt s = some (t, delivered)) :
    ∃ es, Txn.Stages (Txn.begin s) t es ∧ call.Lives s es := by
  change StoreInv (Txn.begin s).view at hi
  change call.Pre (Txn.begin s).view at hp
  cases committed_of_attempt h with
  | @enqueue leases prepared effects _ _ hr =>
    obtain ⟨t₁, id, results, h₁, h₂, -⟩ := Txn.writeJobTxn_eq_ok hr
    obtain ⟨hp₁, hp₂⟩ := List.pairwise_cons.mp hp.2
    obtain ⟨es, hs, hes⟩ := Txn.stages_stageJobWrites (hp.1 prepared (.head _)) h₁
    have hf : Txn.FreshIds t₁.view effects.preparedJobs := by
      refine hs.freshIds hi ⟨fun q hq => hp.1 q (.tail _ hq), hp₂⟩ fun q hq ho hm => ?_
      obtain ⟨job, he⟩ := mem_enqueuedIds hm
      exact hp₁ q hq ho (hes _ he).1
    obtain ⟨fs, hs', hfs⟩ := Txn.stages_stageEffects (hs.inv hi) hf h₂
    refine ⟨_, hs.trans hs', lives_of_quiet rfl (List.forall_mem_append.mpr ⟨?_, hfs⟩)⟩
    intro e he
    obtain ⟨job, hj⟩ := (hes e he).2
    simp only [Makes, hj]
    trivial
  | commitEffects hr =>
    obtain ⟨es, hs, hes⟩ := Txn.stages_stageEffects hi hp (Txn.commitEffects_eq_ok hr)
    exact ⟨es, hs, lives_of_quiet rfl hes⟩
  | @claimBatch queue _ _ _ _ _ hr =>
    obtain ⟨hf, hnd⟩ := (Txn.begin s).candidates_spec queue hp
    refine ⟨_, Txn.stages_stageClaims hf hnd (Txn.claimBatch_eq_ok hr), lives_of_quiet rfl ?_⟩
    simp [Makes]
  | claimById hr =>
    obtain ⟨key, job, claimed, hj, hst, h₁, -⟩ := Txn.claimById_eq_ok hr
    obtain ⟨hkey, hstatus, hid⟩ := Txn.getIndexedJob_spec hi hj
    have hne : key.keyStatus ≠ .claimed := by
      rw [hstatus]
      rcases hst with hst | hst <;> simp [hst]
    refine ⟨_, Txn.stages_stageClaim (Txn.found_of_getIndexedJob hj).2 hst hne h₁,
      lives_of_quiet rfl ?_⟩
    simp only [List.mem_singleton, forall_eq]
    exact ⟨(JobRecord.id_of_storedKey hkey).symm.trans hid, key, job, hj, rfl⟩
  | @settle leases effectLeases queue id claimId settlement effects now _ _ hr =>
    obtain ⟨t₁, t₂, job, h₁, h₂, -, hcase⟩ := Txn.settleClaim_eq_commit hr
    have hs := Txn.stages_takeClaim_stageClaimEnd hi h₁ (settlement.permits_endFor job now) h₂
    have hmakes : (Call.settle leases effectLeases queue id claimId settlement effects now :
        Call κ β).Makes s id ((settlement.endFor job now).event settlement.forces now) :=
      .inl ⟨rfl, job, rfl⟩
    obtain ⟨-, results, h₃, -⟩ | ⟨-, rfl, -⟩ := hcase
    · have hf : Txn.FreshIds t₂.view effects.preparedJobs :=
        hs.freshIds hi hp (by simp [ClaimEnd.enqueuedIds_event])
      obtain ⟨fs, hs', hfs⟩ := Txn.stages_stageEffects (hs.inv hi) hf h₃
      refine ⟨_, hs.trans hs', lives_of_quiet rfl (List.forall_mem_append.mpr ⟨?_, ?_⟩)⟩
      · simpa using hmakes
      · exact fun e he => .inr (hfs e he)
    · exact ⟨_, hs, lives_of_quiet rfl (by simpa using hmakes)⟩
  | @reap _ queue id _ _ _ _ hr =>
    unfold Txn.reapJob at hr
    split at hr
    · split at hr
      · cases hr
      · rename_i stored hg
        obtain ⟨⟨t₁, job'⟩, h₁, hr⟩ := Except.bind_eq_ok.mp hr
        cases hr
        have hf : JobAction.Found (Txn.begin s).view (.claimed queue id)
            (JobRecord.decode (.claimed queue id) stored) := by
          exact .of_record hg
        obtain ⟨hq, hid, -⟩ := hi.claimed_spec hf
        rw [← hq, ← hid] at hf
        refine ⟨_, Txn.stages_stageClaimEnd hi hf (permits_unsettledClaimEnd _ _ rfl) h₁,
          lives_of_quiet rfl ?_⟩
        simp only [List.mem_singleton, forall_eq]
        exact ⟨hid, _, rfl⟩
    · cases hr
  | requeueInterrupted hr =>
    obtain ⟨⟨t₁, job'⟩, h₁, hr⟩ := Except.bind_eq_ok.mp hr
    cases hr
    refine ⟨_, Txn.stages_stageClaimEnd hi hp (permits_unsettledClaimEnd _ _ rfl) h₁,
      lives_of_quiet rfl ?_⟩
    simp only [List.mem_singleton, forall_eq]
    exact ⟨rfl, rfl⟩
  | promote hr =>
    exact ⟨_, Txn.stages_promoteJob hi hr, lives_of_quiet rfl (by simp [Makes])⟩
  | wakeScheduled hr =>
    obtain ⟨woken, h₁⟩ := Txn.wakeScheduled_eq_ok hr
    exact ⟨_, Txn.stages_stageWake hi h₁, lives_of_quiet rfl (by simp [Makes, Txn.wakeEvent])⟩
  | @signal id payload _ value hr =>
    have hdel : (Call.signal id payload : Call κ β).delivers s =
        if value = .delivered then some (id, payload) else none := by
      simp only [delivers, hr]
      cases value <;> rfl
    exact ⟨_, Txn.stages_stageSignal hi (Txn.signal_eq_ok hr),
      lives_of_signal hdel fun _ _ => Iff.rfl⟩
  | cancel hr =>
    obtain ⟨fs, hs, hfs, -⟩ := Txn.stages_cancel hi hp hr
    refine ⟨_, hs, lives_of_quiet rfl (List.forall_mem_append.mpr ⟨?_, ?_⟩)⟩
    · exact fun e he => .inl (mem_events he)
    · exact fun e he => .inr (hfs e he)
  | requeueDeadJob hr =>
    exact ⟨_, Txn.stages_requeueDeadJob hi hr, lives_of_quiet rfl (by simp [Makes])⟩
  | @applyEnqueue queue entryId _ prepared _ _ hr =>
    obtain ⟨⟨t₁, written⟩, h₁, hr⟩ := Except.bind_eq_ok.mp hr
    cases hr
    obtain ⟨es, hs, hes⟩ := Txn.stages_stageJobWrites (hp.1 prepared (.head _)) h₁
    refine ⟨_, hs.trans (t₁.stages_stageInboxRecord queue entryId _), lives_of_quiet rfl ?_⟩
    intro e he
    rw [List.append_nil] at he
    obtain ⟨job, hj⟩ := (hes e he).2
    simp only [Makes, hj]
    trivial
  | @applyCancel queue entryId _ _ _ _ hr =>
    unfold Txn.applyCancel at hr
    split at hr
    · cases hr
      exact ⟨_, (Txn.begin s).stages_stageInboxRecord queue entryId _, lives_of_quiet rfl (by simp)⟩
    · obtain ⟨⟨t₁, staged⟩, h₁, hr⟩ := Except.bind_eq_ok.mp hr
      cases hr
      refine ⟨_, (Txn.stages_stageCancel hi h₁).trans (t₁.stages_stageInboxRecord queue entryId _),
        lives_of_quiet rfl ?_⟩
      intro e he
      rw [List.append_nil] at he
      exact mem_events he
  | @applySignal queue entryId appliedAt jobId payload _ _ hr =>
    have hr' := hr
    unfold Txn.applySignal at hr
    split at hr
    · cases hr
      have hdel : (Call.applySignal queue entryId appliedAt jobId payload : Call κ β).delivers s =
          if SignalOutcome.notWaiting = .delivered then some (jobId, payload) else none := by
        simp only [delivers, hr']
        rfl
      exact ⟨_, (Txn.begin s).stages_stageInboxRecord queue entryId _,
        lives_of_signal hdel fun _ _ => Iff.rfl⟩
    · obtain ⟨⟨t₁, outcome⟩, h₁, hr⟩ := Except.bind_eq_ok.mp hr
      cases hr
      have hdel : (Call.applySignal queue entryId appliedAt jobId payload : Call κ β).delivers s =
          if outcome = .delivered then some (jobId, payload) else none := by
        simp only [delivers, hr']
        cases outcome <;> rfl
      have hs := (Txn.stages_stageSignal hi h₁).trans (t₁.stages_stageInboxRecord queue entryId
        ⟨appliedAt, .signal outcome⟩)
      rw [List.append_nil] at hs
      exact ⟨_, hs, lives_of_signal hdel fun _ _ => Iff.rfl⟩
  | @commitRejection queue entryId =>
    exact ⟨_, (Txn.begin s).stages_stageInboxRecord queue entryId _, lives_of_quiet rfl (by simp)⟩
  | @sweepVictim _ _ _ value hr =>
    refine ⟨_, Txn.stages_sweepVictim hi hp.1 hp.2.1 hp.2.2 hr, lives_of_quiet rfl ?_⟩
    cases value <;> simp [Makes]
  | @sweepInboxRecords entries _ _ hr =>
    cases hr
    obtain ⟨as, he, has⟩ := Txn.extends_foldl (p := JobAction.IsAside)
      (fun (t : Txn κ β) (e : ℕ × QueueName × String) =>
        ⟨_, (t.extends_delete (k := .inboxExpiry e.1 e.2.1 e.2.2) rfl).trans
          (Txn.extends_delete _ (k := .inboxRecord e.2.1 e.2.2) rfl), by simp [JobAction.IsAside]⟩)
      (Txn.begin s) entries
    exact ⟨_, .aside he has, lives_of_quiet rfl (by simp)⟩
  | @kvCompareThen key _ value _ _ hr =>
    obtain ⟨-, -, rfl⟩ := Txn.kvCompareThen_eq_ok hr
    have hm := (Txn.begin s).extends_markRead (.user key)
    cases value with
    | some v =>
      exact ⟨_, .aside (hm.trans (Txn.extends_put _ (k := .user key) v rfl trivial))
        (by simp [JobAction.IsAside]), lives_of_quiet rfl (by simp)⟩
    | none =>
      exact ⟨_, .aside (hm.trans (Txn.extends_delete _ rfl)) (by simp [JobAction.IsAside]),
        lives_of_quiet rfl (by simp)⟩
  | kvPut =>
    exact ⟨_, .aside ((Txn.begin s).extends_put _ rfl trivial) (by simp [JobAction.IsAside]),
      lives_of_quiet rfl (by simp)⟩
  | kvDelete =>
    exact ⟨_, .aside ((Txn.begin s).extends_delete rfl) (by simp [JobAction.IsAside]),
      lives_of_quiet rfl (by simp)⟩

end Call

namespace Queue

/-- The commit takes every job through events of its life, those that its call makes. -/
def Relives (log : History κ β) (c : CallCommit κ β) : Prop :=
  ∃ es, c.label.call.Lives (Log.store (log.take c.label.snap)) es ∧
    c.label.notes.enqueued.map Prod.snd = enqueuedIds es ∧
    ∀ id, Life.machine.run (lifeAt log.store id) (eventsOf id es) =
      some (lifeAt (Log.store (log ++ [c])) id)

variable {s : State κ β}

omit [DecidableEq β] in
theorem run_of_stages {snap : ℕ} {t : Txn κ β} {es : List (String × JobEvent)} (hs : log.Sound)
    (h : Txn.Stages (Txn.begin (Log.store (log.take snap))) t es)
    (hc : ¬ log.Conflicts snap t.tracked) :
    t.notes.enqueued.map Prod.snd = enqueuedIds es ∧
      ∀ id, Life.machine.run (lifeAt log.store id) (eventsOf id es) =
        some (lifeAt (log.store.applyBatch t.writes) id) := by
  obtain ⟨as, he, hes⟩ := h
  have hkeys : Batch.keys t.writes ⊆ t.tracked := List.subset_append_left _ _
  have hen : (jobActions κ β).AllEnabled as log.store :=
    he.enabled.rerun (fun k hk => hkeys ((he.writes.keys k).mpr hk)) hc
  refine ⟨?_, fun id => ?_⟩
  · rw [← hes.insert?_eq, he.notes.enqueued]
    rfl
  · rw [hes.run hs.storeInv hen id, he.writes.apply]
    rfl

theorem relives_of_attempt {call : Call κ β} {snap : ℕ} {t : Txn κ β} {delivered : List JobRecord}
    (hs : log.Sound) (hp : call.Pre (Log.store (log.take snap)))
    (ht : call.attempt (Log.store (log.take snap)) = some (t, delivered))
    (hc : ¬ log.Conflicts snap t.tracked) :
    Relives log ⟨⟨call, snap, t.notes, t.stats, delivered⟩, t.writes⟩ := by
  obtain ⟨es, hstages, hlives⟩ := Call.attempt_stages (hs.take snap).storeInv hp ht
  obtain ⟨hnotes, hrun⟩ := run_of_stages hs hstages hc
  refine ⟨es, hlives, hnotes, fun id => ?_⟩
  rw [hrun id, Log.store_append_singleton]

theorem relives_reachable (h : (machine κ β).Reachable s) : s.log.Lawful Relives :=
  lawful_reachable (fun _ _ _ _ _ hs _ hp ht hc => relives_of_attempt hs hp ht hc) h

omit [DecidableEq β] in
/-- The life of a job in a history is the result of a run of the lifecycle, whose events
are those that the calls of the history make. -/
theorem reachableVia_lifeAt (h : log.Lawful Relives) {D : JobEvent → Prop}
    (hD : ∀ n (c : CallCommit κ β) event, log[n]? = some c →
      c.label.call.Makes (Log.store ((log.take n).take c.label.snap)) id event → D event) :
    Life.machine.ReachableVia (fun _ => D) (lifeAt log.store id) := by
  induction h with
  | nil => exact .init rfl
  | @append log c h hc ih =>
    have hlast : (log ++ [c])[log.length]? = some c := by simp
    obtain ⟨es, hlives, -, hrun⟩ := hc
    refine Machine.ReachableVia.run (ih fun n d event hn hm => ?_) (hrun id) fun event he _ => ?_
    · obtain ⟨hlt, -⟩ := List.getElem?_eq_some_iff.mp hn
      refine hD n d event (by rw [List.getElem?_append_left hlt, hn]) ?_
      rwa [List.take_append_of_le_length (Nat.le_of_lt hlt)]
    · refine hD log.length c event hlast ?_
      rw [List.take_left]
      exact hlives.makes _ (mem_eventsOf.mp he)

theorem reachable_lifeAt (h : (machine κ β).Reachable s) (id : String) :
    Life.machine.Reachable (lifeAt s.log.store id) :=
  reachableVia_lifeAt (relives_reachable h) fun _ _ _ _ _ => trivial

end Queue

end Taquba
