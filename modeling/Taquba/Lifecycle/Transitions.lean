import Taquba.Lifecycle.Staging
import Taquba.Queue.Trace

/-! # The events of each staged transition

For every transition that a transaction stages on a store whose indexes agree: the
events that it takes jobs through, with the records exactly as they are written.
-/

namespace Taquba

open Snapshot

/-- What settlement effects do to jobs: they enqueue new ones and wake those that wait for
a count. -/
def JobEvent.IsEffect : JobEvent → Prop
  | .enqueue _ | .wake none => True
  | _ => False

def ClaimEnd.event (forced : Bool) (now : ℕ) : ClaimEnd → JobEvent
  | .done true => .complete now
  | .done false => .remove
  | .retry runAt outcome error => .retry runAt outcome error now
  | .dead error => .deadLetter forced error now

def ClaimEnd.Permits (forced : Bool) (old : JobRecord) : ClaimEnd → Prop
  | .done _ => True
  | .retry _ outcome _ => old.isLastAttempt = false ∧ outcome.isRetry = true
  | .dead _ => (forced || old.isLastAttempt) = true

def Settlement.forces : Settlement → Bool
  | .deadLetter _ => true
  | _ => false

def StagedCancel.events (id : String) : StagedCancel → List (String × JobEvent)
  | .removed _ => [(id, .remove)]
  | .requested _ => [(id, .requestCancel)]
  | .alreadyRequested _ | .notFound => []

theorem ClaimEnd.enqueuedIds_event (claimEnd : ClaimEnd) (forced : Bool) (now : ℕ) (id : String) :
    enqueuedIds [(id, claimEnd.event forced now)] = [] := by
  match claimEnd with
  | .done true | .done false | .retry _ _ _ | .dead _ => rfl

theorem StagedCancel.enqueuedIds_events (staged : StagedCancel) (id : String) :
    enqueuedIds (staged.events id) = [] := by
  cases staged <;> rfl

theorem Settlement.permits_endFor (settlement : Settlement) (old : JobRecord) (now : ℕ) :
    (settlement.endFor old now).Permits settlement.forces old := by
  cases settlement with
  | ack keep => trivial
  | nack error backoff =>
    simp only [endFor]
    split_ifs with hlast
    · simp [ClaimEnd.Permits, hlast]
    · exact ⟨by simpa using hlast, rfl⟩
  | deadLetter reason => rfl

theorem permits_unsettledClaimEnd (old : JobRecord) {outcome : AttemptOutcome} (error : String)
    (h : outcome.isRetry = true) :
    (unsettledClaimEnd old outcome error).Permits false old := by
  unfold unsettledClaimEnd
  split_ifs with hlast
  · simp [ClaimEnd.Permits, hlast]
  · exact ⟨by simpa using hlast, h⟩

namespace Txn

variable {κ β : Type} [DecidableEq κ] {t t' : Txn κ β}

theorem stages_stageToPending {source : RecordKey} {old job job' : JobRecord} {event : JobEvent}
    (hf : JobAction.Found t.view source old) (hs : source.keyStatus ≠ .pending)
    (hid : job.id = old.id) (hq : job.queue = old.queue) (hd : job.dedupKey = old.dedupKey)
    (ha : event.Allowed old) (hn : event.entry old = none)
    (hj : leaveWaits { job with status := .pending, runAt := none } = event.apply old)
    (h : t.stageToPending source job = .ok (t', job')) : Stages t t' [(old.id, event)] := by
  have hr : Rewrites old { job with status := .pending, runAt := none } :=
    ⟨hid, hq, hd, fun _ => .inl rfl⟩
  exact stages_moveJob hf hr hs h ha hj hn

section Wake

variable {id : String} {job woken : JobRecord}

omit [DecidableEq κ] in
theorem wakeEvent_of_wakeRecord {wake : Wake} (hs : job.status = .scheduled)
    (h : wakeRecord job wake = .ok woken) :
    (wakeEvent wake).Allowed job ∧ (wakeEvent wake).entry job = none ∧
      leaveWaits { woken with status := .pending, runAt := none } =
        (wakeEvent wake).apply job := by
  unfold wakeRecord at h
  split at h
  · split_ifs at h with hw
    cases h
    exact ⟨⟨hs, fun _ => hw⟩, rfl, rfl⟩
  · split at h
    · cases h
      exact ⟨⟨hs, by rintro ⟨⟩⟩, rfl, rfl⟩
    · cases h
  · cases h
    exact ⟨⟨hs, by rintro ⟨⟩⟩, rfl, rfl⟩

theorem stages_stageWake (hi : StoreInv t.view) {wake : Wake} {r : Except NotWoken QueueName}
    (h : t.stageWake id wake = .ok (t', r)) :
    Stages t t' (r.toOption.toList.map fun _ => (id, wakeEvent wake)) := by
  obtain ⟨rfl, reason, rfl⟩ | ⟨key, job, woken, job', hj, hsched, hw, hp, rfl⟩ := stageWake_eq_ok h
  · exact .refl _
  obtain ⟨hkey, hstatus, hid⟩ := getIndexedJob_spec hi hj
  obtain ⟨hsame, hd⟩ := wakeRecord_spec hw
  obtain ⟨ha, hn, hj'⟩ := wakeEvent_of_wakeRecord hsched hw
  rw [← hid, JobRecord.id_of_storedKey hkey]
  exact stages_stageToPending (found_of_getIndexedJob hj).2 (by simp [hstatus, hsched])
    hsame.id hsame.queue hd ha hn hj' hp

theorem stages_stageSignal (hi : StoreInv t.view) {payload : List UInt8} {r : SignalOutcome}
    (h : t.stageSignal id payload = .ok (t', r)) :
    Stages t t' (if r = .delivered then [(id, .wake (some payload))] else []) := by
  obtain ⟨⟨t₁, woken⟩, h₁, h⟩ := Except.bind_eq_ok.mp h
  cases h
  have hw := stages_stageWake hi h₁
  cases woken with
  | ok queue => exact hw
  | error reason => exact hw

theorem stages_promoteJob {runAt : ℕ} {queue : QueueName} {r : Option JobRecord}
    (hi : StoreInv t.view) (h : t.promoteJob runAt queue id = .ok (t', .commit r)) :
    Stages t t' [(id, .wake none)] := by
  obtain ⟨stored, job, hg, h₁⟩ := promoteJob_eq_ok h
  have hf : JobAction.Found t.view (.scheduled runAt queue id) _ := .of_record hg
  have hid := JobRecord.id_of_storedKey (hi.storedKey_of_found hf)
  have ha : JobEvent.Allowed (JobRecord.decode (.scheduled runAt queue id) stored) (.wake none) :=
    ⟨rfl, by rintro ⟨⟩⟩
  have hst := stages_stageToPending hf (by simp [RecordKey.keyStatus]) rfl rfl rfl ha rfl rfl h₁
  rw [← hid] at hst
  exact hst

theorem stages_stageCountChange (hi : StoreInv t.view) {checks : Bool} {name : String}
    {change : Int64} (h : t.stageCountChange checks name change = .ok t') :
    ∃ es, Stages t t' es ∧ ∀ e ∈ es, e.2 = .wake none := by
  have hdel : Stages t (t.delete (.count name)) [] :=
    .aside (t.extends_delete rfl) (by simp [JobAction.IsAside])
  cases stageCountChange_eq_ok h with
  | zero => exact ⟨[], .refl t, by simp⟩
  | put =>
    exact ⟨[], .aside (t.extends_put _ rfl trivial) (by simp [JobAction.IsAside]), by simp⟩
  | wake _ _ _ hw =>
    refine ⟨_, hdel.trans (stages_stageWake (hdel.inv hi) hw), ?_⟩
    simp [wakeEvent]
  | delete => exact ⟨[], hdel, by simp⟩

theorem stages_stageCountChanges {checks : Bool} {changes : List (String × Int64)}
    (hi : StoreInv t.view) (h : t.stageCountChanges checks changes = .ok t') :
    ∃ es, Stages t t' es ∧ ∀ e ∈ es, e.2 = .wake none := by
  induction changes generalizing t with
  | nil =>
    cases h
    exact ⟨[], .refl _, by simp⟩
  | cons change changes ih =>
    obtain ⟨t₁, h₁, h⟩ := Except.bind_eq_ok.mp h
    obtain ⟨es, hs, hes⟩ := stages_stageCountChange hi h₁
    obtain ⟨fs, hs', hfs⟩ := ih (hs.inv hi) h
    exact ⟨_, hs.trans hs', List.forall_mem_append.mpr ⟨hes, hfs⟩⟩

end Wake

section NewJob

variable {job job' : JobRecord}

theorem starts_stageCountWait (hs : Life.Starts job) (h : t.stageCountWait job = .ok (t', job')) :
    Life.Starts job' := by
  cases stageCountWait_eq_ok h with
  | zero =>
    obtain ⟨⟨h₁, h₂, h₃, h₄, h₅, h₆, h₇, -⟩, -⟩ := hs
    exact ⟨⟨h₁, h₂, h₃, h₄, h₅, h₆, h₇, fun _ => ⟨rfl, rfl⟩⟩, rfl⟩
  | _ => exact hs

theorem stages_stageJobWrites {prepared : PreparedJob}
    (hfresh : prepared.idOverrideUsed = false → t.view (.jobIndex prepared.job.id) = none)
    {r : Except String String} (h : t.stageJobWrites prepared = .ok (t', r)) :
    ∃ es, Stages t t' es ∧ ∀ e ∈ es, e.1 = prepared.job.id ∧ ∃ job, e.2 = .enqueue job := by
  obtain ⟨existing, rfl, -⟩ | ⟨t₁, job', as, key, -, hw, -, has, he⟩ :=
    insert_of_stageJobWrites hfresh h
  · exact ⟨[], .refl _, by simp⟩
  obtain ⟨hsame, -⟩ := extends_stageCountWait hw
  have hstarts := starts_stageCountWait ⟨prepared.isNew, prepared.status_eq⟩ hw
  have haside : Events as [] := .of_isAside fun a ha => by
    obtain ⟨name, r, rfl⟩ := has a ha
    simp [JobAction.IsAside]
  refine ⟨_, ⟨_, he, haside.append (.insert hstarts .nil)⟩, ?_⟩
  simp [hsame.id]

theorem stages_stageJobs {jobs : List PreparedJob} (hi : StoreInv t.view)
    (hf : FreshIds t.view jobs) {rs : List EnqueueResult} (h : t.stageJobs jobs = .ok (t', rs)) :
    ∃ es, Stages t t' es ∧ ∀ e ∈ es, ∃ job, e.2 = .enqueue job := by
  induction jobs generalizing t rs with
  | nil =>
    cases h
    exact ⟨[], .refl _, by simp⟩
  | cons p jobs ih =>
    obtain ⟨⟨t₁, w⟩, h₁, h⟩ := Except.bind_eq_ok.mp h
    obtain ⟨⟨t₂, rs'⟩, h₂, h⟩ := Except.bind_eq_ok.mp h
    cases h
    obtain ⟨es, hs, hes⟩ := stages_stageJobWrites (hf.1 p (.head _)) h₁
    obtain ⟨hp, hrest⟩ := List.pairwise_cons.mp hf.2
    have hf₁ : FreshIds t₁.view jobs := by
      refine hs.freshIds hi ⟨fun q hq => hf.1 q (.tail _ hq), hrest⟩ fun q hq ho hm => ?_
      obtain ⟨job, he⟩ := mem_enqueuedIds hm
      exact hp q hq ho (hes _ he).1
    obtain ⟨fs, hs', hfs⟩ := ih (hs.inv hi) hf₁ h₂
    exact ⟨_, hs.trans hs', List.forall_mem_append.mpr ⟨fun e he => (hes e he).2, hfs⟩⟩

end NewJob

section Effects

theorem enqueuedIds_of_wake {es : List (String × JobEvent)} (h : ∀ e ∈ es, e.2 = .wake none) :
    enqueuedIds es = [] := by
  apply List.filterMap_eq_nil_iff.mpr
  intro e he
  rw [h e he]

theorem stages_stageKv (t : Txn κ β) (kvWrites : List (κ × β)) (kvDeletes : List κ) :
    Stages t (t.stageKv kvWrites kvDeletes) [] := by
  obtain ⟨as, he, has⟩ := extends_foldl (p := JobAction.IsAside)
    (fun (t : Txn κ β) (w : κ × β) => ⟨_, t.extends_put (k := .user w.1) w.2 rfl trivial,
      by simp [JobAction.IsAside]⟩) t kvWrites
  obtain ⟨bs, he', hbs⟩ := extends_foldl (p := JobAction.IsAside)
    (fun (t : Txn κ β) (k : κ) => ⟨_, t.extends_delete (k := .user k) rfl,
      by simp [JobAction.IsAside]⟩)
    (kvWrites.foldl (fun t w => t.put (.user w.1) w.2) t) kvDeletes
  exact .aside (he.trans he') (List.forall_mem_append.mpr ⟨has, hbs⟩)

theorem stages_stageEffects [DecidableEq β] (hi : StoreInv t.view) {leases : Leases}
    {prepared : PreparedEffects κ β} (hf : FreshIds t.view prepared.preparedJobs)
    {rs : List EnqueueResult} (h : t.stageEffects leases prepared = .ok (t', rs)) :
    ∃ es, Stages t t' es ∧ ∀ e ∈ es, e.2.IsEffect := by
  obtain ⟨t₁, t₂, t₃, t₄, h₁, h₂, h₃, h₄, rfl⟩ := stageEffects_parts h
  have hs₂ : Stages t t₂ [] :=
    .aside ((extends_stageFence h₁).trans (extends_stageCompares h₂)) (by simp)
  obtain ⟨es, hs₃, hes⟩ := stages_stageCountChanges (hs₂.inv hi) h₃
  have hf₃ : FreshIds t₃.view prepared.preparedJobs :=
    (hs₂.trans hs₃).freshIds hi hf (by simp [enqueuedIds_of_wake hes])
  obtain ⟨fs, hs₄, hfs⟩ := stages_stageJobs (hs₃.inv (hs₂.inv hi)) hf₃ h₄
  have hs₅ := t₄.stages_stageKv prepared.kvWrites prepared.kvDeletes
  obtain ⟨as, he, has⟩ := extends_foldl (p := JobAction.IsAside)
    (fun (t : Txn κ β) (e : ExpiryIndex × ℕ) =>
      ⟨[], t.extends_noteExpiryEntry e.1 e.2, by simp⟩)
    (t₄.stageKv prepared.kvWrites prepared.kvDeletes) prepared.expiryEntries
  refine ⟨_, (((hs₂.trans hs₃).trans hs₄).trans hs₅).trans (.aside he has), ?_⟩
  simp only [List.nil_append, List.append_nil, List.forall_mem_append]
  constructor
  · intro e he
    rw [hes e he]
    trivial
  · intro e he
    obtain ⟨job, hj⟩ := hfs e he
    rw [hj]
    trivial

end Effects

section Claims

variable {source : RecordKey} {old job job' : JobRecord} {now : ℕ}

theorem stages_stageClaim (hf : JobAction.Found t.view source old)
    (hst : old.status = .pending ∨ old.status = .scheduled) (hs : source.keyStatus ≠ .claimed)
    (h : t.stageClaim source old now = .ok (t', job)) :
    Stages t t' [(old.id, .claim old.status now)] := by
  obtain ⟨-, -, -, he⟩ := extends_stageClaim hf hs h
  obtain ⟨⟨t₁, claimed⟩, hm, h⟩ := Except.bind_eq_ok.mp h
  obtain ⟨hc, -⟩ := moveJob_eq_ok hm
  obtain ⟨-, rfl⟩ := Prod.mk.inj (Except.ok.inj h)
  rw [hc] at he
  have ha : JobEvent.Allowed old (.claim old.status now) := ⟨rfl, hst⟩
  exact ⟨_, he, .move ha rfl .nil⟩

theorem stages_stageClaims {cs : List (RecordKey × JobRecord)} {jobs : List JobRecord}
    (hf : ∀ c ∈ cs, t.view (.record c.1) = some c.2 ∧ c.1.keyStatus = .pending)
    (hn : (cs.map Prod.fst).Nodup) (h : t.stageClaims now cs = .ok (t', jobs)) :
    Stages t t' (jobs.map fun job => (job.id, .claim .pending now)) := by
  induction cs generalizing t jobs with
  | nil =>
    cases h
    exact .refl _
  | cons c cs ih =>
    obtain ⟨key, stored⟩ := c
    obtain ⟨t₁, job, jobs', hp, hfound, h₁, rfl, hf', hn', h₂⟩ := stageClaims_cons hf hn h
    have hne : key.keyStatus ≠ .claimed := by simp [hp]
    obtain ⟨hsame, -⟩ := extends_stageClaim hfound hne h₁
    have hfirst := stages_stageClaim hfound (.inl hp) hne h₁
    rw [JobRecord.decode_status, hp, ← hsame.id] at hfirst
    exact hfirst.trans (ih hf' hn' h₂)

end Claims

section Ends

variable {old job' : JobRecord} {claimEnd : ClaimEnd} {now : ℕ} {forced : Bool}

omit [DecidableEq κ] in
theorem events_of_ended {entry : JobAttempt} {job : JobRecord} {event : JobEvent}
    (ha : event.Allowed old) (hn : event.entry old = some entry)
    (hj : leaveWaits job = event.apply old) (hd : job.dedupKey = old.dedupKey)
    (hs : job.status = claimEnd.status) (hid : job.id = old.id) (hq : job.queue = old.queue)
    (h : (t.appendAttempt old.id entry).moveJob (.claimed old.queue old.id) job = .ok (t', job')) :
    ∃ as, EndActions (κ := κ) (β := β) old claimEnd as ∧ Events as [(old.id, event)] ∧
      t'.base = t.base ∧ t'.writes = t.writes ++ (jobActions κ β).batch as ∧ Notes t t' as := by
  obtain ⟨rfl, key, hkey, hb, hw, hnotes⟩ :=
    appendAttempt_moveJob_eq_ok h hd (hs ▸ claimEnd.status_ne_claimed)
  refine ⟨_, .move hkey ?_ ?_ ?_ ?_ (leavesWaits_leaveWaits job), ?_, hb, hw, hnotes⟩
  · simp [hid]
  · simp [hq]
  · simp [hd]
  · simp [hs]
  · rw [hj]
    exact .ended ha hn .nil

omit [DecidableEq κ] in
/-- The end of a claim, which reads nothing. -/
theorem events_of_stageClaimEnd (hc : old.status = .claimed) (hp : claimEnd.Permits forced old)
    (h : t.stageClaimEnd old claimEnd now = .ok (t', job')) :
    ∃ as, EndActions (κ := κ) (β := β) old claimEnd as ∧
      Events as [(old.id, claimEnd.event forced now)] ∧ t'.base = t.base ∧
      t'.writes = t.writes ++ (jobActions κ β).batch as ∧ Notes t t' as := by
  match claimEnd with
  | .done true =>
    simp only [stageClaimEnd, if_true] at h
    have ha : JobEvent.Allowed old (.complete now) := hc
    exact events_of_ended ha rfl rfl rfl rfl rfl rfl h
  | .done false =>
    cases h
    refine ⟨_, .remove rfl, .remove .nil, stageRemove_base _ _ _, ?_, notes_stageRemove rfl⟩
    refine (stageRemove_writes (t := t) rfl rfl rfl true).trans ?_
    rw [Actions.batch_cons, Actions.batch_nil, List.append_nil]
    rfl
  | .retry none outcome error =>
    simp only [stageClaimEnd, stageToPending] at h
    have ha : JobEvent.Allowed old (.retry none outcome error now) := ⟨hc, hp⟩
    exact events_of_ended ha rfl rfl rfl rfl rfl rfl h
  | .retry (some runAt) outcome error =>
    simp only [stageClaimEnd] at h
    have ha : JobEvent.Allowed old (.retry (some runAt) outcome error now) := ⟨hc, hp⟩
    exact events_of_ended ha rfl rfl rfl rfl rfl rfl h
  | .dead error =>
    simp only [stageClaimEnd, stageDeadLetter] at h
    have ha : JobEvent.Allowed old (.deadLetter forced error now) := ⟨hc, hp⟩
    exact events_of_ended ha rfl rfl rfl rfl rfl rfl h

theorem stages_stageClaimEnd (hi : StoreInv t.view)
    (hf : JobAction.Found t.view (.claimed old.queue old.id) old)
    (hp : claimEnd.Permits forced old) (h : t.stageClaimEnd old claimEnd now = .ok (t', job')) :
    Stages t t' [(old.id, claimEnd.event forced now)] := by
  obtain ⟨-, -, hd⟩ := hi.claimed_spec hf
  have hc := JobRecord.keyStatus_of_storedKey (hi.storedKey_of_found hf)
  obtain ⟨as, ha, hes, hb, hw, hn⟩ := events_of_stageClaimEnd hc.symm hp h
  exact ⟨as, ⟨hb, hw ▸ .refl _, ha.allEnabled hf hd, hn⟩, hes⟩

theorem stages_delete_stageClaimEnd (hi : StoreInv t.view)
    (hf : JobAction.Found t.view (.claimed old.queue old.id) old)
    (hp : claimEnd.Permits forced old)
    (h : (t.delete (.record (.claimed old.queue old.id))).stageClaimEnd old claimEnd now
      = .ok (t', job')) :
    Stages t t' [(old.id, claimEnd.event forced now)] := by
  obtain ⟨-, -, hd⟩ := hi.claimed_spec hf
  have hc := JobRecord.keyStatus_of_storedKey (hi.storedKey_of_found hf)
  obtain ⟨as, ha, hes, hb, hw, hn⟩ := events_of_stageClaimEnd hc.symm hp h
  refine ⟨as, ⟨hb, ?_, ha.allEnabled hf hd, hn.stats, hn.enqueued, hn.le, hn.covers⟩, hes⟩
  rw [hw]
  simp only [delete, List.append_assoc, List.singleton_append]
  exact (Batch.Equiv.refl _).append ha.delete_equiv

/-- The fence and the end of a settlement end the claim of the record they found. -/
theorem stages_takeClaim_stageClaimEnd (hi : StoreInv t.view) {t₁ : Txn κ β} {leases : Leases}
    {queue : QueueName} {id : String} {claimId : ℕ}
    (h₁ : t.takeClaim leases queue id claimId = .ok (t₁, old))
    (hp : claimEnd.Permits forced old)
    (h₂ : t₁.stageClaimEnd old claimEnd now = .ok (t', job')) :
    Stages t t' [(id, claimEnd.event forced now)] := by
  obtain ⟨⟨t₀, job₀⟩, h₀, h₁⟩ := Except.bind_eq_ok.mp h₁
  cases h₁
  obtain ⟨rfl, -, hfound⟩ := extends_readClaim h₀
  obtain ⟨rfl, rfl, -⟩ := hi.claimed_spec hfound
  have hm : Stages t (t.markRead (.record (.claimed old.queue old.id))) [] :=
    .aside (t.extends_markRead _) (by simp)
  exact hm.trans (stages_delete_stageClaimEnd (t := t.markRead _) hi hfound hp h₂)

end Ends

theorem stages_stageInboxRecord (t : Txn κ β) (queue : QueueName) (id : String)
    (record : InboxRecord) : Stages t (t.stageInboxRecord queue id record) [] :=
  .aside (t.extends_stageInboxRecord queue id record) (by simp [JobAction.IsAside])

section Control

variable {id : String} {now : ℕ}

theorem stages_stageCancel (hi : StoreInv t.view) {staged : StagedCancel}
    (h : t.stageCancel id = .ok (t', staged)) : Stages t t' (staged.events id) := by
  obtain ⟨rfl, rfl | ⟨job, rfl⟩⟩ | ⟨key, job, hj, hcase⟩ := stageCancel_eq_ok h
  · exact .refl _
  · exact .refl _
  obtain ⟨hkey, hstatus, hid⟩ := getIndexedJob_spec hi hj
  have hf := (found_of_getIndexedJob hj).2
  have hjid : job.id = id := (JobRecord.id_of_storedKey hkey).symm.trans hid
  obtain ⟨-, rfl, rfl⟩ | ⟨hst, job', rfl, hm⟩ := hcase
  · exact ⟨_, extends_stageRemove hf rfl rfl rfl, hjid ▸ .remove .nil⟩
  · have he := extends_flag hkey hf hst hm
    obtain ⟨rfl, -⟩ := moveJob_eq_ok hm
    have ha : JobEvent.Allowed job .requestCancel := hst
    exact ⟨_, he, hjid ▸ .rewrite ha rfl .nil⟩

theorem stages_requeueDeadJob (hi : StoreInv t.view) {r : JobRecord}
    (h : t.requeueDeadJob id now = .ok (t', .commit r)) : Stages t t' [(id, .revive now)] := by
  obtain ⟨key, job, t₁, hj, hdead, h₁, rfl⟩ := requeueDeadJob_eq_ok h
  obtain ⟨hkey, hstatus, hid⟩ := getIndexedJob_spec hi hj
  have hjid : job.id = id := (JobRecord.id_of_storedKey hkey).symm.trans hid
  obtain ⟨key', -, -, hid', -, -, he⟩ := extends_stageToPending
    (found_of_getIndexedJob hj).2 (by simp [hstatus, hdead]) (by rfl) (by rfl) (by rfl) h₁
  obtain ⟨rfl, -⟩ := moveJob_eq_ok h₁
  have ha : JobEvent.Allowed job (.revive now) := hdead
  refine ⟨_, he.trans (t₁.extends_appendAttempt _ _), ?_⟩
  rw [hid']
  exact hjid ▸ .revived ha rfl .nil

theorem stages_sweepVictim (hi : StoreInv t.view) {key : RecordKey} {job : JobRecord}
    (hs : key.keyStatus = .done ∨ key.keyStatus = .dead) (hkey : job.storedKey = some key)
    (hd : job.dedupKey = none) {r : Bool} (h : t.sweepVictim key job = .ok (t', .commit r)) :
    Stages t t' (if r then [(key.id, .remove)] else []) := by
  obtain ⟨rfl, rfl⟩ | ⟨rfl, old, hid, -, he⟩ := extends_sweepVictim hi hs hkey hd h
  · exact .refl _
  · exact ⟨_, he, hid ▸ .remove .nil⟩

end Control

end Txn

end Taquba
