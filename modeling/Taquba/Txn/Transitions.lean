import Taquba.Txn.Trace

/-! # The actions of each staged transition

For every transition that a transaction stages on a store whose indexes agree:
which actions it takes, which claims it starts and which it ends.
-/

namespace Taquba

open Clock Snapshot

variable {κ β : Type}
variable {as : List (JobAction κ β)} {jobs : List PreparedJob} {leases : Leases}

def JobAction.Carries (new : List PreparedJob) : JobAction κ β → Prop
  | .insert job _ => ∃ p ∈ new, JobRecord.Same p.job job ∧ job.dedupKey = p.job.dedupKey
  | .move _ old job _ | .rewrite _ old job => JobRecord.Same old job
  | _ => True

theorem JobAction.Carries.mono {new new' : List PreparedJob} {a : JobAction κ β}
    (h : a.Carries new) (hsub : new ⊆ new') : a.Carries new' := by
  cases a with
  | insert job key =>
    obtain ⟨p, hp, hsame⟩ := h
    exact ⟨p, hsub hp, hsame⟩
  | _ => exact h

def writtenJobs : List PreparedJob → List EnqueueResult → List PreparedJob
  | p :: jobs, .new _ :: results => p :: writtenJobs jobs results
  | _ :: jobs, .alreadyEnqueued _ :: results => writtenJobs jobs results
  | _, _ => []

namespace Txn

variable [DecidableEq κ] {t t' : Txn κ β}

section Lookup

variable {id : String} {key : RecordKey} {job : JobRecord}

theorem found_of_getIndexedJob (h : t.getIndexedJob id = some (key, job)) :
    t.view (.jobIndex id) = some key ∧ JobAction.Found t.view key job := by
  obtain ⟨k, hk, h⟩ := Option.bind_eq_some_iff.mp h
  obtain ⟨v, hv, h⟩ := Option.map_eq_some_iff.mp h
  cases h
  refine ⟨hk, ?_⟩
  exact .of_record hv

theorem getIndexedJob_spec (hi : StoreInv t.view) (h : t.getIndexedJob id = some (key, job)) :
    job.storedKey = some key ∧ key.keyStatus = job.status ∧ key.id = id := by
  obtain ⟨hidx, hf⟩ := found_of_getIndexedJob h
  have hs := hi.storedKey_of_found hf
  exact ⟨hs, JobRecord.keyStatus_of_storedKey hs, (hi.index_record id key hidx).1⟩

end Lookup

section Wake

variable {source key : RecordKey} {job job' old : JobRecord}

theorem extends_stageToPending (hf : JobAction.Found t.view source old)
    (hs : source.keyStatus ≠ .pending) (hid : job.id = old.id) (hq : job.queue = old.queue)
    (hd : job.dedupKey = old.dedupKey) (h : t.stageToPending source job = .ok (t', job')) :
    ∃ key, job'.storedKey = some key ∧ job'.status = .pending ∧ job'.id = old.id ∧
      job'.queue = old.queue ∧ source ≠ key ∧ Extends t t' [.move source old job' key] := by
  obtain ⟨rfl, -⟩ := moveJob_eq_ok h
  have hr : Rewrites old { job with status := .pending, runAt := none } :=
    ⟨hid, hq, hd, fun _ => .inl rfl⟩
  obtain ⟨key, hkey, hne, he⟩ := extends_moveJob hf hr hs h
  exact ⟨key, hkey, by simp, by simp [hid], by simp [hq], hne, he⟩

omit [DecidableEq κ] in
theorem same_of_stageToPending (hs : JobRecord.Same old job)
    (h : t.stageToPending source job = .ok (t', job')) : JobRecord.Same old job' := by
  obtain ⟨rfl, -⟩ := moveJob_eq_ok h
  refine JobRecord.Same.trans ?_ (same_leaveWaits _)
  exact { hs with }

omit [DecidableEq κ] in
theorem wakeRecord_spec {wake : Wake} (h : wakeRecord job wake = .ok job') :
    JobRecord.Same job job' ∧ job'.dedupKey = job.dedupKey := by
  unfold wakeRecord at h
  split at h
  · split at h
    · cases h
      exact ⟨⟨rfl, rfl, rfl, rfl, rfl, rfl, rfl, rfl⟩, rfl⟩
    · cases h
  · split at h
    · cases h
      exact ⟨⟨rfl, rfl, rfl, rfl, rfl, rfl, rfl, rfl⟩, rfl⟩
    · cases h
  · cases h
    exact ⟨⟨rfl, rfl, rfl, rfl, rfl, rfl, rfl, rfl⟩, rfl⟩

/-- A wake takes a scheduled job to pending, or finds a reason not to and stages nothing. -/
theorem stageWake_eq_ok {id : String} {wake : Wake} {r : Except NotWoken QueueName}
    (h : t.stageWake id wake = .ok (t', r)) :
    (t' = t ∧ ∃ reason, r = .error reason) ∨
    ∃ key job woken job', t.getIndexedJob id = some (key, job) ∧ job.status = .scheduled ∧
      wakeRecord job wake = .ok woken ∧ t.stageToPending key woken = .ok (t', job') ∧
      r = .ok job'.queue := by
  unfold stageWake at h
  cases hj : t.getIndexedJob id with
  | none =>
    rw [hj] at h
    cases h
    exact .inl ⟨rfl, _, rfl⟩
  | some found =>
    rw [hj] at h
    by_cases hst : found.2.status = .scheduled
    swap
    · simp only [ne_eq, hst, not_false_eq_true, if_true] at h
      cases h
      exact .inl ⟨rfl, _, rfl⟩
    simp only [ne_eq, hst, not_true_eq_false, if_false] at h
    cases hw : wakeRecord found.2 wake with
    | error reason =>
      rw [hw] at h
      cases h
      exact .inl ⟨rfl, _, rfl⟩
    | ok woken =>
      rw [hw] at h
      obtain ⟨⟨t₁, job'⟩, hp, ⟨⟩⟩ := Except.bind_eq_ok.mp h
      exact .inr ⟨_, _, woken, job', rfl, hst, hw, hp, rfl⟩

theorem extends_stageWake (hi : StoreInv t.view) {id : String} {wake : Wake}
    {r : Except NotWoken QueueName} (h : t.stageWake id wake = .ok (t', r)) :
    ∃ as, Extends t t' as ∧ ∀ a ∈ as, a.IsWake ∧ a.Carries [] := by
  obtain ⟨rfl, -⟩ | ⟨key, job, woken, job', hj, hsched, hw, hp, -⟩ := stageWake_eq_ok h
  · exact ⟨[], .refl _, by simp⟩
  obtain ⟨-, hstatus, -⟩ := getIndexedJob_spec hi hj
  obtain ⟨hsame, hd⟩ := wakeRecord_spec hw
  obtain ⟨key', hkey, hst, -, -, -, he⟩ := extends_stageToPending
    (found_of_getIndexedJob hj).2 (by simp [hstatus, hsched]) hsame.id hsame.queue hd hp
  refine ⟨_, he, ?_⟩
  simp only [List.mem_singleton, forall_eq, JobAction.IsWake]
  exact ⟨⟨hstatus.trans hsched, hst, (JobRecord.keyStatus_of_storedKey hkey).trans hst⟩,
    same_of_stageToPending hsame hp⟩

end Wake

section NewJob

variable {job job' : JobRecord}

inductive CountChange (checks : Bool) (t : Txn κ β) (name : String) (delta : Int64) :
    Txn κ β → Prop where
  | zero (hd : delta = 0) : CountChange checks t name delta t
  | put {active} (hd : delta ≠ 0)
      (hsum : addI64 checks (t.readRecord name).active delta = some active) (ha : active ≠ 0) :
    CountChange checks t name delta (t.put (.count name) { t.readRecord name with active })
  | wake {waiter t' r} (hd : delta ≠ 0)
      (hsum : addI64 checks (t.readRecord name).active delta = some 0)
      (hw : (t.readRecord name).waiter = some waiter)
      (h : (t.delete (.count name)).stageWake waiter (.count name) = .ok (t', r)) :
    CountChange checks t name delta t'
  | delete (hd : delta ≠ 0) (hsum : addI64 checks (t.readRecord name).active delta = some 0)
      (hw : (t.readRecord name).waiter = none) :
    CountChange checks t name delta (t.delete (.count name))

theorem stageCountChange_eq_ok {checks : Bool} {name : String} {delta : Int64}
    (h : t.stageCountChange checks name delta = .ok t') : CountChange checks t name delta t' := by
  unfold stageCountChange at h
  split_ifs at h with hd
  · cases h
    exact .zero hd
  simp only at h
  cases hsum : addI64 checks (t.readRecord name).active delta with
  | none =>
    rw [hsum] at h
    cases h
  | some active =>
    rw [hsum] at h
    by_cases ha : active = 0
    · subst ha
      simp only [ne_eq, not_true_eq_false, if_false] at h
      cases hw : (t.readRecord name).waiter with
      | some waiter =>
        rw [hw] at h
        obtain ⟨⟨t₁, r⟩, h₁, ⟨⟩⟩ := Except.bind_eq_ok.mp h
        exact .wake hd hsum hw h₁
      | none =>
        rw [hw] at h
        cases h
        exact .delete hd hsum hw
    · simp only [ne_eq, ha, not_false_eq_true, if_true] at h
      cases h
      exact .put hd hsum ha

theorem extends_stageCountChange (hi : StoreInv t.view) {checks : Bool} {name : String}
    {change : Int64} (h : t.stageCountChange checks name change = .ok t') :
    ∃ as, Extends t t' as ∧ ∀ a ∈ as, a.IsWake ∧ a.Carries [] := by
  have hdel : Extends t (t.delete (.count name)) [.plain ⟨.count name, .delete⟩] :=
    t.extends_delete rfl
  cases stageCountChange_eq_ok h with
  | zero => exact ⟨[], .refl t, by simp⟩
  | put => exact ⟨_, t.extends_put _ rfl trivial, by simp [JobAction.IsWake, JobAction.Carries]⟩
  | wake _ _ _ hw =>
    obtain ⟨as, he, has⟩ := extends_stageWake (hdel.inv hi) hw
    refine ⟨_, hdel.trans he, List.forall_mem_append.mpr ⟨?_, has⟩⟩
    simp [JobAction.IsWake, JobAction.Carries]
  | delete => exact ⟨_, hdel, by simp [JobAction.IsWake, JobAction.Carries]⟩

theorem extends_stageCountChanges {checks : Bool} {changes : List (String × Int64)}
    (hi : StoreInv t.view) (h : t.stageCountChanges checks changes = .ok t') :
    ∃ as, Extends t t' as ∧ ∀ a ∈ as, a.IsWake ∧ a.Carries [] := by
  induction changes generalizing t with
  | nil =>
    cases h
    exact ⟨[], .refl _, by simp⟩
  | cons change changes ih =>
    obtain ⟨t₁, h₁, h⟩ := Except.bind_eq_ok.mp h
    obtain ⟨as, he, has⟩ := extends_stageCountChange hi h₁
    obtain ⟨bs, he', hbs⟩ := ih (he.inv hi) h
    exact ⟨_, he.trans he', List.forall_mem_append.mpr ⟨has, hbs⟩⟩

inductive CountWait (t : Txn κ β) (job : JobRecord) : Txn κ β → JobRecord → Prop where
  | none (hn : job.countWait = none) : CountWait t job t job
  | zero {name} (hn : job.countWait = some name) (ha : (t.readRecord name).active = 0) :
    CountWait t job t { job with
      status := .pending, runAt := none, signalWait := false, countWait := none }
  | wait {name} (hn : job.countWait = some name) (ha : (t.readRecord name).active ≠ 0)
      (hfree : ∀ waiter, (t.readRecord name).waiter = some waiter →
        t.stillWaiting waiter name = false) :
    CountWait t job (t.put (.count name) { t.readRecord name with waiter := some job.id }) job

theorem stageCountWait_eq_ok (h : t.stageCountWait job = .ok (t', job')) :
    CountWait t job t' job' := by
  unfold stageCountWait at h
  cases hn : job.countWait with
  | none =>
    rw [hn] at h
    cases h
    exact .none hn
  | some name =>
    rw [hn] at h
    simp only at h
    split_ifs at h with ha
    · cases h
      exact .zero hn ha
    cases hw : (t.readRecord name).waiter with
    | none =>
      rw [hw] at h
      cases h
      exact .wait hn ha (by simp [hw])
    | some waiter =>
      rw [hw] at h
      simp only at h
      split_ifs at h with hs
      cases h
      exact .wait hn ha (by simpa [hw] using hs)

theorem extends_stageCountWait (h : t.stageCountWait job = .ok (t', job')) :
    JobRecord.Same job job' ∧ job'.dedupKey = job.dedupKey ∧
      (job'.status = .pending ∨ job'.status = job.status) ∧
      ∃ as, Extends t t' as ∧ ∀ a ∈ as, ∃ name r, a = .plain ⟨.count name, .put r⟩ := by
  have hrefl : JobRecord.Same job job := ⟨rfl, rfl, rfl, rfl, rfl, rfl, rfl, rfl⟩
  cases stageCountWait_eq_ok h with
  | none => exact ⟨hrefl, rfl, .inr rfl, [], .refl _, by simp⟩
  | zero =>
    exact ⟨⟨rfl, rfl, rfl, rfl, rfl, rfl, rfl, rfl⟩, rfl, .inl rfl, [], .refl _, by simp⟩
  | wait => exact ⟨hrefl, rfl, .inr rfl, _, t.extends_put _ rfl trivial, by simp⟩

omit [DecidableEq κ] in
theorem putDedup_notes (t : Txn κ β) (job : JobRecord) :
    (t.putDedup job).notes = t.notes ∧ (t.putDedup job).stats = t.stats ∧
      (t.putDedup job).base = t.base ∧
      (t.putDedup job).writes = t.writes ++ JobAction.takeDedup job := by
  cases hk : job.dedupKey <;> simp [putDedup, put, JobAction.takeDedup, hk]

theorem extends_insertJob (hidx : t.view (.jobIndex job.id) = none)
    (hs : job.status = .pending ∨ job.status = .scheduled)
    (hd : t.dedupHolder job = none) (h : t.insertJob job = .ok t') :
    ∃ key, Extends t (t'.putDedup job) [.insert job key] := by
  unfold insertJob at h
  split at h
  · rename_i key hkey
    cases h
    obtain ⟨hnotes, hstats, hbase, hwrites⟩ := putDedup_notes
      (((t.putJob key job).countMove job.queue none (some job.status)).noteEnqueued
        job.queue job.id) job
    have hcov := ((t.put (.record key) job.stored).put (.jobIndex job.id) key).coversKey_noteWritten
      hkey
    refine ⟨key, .single hbase ?_ (.single ?_ ?_ ?_ ?_) ⟨hidx, hkey, hs, ?_⟩⟩
    · rw [hwrites]
      simp [noteEnqueued, countMove, putJob, put, JobAction.writes]
    · intro q status
      rw [hstats]
      simp [noteEnqueued, countMove, putJob, noteWritten, put, JobAction.delta]
    · rw [hnotes]
      simp [noteEnqueued, countMove, putJob, put, JobAction.insert?]
    · rw [hnotes]
      have hle :=
        ((t.put (.record key) job.stored).put (.jobIndex job.id) key).le_noteWritten job key
      exact { hle with }
    · intro w hw
      rw [hnotes]
      simp only [JobAction.writes, List.mem_append, List.mem_cons, List.not_mem_nil, or_false] at hw
      rcases hw with (rfl | rfl) | hw
      · cases key <;> exact hcov
      · trivial
      · unfold JobAction.takeDedup at hw
        split at hw
        · rw [List.mem_singleton.mp hw]
          trivial
        · cases hw
    · intro dedupKey hk
      rw [dedupHolder, hk] at hd
      exact hd
  · cases h

def Inserts (as : List (JobAction κ β)) (ids : List String) : Prop :=
  ∀ job key, JobAction.insert job key ∈ as → job.id ∈ ids

def writtenJob (prepared : PreparedJob) : Except String String → List PreparedJob
  | .ok _ => [prepared]
  | .error _ => []

/-- The write of a prepared job: its dedup key is taken and nothing is staged, or the job
is inserted as its count wait left it. -/
theorem insert_of_stageJobWrites {prepared : PreparedJob}
    (hfresh : prepared.idOverrideUsed = false → t.view (.jobIndex prepared.job.id) = none)
    {r : Except String String} (h : t.stageJobWrites prepared = .ok (t', r)) :
    (∃ existing, t' = t ∧ r = .error existing) ∨
    ∃ t₁ job' as key, r = .ok prepared.job.id ∧ t.stageCountWait prepared.job = .ok (t₁, job') ∧
      (job'.status = .pending ∨ job'.status = .scheduled) ∧
      (∀ a ∈ as, ∃ name r, a = .plain ⟨.count name, .put r⟩) ∧
      Extends t t' (as ++ [.insert job' key]) := by
  unfold stageJobWrites at h
  simp only at h
  split at h
  · rename_i existing _
    cases h
    exact .inl ⟨existing, rfl, rfl⟩
  · rename_i hd
    split_ifs at h with hdup
    have hidx : t.view (.jobIndex prepared.job.id) = none := by
      cases ho : prepared.idOverrideUsed with
      | false => exact hfresh ho
      | true => simpa [ho, get] using hdup
    obtain ⟨⟨t₁, job'⟩, hw, h⟩ := Except.bind_eq_ok.mp h
    obtain ⟨t₂, hins, h⟩ := Except.bind_eq_ok.mp h
    cases h
    obtain ⟨hsame, hdk, hst, as, he, has⟩ := extends_stageCountWait hw
    have hplain : ∀ k : Key κ, k.isPlain = false → t₁.view k = t.view k := by
      intro k hk
      rw [he.view_eq]
      refine Store.applyBatch_of_not_mem ?_
      simp only [Batch.keys, Actions.batch, List.mem_map, List.mem_flatMap, not_exists]
      rintro w ⟨⟨a, ha, hwa⟩, rfl⟩
      obtain ⟨name, r, rfl⟩ := has a ha
      rw [List.mem_singleton.mp hwa] at hk
      cases hk
    have hs : job'.status = .pending ∨ job'.status = .scheduled := by
      rcases hst with h | h
      · exact .inl h
      · rw [h]
        exact prepared.status_waiting
    have hd₁ : t₁.dedupHolder job' = none := by
      rw [dedupHolder, hdk, hsame.queue]
      rw [dedupHolder] at hd
      cases hk : prepared.job.dedupKey with
      | none => rfl
      | some dedupKey =>
        rw [hk] at hd
        exact (hplain _ rfl).trans hd
    obtain ⟨key, he'⟩ := extends_insertJob (by rw [hsame.id, hplain _ rfl, hidx]) hs hd₁ hins
    have hput : t₂.putDedup prepared.job = t₂.putDedup job' := by
      unfold putDedup
      rw [hdk, hsame.queue, hsame.id]
    rw [hput]
    exact .inr ⟨t₁, job', as, key, rfl, hw, hs, has, he.trans he'⟩

theorem extends_stageJobWrites {prepared : PreparedJob}
    (hfresh : prepared.idOverrideUsed = false → t.view (.jobIndex prepared.job.id) = none)
    {r : Except String String} (h : t.stageJobWrites prepared = .ok (t', r)) :
    ∃ as, Extends t t' as ∧ (∀ a ∈ as, a.IsEffect ∧ a.Carries (writtenJob prepared r)) ∧
      Inserts as [prepared.job.id] ∧
      as.filterMap (·.inserted?) = (writtenJob prepared r).map (·.job.identity) := by
  obtain ⟨existing, rfl, rfl⟩ | ⟨t₁, job', as, key, rfl, hw, hs, has, he⟩ :=
    insert_of_stageJobWrites hfresh h
  · exact ⟨[], .refl _, by simp, by simp [Inserts], rfl⟩
  obtain ⟨hsame, hdk, -⟩ := extends_stageCountWait hw
  refine ⟨_, he, List.forall_mem_append.mpr ⟨?_, ?_⟩, ?_, ?_⟩
  · intro a ha
    obtain ⟨name, r, rfl⟩ := has a ha
    exact ⟨trivial, trivial⟩
  · simpa [JobAction.IsEffect, JobAction.Carries, writtenJob] using ⟨hs, hsame, hdk⟩
  · intro j k hj
    rcases List.mem_append.mp hj with hj | hj
    · obtain ⟨name, r, hc⟩ := has _ hj
      cases hc
    · cases List.mem_singleton.mp hj
      simp [hsame.id]
  · have hnone : as.filterMap (·.inserted?) = [] := by
      apply List.filterMap_eq_nil_iff.mpr
      intro a ha
      obtain ⟨name, r, rfl⟩ := has a ha
      rfl
    rw [List.filterMap_append, hnone]
    simp [JobAction.inserted?, writtenJob, hsame.identity_eq hdk]

/-- Generated ids are new to the store and to the jobs staged before them. -/
def FreshIds (s : Store (Val κ β)) (jobs : List PreparedJob) : Prop :=
  (∀ p ∈ jobs, p.idOverrideUsed = false → s (.jobIndex p.job.id) = none) ∧
    jobs.Pairwise fun p p' => p'.idOverrideUsed = false → p'.job.id ≠ p.job.id

theorem FreshIds.extends {ids : List String} (hf : FreshIds t.view jobs) (hi : StoreInv t.view)
    (he : Extends t t' as) (hins : Inserts as ids)
    (hne : ∀ p ∈ jobs, p.idOverrideUsed = false → p.job.id ∉ ids) : FreshIds t'.view jobs := by
  refine ⟨fun p hp ho => ?_, hf.2⟩
  rw [he.view_eq]
  refine hi.jobIndex_eq_none_actions he.enabled (hf.1 p hp ho) fun job key hm hid => ?_
  exact hne p hp ho (hid ▸ hins job key hm)

theorem FreshIds.tail {p : PreparedJob} (hf : FreshIds t.view (p :: jobs)) (hi : StoreInv t.view)
    (he : Extends t t' as) (hins : Inserts as [p.job.id]) : FreshIds t'.view jobs := by
  obtain ⟨hp, hrest⟩ := List.pairwise_cons.mp hf.2
  have hf₁ : FreshIds t.view jobs := ⟨fun q hq => hf.1 q (.tail _ hq), hrest⟩
  exact hf₁.extends hi he hins fun q hq ho => by simpa using hp q hq ho

theorem extends_stageJobs (hi : StoreInv t.view) (hf : FreshIds t.view jobs)
    {rs : List EnqueueResult} (h : t.stageJobs jobs = .ok (t', rs)) :
    ∃ as, Extends t t' as ∧ (∀ a ∈ as, a.IsEffect ∧ a.Carries (writtenJobs jobs rs)) ∧
      Inserts as (jobs.map (·.job.id)) ∧
      as.filterMap (·.inserted?) = (writtenJobs jobs rs).map (·.job.identity) := by
  induction jobs generalizing t rs with
  | nil =>
    cases h
    exact ⟨[], .refl _, by simp, by simp [Inserts], rfl⟩
  | cons p jobs ih =>
    obtain ⟨⟨t₁, w⟩, h₁, h⟩ := Except.bind_eq_ok.mp h
    obtain ⟨⟨t₂, rs'⟩, h₂, h⟩ := Except.bind_eq_ok.mp h
    cases h
    obtain ⟨as, he, has, hins, hnoted⟩ := extends_stageJobWrites (hf.1 p (.head _)) h₁
    obtain ⟨bs, he', hbs, hins', hnoted'⟩ := ih (he.inv hi) (hf.tail hi he hins) h₂
    refine ⟨_, he.trans he', List.forall_mem_append.mpr ⟨fun a ha => ?_, fun b hb => ?_⟩,
      fun job key hm => ?_, ?_⟩
    · refine ⟨(has a ha).1, (has a ha).2.mono ?_⟩
      cases w <;> simp [writtenJob, writtenJobs]
    · refine ⟨(hbs b hb).1, (hbs b hb).2.mono ?_⟩
      cases w <;> simp [writtenJobs]
    · rcases List.mem_append.mp hm with hm | hm
      · exact List.mem_cons.mpr (.inl (List.mem_singleton.mp (hins job key hm)))
      · exact List.mem_cons_of_mem _ (hins' job key hm)
    · rw [List.filterMap_append, hnoted, hnoted']
      cases w <;> simp [writtenJob, writtenJobs]

end NewJob

section Effects

theorem extends_readClaim {queue : QueueName} {id : String} {claimId : ℕ} {job : JobRecord}
    (h : t.readClaim leases queue id claimId = .ok (t', job)) :
    t' = t.markRead (.record (.claimed queue id)) ∧
      (∃ expiry, leases queue id = some (expiry, claimId)) ∧
      JobAction.Found t.view (.claimed queue id) job := by
  unfold readClaim at h
  split at h
  · rename_i expiry current hc
    split_ifs at h with heq
    split at h
    · rename_i job₀ hj
      cases h
      refine ⟨rfl, ⟨expiry, heq ▸ hc⟩, ?_⟩
      exact .of_record hj
    · cases h
  · cases h

theorem extends_stageFence {fence : Option ClaimFence} (h : t.stageFence leases fence = .ok t') :
    Extends t t' [] := by
  cases fence with
  | none =>
    cases h
    exact .refl _
  | some fence =>
    obtain ⟨⟨t₁, job⟩, hr, h⟩ := Except.bind_eq_ok.mp h
    cases h
    obtain ⟨rfl, -⟩ := extends_readClaim hr
    exact t.extends_markRead _

omit [DecidableEq κ] in
theorem inserts_of_isWake (h : ∀ a ∈ as, a.IsWake ∧ a.Carries []) : Inserts as [] :=
  fun _ _ hm => (h _ hm).1.elim

omit [DecidableEq κ] in
theorem filterMap_inserted?_of_isWake (h : ∀ a ∈ as, a.IsWake) :
    as.filterMap (·.inserted?) = [] := by
  apply List.filterMap_eq_nil_iff.mpr
  intro a ha
  cases a with
  | insert job key => exact (h _ ha).elim
  | _ => rfl

theorem extends_stageCompares [DecidableEq β] {compares : List (KvCompare κ β)}
    (h : t.stageCompares compares = .ok t') : Extends t t' [] := by
  induction compares generalizing t with
  | nil =>
    cases h
    exact .refl _
  | cons c compares ih =>
    simp only [stageCompares] at h
    split at h
    · exact (t.extends_markRead _).trans (ih h)
    · cases h

theorem extends_foldl {γ : Type} {f : Txn κ β → γ → Txn κ β} {p : JobAction κ β → Prop}
    (hf : ∀ t c, ∃ as, Extends t (f t c) as ∧ ∀ a ∈ as, p a) (t : Txn κ β) (cs : List γ) :
    ∃ as, Extends t (cs.foldl f t) as ∧ ∀ a ∈ as, p a := by
  induction cs generalizing t with
  | nil => exact ⟨[], .refl t, by simp⟩
  | cons c cs ih =>
    obtain ⟨as, he, has⟩ := hf t c
    obtain ⟨bs, he', hbs⟩ := ih (f t c)
    exact ⟨_, he.trans he', List.forall_mem_append.mpr ⟨has, hbs⟩⟩

theorem extends_stageKv (t : Txn κ β) (kvWrites : List (κ × β)) (kvDeletes : List κ) :
    ∃ as, Extends t (t.stageKv kvWrites kvDeletes) as ∧ ∀ a ∈ as, a.IsWake ∧ a.Carries [] := by
  obtain ⟨as, he, has⟩ := extends_foldl (p := fun a => a.IsWake ∧ a.Carries [])
    (fun (t : Txn κ β) (w : κ × β) => ⟨_, t.extends_put (k := .user w.1) w.2 rfl trivial,
      by simp [JobAction.IsWake, JobAction.Carries]⟩) t kvWrites
  obtain ⟨bs, he', hbs⟩ := extends_foldl (p := fun a => a.IsWake ∧ a.Carries [])
    (fun (t : Txn κ β) (k : κ) => ⟨_, t.extends_delete (k := .user k) rfl,
      by simp [JobAction.IsWake, JobAction.Carries]⟩)
    (kvWrites.foldl (fun t w => t.put (.user w.1) w.2) t) kvDeletes
  exact ⟨_, he.trans he', List.forall_mem_append.mpr ⟨has, hbs⟩⟩

theorem stageEffects_parts [DecidableEq β] {effects : PreparedEffects κ β} {rs : List EnqueueResult}
    (h : t.stageEffects leases effects = .ok (t', rs)) :
    ∃ t₁ t₂ t₃ t₄, t.stageFence leases effects.claimFence = .ok t₁ ∧
      t₁.stageCompares effects.kvCompares = .ok t₂ ∧
      t₂.stageCountChanges effects.overflowChecks effects.countChanges = .ok t₃ ∧
      t₃.stageJobs effects.preparedJobs = .ok (t₄, rs) ∧
      t' = effects.expiryEntries.foldl (fun t e => t.noteExpiryEntry e.1 e.2)
        (t₄.stageKv effects.kvWrites effects.kvDeletes) := by
  obtain ⟨t₁, h₁, h⟩ := Except.bind_eq_ok.mp h
  obtain ⟨t₂, h₂, h⟩ := Except.bind_eq_ok.mp h
  obtain ⟨t₃, h₃, h⟩ := Except.bind_eq_ok.mp h
  obtain ⟨⟨t₄, rs'⟩, h₄, ⟨⟩⟩ := Except.bind_eq_ok.mp h
  exact ⟨t₁, t₂, t₃, t₄, h₁, h₂, h₃, h₄, rfl⟩

theorem extends_stageEffects [DecidableEq β] (hi : StoreInv t.view) {prepared : PreparedEffects κ β}
    (hf : FreshIds t.view prepared.preparedJobs) {rs : List EnqueueResult}
    (h : t.stageEffects leases prepared = .ok (t', rs)) :
    ∃ as, Extends t t' as ∧
      (∀ a ∈ as, a.IsEffect ∧ a.Carries (writtenJobs prepared.preparedJobs rs)) ∧
      as.filterMap (·.inserted?) = (writtenJobs prepared.preparedJobs rs).map (·.job.identity) := by
  obtain ⟨t₁, t₂, t₃, t₄, h₁, h₂, h₃, h₄, rfl⟩ := stageEffects_parts h
  have he₂ : Extends t t₂ [] := (extends_stageFence h₁).trans (extends_stageCompares h₂)
  obtain ⟨as, he₃, has⟩ := extends_stageCountChanges (he₂.inv hi) h₃
  have hf₃ : FreshIds t₃.view prepared.preparedJobs :=
    hf.extends hi (he₂.trans he₃) (inserts_of_isWake has) (by simp)
  obtain ⟨bs, he₄, hbs, -, hnoted⟩ := extends_stageJobs (he₃.inv (he₂.inv hi)) hf₃ h₄
  obtain ⟨cs, he₅, hcs⟩ := extends_stageKv t₄ prepared.kvWrites prepared.kvDeletes
  obtain ⟨ds, he₆, hds⟩ := extends_foldl (p := fun a => a.IsWake ∧ a.Carries [])
    (fun (t : Txn κ β) (e : ExpiryIndex × ℕ) =>
      ⟨[], t.extends_noteExpiryEntry e.1 e.2, by simp⟩)
    (t₄.stageKv prepared.kvWrites prepared.kvDeletes) prepared.expiryEntries
  have hwake : ∀ a : JobAction κ β, a.IsWake ∧ a.Carries [] →
      a.IsEffect ∧ a.Carries (writtenJobs prepared.preparedJobs rs) :=
    fun a ha => ⟨ha.1.isEffect, ha.2.mono (List.nil_subset _)⟩
  refine ⟨_, (((he₂.trans he₃).trans he₄).trans he₅).trans he₆, ?_, ?_⟩
  · simp only [List.nil_append, List.forall_mem_append]
    exact ⟨⟨⟨fun a ha => hwake a (has a ha), hbs⟩, fun a ha => hwake a (hcs a ha)⟩,
      fun a ha => hwake a (hds a ha)⟩
  · simp only [List.nil_append, List.filterMap_append, hnoted,
      filterMap_inserted?_of_isWake fun a ha => (has a ha).1,
      filterMap_inserted?_of_isWake fun a ha => (hcs a ha).1,
      filterMap_inserted?_of_isWake fun a ha => (hds a ha).1, List.append_nil]

/-- A cancel removes a waiting job, flags a claimed one, or stages nothing. -/
theorem stageCancel_eq_ok {id : String} {staged : StagedCancel}
    (h : t.stageCancel id = .ok (t', staged)) :
    (t' = t ∧ (staged = .notFound ∨ ∃ job, staged = .alreadyRequested job)) ∨
    ∃ key job, t.getIndexedJob id = some (key, job) ∧
      (((job.status = .pending ∨ job.status = .scheduled) ∧ staged = .removed job ∧
          t' = t.stageRemove key job) ∨
        (job.status = .claimed ∧ ∃ job', staged = .requested job' ∧
          t.moveJob key { job with cancelRequested := true } = .ok (t', job'))) := by
  unfold stageCancel at h
  split at h
  · cases h
    exact .inl ⟨rfl, .inl rfl⟩
  · rename_i key job hj
    split at h
    · rename_i hst
      cases h
      exact .inr ⟨key, job, hj, .inl ⟨.inl hst, rfl, rfl⟩⟩
    · rename_i hst
      cases h
      exact .inr ⟨key, job, hj, .inl ⟨.inr hst, rfl, rfl⟩⟩
    · rename_i hst
      split at h
      · cases h
        exact .inl ⟨rfl, .inr ⟨job, rfl⟩⟩
      · obtain ⟨⟨t₁, job'⟩, h₁, h⟩ := Except.bind_eq_ok.mp h
        cases h
        exact .inr ⟨key, job, hj, .inr ⟨hst, job', rfl, h₁⟩⟩
    · cases h
      exact .inl ⟨rfl, .inl rfl⟩
    · cases h
      exact .inl ⟨rfl, .inl rfl⟩

end Effects

end Txn

end Taquba
