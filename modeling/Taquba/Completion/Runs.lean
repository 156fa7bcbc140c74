import Taquba.Completion.Machine

/-! # What a completion wait returns

A wait that registers while an earlier end of the job has still to deliver can receive
its outcome, and a wait that reads while the removal of the record has still to deliver
finds neither a record nor an outcome. Without such an end in flight at the registration
and at the read, a wait whose job had a record returns the outcome of the record it
read, or of an end of the job that committed after the registration.
-/

namespace Taquba

open Snapshot Transition

variable {κ β : Type} [DecidableEq κ] [DecidableEq β]
variable {key index : ℕ} {outcome : WaitOutcome} {wait : Wait} {job : Option JobRecord}
  {call : Call κ β}

namespace Call

/-- A call that removes the record of a job ends the job, unless it is a sweep. -/
theorem ending_of_removed {s : Store (Val κ β)} {job : JobRecord} (h : call.removed s = some job) :
    (∃ outcome, call.ending s = some (job.id, outcome)) ∨ ∃ key, call = .sweepVictim key job := by
  cases call with
  | settle leases effectLeases queue id claimId settlement effects now =>
    simp only [removed] at h
    split at h
    · rename_i hr
      refine .inl ⟨.ofRecord job, ?_⟩
      rw [Option.some.inj h] at hr
      simp only [ending, hr, ClaimEnd.isTerminal, if_true]
    · cases h
  | cancel leases id effects =>
    simp only [removed] at h
    split at h
    · rename_i hr
      cases h
      exact .inl ⟨.cancelled, by simp only [ending, hr]⟩
    · cases h
  | applyCancel queue entryId appliedAt jobId =>
    simp only [removed] at h
    split at h
    · rename_i hr
      cases h
      exact .inl ⟨.cancelled, by simp only [ending, hr]⟩
    · cases h
  | sweepVictim key victim =>
    simp only [removed] at h
    split at h
    · cases h
      exact .inr ⟨key, rfl⟩
    · cases h
  | _ => cases h

end Call

theorem Performs.jobIndex_ne_none {log : History κ β} {c : CallCommit κ β}
    {as : List (JobAction κ β)} {s : Store (Val κ β)} {delivered : List JobRecord} {id : String}
    (hp : Performs log c as) (ht : call.Traces s delivered as) (h : log.store (.jobIndex id) ≠ none)
    (hid : ∀ job, call.removed s = some job → job.id ≠ id) :
    Log.store (log ++ [c]) (.jobIndex id) ≠ none := by
  rw [hp.store_eq]
  refine StoreInv.jobIndex_ne_none_actions hp.enabled h fun a ha hr => ?_
  obtain ⟨job, hjob, rfl⟩ := ht.removed a ha id hr
  exact hid job hjob rfl

namespace Completion

section Logs

variable {log : History κ β} {c : CallCommit κ β} {m n : ℕ} {id : String}
  {outcome : WaitOutcome}

def EndedAt (log : History κ β) (n : ℕ) (id : String) (outcome : WaitOutcome) : Prop :=
  ∃ c, log[n]? = some c ∧
    c.label.call.ending (Log.store ((log.take n).take c.label.snap)) = some (id, outcome)

theorem EndedAt.append (h : EndedAt log n id outcome) : EndedAt (log ++ [c]) n id outcome := by
  obtain ⟨d, hd, hend⟩ := h
  have hn : n < log.length := (List.getElem?_eq_some_iff.mp hd).1
  refine ⟨d, ?_, ?_⟩
  · rw [List.getElem?_append_left hn, hd]
  · rwa [List.take_append_of_le_length hn.le]

theorem EndedAt.lt_length (h : EndedAt log n id outcome) : n < log.length := by
  obtain ⟨c, hc, -⟩ := h
  exact (List.getElem?_eq_some_iff.mp hc).1

theorem endedAt_last (h : c.label.call.ending (Log.store (log.take c.label.snap)) =
    some (id, outcome)) : EndedAt (log ++ [c]) log.length id outcome := by
  refine ⟨c, by simp, ?_⟩
  rwa [List.take_append_of_le_length le_rfl, List.take_length]

omit [DecidableEq β] in
theorem recordAt_append (hm : m ≤ log.length) : recordAt (log ++ [c]) m id = recordAt log m id := by
  rw [recordAt, recordAt, List.take_append_of_le_length hm]

omit [DecidableEq β] in
theorem recordAt_eq_none_iff (hi : StoreInv (Log.store (log.take m))) :
    recordAt log m id = none ↔ Log.store (log.take m) (.jobIndex id) = none := by
  simp only [recordAt, Txn.getIndexedJob, Option.map_eq_none_iff]
  change Option.bind (Log.store (log.take m) (.jobIndex id)) _ = none ↔ _
  cases hk : Log.store (log.take m) (.jobIndex id) with
  | none => simp
  | some key =>
    obtain ⟨-, job, hj⟩ := hi.index_record id key hk
    have hget : (Txn.begin (Log.store (log.take m))).get (.record key) = some job := hj
    simp [hget]

end Logs

def Phase.IsOpen : Phase → Prop
  | .registered | .read _ | .pending _ => True
  | .returned _ _ | .failed => False

def Phase.record? : Phase → Option JobRecord
  | .read job | .returned job _ => job
  | .pending job => some job
  | .registered | .failed => none

/-- The outcome is that of the record that the wait read, or of an end of its job that
committed after its registration. A wait that had a record to find does not miss it. -/
def Faithful (log : History κ β) (wait : Wait) (job : Option JobRecord) (outcome : WaitOutcome) :
    Prop :=
  (recordAt log wait.since wait.id ≠ none → outcome ≠ .notFound) ∧
  (outcome = .notFound ∨
    (∃ record m, job = some record ∧ wait.since ≤ m ∧ recordAt log m wait.id = some record ∧
      (record.status = .done ∨ record.status = .dead) ∧ outcome = .ofRecord record) ∨
    ∃ n, wait.since ≤ n ∧ EndedAt log n wait.id outcome)

structure WaitInv (s : State κ β) (key : ℕ) (wait : Wait) : Prop where
  key_lt : key < s.registry.nextKey
  since_le : wait.since ≤ s.queue.log.length
  listed : wait.phase.IsOpen → wait.channel = none → (key, wait.id) ∈ s.registry.waiters
  late : (key, wait.id) ∈ s.registry.waiters → ∀ e ∈ s.endings, e.id = wait.id →
    wait.since ≤ e.index
  received : ∀ outcome, wait.channel = some outcome →
    ∃ n, wait.since ≤ n ∧ EndedAt s.queue.log n wait.id outcome
  unread : wait.phase = .registered ∨ (∃ job, wait.phase = .read (some job)) →
    recordAt s.queue.log wait.since wait.id ≠ none → wait.channel = none →
    (∃ e ∈ s.endings, e.id = wait.id) ∨ s.queue.log.store (.jobIndex wait.id) ≠ none
  missed : wait.phase = .read none → recordAt s.queue.log wait.since wait.id ≠ none →
    wait.channel ≠ none
  read : ∀ job, wait.phase.record? = some job →
    ∃ m, wait.since ≤ m ∧ m ≤ s.queue.log.length ∧ recordAt s.queue.log m wait.id = some job
  returned : ∀ job outcome, wait.phase = .returned job outcome →
    Faithful s.queue.log wait job outcome

structure Inv (s : State κ β) : Prop where
  queue : (Queue.machine κ β).Reachable s.queue
  ended : ∀ e ∈ s.endings, EndedAt s.queue.log e.index e.id e.outcome
  waiting : ∀ key id, (key, id) ∈ s.registry.waiters → ∃ wait, s.waits key = some wait ∧
    wait.id = id
  wait : ∀ key wait, s.waits key = some wait → WaitInv s key wait

/-- No end of the job has still to deliver when a wait for it registers and when the wait
reads, and no sweep removes the record of a job that has waiters. -/
def Quiet (s : State κ β) : Label κ β → Prop
  | .register id => ∀ e ∈ s.endings, e.id ≠ id
  | .read key | .payloadMissing key => ∀ wait ∈ s.waits key, ∀ e ∈ s.endings, e.id ≠ wait.id
  | .queue (.commit call _) => ∀ job ∈ call.sweeps?, s.registry.hasWaiters job.id = false
  | _ => True

section Facts

variable {s : State κ β}

omit [DecidableEq κ] [DecidableEq β] in
theorem hasWaiters_of_mem {id : String} (h : (key, id) ∈ s.registry.waiters) :
    s.registry.hasWaiters id = true := by
  rw [CompletionWaiters.hasWaiters, List.any_eq_true]
  exact ⟨_, h, by simp⟩

/-- A wait that may still have to find its record is registered. -/
theorem WaitInv.waiting (h : WaitInv s key wait)
    (hphase : wait.phase = .registered ∨ ∃ job, wait.phase = .read (some job))
    (hchan : wait.channel = none) : (key, wait.id) ∈ s.registry.waiters := by
  refine h.listed ?_ hchan
  rcases hphase with hphase | ⟨job, hphase⟩ <;> rw [hphase] <;> trivial

end Facts

section Commit

variable {s : State κ β} {q : Queue.State κ β} {c : CallCommit κ β}
  {new : List Ending}

theorem Faithful.append {log : History κ β} (hsince : wait.since ≤ log.length)
    (h : Faithful log wait job outcome) : Faithful (log ++ [c]) wait job outcome := by
  obtain ⟨hfound, hfrom⟩ := h
  refine ⟨?_, ?_⟩
  · rwa [recordAt_append hsince]
  · rcases hfrom with hnone | ⟨record, m, hjob, hm, hrec, hst, ho⟩ | ⟨n, hn, hend⟩
    · exact .inl hnone
    · by_cases hlen : m ≤ log.length
      · exact .inr (.inl ⟨record, m, hjob, hm, by rwa [recordAt_append hlen], hst, ho⟩)
      · refine .inr (.inl ⟨record, log.length, hjob, hsince, ?_, hst, ho⟩)
        rw [recordAt_append le_rfl, ← hrec, recordAt, recordAt, List.take_length,
          List.take_of_length_le (by omega)]
    · exact .inr (.inr ⟨n, hn, hend.append⟩)

/-- A commit keeps the facts of a wait when its end of the job, if any, is listed. -/
theorem WaitInv.commit (h : WaitInv s key wait) (hlog : q.log = s.queue.log ++ [c])
    (hlate : ∀ e ∈ new, s.queue.log.length ≤ e.index)
    (hindex : (key, wait.id) ∈ s.registry.waiters → s.queue.log.store (.jobIndex wait.id) ≠ none →
      (∃ e ∈ new, e.id = wait.id) ∨ q.log.store (.jobIndex wait.id) ≠ none) {s' : State κ β}
    (hs' : s' = { s with queue := q, endings := s.endings ++ new }) :
    WaitInv s' key wait := by
  subst hs'
  have hrec : recordAt q.log wait.since wait.id = recordAt s.queue.log wait.since wait.id := by
    rw [hlog, recordAt_append h.since_le]
  constructor
  · exact h.key_lt
  · simp only [hlog, List.length_append, List.length_singleton]
    exact le_trans h.since_le (Nat.le_succ _)
  · exact h.listed
  · intro hm e he hid
    rcases List.mem_append.mp he with he | he
    · exact h.late hm e he hid
    · exact le_trans h.since_le (hlate e he)
  · intro outcome ho
    obtain ⟨n, hn, hend⟩ := h.received outcome ho
    refine ⟨n, hn, ?_⟩
    simp only [hlog]
    exact hend.append
  · intro hphase hsome hchan
    simp only [hrec] at hsome
    rcases h.unread hphase hsome hchan with ⟨e, he, hid⟩ | hidx
    · exact .inl ⟨e, List.mem_append_left _ he, hid⟩
    · rcases hindex (h.waiting hphase hchan) hidx with ⟨e, he, hid⟩ | hidx
      · exact .inl ⟨e, List.mem_append_right _ he, hid⟩
      · exact .inr hidx
  · intro hphase hsome
    simp only [hrec] at hsome
    exact h.missed hphase hsome
  · intro job hjob
    obtain ⟨m, hm, hlen, hj⟩ := h.read job hjob
    refine ⟨m, hm, ?_, ?_⟩
    · simp only [hlog, List.length_append, List.length_singleton]
      omega
    · simp only [hlog, recordAt_append hlen, hj]
  · intro job outcome hret
    have := h.returned job outcome hret
    simp only [hlog]
    exact this.append h.since_le

theorem Inv.commit (hi : Inv s) (hq : (Queue.machine κ β).Reachable q)
    (hlog : q.log = s.queue.log ++ [c]) {as : List (JobAction κ β)} {snapshot : Store (Val κ β)}
    {delivered : List JobRecord} (hp : Performs s.queue.log c as)
    (ht : call.Traces snapshot delivered as)
    (hnew : ∀ e ∈ new, e.index = s.queue.log.length ∧ EndedAt q.log e.index e.id e.outcome)
    (hremoved : ∀ job, call.removed snapshot = some job → s.registry.hasWaiters job.id = true →
      ∃ e ∈ new, e.id = job.id) : Inv { s with queue := q, endings := s.endings ++ new } := by
  constructor
  · exact hq
  · intro e he
    rcases List.mem_append.mp he with he | he
    · simp only [hlog]
      exact (hi.ended e he).append
    · exact (hnew e he).2
  · exact hi.waiting
  · intro key wait hw
    refine (hi.wait key wait hw).commit hlog (fun e he => (hnew e he).1.ge) ?_ rfl
    intro hm hidx
    by_cases hrem : ∃ job, call.removed snapshot = some job ∧ job.id = wait.id
    · obtain ⟨job, hjob, hid⟩ := hrem
      obtain ⟨e, he, hide⟩ := hremoved job hjob (hid ▸ hasWaiters_of_mem hm)
      exact .inl ⟨e, he, hide.trans hid⟩
    · refine .inr ?_
      rw [hlog]
      exact hp.jobIndex_ne_none ht hidx fun job hjob hid => hrem ⟨job, hjob, hid⟩

end Commit

section Steps

variable {s s' : State κ β}

theorem inv_queue (hi : Inv s) {label : Queue.Label κ β} (hquiet : Quiet s (.queue label))
    (h : step s (.queue label) = some s') : Inv s' := by
  cases label with
  | commit call snap =>
    obtain ⟨q, hq, rfl⟩ := Option.map_eq_some_iff.mp h
    obtain ⟨-, hreach, c, as, hlog, hcall, hsnap, hp, ht⟩ := Queue.commit_traces hi.queue hq
    have hremoved : ∀ job, call.removed (Log.store (s.queue.log.take snap)) = some job →
        s.registry.hasWaiters job.id = true →
        ∃ outcome, call.ending (Log.store (s.queue.log.take snap)) = some (job.id, outcome) := by
      intro job hjob hw
      rcases Call.ending_of_removed hjob with hend | ⟨key, rfl⟩
      · exact hend
      · exact absurd ((hquiet job rfl).symm.trans hw) (by simp)
    cases hend : call.ending (Log.store (s.queue.log.take snap)) with
    | none =>
      have hnone : Inv { s with queue := q, endings := s.endings ++ [] } := by
        refine hi.commit hreach hlog hp ht (by simp) fun job hjob hw => ?_
        obtain ⟨outcome, ho⟩ := hremoved job hjob hw
        rw [hend] at ho
        cases ho
      simpa using hnone
    | some ended =>
      obtain ⟨id, outcome⟩ := ended
      refine hi.commit hreach hlog hp ht ?_ fun job hjob hw => ?_
      · simp only [List.mem_singleton, forall_eq, true_and]
        rw [hlog]
        refine endedAt_last ?_
        rw [hcall, hsnap, hend]
      · obtain ⟨outcome', ho⟩ := hremoved job hjob hw
        rw [hend] at ho
        cases ho
        exact ⟨_, List.mem_singleton.mpr rfl, rfl⟩
  | requeue now =>
    obtain ⟨q, hq, rfl⟩ := Option.map_eq_some_iff.mp h
    obtain ⟨hreach, job, snap, c, as, hlog, -, hp, ht⟩ := Queue.requeue_traces hi.queue hq
    have hnone : Inv { s with queue := q, endings := s.endings ++ [] } := by
      apply hi.commit hreach hlog hp ht (by simp)
      rintro job ⟨⟩
    simpa using hnone
  | reopen kept todo =>
    simp only [step, Option.ite_none_right_eq_some, Option.map_eq_some_iff] at h
    obtain ⟨-, q, hq, rfl⟩ := h
    exact ⟨hi.queue.next (a := .reopen kept todo) hq, by simp, by simp, by simp⟩

omit [DecidableEq κ] [DecidableEq β] in
theorem ending?_eq_some {e : Ending} (h : s.ending? index = some e) :
    e ∈ s.endings ∧ e.index = index := by
  obtain ⟨hfind, -⟩ := Option.filter_eq_some_iff.mp h
  exact ⟨List.mem_of_find?_eq_some hfind, by simpa using List.find?_some hfind⟩

theorem EndedAt.eq {log : History κ β} {n : ℕ} {id id' : String} {outcome' : WaitOutcome}
    (h : EndedAt log n id outcome) (h' : EndedAt log n id' outcome') : id = id' := by
  obtain ⟨c, hc, hend⟩ := h
  obtain ⟨c', hc', hend'⟩ := h'
  rw [hc] at hc'
  cases hc'
  rw [hend] at hend'
  cases hend'
  rfl

/-- A change of the listed ends, after which those of a job that a wait without a
delivery is registered for are still listed. -/
theorem Inv.endings (hi : Inv s) {endings : List Ending}
    (hsub : ∀ e ∈ endings, ∃ e' ∈ s.endings, e'.index = e.index ∧ e'.id = e.id ∧
      e'.outcome = e.outcome)
    (hkept : ∀ e ∈ s.endings, s.registry.hasWaiters e.id = true →
      ∃ e' ∈ endings, e'.id = e.id) :
    Inv { s with endings } := by
  constructor
  · exact hi.queue
  · intro e he
    obtain ⟨e', he', hindex, hid, ho⟩ := hsub e he
    have := hi.ended e' he'
    rwa [hindex, hid, ho] at this
  · exact hi.waiting
  · intro key wait hw
    have hinv := hi.wait key wait hw
    refine { hinv with late := ?_, unread := ?_ }
    · intro hm e he hid
      obtain ⟨e', he', hindex, hid', -⟩ := hsub e he
      exact hindex ▸ hinv.late hm e' he' (hid'.trans hid)
    · intro hphase hsome hchan
      rcases hinv.unread hphase hsome hchan with ⟨e, he, hid⟩ | hidx
      · have hwaiters := hasWaiters_of_mem (hinv.waiting hphase hchan)
        obtain ⟨e', he', hid'⟩ := hkept e he (hid ▸ hwaiters)
        exact .inl ⟨e', he', hid'.trans hid⟩
      · exact .inr hidx

theorem inv_check (hi : Inv s) (h : step s (.check index) = some s') : Inv s' := by
  obtain ⟨e, he, h⟩ := Option.bind_eq_some_iff.mp h
  obtain ⟨hmem, rfl⟩ := ending?_eq_some he
  have hsame : ∀ e' ∈ s.endings, e'.index = e.index → e'.id = e.id := by
    intro e' he' hindex
    exact EndedAt.eq (hindex ▸ hi.ended e' he') (hi.ended e hmem)
  split_ifs at h with _ hnone
  · cases h
    apply hi.endings
    · intro e' he'
      rcases List.mem_append.mp he' with he' | he'
      · exact ⟨e', List.mem_of_mem_filter he', rfl, rfl, rfl⟩
      · rw [List.mem_singleton.mp he']
        exact ⟨e, hmem, rfl, rfl, rfl⟩
    · intro e' he' _
      by_cases hindex : e'.index = e.index
      · exact ⟨_, List.mem_append_right _ (List.mem_singleton.mpr rfl), (hsame e' he' hindex).symm⟩
      · refine ⟨e', List.mem_append_left _ (List.mem_filter.mpr ⟨he', ?_⟩), rfl⟩
        simpa using hindex
  · cases h
    apply hi.endings
    · exact fun e' he' => ⟨e', List.mem_of_mem_filter he', rfl, rfl, rfl⟩
    · intro e' he' hw
      by_cases hindex : e'.index = e.index
      · rw [hsame e' he' hindex] at hw
        exact absurd hw hnone
      · exact ⟨e', List.mem_filter.mpr ⟨he', by simpa using hindex⟩, rfl⟩

theorem inv_settle (hi : Inv s) (h : step s (.settle index) = some s') : Inv s' := by
  obtain ⟨e, he, h⟩ := Option.bind_eq_some_iff.mp h
  obtain ⟨hmem, rfl⟩ := ending?_eq_some he
  obtain ⟨-, ⟨⟩⟩ := Option.ite_none_right_eq_some.mp h
  have hold : ∀ {key wait'}, (s.deliver e.id e.outcome).waits key = some wait' →
      ∃ wait, s.waits key = some wait ∧
        ((key, e.id) ∈ s.registry.waiters ∧ wait' = { wait with channel := some e.outcome } ∨
          (key, e.id) ∉ s.registry.waiters ∧ wait = wait') := by
    intro key wait' hw
    simp only [State.deliver] at hw
    split at hw
    · obtain ⟨wait, hwait, rfl⟩ := Option.map_eq_some_iff.mp hw
      exact ⟨wait, hwait, .inl ⟨‹_›, rfl⟩⟩
    · exact ⟨wait', hw, .inr ⟨‹_›, rfl⟩⟩
  constructor
  · exact hi.queue
  · exact fun e' he' => hi.ended e' (List.mem_of_mem_filter he')
  · intro key id hm
    obtain ⟨hm, hne⟩ := List.mem_filter.mp hm
    obtain ⟨wait, hw, hid⟩ := hi.waiting key id hm
    by_cases hin : (key, e.id) ∈ s.registry.waiters
    · refine ⟨{ wait with channel := some e.outcome }, ?_, hid⟩
      simp [State.dropEnding, State.deliver, hin, hw]
    · refine ⟨wait, ?_, hid⟩
      simp [State.dropEnding, State.deliver, hin, hw]
  · intro key wait' hw'
    obtain ⟨wait, hw, hcase⟩ := hold hw'
    have hinv := hi.wait key wait hw
    have hlate : (key, wait.id) ∈ (s.registry.settle e.id).waiters →
        ∀ e' ∈ s.endings.filter (·.index ≠ e.index), e'.id = wait.id → wait.since ≤ e'.index :=
      fun hm e' he' => hinv.late (List.mem_of_mem_filter hm) e' (List.mem_of_mem_filter he')
    rcases hcase with ⟨hin, rfl⟩ | ⟨hin, rfl⟩
    · obtain ⟨wait₀, hw₀, hid⟩ := hi.waiting key e.id hin
      rw [hw] at hw₀
      cases hw₀
      refine ⟨hinv.key_lt, hinv.since_le, by simp, hlate, ?_, by simp, by simp, hinv.read,
        hinv.returned⟩
      rintro outcome ⟨⟩
      exact ⟨e.index, hinv.late (hid ▸ hin) e hmem hid.symm, hid ▸ hi.ended e hmem⟩
    · have hne : (key, wait.id) ∈ s.registry.waiters → wait.id ≠ e.id := fun hm hid =>
        hin (hid ▸ hm)
      refine { hinv with
        listed := fun hopen hchan => ?_
        late := hlate
        unread := fun hphase hsome hchan => ?_ }
      · have hm := hinv.listed hopen hchan
        exact List.mem_filter.mpr ⟨hm, by simpa using hne hm⟩
      · rcases hinv.unread hphase hsome hchan with ⟨e', he', hid⟩ | hidx
        · refine .inl ⟨e', List.mem_filter.mpr ⟨he', ?_⟩, hid⟩
          by_contra hindex
          simp only [decide_not, Bool.not_eq_eq_eq_not, Bool.not_true, decide_eq_false_iff_not,
            not_not] at hindex
          have := EndedAt.eq (hindex ▸ hi.ended e' he') (hi.ended e hmem)
          exact hne (hinv.waiting hphase hchan) (hid.symm.trans this)
        · exact .inr hidx

omit [DecidableEq κ] [DecidableEq β] in
theorem setWait_eq_some {k : ℕ} {w : Option Wait} (h : (s.setWait key w).waits k = some wait) :
    (k = key ∧ w = some wait) ∨ (k ≠ key ∧ s.waits k = some wait) := by
  simp only [State.setWait, Function.update_apply] at h
  split at h
  · exact .inl ⟨‹_›, h⟩
  · exact .inr ⟨‹_›, h⟩

theorem Inv.setWait (hi : Inv s) {wait' : Wait} (hw : s.waits key = some wait)
    (hid : wait'.id = wait.id) (h : WaitInv s key wait') : Inv (s.setWait key (some wait')) := by
  constructor
  · exact hi.queue
  · exact hi.ended
  · intro k id hm
    obtain ⟨w, hwk, rfl⟩ := hi.waiting k id hm
    by_cases hk : k = key
    · subst hk
      rw [hw] at hwk
      cases hwk
      exact ⟨wait', by simp [State.setWait], hid⟩
    · exact ⟨w, by simp [State.setWait, hk, hwk], rfl⟩
  · intro k w hwk
    rcases setWait_eq_some hwk with ⟨rfl, heq⟩ | ⟨-, hwk⟩
    · cases heq
      exact { h with }
    · have hinv := hi.wait k w hwk
      exact { hinv with }

theorem Inv.withdraw (hi : Inv s)
    (hclosed : ∀ wait, s.waits key = some wait → ¬ wait.phase.IsOpen) :
    Inv { s with registry := s.registry.withdraw key } := by
  constructor
  · exact hi.queue
  · exact hi.ended
  · exact fun k id hm => hi.waiting k id (List.mem_of_mem_filter hm)
  · intro k w hwk
    have hinv := hi.wait k w hwk
    refine { hinv with
      listed := fun hopen hchan => ?_
      late := fun hm => hinv.late (List.mem_of_mem_filter hm) }
    refine List.mem_filter.mpr ⟨hinv.listed hopen hchan, ?_⟩
    simp only [ne_eq, decide_not, Bool.not_eq_eq_eq_not, Bool.not_true, decide_eq_false_iff_not]
    rintro rfl
    exact hclosed w hwk hopen

theorem Inv.endWait (hi : Inv s) {wait' : Wait} (hw : s.waits key = some wait)
    (hid : wait'.id = wait.id) (hclosed : ¬ wait'.phase.IsOpen) (h : WaitInv s key wait') :
    Inv (s.endWait key wait') := by
  refine (hi.setWait hw hid h).withdraw fun w hwk => ?_
  rcases setWait_eq_some hwk with ⟨-, heq⟩ | ⟨hne, -⟩
  · cases heq
    exact hclosed
  · exact absurd rfl hne

theorem inv_register (hi : Inv s) {id : String} (hquiet : Quiet s (.register id))
    (h : step s (.register id) = some s') : Inv s' := by
  obtain ⟨-, ⟨⟩⟩ := Option.ite_none_right_eq_some.mp h
  have hnone : ∀ wait, s.waits s.registry.nextKey = some wait → False :=
    fun wait hw => lt_irrefl _ (hi.wait _ wait hw).key_lt
  constructor
  · exact hi.queue
  · exact hi.ended
  · intro k i hm
    rcases List.mem_append.mp hm with hm | hm
    · obtain ⟨w, hwk, hid⟩ := hi.waiting k i hm
      have hk : k ≠ s.registry.nextKey := by
        rintro rfl
        exact hnone w hwk
      exact ⟨w, by simp [State.setWait, hk, hwk], hid⟩
    · obtain ⟨rfl, rfl⟩ := Prod.mk.inj (List.mem_singleton.mp hm)
      exact ⟨⟨i, s.queue.log.length, none, .registered⟩, by simp [State.setWait], rfl⟩
  · intro k w hwk
    rcases setWait_eq_some hwk with ⟨rfl, heq⟩ | ⟨hne, hwk⟩
    · cases heq
      refine ⟨Nat.lt_succ_self _, le_rfl, fun _ _ => List.mem_append_right _ (.head _),
        fun _ e he hid => absurd hid (hquiet e he), by simp, fun _ hsome _ => .inr ?_, by simp,
        by simp [Phase.record?], by simp⟩
      have hstore := ((Queue.inv_reachable hi.queue).sound.take s.queue.log.length).storeInv
      have := mt (recordAt_eq_none_iff hstore).mpr hsome
      rwa [List.take_length] at this
    · have hinv := hi.wait k w hwk
      refine { hinv with
        key_lt := Nat.lt_succ_of_lt hinv.key_lt
        listed := fun hopen hchan => List.mem_append_left _ (hinv.listed hopen hchan)
        late := fun hm => ?_ }
      rcases List.mem_append.mp hm with hm | hm
      · exact hinv.late hm
      · exact absurd (Prod.mk.inj (List.mem_singleton.mp hm)).1 hne

/-- A wait that found no record at this time received an outcome, when it had a record
to find. -/
theorem WaitInv.channel_ne_none (h : WaitInv s key wait)
    (hphase : wait.phase = .registered ∨ ∃ job, wait.phase = .read (some job))
    (hquiet : ∀ e ∈ s.endings, e.id ≠ wait.id)
    (hnone : s.queue.log.store (.jobIndex wait.id) = none)
    (hsome : recordAt s.queue.log wait.since wait.id ≠ none) : wait.channel ≠ none := by
  intro hchan
  rcases h.unread hphase hsome hchan with ⟨e, he, hid⟩ | hidx
  · exact hquiet e he hid
  · exact hidx hnone

theorem inv_read (hi : Inv s) (hquiet : Quiet s (.read key)) (h : step s (.read key) = some s') :
    Inv s' := by
  obtain ⟨wait, hw, h⟩ := Option.bind_eq_some_iff.mp h
  obtain ⟨hphase, ⟨⟩⟩ := Option.ite_none_right_eq_some.mp h
  have hinv := hi.wait key wait hw
  have hlen : s.queue.log.take s.queue.log.length = s.queue.log := List.take_length
  have hstore := ((Queue.inv_reachable hi.queue).sound.take s.queue.log.length).storeInv
  refine hi.setWait hw rfl ⟨hinv.key_lt, hinv.since_le, fun _ hchan => ?_, hinv.late,
    hinv.received, fun _ => hinv.unread (.inl hphase), fun hread hsome => ?_, fun job hjob => ?_,
    by simp⟩
  · exact hinv.listed (hphase ▸ trivial) hchan
  · refine hinv.channel_ne_none (.inl hphase) (hquiet wait hw) ?_ hsome
    have := (recordAt_eq_none_iff hstore).mp (Phase.read.inj hread)
    rwa [hlen] at this
  · exact ⟨s.queue.log.length, hinv.since_le, le_rfl, hjob⟩

theorem inv_payloadMissing (hi : Inv s) (hquiet : Quiet s (.payloadMissing key))
    (h : step s (.payloadMissing key) = some s') : Inv s' := by
  obtain ⟨wait, hw, h⟩ := Option.bind_eq_some_iff.mp h
  have hinv := hi.wait key wait hw
  split at h
  · rename_i job hphase
    split_ifs at h with _ hnone
    · cases h
      refine hi.setWait hw rfl ⟨hinv.key_lt, hinv.since_le, fun _ hchan => ?_, hinv.late,
        hinv.received, by simp, fun _ => ?_, by simp [Phase.record?], by simp⟩
      · exact hinv.listed (hphase ▸ trivial) hchan
      · exact hinv.channel_ne_none (.inr ⟨job, hphase⟩) (hquiet wait hw) hnone
    · cases h
      exact hi.endWait hw rfl (by simp [Phase.IsOpen]) ⟨hinv.key_lt, hinv.since_le,
        by simp [Phase.IsOpen], hinv.late, hinv.received, by simp, by simp,
        by simp [Phase.record?], by simp⟩
  · cases h

omit [DecidableEq β] in
theorem ofRecord_ne_notFound (job : JobRecord) : WaitOutcome.ofRecord job ≠ .notFound := by
  unfold WaitOutcome.ofRecord
  split <;> simp

theorem EndedAt.ne_notFound {log : History κ β} {n : ℕ} {id : String}
    (h : EndedAt log n id outcome) :
    outcome ≠ .notFound := by
  obtain ⟨c, -, hend⟩ := h
  unfold Call.ending at hend
  split at hend
  · split at hend
    · split at hend
      · cases hend
        exact ofRecord_ne_notFound _
      · cases hend
    · cases hend
  · split at hend
    · split at hend
      · cases hend
        exact ofRecord_ne_notFound _
      · cases hend
    · cases hend
  · split at hend <;> cases hend
    simp
  · split at hend <;> cases hend
    simp
  · cases hend

theorem Inv.returns (hi : Inv s) (hw : s.waits key = some wait)
    (hjob : ∀ record, job = some record → wait.phase.record? = some record)
    (hf : Faithful s.queue.log wait job outcome) :
    Inv (s.endWait key { wait with phase := .returned job outcome }) := by
  have hinv := hi.wait key wait hw
  refine hi.endWait hw rfl (by simp [Phase.IsOpen]) ⟨hinv.key_lt, hinv.since_le,
    by simp [Phase.IsOpen], hinv.late, hinv.received, by simp, by simp, ?_, ?_⟩
  · exact fun record hr => hinv.read record (hjob record hr)
  · rintro job' outcome' ⟨⟩
    exact hf

theorem inv_decide (hi : Inv s) (h : step s (.decide key) = some s') : Inv s' := by
  obtain ⟨wait, hw, h⟩ := Option.bind_eq_some_iff.mp h
  have hinv := hi.wait key wait hw
  split at h
  · rename_i job hphase
    have hrecord : wait.phase.record? = some job := by rw [hphase]; rfl
    split_ifs at h with hst
    · cases h
      refine hi.returns hw (by rintro record ⟨⟩; exact hrecord)
        ⟨fun _ => ofRecord_ne_notFound job, ?_⟩
      obtain ⟨m, hm, -, hj⟩ := hinv.read job hrecord
      exact .inr (.inl ⟨job, m, rfl, hm, hj, hst, rfl⟩)
    · cases h
      refine hi.setWait hw rfl ⟨hinv.key_lt, hinv.since_le, fun _ hchan => ?_, hinv.late,
        hinv.received, by simp, by simp, ?_, by simp⟩
      · exact hinv.listed (hphase ▸ trivial) hchan
      · rintro job' ⟨⟩
        exact hinv.read job hrecord
  · rename_i hphase
    cases h
    refine hi.returns hw (by simp) ?_
    cases hchan : wait.channel with
    | none => exact ⟨fun hsome => absurd hchan (hinv.missed hphase hsome), .inl rfl⟩
    | some outcome =>
      obtain ⟨n, hn, hend⟩ := hinv.received outcome hchan
      exact ⟨fun _ => hend.ne_notFound, .inr (.inr ⟨n, hn, hend⟩)⟩
  · cases h

theorem inv_receive (hi : Inv s) (h : step s (.receive key) = some s') : Inv s' := by
  obtain ⟨wait, hw, h⟩ := Option.bind_eq_some_iff.mp h
  have hinv := hi.wait key wait hw
  split at h
  · rename_i job outcome hphase hchan
    cases h
    obtain ⟨n, hn, hend⟩ := hinv.received outcome hchan
    refine hi.returns hw ?_ ⟨fun _ => hend.ne_notFound, .inr (.inr ⟨n, hn, hend⟩)⟩
    rintro record ⟨⟩
    rw [hphase]
    rfl
  · cases h

theorem inv_abandon (hi : Inv s) (key : ℕ) :
    Inv { s.setWait key none with registry := s.registry.withdraw key } := by
  constructor
  · exact hi.queue
  · exact hi.ended
  · intro k id hm
    obtain ⟨hm, hne⟩ := List.mem_filter.mp hm
    obtain ⟨w, hwk, hid⟩ := hi.waiting k id hm
    exact ⟨w, by simpa [State.setWait, show k ≠ key by simpa using hne] using hwk, hid⟩
  · intro k w hwk
    rcases setWait_eq_some hwk with ⟨-, heq⟩ | ⟨hne, hwk⟩
    · cases heq
    · have hinv := hi.wait k w hwk
      refine { hinv with
        listed := fun hopen hchan => ?_
        late := fun hm => hinv.late (List.mem_of_mem_filter hm) }
      exact List.mem_filter.mpr ⟨hinv.listed hopen hchan, by simpa using hne⟩

theorem inv_step {l : Label κ β} (hi : Inv s) (hquiet : Quiet s l) (h : step s l = some s') :
    Inv s' := by
  cases l with
  | queue label => exact inv_queue hi hquiet h
  | durable count =>
    simp only [step, Option.ite_none_right_eq_some] at h
    obtain ⟨-, ⟨⟩⟩ := h
    refine { hi with wait := fun key wait hw => ?_ }
    have hinv := hi.wait key wait hw
    exact { hinv with }
  | check index => exact inv_check hi h
  | settle index => exact inv_settle hi h
  | register id => exact inv_register hi hquiet h
  | read key => exact inv_read hi hquiet h
  | payloadMissing key => exact inv_payloadMissing hi hquiet h
  | decide key => exact inv_decide hi h
  | receive key => exact inv_receive hi h
  | abandon key =>
    cases h
    exact inv_abandon hi key

theorem inv_reachable (h : (machine κ β).ReachableVia Quiet s) : Inv s := by
  refine h.invariant ?_ fun s l s' hi hquiet hstep => inv_step hi hquiet hstep
  rintro _ rfl
  exact ⟨.initial rfl, by simp, by simp, by simp⟩

/-- In every run in which waits register and read only while no end of their job has
still to deliver, and no sweep removes the record of a job that has waiters, every wait
that returned is faithful. -/
theorem wait_faithful_of_quiet (h : (machine κ β).ReachableVia Quiet s) {key : ℕ} {wait : Wait}
    {job : Option JobRecord} {outcome : WaitOutcome} (hw : s.waits key = some wait)
    (hreturned : wait.phase = .returned job outcome) :
    Faithful s.queue.log wait job outcome :=
  ((inv_reachable h).wait key wait hw).returned job outcome hreturned

end Steps

section Runs

def claimJob : List (Label ℕ ℕ) :=
  [.queue (.commit (.enqueue (fun _ _ => none) Queue.welcome {}) 0),
    .queue (.commit (.claimBatch Queue.emails [⟨0, 5, "a"⟩] [1] 7) 1)]

def settleJob (settlement : Settlement) : Label ℕ ℕ :=
  .queue (.commit (.settle (fun _ _ => some (0, 1)) (fun _ _ => none) Queue.emails "a" 1
    settlement {} 9) 2)

/-- The wait reads after the record was removed and before the outcome is delivered. -/
def readBeforeDelivery : List (Label ℕ ℕ) :=
  claimJob ++ [.register "a", settleJob (.ack false), .read 0, .decide 0]

/-- The wait registers after the job was revived and receives the outcome of its death. -/
def registerBeforeDelivery : List (Label ℕ ℕ) :=
  claimJob ++ [settleJob (.deadLetter "bad"), .queue (.commit (.requeueDeadJob "a" 10) 3),
    .register "a", .durable 4, .check 2, .read 0, .decide 0, .settle 2, .receive 0]

def Phase.returned? : Phase → Option (Option JobRecord × WaitOutcome)
  | .returned job outcome => some (job, outcome)
  | .registered | .read _ | .pending _ | .failed => none

def isDead : WaitOutcome → Bool
  | .dead _ => true
  | .done _ | .cancelled | .notFound => false

theorem Phase.eq_returned {phase : Phase} (h : phase.returned? = some (job, outcome)) :
    phase = .returned job outcome := by
  cases phase with
  | returned => cases h; rfl
  | _ => cases h

/-- A wait with a record returns that there is none, and another the outcome of an end
that committed before it registered. -/
theorem wait_unfaithful :
    (∃ s wait, (machine ℕ ℕ).run {} readBeforeDelivery = some s ∧ s.waits 0 = some wait ∧
      recordAt s.queue.log wait.since wait.id ≠ none ∧ wait.phase = .returned none .notFound) ∧
    ∃ s wait job outcome, (machine ℕ ℕ).run {} registerBeforeDelivery = some s ∧
      s.waits 0 = some wait ∧ wait.phase = .returned job outcome ∧
      ¬ Faithful s.queue.log wait job outcome := by
  constructor
  · have hrun : ∃ s, (machine ℕ ℕ).run {} readBeforeDelivery = some s ∧
        (s.waits 0).any (fun wait => recordAt s.queue.log wait.since wait.id ≠ none ∧
          wait.phase = .returned none .notFound) = true :=
      Machine.exists_of_run_any (by decide +kernel)
    obtain ⟨s, hs, hwait⟩ := hrun
    obtain ⟨wait, hw, hwait⟩ := (Option.any_eq_true _ _).mp hwait
    exact ⟨s, wait, hs, hw, of_decide_eq_true hwait⟩
  · have hrun : ∃ s, (machine ℕ ℕ).run {} registerBeforeDelivery = some s ∧
        (s.waits 0).any (fun wait => wait.since = s.queue.log.length &&
          wait.phase.returned?.any fun returned => isDead returned.2 &&
            returned.1.any fun job => job.status = .pending) = true :=
      Machine.exists_of_run_any (by decide +kernel)
    obtain ⟨s, hs, hwait⟩ := hrun
    obtain ⟨wait, hw, hwait⟩ := (Option.any_eq_true _ _).mp hwait
    obtain ⟨hsince, hphase⟩ := Bool.and_eq_true_iff.mp hwait
    replace hsince := of_decide_eq_true hsince
    obtain ⟨⟨stored, outcome⟩, hreturned, hphase⟩ := (Option.any_eq_true _ _).mp hphase
    obtain ⟨hdead, hpending⟩ := Bool.and_eq_true_iff.mp hphase
    obtain ⟨job, rfl, hstatus⟩ := (Option.any_eq_true _ _).mp hpending
    replace hstatus := of_decide_eq_true hstatus
    cases outcome with
    | dead dead =>
      refine ⟨s, wait, some job, .dead dead, hs, hw, Phase.eq_returned hreturned, ?_⟩
      rintro ⟨-, hnone | ⟨record, m, hjob, -, -, hst, -⟩ | ⟨n, hn, hend⟩⟩
      · cases hnone
      · cases hjob
        rw [hstatus] at hst
        rcases hst with hst | hst <;> cases hst
      · have := hend.lt_length
        omega
    | done | cancelled | notFound => cases hdead

/-- The job is kept after its ack, and its outcome is delivered before the wait reads. -/
def readAfterDelivery : List (Label ℕ ℕ) :=
  claimJob ++ [.register "a", settleJob (.ack false), .durable 3, .check 2, .settle 2, .read 0,
    .decide 0]

instance (s : State ℕ ℕ) : ∀ l, Decidable (Quiet s l)
  | .register _ => inferInstanceAs (Decidable (∀ e ∈ s.endings, _))
  | .read key | .payloadMissing key =>
    inferInstanceAs (Decidable (∀ wait ∈ s.waits key, ∀ e ∈ s.endings, _))
  | .queue (.commit call _) => inferInstanceAs (Decidable (∀ job ∈ call.sweeps?, _))
  | .durable _ | .check _ | .settle _ | .decide _ | .receive _ | .abandon _
  | .queue (.requeue _) | .queue (.reopen _ _) => isTrue trivial

theorem wait_faithful_of_quiet_ack :
    ∃ s wait outcome, (machine ℕ ℕ).run {} readAfterDelivery = some s ∧ s.waits 0 = some wait ∧
      wait.phase = .returned none outcome ∧ Faithful s.queue.log wait none outcome ∧
      outcome ≠ .notFound := by
  obtain ⟨s, hs, hwait⟩ : ∃ s, (machine ℕ ℕ).runVia Quiet {} readAfterDelivery = some s ∧
      (s.waits 0).any (fun wait => wait.phase.returned?.any fun returned =>
        returned.1 = none && returned.2 ≠ .notFound) = true :=
    Machine.exists_of_runVia_any (by decide +kernel)
  obtain ⟨wait, hw, hphase⟩ := (Option.any_eq_true _ _).mp hwait
  obtain ⟨⟨stored, outcome⟩, hreturned, hphase⟩ := (Option.any_eq_true _ _).mp hphase
  obtain ⟨hnone, hfound⟩ := Bool.and_eq_true_iff.mp hphase
  obtain rfl : stored = none := of_decide_eq_true hnone
  have hphase := Phase.eq_returned hreturned
  have hreach : (machine ℕ ℕ).ReachableVia Quiet s :=
    Machine.ReachableVia.runVia (.init rfl) hs
  exact ⟨s, wait, outcome, Machine.run_of_runVia hs, hw, hphase,
    wait_faithful_of_quiet hreach hw hphase, of_decide_eq_true hfound⟩

end Runs

end Completion

end Taquba
