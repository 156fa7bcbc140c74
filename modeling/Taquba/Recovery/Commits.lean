import Taquba.Recovery.Requeue

/-! # The jobs that a commit finishes and those that it keeps

A job that a commit inserts has a record until a call removes it. After the commit
of its acknowledgement a job has no record, or a done one, and no later commit
claims it unless one inserts it again.
-/

namespace Taquba

open Snapshot

variable {κ β : Type}

variable [DecidableEq κ]
variable {as : List (JobAction κ β)}

section Finished

def OnlyDone (id : String) (s : Store (Val κ β)) : Prop :=
  ∀ key job, s (.record key) = some job → key.id = id → key.keyStatus = .done

variable {s : Store (Val κ β)} {id : String}

/-- A done job stays done, unless it is inserted again, and is not claimed. -/
theorem onlyDone_action {a : JobAction κ β} (hi : StoreInv s) (he : a.Enabled s)
    (hd : OnlyDone id s) (hins : ∀ queue, a.insert? ≠ some (queue, id))
    (hmove : ∀ source old job key, a = .move source old job key → source.keyStatus = .done →
      job.status = .done) :
    OnlyDone id (s.applyBatch a.writes) ∧ ∀ job, a.claim? = some job → job.id ≠ id := by
  cases a with
  | insert job key =>
    refine ⟨fun k v hv hk => ?_, by rintro _ ⟨⟩⟩
    rw [JobAction.insert_record] at hv
    split_ifs at hv with hkey
    · subst hkey
      refine absurd ?_ (hins job.queue)
      rw [← hk, JobRecord.id_of_storedKey he.2.1]
      rfl
    · exact hd k v hv hk
  | move source old job key =>
    obtain ⟨hf, -, hkey, hid, -⟩ := he
    obtain ⟨stored, hst, -⟩ := Option.map_eq_some_iff.mp hf
    have hsource : source.id = old.id := JobRecord.id_of_storedKey (hi.storedKey_of_found hf)
    have hdone : job.id = id → key.keyStatus = .done := by
      intro hj
      rw [JobRecord.keyStatus_of_storedKey hkey]
      exact hmove _ _ _ _ rfl (hd source stored hst (hsource.trans (hid.symm.trans hj)))
    constructor
    · intro k v hv hk
      rw [JobAction.move_record] at hv
      split at hv
      · rename_i hkk
        subst hkk
        exact hdone ((JobRecord.id_of_storedKey hkey).symm.trans hk)
      · obtain ⟨-, hv⟩ := Option.ite_none_left_eq_some.mp hv
        exact hd k v hv hk
    · intro claimed hc hj
      cases key with
      | claimed queue i =>
        cases hc
        cases hdone hj
      | _ => cases hc
  | rewrite key old job =>
    refine ⟨fun k v hv hk => ?_, by rintro _ ⟨⟩⟩
    rw [JobAction.rewrite_record] at hv
    split_ifs at hv with hkk
    · subst hkk
      obtain ⟨stored, hst, -⟩ := Option.map_eq_some_iff.mp he.1
      exact hd k stored hst hk
    · exact hd k v hv hk
  | remove key old completed =>
    refine ⟨fun k v hv hk => ?_, by rintro _ ⟨⟩⟩
    rw [JobAction.remove_record] at hv
    obtain ⟨-, hv⟩ := Option.ite_none_left_eq_some.mp hv
    exact hd k v hv hk
  | history i entry =>
    refine ⟨fun k v hv hk => hd k v ?_ hk, by rintro _ ⟨⟩⟩
    rwa [JobAction.history_of_not_isPlain s i rfl] at hv
  | plain write =>
    refine ⟨fun k v hv hk => hd k v ?_ hk, by rintro _ ⟨⟩⟩
    rwa [JobAction.plain_of_not_isPlain s he rfl] at hv

theorem onlyDone_actions (hi : StoreInv s) (he : (jobActions κ β).AllEnabled as s)
    (hd : OnlyDone id s) (hins : ∀ queue, (queue, id) ∉ as.filterMap (·.insert?))
    (hmove : ∀ source old job key, .move source old job key ∈ as → source.keyStatus = .done →
      job.status = .done) :
    OnlyDone id (s.applyBatch ((jobActions κ β).batch as)) ∧
      ∀ job ∈ as.filterMap (·.claim?), job.id ≠ id := by
  induction as generalizing s with
  | nil => exact ⟨hd, by simp⟩
  | cons a as ih =>
    have ha : ∀ queue, a.insert? ≠ some (queue, id) := fun queue h =>
      hins queue (List.mem_filterMap.mpr ⟨a, .head _, h⟩)
    obtain ⟨hd', hc⟩ := onlyDone_action hi he.1 hd ha fun source old job key h =>
      hmove source old job key (h ▸ .head _)
    rw [Actions.batch_cons, Store.applyBatch_append]
    have hrest : ∀ queue, (queue, id) ∉ as.filterMap (·.insert?) := by
      intro queue h
      obtain ⟨b, hb, hq⟩ := List.mem_filterMap.mp h
      exact hins queue (List.mem_filterMap.mpr ⟨b, .tail _ hb, hq⟩)
    obtain ⟨hd'', hcs⟩ := ih (StoreInv.action a s hi he.1) he.2 hd' hrest
      fun source old job key h => hmove source old job key (.tail _ h)
    refine ⟨hd'', fun job hj => ?_⟩
    obtain ⟨b, hb, hq⟩ := List.mem_filterMap.mp hj
    rcases List.mem_cons.mp hb with rfl | hb
    · exact hc job hq
    · exact hcs job (List.mem_filterMap.mpr ⟨b, hb, hq⟩)

theorem jobIndex_of_insert {queue : QueueName} (he : (jobActions κ β).AllEnabled as s)
    (hr : ∀ a ∈ as, a.remove? = none) (h : (queue, id) ∈ as.filterMap (·.insert?)) :
    s.applyBatch ((jobActions κ β).batch as) (.jobIndex id) ≠ none := by
  induction as generalizing s with
  | nil => cases h
  | cons a as ih =>
    rw [Actions.batch_cons, Store.applyBatch_append]
    obtain ⟨b, hb, hi⟩ := List.mem_filterMap.mp h
    rcases List.mem_cons.mp hb with rfl | hb
    · refine StoreInv.jobIndex_ne_none_actions he.2 ?_ fun c hc => by simp [hr c (.tail _ hc)]
      cases b with
      | insert job key =>
        cases hi
        rw [show s.applyBatch ((jobActions κ β).writes (.insert job key)) (.jobIndex job.id) = _
          from JobAction.insert_jobIndex _ _ _ _, if_pos rfl]
        simp
      | _ => cases hi
    · exact ih he.2 (fun c hc => hr c (.tail _ hc)) (List.mem_filterMap.mpr ⟨b, hb, hi⟩)

theorem Txn.EndActions.onlyDone {old : JobRecord} {claimEnd : ClaimEnd}
    (ha : Txn.EndActions old claimEnd as) (hs : claimEnd.status = .done) (hi : StoreInv s)
    (hf : JobAction.Found s (.claimed old.queue old.id) old) :
    OnlyDone old.id (s.applyBatch ((jobActions κ β).batch as)) := by
  obtain ⟨stored, hst, -⟩ := Option.map_eq_some_iff.mp hf
  cases ha with
  | remove h =>
    intro k v hv hk
    rw [Actions.batch_cons, Actions.batch_nil, List.append_nil] at hv
    replace hv := (JobAction.remove_record s old (.claimed old.queue old.id) k true).symm.trans hv
    obtain ⟨hne, hv⟩ := Option.ite_none_left_eq_some.mp hv
    exact absurd (hi.unique hv hst hk) hne
  | @move entry job key hkey hid hq hd hstatus =>
    intro k v hv hk
    replace hv := (requeueActions_record k).symm.trans hv
    split at hv
    · rename_i hkk
      subst hkk
      rw [JobRecord.keyStatus_of_storedKey hkey, hstatus, hs]
    · obtain ⟨hne, hv⟩ := Option.ite_none_left_eq_some.mp hv
      exact absurd (hi.unique hv hst hk) hne

end Finished

namespace Call

variable {s : Store (Val κ β)} {call : Call κ β} {t : Txn κ β} {delivered : List JobRecord}

omit [DecidableEq κ] in
theorem Takes.ne_done {key : RecordKey} (h : call.Takes key)
    (hs : ∀ victim job, call ≠ .sweepVictim victim job) : key.keyStatus ≠ .done := by
  cases call with
  | sweepVictim victim job => exact absurd rfl (hs victim job)
  | claimBatch queue keys claimIds now =>
    obtain ⟨k, -, rfl⟩ := h
    simp [RecordKey.keyStatus]
  | claimById id claimId now => rcases h.2 with h | h <;> simp [h]
  | settle leases effectLeases queue id claimId settlement effects now =>
    rcases h with rfl | h
    · simp [RecordKey.keyStatus]
    · simp [h]
  | reap leases queue id claimId now =>
    cases h
    simp [RecordKey.keyStatus]
  | requeueInterrupted job now =>
    cases h
    simp [RecordKey.keyStatus]
  | promote runAt queue id =>
    cases h
    simp [RecordKey.keyStatus]
  | cancel leases id effects =>
    rcases h with ⟨-, h, -⟩ | h
    · exact h
    · simp [h]
  | applyCancel queue entryId appliedAt id => exact h.2.1
  | requeueDeadJob id now => simp [h.2]
  | commitRejection | sweepInboxRecords | kvCompareThen | kvPut | kvDelete => exact h.elim
  | _ =>
    rw [show key.keyStatus = .scheduled from h]
    simp

variable [DecidableEq β]

/-- A call that commits moves no done record to another state. -/
theorem attempt_moves (hi : StoreInv s) (hp : call.Pre s)
    (h : call.attempt s = some (t, delivered)) :
    ∃ as, Txn.Extends (Txn.begin s) t as ∧ as.filterMap (·.claim?) = delivered ∧
      ∀ source old job key, .move source old job key ∈ as → source.keyStatus = .done →
        job.status = .done := by
  by_cases hs : ∃ victim job, call = .sweepVictim victim job
  · obtain ⟨victim, job, rfl⟩ := hs
    obtain ⟨value, hr, rfl⟩ := committing_eq_some h
    obtain ⟨as, he, has, -⟩ :=
      Txn.trace_sweepVictim (t := Txn.begin s) hi hp.1 hp.2.1 hp.2.2 hr
    have hshape : Shape as [] none none none := .neutral fun a ha => (has a ha).1
    refine ⟨as, he, hshape.claims, ?_⟩
    intro source old new key hm hdone
    obtain ⟨-, -, _, _, hremove⟩ := has _ hm
    cases hremove
  · obtain ⟨as, he, ht⟩ := attempt_trace hi hp h
    refine ⟨as, he, ht.shape.claims, fun source old job key hm hdone => absurd hdone ?_⟩
    exact ((ht.within _ hm).takes source rfl).ne_done fun victim job hc => hs ⟨victim, job, hc⟩

end Call

section Commits

variable [DecidableEq β]

/-- The commit finishes no job that it does not insert again: it leaves a done job done
and does not claim it. -/
def History.LeavesDone (log : History κ β) (c : CallCommit κ β) : Prop :=
  ∀ id, (∀ queue, (queue, id) ∉ c.label.notes.enqueued) → OnlyDone id log.store →
    OnlyDone id (Log.store (log ++ [c])) ∧ ∀ job ∈ c.label.delivered, job.id ≠ id

/-- After the commit of an acknowledgement the job is done, unless it inserts it again. -/
def History.Completes (log : History κ β) (c : CallCommit κ β) : Prop :=
  ∀ leases effectLeases queue id claimId keep effects now,
    c.label.call = .settle leases effectLeases queue id claimId (.ack keep) effects now →
    (∀ queue, (queue, id) ∉ c.label.notes.enqueued) → OnlyDone id (Log.store (log ++ [c]))

def History.KeepsJobs (log : History κ β) (c : CallCommit κ β) : Prop :=
  ∀ id, (∃ queue, (queue, id) ∈ c.label.notes.enqueued) ∨ log.store (.jobIndex id) ≠ none ∧
      (∀ job, c.label.call.removed (Log.store (log.take c.label.snap)) = some job → job.id ≠ id) →
    Log.store (log ++ [c]) (.jobIndex id) ≠ none

variable {log : History κ β} {call : Call κ β} {snap : ℕ} {t : Txn κ β}
  {delivered : List JobRecord}

omit [DecidableEq β] in
/-- The actions of an attempt that commits run on the state it commits to. -/
theorem extends_rerun (entry : Entry κ β)
    (he : Txn.Extends (Txn.begin (Log.store (log.take snap))) t as)
    (hc : ¬ log.Conflicts snap t.tracked) :
    (jobActions κ β).AllEnabled as log.store ∧
      Log.store (log ++ [⟨entry, t.writes⟩]) =
        log.store.applyBatch ((jobActions κ β).batch as) := by
  constructor
  · exact he.enabled.rerun (fun k hk => List.mem_append_left _ ((he.writes.keys k).mpr hk)) hc
  · rw [Log.store_append_singleton, he.writes.apply]
    rfl

theorem leavesDone_of_attempt (hs : log.Sound) (hp : call.Pre (Log.store (log.take snap)))
    (h : call.attempt (Log.store (log.take snap)) = some (t, delivered))
    (hc : ¬ log.Conflicts snap t.tracked) :
    log.LeavesDone ⟨⟨call, snap, t.notes, t.stats, delivered⟩, t.writes⟩ := by
  obtain ⟨as, he, hclaims, hmove⟩ := Call.attempt_moves (hs.take snap).storeInv hp h
  obtain ⟨henabled, hstore⟩ := extends_rerun ⟨call, snap, t.notes, t.stats, delivered⟩ he hc
  intro id hins hd
  rw [hstore, ← hclaims]
  refine onlyDone_actions hs.storeInv henabled hd (fun queue hq => hins queue ?_) hmove
  simpa [he.notes.enqueued, Txn.begin] using hq

theorem completes_of_attempt (hs : log.Sound) (hp : call.Pre (Log.store (log.take snap)))
    (h : call.attempt (Log.store (log.take snap)) = some (t, delivered))
    (hc : ¬ log.Conflicts snap t.tracked) :
    log.Completes ⟨⟨call, snap, t.notes, t.stats, delivered⟩, t.writes⟩ := by
  rintro leases effectLeases queue id claimId keep effects now rfl hins
  obtain ⟨r, hr, -⟩ := Call.committing_eq_some h
  obtain ⟨old, as, bs, hf, rfl, rfl, -, -, ha, -, he, hbs⟩ :=
    Txn.settleClaim_eq_ok (t := Txn.begin (Log.store (log.take snap))) (hs.take snap).storeInv hp hr
  obtain ⟨henabled, hstore⟩ := extends_rerun
    ⟨.settle leases effectLeases old.queue old.id claimId (.ack keep) effects now, snap, t.notes,
      t.stats, delivered⟩ he hc
  obtain ⟨hea, heb⟩ := henabled.of_append
  have hfound : JobAction.Found log.store (.claimed old.queue old.id) old := by
    cases ha with
    | remove => exact hea.1
    | move => exact JobAction.found_congr (JobAction.history_of_not_isPlain _ _ rfl) hea.2.1.1
  have hi := hea.invariant StoreInv.action hs.storeInv
  rw [hstore, Actions.batch_append, Store.applyBatch_append]
  refine (onlyDone_actions hi heb (ha.onlyDone rfl hs.storeInv hfound) (fun q hq => ?_) ?_).1
  · refine hins q ?_
    simpa [he.notes.enqueued, Txn.begin] using .inr (by simpa using hq)
  · intro source _ job key hm hdone
    rw [(hbs _ hm).1.1] at hdone
    cases hdone

theorem keepsJobs_of_attempt (hs : log.Sound) (hp : call.Pre (Log.store (log.take snap)))
    (h : call.attempt (Log.store (log.take snap)) = some (t, delivered))
    (hc : ¬ log.Conflicts snap t.tracked) :
    log.KeepsJobs ⟨⟨call, snap, t.notes, t.stats, delivered⟩, t.writes⟩ := by
  obtain ⟨as, hperforms, htraces⟩ := performs_traces_of_attempt hs hp h hc
  rintro id (⟨queue, hins⟩ | ⟨hidx, hkept⟩)
  · obtain ⟨head, tail, rfl, hhead, htail⟩ := htraces.insertsLast
    rw [hperforms.enqueued, List.filterMap_append,
      List.filterMap_eq_nil_iff.mpr hhead, List.nil_append] at hins
    obtain ⟨-, het⟩ := hperforms.enabled.of_append
    rw [hperforms.store_eq, Actions.batch_append, Store.applyBatch_append]
    exact jobIndex_of_insert het htail hins
  · rw [hperforms.store_eq]
    refine StoreInv.jobIndex_ne_none_actions hperforms.enabled hidx fun a ha hr => ?_
    obtain ⟨job, hj, rfl⟩ := htraces.removed a ha _ hr
    exact hkept job hj rfl

end Commits

end Taquba
