import Taquba.Queue.Machine

/-! # The recovery of interrupted claims

An open finds the claimed records that the commits before it left and requeues
them one by one. A crash in between keeps some of the requeues, and the next open
finds the records that are left. Against the store at the first open, each of them
has then moved to pending or to the dead letters with one entry in its history,
and every other record is as it was.
-/

namespace Taquba

open Snapshot

variable {κ β : Type}

/-- What the recovery makes of an interrupted claim: the record of the job and the entry
of its history. -/
structure Recovers (old job : JobRecord) (entry : JobAttempt) : Prop where
  same : JobRecord.Same old job
  attempts : job.attempts = old.attempts
  status : job.status = if old.maxAttempts ≤ old.attempts then .dead else .pending
  attempt : entry.attempt = old.attempts
  outcome : entry.outcome =
    if old.maxAttempts ≤ old.attempts then .deadLettered else .interrupted

theorem Recovers.status_ne_claimed {old job : JobRecord} {entry : JobAttempt}
    (h : Recovers old job entry) : job.status ≠ .claimed := by
  rw [h.status]
  split <;> simp

namespace Txn

variable {t t' : Txn κ β} {job : JobRecord} {now : ℕ}

theorem leaveWaits_attempts (job : JobRecord) : (leaveWaits job).attempts = job.attempts := by
  unfold leaveWaits
  split <;> rfl

theorem requeueInterrupted_eq_ok {r : Unit}
    (h : t.requeueInterrupted job now = .ok (t', .commit r)) :
    ∃ job' entry key, Recovers job job' entry ∧ job'.storedKey = some key ∧
      t'.writes = t.writes ++ (jobActions κ β).batch
        [.history job.id entry, .move (.claimed job.queue job.id) job job' key] := by
  obtain ⟨⟨t₁, job'⟩, h₁, h⟩ := Except.bind_eq_ok.mp h
  cases h
  unfold unsettledClaimEnd at h₁
  split_ifs at h₁ with hlast <;> simp only [JobRecord.isLastAttempt, decide_eq_true_eq] at hlast <;>
    simp only [stageClaimEnd, stageDeadLetter, stageToPending] at h₁
  all_goals
    obtain ⟨rfl, key, hkey, -, hw, -⟩ := appendAttempt_moveJob_eq_ok h₁ rfl (by simp)
    refine ⟨_, _, key, ⟨?_, ?_, ?_, rfl, ?_⟩, hkey, hw⟩
    · refine JobRecord.Same.trans ?_ (same_leaveWaits _)
      exact ⟨rfl, rfl, rfl, rfl, rfl, rfl, rfl, rfl⟩
    · exact leaveWaits_attempts _
    · simp [hlast]
    · simp [hlast]

end Txn

section Store

variable [DecidableEq κ] {s : Store (Val κ β)} {job job' : JobRecord} {entry : JobAttempt}
  {key : RecordKey}

def requeueActions (job job' : JobRecord) (entry : JobAttempt) (key : RecordKey) :
    List (JobAction κ β) :=
  [.history job.id entry, .move (.claimed job.queue job.id) job job' key]

theorem requeueActions_record (k : RecordKey) :
    s.applyBatch ((jobActions κ β).batch (requeueActions job job' entry key)) (.record k) =
      if k = key then some job'.stored
      else if k = .claimed job.queue job.id then none else s (.record k) := by
  have hhistory : s.applyBatch ((jobActions κ β).writes (.history job.id entry)) (.record k) =
      s (.record k) := JobAction.history_of_not_isPlain s job.id rfl
  rw [requeueActions, Actions.batch_cons, Store.applyBatch_append, Actions.batch_cons,
    Actions.batch_nil, List.append_nil, ← hhistory]
  exact JobAction.move_record _ _ _ _ _ _

theorem requeueActions_attemptHistory (id : String) :
    s.applyBatch ((jobActions κ β).batch (requeueActions job job' entry key))
        (.attemptHistory id) =
      if id = job.id then some ((s (.attemptHistory id)).getD [] ++ [entry])
      else s (.attemptHistory id) := by
  rw [requeueActions, Actions.batch_cons, Store.applyBatch_append, Actions.batch_cons,
    Actions.batch_nil, List.append_nil, Store.applyBatch_of_not_mem]
  · change s.applyBatch [⟨.attemptHistory job.id, .merge [entry]⟩] (.attemptHistory id) = _
    rw [Store.applyBatch_cons, Store.applyBatch_nil]
    by_cases hid : id = job.id
    · subst hid
      rw [Store.write_self, if_pos rfl]
      rfl
    · rw [Store.write_of_ne (by simpa using hid), if_neg hid]
  · simp only [jobActions, JobAction.writes, Batch.keys_append, Batch.keys_cons, Batch.keys_nil,
      JobAction.releaseDedup]
    split <;> simp

/-- The store `s` of a recovery against the store `p` at the first open. -/
structure Recovered (p s : Store (Val κ β)) : Prop where
  interrupted : ∀ queue id old, JobAction.Found p (.claimed queue id) old →
    s (.record (.claimed queue id)) = p (.record (.claimed queue id)) ∧
      s (.attemptHistory id) = p (.attemptHistory id) ∨
    ∃ job entry key, Recovers old job entry ∧ job.storedKey = some key ∧
      s (.record key) = some job.stored ∧
      s (.attemptHistory id) = some ((p (.attemptHistory id)).getD [] ++ [entry])
  kept : ∀ key job, p (.record key) = some job → key.keyStatus ≠ .claimed →
    s (.record key) = some job
  back : ∀ key job, s (.record key) = some job → p (.record key) = some job ∨
    key.keyStatus ≠ .claimed ∧ ∃ queue old, JobAction.Found p (.claimed queue key.id) old
  history : ∀ id, (∀ queue, p (.record (.claimed queue id)) = none) →
    s (.attemptHistory id) = p (.attemptHistory id)

omit [DecidableEq κ] in
theorem Recovered.refl (p : Store (Val κ β)) : Recovered p p where
  interrupted _ _ _ _ := .inl ⟨rfl, rfl⟩
  kept _ _ h _ := h
  back _ _ h := .inl h
  history _ _ := rfl

variable {p : Store (Val κ β)}

omit [DecidableEq κ] in
/-- A claimed record that the recovery has not requeued is that of the first open. -/
theorem Recovered.found (h : Recovered p s) {queue : QueueName} {id : String}
    (hf : JobAction.Found s (.claimed queue id) job) :
    JobAction.Found p (.claimed queue id) job := by
  obtain ⟨stored, hst, hdec⟩ := Option.map_eq_some_iff.mp hf
  rcases h.back _ _ hst with hp | ⟨hne, -⟩
  · exact Option.map_eq_some_iff.mpr ⟨stored, hp, hdec⟩
  · exact absurd rfl hne

theorem Recovered.requeue (h : Recovered p s) (hp : StoreInv p) (hs : StoreInv s)
    (hf : JobAction.Found s (.claimed job.queue job.id) job) (hr : Recovers job job' entry)
    (hkey : job'.storedKey = some key) :
    Recovered p (s.applyBatch ((jobActions κ β).batch (requeueActions job job' entry key))) := by
  have hfp := h.found hf
  obtain ⟨stored, hst, -⟩ := Option.map_eq_some_iff.mp hf
  obtain ⟨storedp, hstp, -⟩ := Option.map_eq_some_iff.mp hfp
  obtain ⟨hks, -, hkid⟩ := JobRecord.storedKey_spec hkey
  have hid : key.id = job.id := hkid.trans hr.same.id
  have hstatus : key.keyStatus ≠ .claimed := hks ▸ hr.status_ne_claimed
  have hother : ∀ k v, s (.record k) = some v → k.id ≠ job.id →
      s.applyBatch ((jobActions κ β).batch (requeueActions job job' entry key)) (.record k) =
        some v := by
    intro k v hv hne
    rw [requeueActions_record, if_neg, if_neg, hv]
    · rintro rfl
      exact hne rfl
    · rintro rfl
      exact hne hid
  constructor
  · intro queue id old hold
    obtain ⟨v, hv, hdec⟩ := Option.map_eq_some_iff.mp hold
    by_cases hjob : id = job.id
    · subst hjob
      obtain ⟨hq, -⟩ := RecordKey.claimed.inj (hp.unique hv hstp rfl)
      subst hq
      obtain rfl : old = job := Option.some.inj (hold.symm.trans hfp)
      refine .inr ⟨job', entry, key, hr, hkey, by rw [requeueActions_record, if_pos rfl], ?_⟩
      rw [requeueActions_attemptHistory, if_pos rfl]
      obtain ⟨-, hh⟩ | ⟨j, _, k, hr', hk, hj, -⟩ := h.interrupted _ _ _ hold
      · rw [hh]
      · obtain ⟨hks', -, hid'⟩ := JobRecord.storedKey_spec hk
        have := hs.unique hj hst (hid'.trans hr'.same.id)
        rw [this] at hks'
        exact absurd hks'.symm hr'.status_ne_claimed
    · rw [requeueActions_attemptHistory, if_neg hjob]
      obtain ⟨hsame, hh⟩ | ⟨j, e, k, hr', hk, hj, hh⟩ := h.interrupted _ _ _ hold
      · rw [hv] at hsame ⊢
        exact .inl ⟨hother _ _ hsame hjob, hh⟩
      · refine .inr ⟨j, e, k, hr', hk, hother _ _ hj ?_, hh⟩
        rw [(JobRecord.storedKey_spec hk).2.2, hr'.same.id, ← hdec]
        have hidv := JobRecord.id_of_storedKey (hp.record_index _ _ hv).2
        rw [← hidv]
        exact hjob
  · intro k v hv hk
    refine hother k v (h.kept k v hv hk) fun hkid' => hk ?_
    rw [hp.unique hv hstp hkid']
    rfl
  · intro k v hv
    rw [requeueActions_record] at hv
    split at hv
    · rename_i hk
      exact .inr ⟨hk ▸ hstatus, job.queue, job, by rw [hk, hid]; exact hfp⟩
    · obtain ⟨-, hv⟩ := Option.ite_none_left_eq_some.mp hv
      exact h.back k v hv
  · intro id hid'
    rw [requeueActions_attemptHistory, if_neg, h.history id hid']
    rintro rfl
    rw [hid' job.queue] at hstp
    cases hstp

end Store

end Taquba
