import Taquba.Queue.Machine

/-! # The dedup index

A dedup entry lives from the enqueue of its job to the job's first claim or its
cancel. An action that gives up an entry claims or removes the job that holds it.
-/

namespace Taquba

open Snapshot Transition

variable {κ β : Type}

def History.claimedSinceEnqueue (log : History κ β) (id : String) : Bool :=
  log.foldl (fun claimed c =>
    if c.label.notes.enqueued.any fun e => e.2 = id then false
    else if c.label.delivered.any fun job => job.id = id then true
    else claimed) false

variable [DecidableEq κ]
variable {key : RecordKey} {job : JobRecord}

section Actions

variable {s : Store (Val κ β)} {a : JobAction κ β} {as : List (JobAction κ β)}

def JobAction.Claims (a : JobAction κ β) (id : String) : Prop :=
  ∃ job, a.claim? = some job ∧ job.id = id

def JobAction.Inserts (a : JobAction κ β) (id : String) : Prop :=
  ∃ queue, a.insert? = some (queue, id)

theorem StoreInv.dedupKey_action (hi : StoreInv s) (he : a.Enabled s)
    (h : s.applyBatch a.writes (.record key) = some job) (hd : job.dedupKey ≠ none) :
    a.Inserts key.id ∨ (¬ a.Claims key.id ∧
      ∃ key' job', s (.record key') = some job' ∧ key'.id = key.id ∧ job'.dedupKey ≠ none) := by
  cases a with
  | insert new k =>
    rw [JobAction.insert_record] at h
    split_ifs at h with hk
    · subst hk
      exact .inl ⟨new.queue, by rw [JobRecord.id_of_storedKey he.2.1]; rfl⟩
    · exact .inr ⟨by simp [JobAction.Claims, JobAction.claim?], key, job, h, rfl, hd⟩
  | move source old new k =>
    obtain ⟨hf, hne, hkey, hid, hq, hwaits, hdk, -⟩ := he
    obtain ⟨v, hv, rfl⟩ := Option.map_eq_some_iff.mp hf
    have hsid := JobRecord.id_of_storedKey (hi.storedKey_of_found hf)
    have hkid := JobRecord.id_of_storedKey hkey
    rw [JobAction.move_record] at h
    split at h
    · rename_i hk
      subst hk
      cases h
      have hnc : new.status ≠ .claimed := by
        intro hc
        rcases hwaits hd with h | h <;> simp [hc] at h
      refine .inr ⟨?_, source, v, hv, by rw [hsid, hkid, hid], ?_⟩
      · rintro ⟨j, hcl, -⟩
        rw [← JobRecord.keyStatus_of_storedKey hkey] at hnc
        cases key <;> simp_all [JobAction.claim?, RecordKey.keyStatus]
      · rcases hdk with h | h
        · rwa [JobRecord.stored_dedupKey, h] at hd
        · exact absurd h.2 hnc
    · obtain ⟨hks, h⟩ := Option.ite_none_left_eq_some.mp h
      refine .inr ⟨?_, key, job, h, rfl, hd⟩
      rintro ⟨j, hcl, hj⟩
      refine hks (hi.unique h hv ?_)
      rw [hsid, ← hid]
      cases k <;> simp_all [JobAction.claim?]
  | rewrite k old new =>
    rw [JobAction.rewrite_record] at h
    refine .inr ⟨by simp [JobAction.Claims, JobAction.claim?], ?_⟩
    split_ifs at h with hk
    · subst hk
      cases h
      obtain ⟨v, hv, rfl⟩ := Option.map_eq_some_iff.mp he.1
      refine ⟨key, v, hv, rfl, ?_⟩
      rw [JobRecord.stored_dedupKey, he.2.2.1] at hd
      exact hd
    · exact ⟨key, job, h, rfl, hd⟩
  | remove k old completed =>
    rw [JobAction.remove_record] at h
    obtain ⟨-, h⟩ := Option.ite_none_left_eq_some.mp h
    exact .inr ⟨by simp [JobAction.Claims, JobAction.claim?], key, job, h, rfl, hd⟩
  | history id entry =>
    rw [JobAction.history_of_not_isPlain s id rfl] at h
    exact .inr ⟨by simp [JobAction.Claims, JobAction.claim?], key, job, h, rfl, hd⟩
  | plain write =>
    rw [JobAction.plain_of_not_isPlain s he rfl] at h
    exact .inr ⟨by simp [JobAction.Claims, JobAction.claim?], key, job, h, rfl, hd⟩

theorem StoreInv.dedupKey_actions (hi : StoreInv s) (he : (jobActions κ β).AllEnabled as s)
    (h : s.applyBatch ((jobActions κ β).batch as) (.record key) = some job)
    (hd : job.dedupKey ≠ none) :
    (∃ a ∈ as, a.Inserts key.id) ∨ ((∀ a ∈ as, ¬ a.Claims key.id) ∧
      ∃ key' job', s (.record key') = some job' ∧ key'.id = key.id ∧ job'.dedupKey ≠ none) := by
  induction as generalizing s with
  | nil => exact .inr ⟨by simp, key, job, h, rfl, hd⟩
  | cons a as ih =>
    rw [Actions.batch_cons, Store.applyBatch_append] at h
    obtain ⟨b, hb, hins⟩ | ⟨hnot, key', job', hj', hid', hd'⟩ :=
      ih (StoreInv.action a s hi he.1) he.2 h
    · exact .inl ⟨b, .tail _ hb, hins⟩
    · obtain hins | ⟨hnc, key'', job'', hj'', hid'', hd''⟩ := hi.dedupKey_action he.1 hj' hd'
      · exact .inl ⟨a, .head _, hid' ▸ hins⟩
      · rw [hid'] at hnc hid''
        exact .inr ⟨List.forall_mem_cons.mpr ⟨hnc, hnot⟩, key'', job'', hj'', hid'', hd''⟩

/-- An action that drops a dedup entry claims or cancels the job of the entry. -/
theorem StoreInv.dedup_action (hi : StoreInv s) (he : a.Enabled s) {queue : QueueName}
    {k id : String} (h : s (.dedup queue k) = some id)
    (h' : s.applyBatch a.writes (.dedup queue k) ≠ some id) :
    a.Claims id ∨ a.cancel? = some id := by
  cases a with
  | insert new key =>
    rw [JobAction.insert_dedup] at h'
    split at h'
    · rename_i hq
      obtain ⟨rfl, hd⟩ := hq
      rw [he.2.2.2 k hd] at h
      cases h
    · exact absurd h h'
  | move source old new key =>
    obtain ⟨hf, hne, hkey, hid, hq, hwaits, hdk, -⟩ := he
    rw [JobAction.move_dedup] at h'
    split at h'
    · rename_i hrel
      obtain ⟨rfl, hod, hnd⟩ := hrel
      obtain ⟨v, hv, rfl⟩ := Option.map_eq_some_iff.mp hf
      obtain ⟨-, hsq, hsid⟩ := JobRecord.storedKey_spec (hi.storedKey_of_found hf)
      have hentry := (hi.record_dedup source v k hv hod).2
      rw [hsq, h] at hentry
      rcases hdk with hdk | ⟨-, hst⟩
      · rw [hdk, hod] at hnd
        cases hnd
      · refine .inl ⟨new, ?_, by rw [hid, ← hsid, ← Option.some.inj hentry]⟩
        simp only [JobRecord.storedKey, hst, Option.some.injEq] at hkey
        rw [← hkey, JobAction.claim?]
    · exact absurd h h'
  | rewrite key old new =>
    rw [JobAction.rewrite_dedup] at h'
    exact absurd h h'
  | remove key old completed =>
    rw [JobAction.remove_dedup] at h'
    split at h'
    · rename_i hrel
      obtain ⟨rfl, hod⟩ := hrel
      obtain ⟨v, hv, rfl⟩ := Option.map_eq_some_iff.mp he
      obtain ⟨-, hsq, hsid⟩ := JobRecord.storedKey_spec (hi.storedKey_of_found he)
      obtain ⟨hst, hentry⟩ := hi.record_dedup key v k hv hod
      rw [hsq, h] at hentry
      right
      rw [Option.some.inj hentry, hsid]
      cases key <;> simp_all [JobAction.cancel?, RecordKey.keyStatus]
    · exact absurd h h'
  | history i entry =>
    rw [JobAction.history_of_not_isPlain s i rfl] at h'
    exact absurd h h'
  | plain write =>
    rw [JobAction.plain_of_not_isPlain s he rfl] at h'
    exact absurd h h'

theorem StoreInv.dedup_actions (hi : StoreInv s) (he : (jobActions κ β).AllEnabled as s)
    {queue : QueueName} {k id : String} (h : s (.dedup queue k) = some id)
    (h' : s.applyBatch ((jobActions κ β).batch as) (.dedup queue k) ≠ some id) :
    ∃ a ∈ as, a.Claims id ∨ a.cancel? = some id := by
  induction as generalizing s with
  | nil => exact absurd h h'
  | cons a as ih =>
    rw [Actions.batch_cons, Store.applyBatch_append] at h'
    by_cases hkeep : s.applyBatch a.writes (.dedup queue k) = some id
    · obtain ⟨b, hb, hc⟩ := ih (StoreInv.action a s hi he.1) he.2 hkeep h'
      exact ⟨b, .tail _ hb, hc⟩
    · exact ⟨a, .head _, hi.dedup_action he.1 h hkeep⟩

end Actions

section Commits

variable {log : History κ β} {c : CallCommit κ β} {as : List (JobAction κ β)}
  {id : String}

theorem Performs.claims_iff (h : Performs log c as) :
    (∃ a ∈ as, a.Claims id) ↔ ∃ job ∈ c.label.delivered, job.id = id := by
  constructor
  · rintro ⟨a, ha, job, hc, hid⟩
    exact ⟨job, h.shape.claims ▸ List.mem_filterMap.mpr ⟨a, ha, hc⟩, hid⟩
  · rintro ⟨job, hj, hid⟩
    rw [← h.shape.claims] at hj
    obtain ⟨a, ha, hc⟩ := List.mem_filterMap.mp hj
    exact ⟨a, ha, job, hc, hid⟩

theorem Performs.inserts_iff (h : Performs log c as) :
    (∃ a ∈ as, a.Inserts id) ↔ ∃ e ∈ c.label.notes.enqueued, e.2 = id := by
  rw [h.enqueued]
  constructor
  · rintro ⟨a, ha, queue, hc⟩
    exact ⟨_, List.mem_filterMap.mpr ⟨a, ha, hc⟩, rfl⟩
  · rintro ⟨e, he, rfl⟩
    obtain ⟨a, ha, hc⟩ := List.mem_filterMap.mp he
    exact ⟨a, ha, e.1, hc⟩

omit [DecidableEq κ] in
theorem History.claimedSinceEnqueue_append (log : History κ β)
    (c : CallCommit κ β) (id : String) :
    History.claimedSinceEnqueue (log ++ [c]) id =
      if c.label.notes.enqueued.any fun e => e.2 = id then false
      else if c.label.delivered.any fun job => job.id = id then true
      else log.claimedSinceEnqueue id := by
  simp [claimedSinceEnqueue]

/-- A job that has a dedup key was not claimed since its enqueue. -/
theorem History.Sound.claimedSinceEnqueue_eq_false (hs : log.Sound)
    (h : log.store (.record key) = some job) (hd : job.dedupKey ≠ none) :
    log.claimedSinceEnqueue key.id = false := by
  induction hs generalizing key job with
  | nil => cases h
  | @append log c hs hc ih =>
    obtain ⟨as, hp⟩ := hc
    rw [History.claimedSinceEnqueue_append]
    split
    · rfl
    · rename_i henq
      rw [hp.store_eq] at h
      obtain hins | ⟨hnot, key', job', hj', hid', hd'⟩ :=
        (History.Sound.storeInv hs).dedupKey_actions hp.enabled h hd
      · exact absurd (by simpa using hp.inserts_iff.mp hins) henq
      · rw [if_neg, ← hid']
        · exact ih hj' hd'
        · intro hdel
          obtain ⟨a, ha, hcl⟩ := hp.claims_iff.mpr (by simpa using hdel)
          exact hnot a ha hcl

end Commits

namespace Queue

variable [DecidableEq β] {s : State κ β}

/-- The dedup entry of a queue and key exists exactly for the job that waits on the
queue with the key and was not claimed since its enqueue. There is at most one such
job, and a commit drops an entry only when it claims or cancels the job of the entry. -/
theorem dedup_index_exact (h : (machine κ β).Reachable s) :
    (∀ queue k id, s.log.store (.dedup queue k) = some id ↔
      ∃ key job, JobAction.Found s.log.store key job ∧ job.id = id ∧ job.queue = queue ∧
        (job.status = .pending ∨ job.status = .scheduled) ∧ job.dedupKey = some k ∧
        s.log.claimedSinceEnqueue id = false) ∧
    (∀ key job key' job' k, JobAction.Found s.log.store key job →
      JobAction.Found s.log.store key' job' → job.dedupKey = some k → job'.dedupKey = some k →
      job.queue = job'.queue → key = key' ∧ job = job') ∧
    (∀ n c queue k id, s.log[n]? = some c →
      Log.store (s.log.take n) (.dedup queue k) = some id →
      Log.store (s.log.take (n + 1)) (.dedup queue k) ≠ some id →
      (∃ job ∈ c.label.delivered, job.id = id) ∨ c.label.call.cancels = some id) := by
  have hs := (inv_reachable h).sound
  have hi := hs.storeInv
  refine ⟨fun queue k id => ⟨fun hd => ?_, ?_⟩, ?_, ?_⟩
  · obtain ⟨key, job, hj, rfl, rfl, hk⟩ := hi.dedup_record queue k id hd
    have hf : JobAction.Found s.log.store key _ := .of_record hj
    obtain ⟨-, hq, hid⟩ := JobRecord.storedKey_spec (hi.storedKey_of_found hf)
    exact ⟨key, _, hf, hid.symm, hq.symm, (hi.record_dedup key job k hj hk).1, hk,
      hs.claimedSinceEnqueue_eq_false hj (by simp [hk])⟩
  · rintro ⟨key, job, hf, rfl, rfl, -, hk, -⟩
    obtain ⟨-, hq, hid⟩ := JobRecord.storedKey_spec (hi.storedKey_of_found hf)
    obtain ⟨v, hv, rfl⟩ := Option.map_eq_some_iff.mp hf
    rw [← hq, ← hid]
    exact (hi.record_dedup key v k hv hk).2
  · intro key job key' job' k hf hf' hk hk' hqq
    obtain ⟨-, hq, -⟩ := JobRecord.storedKey_spec (hi.storedKey_of_found hf)
    obtain ⟨-, hq', -⟩ := JobRecord.storedKey_spec (hi.storedKey_of_found hf')
    obtain ⟨v, hv, rfl⟩ := Option.map_eq_some_iff.mp hf
    obtain ⟨v', hv', rfl⟩ := Option.map_eq_some_iff.mp hf'
    have he := (hi.record_dedup key v k hv hk).2
    have he' := (hi.record_dedup key' v' k hv' hk').2
    rw [hq, hqq, ← hq', he'] at he
    have hkk := hi.unique hv hv' (Option.some.inj he).symm
    subst hkk
    rw [hv] at hv'
    cases hv'
    exact ⟨rfl, rfl⟩
  · intro n c queue k id hn hd hd'
    obtain ⟨htake, as, hp⟩ := hs.get hn
    rw [htake, hp.store_eq] at hd'
    obtain ⟨a, ha, hc | hc⟩ := (hs.take n).storeInv.dedup_actions hp.enabled hd hd'
    · exact .inl (hp.claims_iff.mp ⟨a, ha, hc⟩)
    · exact .inr (hp.shape.cancelled a ha id hc)

/-- A job with a dedup key, for runs on fixed inputs. -/
def reminder : PreparedJob where
  job := { JobRecord.newPending "b" emails [2] 3 0 6 with dedupKey := some "k" }

theorem dedup_index_exact_after_enqueue :
    ∃ s, (machine ℕ ℕ).run {} [.commit (.enqueue (fun _ _ => none) reminder {}) 0] = some s ∧
      s.log.store (.dedup emails "k") = some "b" ∧
      ∃ key job, JobAction.Found s.log.store key job ∧ job.id = "b" ∧
        job.dedupKey = some "k" ∧ s.log.claimedSinceEnqueue "b" = false := by
  obtain ⟨s, hs, hd⟩ :
      ∃ s, (machine ℕ ℕ).run {} [.commit (.enqueue (fun _ _ => none) reminder {}) 0]
      = some s ∧ s.log.store (.dedup emails "k") = some "b" :=
    Machine.exists_of_run_any (by decide +kernel)
  have hreach := Machine.reachable_of_run hs rfl
  obtain ⟨key, job, hf, hid, -, -, hk, hc⟩ := ((dedup_index_exact hreach).1 _ _ _).mp hd
  exact ⟨s, hs, hd, key, job, hf, hid, hk, hc⟩

end Queue

end Taquba
