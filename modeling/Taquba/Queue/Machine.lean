import Mathlib.Data.List.Dedup
import Mathlib.Data.List.Perm.Basic
import Taquba.Queue.History
import Taquba.Transition.Machine

/-! # Runs of a queue

A process opens the store, requeues the claimed records it finds, and then commits
calls in any order, each on some state it has seen. A crash keeps some of the
commits, and the next process opens what they give.
-/

namespace Taquba

open Snapshot Transition

variable {κ β : Type} [DecidableEq κ]

namespace History

def keys (log : History κ β) : List (Key κ) := (log.flatMap fun c => Batch.keys c.writes).dedup

theorem mem_keys_of_store {log : History κ β} {k : Key κ} (h : log.store k ≠ none) :
    k ∈ log.keys := by
  have hne : log.store k ≠ Log.store (log.take 0) k := by simpa using h
  obtain ⟨c, hc, hk⟩ := Log.exists_writer_of_ne hne
  exact List.mem_dedup.mpr (List.mem_flatMap.mpr ⟨c, by simpa using hc, hk⟩)

/-- The claimed records of the store, as the scan at open finds them. -/
def claimedRecords (log : History κ β) : List JobRecord :=
  log.keys.filterMap fun k =>
    match k with
    | .record (.claimed queue id) =>
      (log.store (.record (.claimed queue id))).map (JobRecord.decode (.claimed queue id))
    | _ => none

end History

namespace Call

/-- What a caller brings to a call: ids that are not in use, a scan in key order, and
an expired record that an earlier scan found. The requeue at open is not a call. -/
def Given (log : History κ β) (snap : ℕ) : Call κ β → Prop
  | .enqueue _ prepared effects =>
    Txn.FreshIds (Log.store (log.take snap)) (prepared :: effects.preparedJobs)
  | .commitEffects _ effects | .settle _ _ _ _ _ _ effects _ | .cancel _ _ effects =>
    Txn.FreshIds (Log.store (log.take snap)) effects.preparedJobs
  | .applyEnqueue _ _ _ prepared => Txn.FreshIds (Log.store (log.take snap)) [prepared]
  | .claimBatch _ keys _ _ => keys.Pairwise (· < ·)
  | .sweepVictim key job =>
    (key.keyStatus = .done ∨ key.keyStatus = .dead) ∧
      ∃ n ∈ List.range (log.length + 1), JobAction.Found (Log.store (log.take n)) key job
  | .requeueInterrupted _ _ => False
  | _ => True

instance (s : Store (Val κ β)) (jobs : List PreparedJob) : Decidable (Txn.FreshIds s jobs) :=
  inferInstanceAs (Decidable (_ ∧ _))

instance (s : Store (Val κ β)) (key : RecordKey) (job : JobRecord) :
    Decidable (JobAction.Found s key job) :=
  inferInstanceAs (Decidable (_ = _))

instance (log : History κ β) (snap : ℕ) : ∀ call : Call κ β, Decidable (call.Given log snap)
  | .enqueue _ _ _ | .commitEffects _ _ | .settle _ _ _ _ _ _ _ _ | .cancel _ _ _
  | .applyEnqueue _ _ _ _ => inferInstanceAs (Decidable (Txn.FreshIds _ _))
  | .claimBatch _ keys _ _ => inferInstanceAs (Decidable (keys.Pairwise (· < ·)))
  | .requeueInterrupted _ _ => inferInstanceAs (Decidable False)
  | .sweepVictim _ _ => inferInstanceAs (Decidable (_ ∧ ∃ n ∈ List.range _, _))
  | .claimById _ _ _ | .reap _ _ _ _ _ | .promote _ _ _ | .wakeScheduled _ | .signal _ _
  | .requeueDeadJob _ _ | .applyCancel _ _ _ _ | .applySignal _ _ _ _ _
  | .commitRejection _ _ _ _ | .sweepInboxRecords _ | .kvCompareThen _ _ _ | .kvPut _ _
  | .kvDelete _ => inferInstanceAs (Decidable True)

theorem Given.pre {log : History κ β} {snap : ℕ} {call : Call κ β} (hs : log.Sound)
    (h : call.Given log snap) : call.Pre (Log.store (log.take snap)) := by
  cases call with
  | claimBatch queue keys claimIds now => exact List.Pairwise.imp ne_of_lt h
  | sweepVictim key job =>
    obtain ⟨hst, n, -, hf⟩ := h
    have hi := (hs.take n).storeInv
    exact ⟨hst, hi.storedKey_of_found hf, hi.dedupKey_eq_none hf
      (by rcases hst with h | h <;> simp [h]) (by rcases hst with h | h <;> simp [h])⟩
  | requeueInterrupted job now => exact h.elim
  | _ => exact h

end Call

namespace History

variable {log : History κ β}

theorem claimed_of_mem_claimedRecords (hi : StoreInv log.store) {k : Key κ} {job : JobRecord}
    (h : (match k with
      | .record (.claimed queue id) =>
        (log.store (.record (.claimed queue id))).map (JobRecord.decode (.claimed queue id))
      | _ => none) = some job) :
    k = .record (.claimed job.queue job.id) ∧
      JobAction.Found log.store (.claimed job.queue job.id) job := by
  split at h
  · obtain ⟨rfl, rfl, -⟩ := hi.claimed_spec h
    exact ⟨rfl, h⟩
  · cases h

theorem found_of_mem_claimedRecords (hi : StoreInv log.store) {job : JobRecord}
    (h : job ∈ log.claimedRecords) :
    JobAction.Found log.store (.claimed job.queue job.id) job := by
  obtain ⟨k, -, hk⟩ := List.mem_filterMap.mp h
  exact (claimed_of_mem_claimedRecords hi hk).2

theorem nodup_claimedRecords (hi : StoreInv log.store) :
    (log.claimedRecords.map fun j => (j.queue, j.id)).Nodup := by
  rw [claimedRecords, List.map_filterMap]
  refine List.Nodup.filterMap (fun k k' p hk hk' => ?_) (List.nodup_dedup _)
  obtain ⟨job, hj, rfl⟩ := Option.map_eq_some_iff.mp hk
  obtain ⟨job', hj', he⟩ := Option.map_eq_some_iff.mp hk'
  obtain ⟨hq, hid⟩ := Prod.mk.inj he
  rw [(claimed_of_mem_claimedRecords hi hj).1, (claimed_of_mem_claimedRecords hi hj').1, hq, hid]

end History

namespace Queue

/-- The commits so far, the number of them when this process opened the store, and
the claimed records that the open has still to requeue. -/
structure State (κ β : Type) where
  log : History κ β := []
  opened : ℕ := 0
  todo : List JobRecord := []

inductive Label (κ β : Type) where
  | commit (call : Call κ β) (snap : ℕ)
  | requeue (now : ℕ)
  | reopen (kept : ℕ) (todo : List JobRecord)

variable [DecidableEq β]

def step (s : State κ β) : Label κ β → Option (State κ β)
  | .commit call snap =>
    if s.todo = [] ∧ s.opened ≤ snap ∧ snap ≤ s.log.length ∧ call.Given s.log snap then
      (commitCall s.log call snap).map fun log => { s with log }
    else none
  | .requeue now =>
    match s.todo with
    | job :: rest =>
      (commitCall s.log (.requeueInterrupted job now) s.log.length).map fun log =>
        { s with log, todo := rest }
    | [] => none
  | .reopen kept todo =>
    let log := s.log.take kept
    if todo.Perm (History.claimedRecords log) then some { log, opened := log.length, todo }
    else none

/-- The runs of a queue from an empty store. -/
def machine (κ β : Type) [DecidableEq κ] [DecidableEq β] : Machine (State κ β) (Label κ β) where
  init s := s = {}
  step := step

/-- Every commit performed its actions, and the open requeues claimed records. -/
structure Inv (s : State κ β) : Prop where
  sound : s.log.Sound
  found : ∀ job ∈ s.todo, JobAction.Found s.log.store (.claimed job.queue job.id) job
  distinct : (s.todo.map fun j => (j.queue, j.id)).Nodup

variable {s s' : State κ β}

variable {call : Call κ β} {snap : ℕ}

theorem commit_eq_some (h : step s (.commit call snap) = some s') :
    s.todo = [] ∧ call.Given s.log snap ∧ ∃ t delivered,
      call.attempt (Log.store (s.log.take snap)) = some (t, delivered) ∧
      ¬ s.log.Conflicts snap t.tracked ∧
      s' = { s with log := s.log ++ [⟨⟨call, snap, t.notes, t.stats, delivered⟩, t.writes⟩] } := by
  simp only [step, Option.ite_none_right_eq_some, Option.map_eq_some_iff] at h
  obtain ⟨⟨htodo, -, -, hg⟩, log, hlog, rfl⟩ := h
  obtain ⟨t, delivered, ht, hc, rfl⟩ := commitCall_eq_some hlog
  exact ⟨htodo, hg, t, delivered, ht, hc, rfl⟩

theorem requeue_eq_some {now : ℕ} (hi : Inv s) (h : step s (.requeue now) = some s') :
    ∃ job rest t delivered, s.todo = job :: rest ∧
      (Call.requeueInterrupted job now : Call κ β).Pre (Log.store (s.log.take s.log.length)) ∧
      (Call.requeueInterrupted job now).attempt (Log.store (s.log.take s.log.length)) =
        some (t, delivered) ∧
      ¬ s.log.Conflicts s.log.length t.tracked ∧
      s' = { s with
        log := s.log ++ [⟨⟨.requeueInterrupted job now, s.log.length, t.notes, t.stats, delivered⟩,
          t.writes⟩]
        todo := rest } := by
  simp only [step] at h
  split at h
  · rename_i job rest htodo
    obtain ⟨log, hlog, rfl⟩ := Option.map_eq_some_iff.mp h
    obtain ⟨t, delivered, ht, hc, rfl⟩ := commitCall_eq_some hlog
    refine ⟨job, rest, t, delivered, htodo, ?_, ht, hc, rfl⟩
    rw [List.take_length]
    exact hi.found job (htodo ▸ .head _)
  · cases h

theorem inv_commit (hi : Inv s) (h : step s (.commit call snap) = some s') : Inv s' := by
  obtain ⟨htodo, hg, t, delivered, ht, hc, rfl⟩ := commit_eq_some h
  obtain ⟨as, hp⟩ := performs_of_attempt hi.sound (hg.pre hi.sound) ht hc
  refine ⟨Log.Lawful.append hi.sound ⟨as, hp⟩, ?_, ?_⟩
  · simp [htodo]
  · simp [htodo]

theorem inv_requeue {now : ℕ} (hi : Inv s) (h : step s (.requeue now) = some s') : Inv s' := by
  obtain ⟨job, rest, t, delivered, htodo, hpre, ht, hc, rfl⟩ := requeue_eq_some hi h
  obtain ⟨as, hp⟩ := performs_of_attempt hi.sound hpre ht hc
  have hd := hi.distinct
  have hf := hi.found
  rw [htodo] at hd hf
  obtain ⟨hne, hd⟩ := List.nodup_cons.mp hd
  have hshape := hp.shape
  refine ⟨Log.Lawful.append hi.sound ⟨as, hp⟩, fun j hj => ?_, hd⟩
  obtain ⟨stored, hst, hdec⟩ := Option.map_eq_some_iff.mp (hf j (.tail _ hj))
  have hend : ∀ a ∈ as, a.end? ≠ some (j.queue, j.id) := by
    intro a ha he
    have hmem := List.mem_filterMap.mpr ⟨a, ha, he⟩
    rw [hshape.ended] at hmem
    simp only [Call.ended, Option.toList_some, List.mem_singleton] at hmem
    exact hne (List.mem_map.mpr ⟨j, hj, hmem⟩)
  have hcancel : ∀ a ∈ as, a.cancel? ≠ some j.id := by
    intro a ha he
    cases hshape.cancelled a ha _ he
  rw [JobAction.Found]
  refine Option.map_eq_some_iff.mpr ⟨stored, ?_, hdec⟩
  rw [hp.store_eq]
  exact hi.sound.storeInv.claimed_actions hp.enabled hst hend hcancel

theorem inv_reopen {kept : ℕ} {todo : List JobRecord} (hi : Inv s)
    (h : step s (.reopen kept todo) = some s') : Inv s' := by
  simp only [step, Option.ite_none_right_eq_some] at h
  obtain ⟨hperm, ⟨⟩⟩ := h
  have hs := hi.sound.take kept
  refine ⟨hs, fun job hj => ?_, ?_⟩
  · exact History.found_of_mem_claimedRecords hs.storeInv (hperm.mem_iff.mp hj)
  · exact (hperm.map _).nodup_iff.mpr (History.nodup_claimedRecords hs.storeInv)

variable {l : Label κ β}

theorem inv_step (hi : Inv s) (h : step s l = some s') : Inv s' := by
  cases l with
  | commit call snap => exact inv_commit hi h
  | requeue now => exact inv_requeue hi h
  | reopen kept todo => exact inv_reopen hi h

theorem inv_reachable (h : (machine κ β).Reachable s) : Inv s := by
  refine h.invariant ?_ fun s a s' => inv_step
  rintro _ rfl
  exact ⟨.nil, by simp, by simp⟩

theorem log_of_reopen {kept : ℕ} {todo : List JobRecord}
    (h : step s (.reopen kept todo) = some s') : s'.log = s.log.take kept := by
  simp only [step, Option.ite_none_right_eq_some] at h
  obtain ⟨-, ⟨⟩⟩ := h
  rfl

/-- A step commits a call on a state that this process has seen, or it reopens the store
after the commits that survived. -/
theorem step_cases (hi : Inv s) (h : step s l = some s') :
    (∃ call snap t delivered,
      (l = .commit call snap ∨ ∃ job now, l = .requeue now ∧ call = .requeueInterrupted job now) ∧
      call.Pre (Log.store (s.log.take snap)) ∧
      call.attempt (Log.store (s.log.take snap)) = some (t, delivered) ∧
      ¬ s.log.Conflicts snap t.tracked ∧
      s'.log = s.log ++ [⟨⟨call, snap, t.notes, t.stats, delivered⟩, t.writes⟩]) ∨
    ∃ kept todo, l = .reopen kept todo ∧ s'.log = s.log.take kept := by
  cases l with
  | commit call snap =>
    obtain ⟨-, hg, t, delivered, ht, hc, rfl⟩ := commit_eq_some h
    exact .inl ⟨call, snap, t, delivered, .inl rfl, hg.pre hi.sound, ht, hc, rfl⟩
  | requeue now =>
    obtain ⟨job, rest, t, delivered, -, hpre, ht, hc, rfl⟩ := requeue_eq_some hi h
    exact .inl ⟨_, _, t, delivered, .inr ⟨job, now, rfl, rfl⟩, hpre, ht, hc, rfl⟩
  | reopen kept todo => exact .inr ⟨kept, todo, rfl, log_of_reopen h⟩

theorem log_of_step (hi : Inv s) (hl : ∀ kept todo, l ≠ .reopen kept todo)
    (h : step s l = some s') : ∃ c, s'.log = s.log ++ [c] := by
  obtain ⟨_, _, _, _, -, -, -, -, hlog⟩ | ⟨kept, todo, heq, -⟩ := step_cases hi h
  · exact ⟨_, hlog⟩
  · exact absurd heq (hl kept todo)

/-- What holds of each commit of a call, in the runs that meet a condition. -/
theorem lawful_reachableVia {C : State κ β → Label κ β → Prop}
    {P : History κ β → CallCommit κ β → Prop}
    (hP : ∀ s l call snap t delivered, (machine κ β).Reachable s → s.log.Lawful P → C s l →
      (l = .commit call snap ∨ ∃ job now, l = .requeue now ∧ call = .requeueInterrupted job now) →
      call.Pre (Log.store (s.log.take snap)) →
      call.attempt (Log.store (s.log.take snap)) = some (t, delivered) →
      ¬ s.log.Conflicts snap t.tracked →
      P s.log ⟨⟨call, snap, t.notes, t.stats, delivered⟩, t.writes⟩)
    (h : (machine κ β).ReachableVia C s) : s.log.Lawful P := by
  have hinv : (machine κ β).Reachable s ∧ s.log.Lawful P := by
    refine h.invariant (I := fun s => (machine κ β).Reachable s ∧ s.log.Lawful P) ?_ ?_
    · rintro _ rfl
      exact ⟨.initial rfl, .nil⟩
    · rintro s l s' ⟨hr, hl⟩ hC hstep
      refine ⟨hr.next hstep, ?_⟩
      obtain ⟨call, snap, t, delivered, hlabel, hp, ht, hc, hlog⟩ | ⟨kept, todo, -, hlog⟩ :=
        step_cases (inv_reachable hr) hstep
      · rw [hlog]
        exact hl.append (hP s l call snap t delivered hr hl hC hlabel hp ht hc)
      · rw [hlog]
        exact hl.take kept
  exact hinv.2

theorem lawful_reachable {P : History κ β → CallCommit κ β → Prop}
    (hP : ∀ log call snap t delivered, History.Sound log → log.Lawful P →
      call.Pre (Log.store (log.take snap)) →
      call.attempt (Log.store (log.take snap)) = some (t, delivered) →
      ¬ log.Conflicts snap t.tracked →
      P log ⟨⟨call, snap, t.notes, t.stats, delivered⟩, t.writes⟩)
    (h : (machine κ β).Reachable s) : s.log.Lawful P :=
  lawful_reachableVia (fun s _ call snap t delivered hr hl _ _ hp ht hc =>
    hP s.log call snap t delivered (inv_reachable hr).sound hl hp ht hc) h

def Attempted (log : History κ β) (c : CallCommit κ β) : Prop :=
  ∃ t delivered, c.label.call.attempt (Log.store (log.take c.label.snap)) = some (t, delivered) ∧
    c.writes = t.writes

theorem attempted_reachable (h : (machine κ β).Reachable s) : s.log.Lawful Attempted :=
  lawful_reachable (fun _ _ _ t delivered _ _ _ ht _ => ⟨t, delivered, ht, rfl⟩) h

/-- A step that is not a reopen commits a call, which performs the actions of its
attempt. -/
theorem step_traces (hi : Inv s) (h : step s l = some s')
    (hl : ∀ kept todo, l ≠ .reopen kept todo) :
    ∃ call snap c as,
      (l = .commit call snap ∨ ∃ job now, l = .requeue now ∧ call = .requeueInterrupted job now) ∧
      s'.log = s.log ++ [c] ∧ c.label.call = call ∧ Performs s.log c as ∧
      call.Traces (Log.store (s.log.take snap)) c.label.delivered as := by
  obtain ⟨call, snap, t, delivered, hcall, hp, ht, hc, hlog⟩ | ⟨kept, todo, hr, -⟩ :=
    step_cases hi h
  · obtain ⟨as, hperforms, htraces⟩ := performs_traces_of_attempt hi.sound hp ht hc
    exact ⟨call, snap, _, as, hcall, hlog, rfl, hperforms, htraces⟩
  · exact absurd hr (hl kept todo)

theorem commit_traces (hi : (machine κ β).Reachable s) (h : step s (.commit call snap) = some s') :
    call.Given s.log snap ∧ (machine κ β).Reachable s' ∧
      ∃ c as, s'.log = s.log ++ [c] ∧ c.label.call = call ∧ c.label.snap = snap ∧
        Performs s.log c as ∧
        call.Traces (Log.store (s.log.take snap)) c.label.delivered as := by
  have hreach : (machine κ β).Reachable s' := hi.next (a := .commit call snap) h
  have hsound := (inv_reachable hi).sound
  obtain ⟨-, hg, t, delivered, ht, hc, rfl⟩ := commit_eq_some h
  obtain ⟨as, hperforms, htraces⟩ := performs_traces_of_attempt hsound (hg.pre hsound) ht hc
  exact ⟨hg, hreach, _, as, rfl, rfl, rfl, hperforms, htraces⟩

theorem requeue_traces {now : ℕ} (hi : (machine κ β).Reachable s)
    (h : step s (.requeue now) = some s') :
    (machine κ β).Reachable s' ∧ ∃ job snap c as, s'.log = s.log ++ [c] ∧
      c.label.call = .requeueInterrupted job now ∧ Performs s.log c as ∧
      (Call.requeueInterrupted job now).Traces (Log.store (s.log.take snap)) c.label.delivered
        as := by
  obtain ⟨call, snap, c, as, hcall | ⟨job, _, ⟨⟩, rfl⟩, htraces⟩ :=
    step_traces (inv_reachable hi) h (by simp)
  · cases hcall
  · exact ⟨hi.next (a := .requeue now) h, job, snap, c, as, htraces⟩

theorem spares_reachable (h : (machine κ β).Reachable s) : s.log.Lawful History.Spares := by
  refine lawful_reachable (fun log call snap t delivered hs _ hp ht hc => ?_) h
  obtain ⟨as, hperforms, htraces⟩ := performs_traces_of_attempt hs hp ht hc
  exact hperforms.spares hs.storeInv fun a ha => (htraces.within a ha).takes

/-- In every state a job id has at most one record, which is stored at the key of the
job decoded from it, and the job index maps exactly the ids with a record to its key. -/
theorem one_record_one_index_entry (h : (machine κ β).Reachable s) :
    (∀ key key' job job', s.log.store (.record key) = some job →
      s.log.store (.record key') = some job' →
      (JobRecord.decode key job).id = (JobRecord.decode key' job').id → key = key') ∧
    (∀ key job, s.log.store (.record key) = some job →
      (JobRecord.decode key job).storedKey = some key) ∧
    (∀ id key, s.log.store (.jobIndex id) = some key ↔
      ∃ job, s.log.store (.record key) = some job ∧ (JobRecord.decode key job).id = id) := by
  have hi := (inv_reachable h).sound.storeInv
  have hid : ∀ key job, s.log.store (.record key) = some job →
      key.id = (JobRecord.decode key job).id := fun key job hj =>
    JobRecord.id_of_storedKey (hi.record_index key job hj).2
  refine ⟨?_, fun key job hj => (hi.record_index key job hj).2, fun id key => ⟨?_, ?_⟩⟩
  · intro key key' job job' hj hj' he
    exact hi.unique hj hj' (by rw [hid key job hj, hid key' job' hj', he])
  · intro hidx
    obtain ⟨hk, job, hj⟩ := hi.index_record id key hidx
    exact ⟨job, hj, by rw [← hid key job hj, hk]⟩
  · rintro ⟨job, hj, hjid⟩
    rw [← hjid, ← hid key job hj]
    exact (hi.record_index key job hj).1

/-- A queue and a first job, for runs on fixed inputs. -/
def emails : QueueName := ⟨"emails", by decide +kernel⟩

def welcome : PreparedJob where
  job := .newPending "a" emails [1] 3 0 5

/-- The job is claimed, the process crashes and the next one requeues the job. -/
def interruptedClaim : List (Label ℕ ℕ) :=
  [.commit (.enqueue (fun _ _ => none) welcome {}) 0,
    .commit (.claimBatch emails [⟨0, 5, "a"⟩] [1] 7) 1,
    .reopen 2 [{ welcome.job with status := .claimed, attempts := 1, claimedAt := some 7 }],
    .requeue 9]

theorem one_record_one_index_entry_after_reopen :
    ∃ s, (machine ℕ ℕ).run {} interruptedClaim = some s ∧
      s.log.store (.jobIndex "a") = some (.pending emails ⟨0, 5, "a"⟩) ∧
      ∃ job, s.log.store (.record (.pending emails ⟨0, 5, "a"⟩)) = some job ∧
        (JobRecord.decode (.pending emails ⟨0, 5, "a"⟩) job).id = "a" := by
  obtain ⟨s, hs, hidx⟩ : ∃ s, (machine ℕ ℕ).run {} interruptedClaim = some s ∧
      s.log.store (.jobIndex "a") = some (.pending emails ⟨0, 5, "a"⟩) :=
    Machine.exists_of_run_any (by decide +kernel)
  have hreach := Machine.reachable_of_run hs rfl
  exact ⟨s, hs, hidx, ((one_record_one_index_entry hreach).2.2 _ _).mp hidx⟩

end Queue

end Taquba
