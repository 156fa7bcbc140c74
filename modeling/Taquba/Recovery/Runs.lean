import Taquba.Recovery.Commits

/-! # Crashes that keep the acknowledged commits

A call that waits for durability returns only once its commit is durable, so a
crash keeps a prefix of the commits with every such commit in it. Claims, reaps,
promotions, sweeps and inbox applications do not wait. The recovery of the next
open, which may itself be cut short by a crash and run again, leaves no claimed
record, loses no job whose enqueue returned and no job is claimed again after its
acknowledgement returned, unless it is enqueued again.
-/

namespace Taquba

open Snapshot Transition

variable {κ β : Type}
variable {queue : QueueName} {log : History κ β}

/-- The call returns only once its commit is durable. -/
def Call.isAwaited : Call κ β → Bool
  | .enqueue _ _ _ | .commitEffects _ _ | .settle _ _ _ _ _ _ _ _ | .wakeScheduled _ | .signal _ _
  | .cancel _ _ _ | .requeueDeadJob _ _ | .kvCompareThen _ _ _ | .kvPut _ _ | .kvDelete _ => true
  | .claimBatch _ _ _ _ | .claimById _ _ _ | .reap _ _ _ _ _ | .requeueInterrupted _ _
  | .promote _ _ _ | .applyEnqueue _ _ _ _ | .applyCancel _ _ _ _ | .applySignal _ _ _ _ _
  | .commitRejection _ _ _ _ | .sweepVictim _ _ | .sweepInboxRecords _ => false

namespace Recovery

/-- The store, and the commits whose call returned to its caller. -/
structure State (κ β : Type) where
  queue : Queue.State κ β := {}
  returned : List ℕ := []

inductive Label (κ β : Type) where
  | queue (label : Queue.Label κ β)
  | returned (commit : ℕ)

/-- The call of a commit waits for durability. -/
def awaitedAt (log : History κ β) (n : ℕ) : Bool :=
  (log[n]?).any fun c => c.label.call.isAwaited

/-- The crash keeps the commits of the calls that waited for durability and returned. -/
def Keeps (s : State κ β) (kept : ℕ) : Prop :=
  ∀ n ∈ s.returned, awaitedAt s.queue.log n = true → n < kept

instance (s : State κ β) (kept : ℕ) : Decidable (Keeps s kept) :=
  inferInstanceAs (Decidable (∀ n ∈ s.returned, _))

variable [DecidableEq κ] [DecidableEq β]

def step (s : State κ β) : Label κ β → Option (State κ β)
  | .queue (.reopen kept todo) =>
    if Keeps s kept then
      (Queue.step s.queue (.reopen kept todo)).map fun queue =>
        { queue, returned := s.returned.filter (· < kept) }
    else none
  | .queue label => (Queue.step s.queue label).map fun queue => { s with queue }
  | .returned n =>
    if n < s.queue.log.length then some { s with returned := n :: s.returned } else none

/-- The runs of a queue with the returns of its calls. -/
def machine (κ β : Type) [DecidableEq κ] [DecidableEq β] : Machine (State κ β) (Label κ β) where
  init s := s = {}
  step := step

/-- A step of a recovery that began after `n` commits: a requeue, or a crash and the next
open. -/
def Label.isRecovery (n : ℕ) : Label κ β → Bool
  | .queue (.requeue _) => true
  | .queue (.reopen kept _) => n ≤ kept
  | _ => false

variable {s s' : State κ β}

theorem step_cases {l : Label κ β} (h : step s l = some s') :
    (∃ ql, l = .queue ql ∧ Queue.step s.queue ql = some s'.queue ∧
      ((∀ kept todo, ql ≠ .reopen kept todo) ∧ s'.returned = s.returned ∨
        ∃ kept todo, ql = .reopen kept todo ∧ Keeps s kept ∧
          s'.returned = s.returned.filter (· < kept))) ∨
    ∃ n, l = .returned n ∧ n < s.queue.log.length ∧
      s' = { s with returned := n :: s.returned } := by
  cases l with
  | queue ql =>
    cases ql with
    | reopen kept todo =>
      simp only [step, Option.ite_none_right_eq_some, Option.map_eq_some_iff] at h
      obtain ⟨hk, q, hq, rfl⟩ := h
      exact .inl ⟨_, rfl, hq, .inr ⟨kept, todo, rfl, hk, rfl⟩⟩
    | commit | requeue =>
      obtain ⟨q, hq, rfl⟩ := Option.map_eq_some_iff.mp h
      exact .inl ⟨_, rfl, hq, .inl ⟨by simp, rfl⟩⟩
  | returned n =>
    simp only [step, Option.ite_none_right_eq_some] at h
    obtain ⟨hn, ⟨⟩⟩ := h
    exact .inr ⟨n, rfl, hn, rfl⟩

theorem reachable_queue (h : (machine κ β).Reachable s) :
    (Queue.machine κ β).Reachable s.queue := by
  refine h.invariant (I := fun s => (Queue.machine κ β).Reachable s.queue) ?_ ?_
  · rintro _ rfl
    exact .initial rfl
  · rintro s l s' hq hstep
    obtain ⟨ql, -, hstep, -⟩ | ⟨n, -, -, rfl⟩ := step_cases hstep
    · exact hq.next hstep
    · exact hq

theorem awaited_step {l : Label κ β} {n : ℕ} {c : CallCommit κ β}
    (hq : Queue.Inv s.queue) (h : step s l = some s') (hn : n ∈ s.returned)
    (hc : s.queue.log[n]? = some c) (ha : c.label.call.isAwaited = true) :
    n ∈ s'.returned ∧ s'.queue.log[n]? = some c := by
  obtain ⟨ql, -, hstep, ⟨hne, hret⟩ | ⟨kept, todo, rfl, hk, hret⟩⟩ | ⟨m, -, -, rfl⟩ := step_cases h
  · rw [hret]
    obtain ⟨call, snap, d, as, -, hlog, -⟩ := Queue.step_traces hq hstep hne
    refine ⟨hn, ?_⟩
    rw [hlog, List.getElem?_append_left (List.getElem?_eq_some_iff.mp hc).1, hc]
  · have hlt : n < kept := hk n hn (by simp [awaitedAt, hc, ha])
    rw [hret, Queue.log_of_reopen hstep]
    refine ⟨List.mem_filter.mpr ⟨hn, by simpa using hlt⟩, ?_⟩
    rw [List.getElem?_take_of_lt hlt, hc]
  · exact ⟨.tail _ hn, hc⟩

theorem awaited_run {ls : List (Label κ β)} {n : ℕ} {c : CallCommit κ β}
    (hs : (machine κ β).Reachable s) (h : (machine κ β).run s ls = some s') (hn : n ∈ s.returned)
    (hc : s.queue.log[n]? = some c) (ha : c.label.call.isAwaited = true) :
    n ∈ s'.returned ∧ s'.queue.log[n]? = some c := by
  induction ls generalizing s with
  | nil =>
    cases h
    exact ⟨hn, hc⟩
  | cons l ls ih =>
    obtain ⟨u, hu, h⟩ := Option.bind_eq_some_iff.mp h
    obtain ⟨hn', hc'⟩ := awaited_step (Queue.inv_reachable (reachable_queue hs)) hu hn hc ha
    exact ih (hs.next hu) h hn' hc'

section Recovery

/-- A recovery from the commits `p`: every state since then is one of the recovery, and
what is still claimed is to be requeued. -/
structure RecoveryInv (p : History κ β) (q : Queue.State κ β) : Prop where
  queue : Queue.Inv q
  recovered : ∀ n, p.length ≤ n → Recovered p.store (Log.store (q.log.take n))
  todo : ∀ queue id stored, q.log.store (.record (.claimed queue id)) = some stored →
    JobRecord.decode (.claimed queue id) stored ∈ q.todo

variable {p : History κ β} {q q' : Queue.State κ β}

omit [DecidableEq β] in
theorem mem_claimedRecords {id : String} {stored : JobRecord}
    (h : log.store (.record (.claimed queue id)) = some stored) :
    JobRecord.decode (.claimed queue id) stored ∈ log.claimedRecords := by
  refine List.mem_filterMap.mpr ⟨.record (.claimed queue id), ?_, ?_⟩
  · exact History.mem_keys_of_store (by simp [h])
  · simp [h]

theorem todo_reopen {kept : ℕ} {todo : List JobRecord}
    (h : Queue.step q (.reopen kept todo) = some q') :
    q'.log = q.log.take kept ∧ ∀ queue id stored,
      q'.log.store (.record (.claimed queue id)) = some stored →
        JobRecord.decode (.claimed queue id) stored ∈ q'.todo := by
  simp only [Queue.step, Option.ite_none_right_eq_some] at h
  obtain ⟨hperm, ⟨⟩⟩ := h
  exact ⟨rfl, fun queue id stored hst => hperm.mem_iff.mpr (mem_claimedRecords hst)⟩

theorem requeue_eq_some {now : ℕ} (hi : Queue.Inv q)
    (h : Queue.step q (.requeue now) = some q') :
    ∃ job rest job' entry key c, q.todo = job :: rest ∧
      JobAction.Found q.log.store (.claimed job.queue job.id) job ∧ Recovers job job' entry ∧
      job'.storedKey = some key ∧ q' = { q with log := q.log ++ [c], todo := rest } ∧
      Log.store (q.log ++ [c]) = q.log.store.applyBatch
        ((jobActions κ β).batch (requeueActions job job' entry key)) := by
  obtain ⟨job, rest, t, delivered, htodo, hpre, ht, -, rfl⟩ := Queue.requeue_eq_some hi h
  rw [List.take_length] at hpre ht
  obtain ⟨r, hr, -⟩ := Call.committing_eq_some ht
  obtain ⟨job', entry, key, hrec, hkey, hw⟩ := Txn.requeueInterrupted_eq_ok hr
  refine ⟨job, rest, job', entry, key, _, htodo, hpre, hrec, hkey, rfl, ?_⟩
  rw [Log.store_append_singleton]
  simp only [hw, Txn.begin, List.nil_append]
  rfl

theorem recoveryInv_requeue {now : ℕ} (hi : RecoveryInv p q) (hp : StoreInv p.store)
    (hlen : p.length ≤ q.log.length) (h : Queue.step q (.requeue now) = some q') :
    RecoveryInv p q' := by
  have hq' := Queue.inv_step hi.queue h
  obtain ⟨job, rest, job', entry, key, c, htodo, hf, hrec, hkey, rfl, hstore⟩ :=
    requeue_eq_some hi.queue h
  have hlast := hi.recovered q.log.length hlen
  rw [List.take_length] at hlast
  refine ⟨hq', fun n hn => ?_, fun queue id stored hst => ?_⟩
  · rcases Nat.lt_or_ge q.log.length n with hlt | hge
    · rw [List.take_of_length_le (by simp; omega), hstore]
      exact hlast.requeue hp hi.queue.sound.storeInv hf hrec hkey
    · rw [List.take_append_of_le_length hge]
      exact hi.recovered n hn
  · rw [hstore, requeueActions_record] at hst
    split at hst
    · rename_i hk
      have hks := JobRecord.keyStatus_of_storedKey hkey
      rw [← hk] at hks
      exact absurd hks.symm hrec.status_ne_claimed
    · obtain ⟨hne, hst⟩ := Option.ite_none_left_eq_some.mp hst
      have hmem := hi.todo queue id stored hst
      rw [htodo] at hmem
      rcases List.mem_cons.mp hmem with hj | hj
      · have hkey' := (hi.queue.sound.storeInv.record_index _ _ hst).2
        obtain ⟨-, hq, hid⟩ := JobRecord.storedKey_spec hkey'
        rw [hj] at hq hid
        exact absurd (by rw [← hq, ← hid]; rfl) hne
      · exact hj

theorem recoveryInv_run {ls : List (Label κ β)} (hs : RecoveryInv p s.queue)
    (hp : StoreInv p.store) (hlen : p.length ≤ s.queue.log.length)
    (hl : ∀ l ∈ ls, l.isRecovery p.length = true) (h : (machine κ β).run s ls = some s') :
    RecoveryInv p s'.queue := by
  induction ls generalizing s with
  | nil =>
    cases h
    exact hs
  | cons l ls ih =>
    obtain ⟨u, hu, hrun⟩ := Option.bind_eq_some_iff.mp h
    have hrest := fun l' hl' => hl l' (.tail _ hl')
    have hrec := hl l (.head _)
    obtain ⟨ql, rfl, hstep, ⟨hne, -⟩ | ⟨kept, todo, rfl, -, -⟩⟩ | ⟨n, rfl, -⟩ := step_cases hu
    · cases ql with
      | commit call snap => cases hrec
      | reopen kept todo => exact absurd rfl (hne kept todo)
      | requeue now =>
        refine ih (recoveryInv_requeue hs hp hlen hstep) ?_ hrest hrun
        obtain ⟨_, _, _, _, _, c, -, -, -, -, hq, -⟩ := requeue_eq_some hs.queue hstep
        rw [hq, List.length_append]
        omega
    · obtain ⟨hlog, htodo⟩ := todo_reopen hstep
      have hkept : p.length ≤ kept := by simpa [Label.isRecovery] using hrec
      refine ih ⟨Queue.inv_step hs.queue hstep, fun n hn => ?_, htodo⟩ ?_ hrest hrun
      · rw [hlog, List.take_take]
        exact hs.recovered _ (by omega)
      · rw [hlog, List.length_take]
        omega
    · cases hrec

end Recovery

section Jobs

variable {id : String} {n : ℕ} {c : CallCommit κ β}

theorem jobIndex_since (hk : log.Lawful History.KeepsJobs) (hc : log[n]? = some c)
    (hins : (queue, id) ∈ c.label.notes.enqueued) {k : ℕ}
    (hkept : ∀ m d, n < m → m < k → log[m]? = some d → ∀ job,
      d.label.call.removed (Log.store ((log.take m).take d.label.snap)) = some job → job.id ≠ id)
    (hn : n < k) : Log.store (log.take k) (.jobIndex id) ≠ none := by
  have htake : ∀ m d, log[m]? = some d → log.take (m + 1) = log.take m ++ [d] := by
    intro m d hd
    rw [List.take_add_one, hd]
    rfl
  induction k with
  | zero => omega
  | succ m ih =>
    rcases Nat.lt_succ_iff_lt_or_eq.mp hn with hlt | rfl
    · have hprev := ih (fun m' d h h' => hkept m' d h (by omega)) hlt
      cases hd : log[m]? with
      | none =>
        have hlen := List.getElem?_eq_none_iff.mp hd
        rwa [List.take_of_length_le (by omega), ← List.take_of_length_le hlen]
      | some d =>
        rw [htake m d hd]
        exact Log.Lawful.get hk hd id (.inr ⟨hprev, hkept m d hlt (by omega) hd⟩)
    · rw [htake n c hc]
      exact Log.Lawful.get hk hc id (.inl ⟨queue, hins⟩)

omit [DecidableEq β] in
/-- A job whose acknowledgement committed is claimed only after another insert. -/
theorem claimed_after_ack (hd : log.Lawful History.LeavesDone) (ha : log.Lawful History.Completes)
    (hc : log[n]? = some c) {leases effectLeases : Leases} {claimId : ℕ} {keep : Bool}
    {effects : PreparedEffects κ β} {now : ℕ}
    (hcall : c.label.call = .settle leases effectLeases queue id claimId (.ack keep) effects now)
    {m : ℕ} {d : CallCommit κ β} (hn : n < m) (hm : log[m]? = some d)
    (hclaim : ∃ job ∈ d.label.delivered, job.id = id) :
    ∃ k e q, n ≤ k ∧ k ≤ m ∧ log[k]? = some e ∧ (q, id) ∈ e.label.notes.enqueued := by
  by_contra hnone
  push Not at hnone
  have hdone : ∀ k, n < k → k ≤ m → OnlyDone id (Log.store (log.take k)) := by
    intro k
    induction k with
    | zero => omega
    | succ k ih =>
      intro hlt hle
      have hk : k < log.length := by
        have := (List.getElem?_eq_some_iff.mp hm).1
        omega
      have hget : log[k]? = some log[k] := List.getElem?_eq_getElem hk
      have hins : ∀ q, (q, id) ∉ (log[k]).label.notes.enqueued := fun q =>
        hnone k _ q (by omega) (by omega) hget
      rw [List.take_add_one, hget]
      rcases Nat.lt_succ_iff_lt_or_eq.mp hlt with hlt | rfl
      · exact (Log.Lawful.get hd hget id hins (ih hlt (by omega))).1
      · obtain rfl : log[n] = c := Option.some.inj (hget.symm.trans hc)
        exact Log.Lawful.get ha hget _ _ _ _ _ _ _ _ hcall hins
  obtain ⟨job, hj, hid⟩ := hclaim
  have hins : ∀ q, (q, id) ∉ d.label.notes.enqueued := fun q => hnone m d q hn.le le_rfl hm
  exact (Log.Lawful.get hd hm id hins (hdone m hn le_rfl)).2 job hj hid

end Jobs

variable {s₀ s₁ : State κ β} {kept : ℕ} {todo : List JobRecord} {ls : List (Label κ β)}

/-- What an open after a crash and its whole recovery give. -/
theorem recovered_of_open (hs : (machine κ β).Reachable s)
    (hopen : step s (.queue (.reopen kept todo)) = some s₀) {p : History κ β}
    (hp : p = s.queue.log.take kept) (hls : ∀ l ∈ ls, l.isRecovery p.length = true)
    (hrun : (machine κ β).run s₀ ls = some s₁) (htodo : s₁.queue.todo = []) :
    Keeps s kept ∧ StoreInv p.store ∧ Recovered p.store s₁.queue.log.store ∧
      ∀ queue id, s₁.queue.log.store (.record (.claimed queue id)) = none := by
  have hinv := Queue.inv_reachable (reachable_queue hs)
  have hpinv : StoreInv p.store := by
    rw [hp]
    exact (hinv.sound.take kept).storeInv
  obtain ⟨ql, hql, hstep, ⟨hne, -⟩ | ⟨k, td, hr, hkeeps, -⟩⟩ | ⟨_, hql, -⟩ := step_cases hopen
  · cases hql
    exact absurd rfl (hne kept todo)
  · cases hql
    cases hr
    obtain ⟨hlog, htodo₀⟩ := todo_reopen hstep
    rw [← hp] at hlog
    have hri : RecoveryInv p s₀.queue := by
      refine ⟨Queue.inv_step hinv hstep, fun n hn => ?_, htodo₀⟩
      rw [hlog, List.take_of_length_le hn]
      exact .refl _
    have hri₁ := recoveryInv_run hri hpinv (by rw [hlog]) hls hrun
    refine ⟨hkeeps, hpinv, ?_, fun queue id => ?_⟩
    · have hrec := hri₁.recovered (max p.length s₁.queue.log.length) (by omega)
      rwa [List.take_of_length_le (by omega)] at hrec
    · cases hst : s₁.queue.log.store (.record (.claimed queue id)) with
      | none => rfl
      | some stored =>
        have hmem := hri₁.todo queue id stored hst
        rw [htodo] at hmem
        cases hmem
  · cases hql

omit [DecidableEq κ] [DecidableEq β] in
theorem requeued_of_recovered {p s : Store (Val κ β)} (h : Recovered p s)
    (hnone : ∀ queue id, s (.record (.claimed queue id)) = none) {id : String} {old : JobRecord}
    (hf : JobAction.Found p (.claimed queue id) old) :
    ∃ job entry key, Recovers old job entry ∧ job.storedKey = some key ∧
      s (.record key) = some job.stored ∧
      s (.attemptHistory id) = some ((p (.attemptHistory id)).getD [] ++ [entry]) := by
  rcases h.interrupted queue id old hf with ⟨hsame, -⟩ | hr
  · obtain ⟨stored, hst, -⟩ := Option.map_eq_some_iff.mp hf
    rw [hnone, hst] at hsame
    cases hsame
  · exact hr

omit [DecidableEq κ] [DecidableEq β] in
theorem record_of_recovered {p s : Store (Val κ β)} (h : Recovered p s) (hp : StoreInv p)
    (hnone : ∀ queue id, s (.record (.claimed queue id)) = none) {id : String}
    (hidx : p (.jobIndex id) ≠ none) : ∃ key, s (.record key) ≠ none ∧ key.id = id := by
  obtain ⟨key, hkey⟩ := Option.ne_none_iff_exists'.mp hidx
  obtain ⟨hid, job, hj⟩ := hp.index_record id key hkey
  by_cases hc : key.keyStatus = .claimed
  · cases key with
    | claimed q i =>
      have hf : JobAction.Found p (.claimed q i) _ := .of_record hj
      obtain ⟨job', entry, key', hr, hk', hst, -⟩ := requeued_of_recovered h hnone hf
      refine ⟨key', by simp [hst], ?_⟩
      rw [JobRecord.id_of_storedKey hk', hr.same.id]
      exact (JobRecord.id_of_storedKey (hp.record_index _ _ hj).2).symm.trans hid
    | _ => cases hc
  · exact ⟨key, by simp [h.kept key job hj hc], hid⟩

/-- A crash keeps a prefix `p` of the commits that has those of the calls that waited for
durability and returned, and the recovery of the next open, with crashes in between,
runs to its end. Then no record is claimed. A job that was claimed in `p` is pending, or
dead with its attempts exhausted, with the same attempts and one entry added to its
history; every other record and history is as in `p`. A job that a returned call
inserted, and that no commit of `p` removed since, has exactly one record. A job whose
acknowledgement returned is not claimed in any continuation, unless it was inserted
again. -/
theorem recovery_complete (hs : (machine κ β).Reachable s)
    (hopen : step s (.queue (.reopen kept todo)) = some s₀) {p : History κ β}
    (hp : p = s.queue.log.take kept) (hls : ∀ l ∈ ls, l.isRecovery p.length = true)
    (hrun : (machine κ β).run s₀ ls = some s₁) (htodo : s₁.queue.todo = []) :
    (∀ queue id, s₁.queue.log.store (.record (.claimed queue id)) = none) ∧
    (∀ queue id old, JobAction.Found p.store (.claimed queue id) old →
      ∃ job entry key, Recovers old job entry ∧ job.storedKey = some key ∧
        s₁.queue.log.store (.record key) = some job.stored ∧
        s₁.queue.log.store (.attemptHistory id) =
          some ((p.store (.attemptHistory id)).getD [] ++ [entry])) ∧
    (∀ key job, p.store (.record key) = some job → key.keyStatus ≠ .claimed →
      s₁.queue.log.store (.record key) = some job ∧
        s₁.queue.log.store (.attemptHistory key.id) = p.store (.attemptHistory key.id)) ∧
    (∀ key job, s₁.queue.log.store (.record key) = some job → p.store (.record key) = some job ∨
      ∃ queue old, JobAction.Found p.store (.claimed queue key.id) old) ∧
    (∀ n c queue id, n ∈ s.returned → s.queue.log[n]? = some c →
      c.label.call.isAwaited = true → (queue, id) ∈ c.label.notes.enqueued →
      (∀ m d, n < m → m < kept → s.queue.log[m]? = some d → ∀ job, d.label.call.removed
        (Log.store ((s.queue.log.take m).take d.label.snap)) = some job → job.id ≠ id) →
      ∃! key, s₁.queue.log.store (.record key) ≠ none ∧ key.id = id) ∧
    ∀ n c leases effectLeases queue id claimId keep effects now, n ∈ s.returned →
      s.queue.log[n]? = some c →
      c.label.call = .settle leases effectLeases queue id claimId (.ack keep) effects now →
      ∀ ls' s₂, (machine κ β).run s₁ ls' = some s₂ → ∀ m d, n < m →
        s₂.queue.log[m]? = some d → (∃ job ∈ d.label.delivered, job.id = id) →
        ∃ k e q, n ≤ k ∧ k ≤ m ∧ s₂.queue.log[k]? = some e ∧
          (q, id) ∈ e.label.notes.enqueued := by
  obtain ⟨hkeeps, hpinv, hrec, hnone⟩ := recovered_of_open hs hopen hp hls hrun htodo
  have hqs := reachable_queue hs
  have hs₀ : (machine κ β).Reachable s₀ := hs.next (a := .queue (.reopen kept todo)) hopen
  have hs₁ := hs₀.run hrun
  refine ⟨hnone, fun queue id old hf => requeued_of_recovered hrec hnone hf,
    fun key job hj hk => ?_, fun key job hj => ?_, ?_, ?_⟩
  · refine ⟨hrec.kept key job hj hk, hrec.history key.id fun queue => ?_⟩
    cases hst : p.store (.record (.claimed queue key.id)) with
    | none => rfl
    | some stored =>
      rw [hpinv.unique hj hst rfl] at hk
      exact absurd rfl hk
  · exact (hrec.back key job hj).imp_right And.right
  · intro n c queue id hn hc ha hins hkept
    have hlt : n < kept := hkeeps n hn (by simp [awaitedAt, hc, ha])
    have hk := Queue.lawful_reachable (P := History.KeepsJobs)
      (fun _ _ _ _ _ hs _ hp ht hc => keepsJobs_of_attempt hs hp ht hc) hqs
    have hidx := jobIndex_since hk hc hins hkept hlt
    rw [← hp] at hidx
    obtain ⟨key, hne, hid⟩ := record_of_recovered hrec hpinv hnone hidx
    refine ⟨key, ⟨hne, hid⟩, ?_⟩
    rintro key' ⟨hne', hid'⟩
    obtain ⟨job, hj⟩ := Option.ne_none_iff_exists'.mp hne
    obtain ⟨job', hj'⟩ := Option.ne_none_iff_exists'.mp hne'
    have hi := (Queue.inv_reachable (reachable_queue hs₁)).sound.storeInv
    exact hi.unique hj' hj (hid'.trans hid.symm)
  · intro n c leases effectLeases queue id claimId keep effects now hn hc hcall ls' s₂ hrun' m d
      hlt hm hclaim
    have ha : c.label.call.isAwaited = true := by
      rw [hcall]
      rfl
    obtain ⟨hn₀, hc₀⟩ := awaited_step (Queue.inv_reachable hqs) hopen hn hc ha
    obtain ⟨hn₁, hc₁⟩ := awaited_run hs₀ hrun hn₀ hc₀ ha
    obtain ⟨-, hc₂⟩ := awaited_run hs₁ hrun' hn₁ hc₁ ha
    have hs₂ := reachable_queue (hs₁.run hrun')
    have hd := Queue.lawful_reachable (P := History.LeavesDone)
      (fun _ _ _ _ _ hs _ hp ht hc => leavesDone_of_attempt hs hp ht hc) hs₂
    have hcompl := Queue.lawful_reachable (P := History.Completes)
      (fun _ _ _ _ _ hs _ hp ht hc => completes_of_attempt hs hp ht hc) hs₂
    exact claimed_after_ack hd hcompl hc₂ hcall hlt hm hclaim

def claimedJob : List (Label ℕ ℕ) :=
  [.queue (.commit (.enqueue (fun _ _ => none) Queue.welcome {}) 0), .returned 0,
    .queue (.commit (.claimBatch Queue.emails [⟨0, 5, "a"⟩] [1] 7) 1)]

def openAfterCrash : Label ℕ ℕ :=
  .queue (.reopen 2
    [{ Queue.welcome.job with status := .claimed, attempts := 1, claimedAt := some 7 }])

/-- The process crashes with both commits durable, and once more before it requeued the
job. After the second recovery the job is not claimed and has one record. -/
theorem recovery_complete_after_two_crashes :
    ∃ s s₀ s₁, (machine ℕ ℕ).run {} claimedJob = some s ∧ step s openAfterCrash = some s₀ ∧
      (machine ℕ ℕ).run s₀ [openAfterCrash, .queue (.requeue 9)] = some s₁ ∧
      (∀ queue id, s₁.queue.log.store (.record (.claimed queue id)) = none) ∧
      ∃! key, s₁.queue.log.store (.record key) ≠ none ∧ key.id = "a" := by
  obtain ⟨s, hs, hsteps, hret, hlen, hfirst, hsecond⟩ :
      ∃ s, (machine ℕ ℕ).run {} claimedJob = some s ∧
      ((step s openAfterCrash).any fun s₀ =>
        ((machine ℕ ℕ).run s₀ [openAfterCrash, .queue (.requeue 9)]).any fun s₁ =>
          s₁.queue.todo.isEmpty) = true ∧
      0 ∈ s.returned ∧ s.queue.log.length = 2 ∧
      ((s.queue.log[0]?).any fun c => c.label.call.isAwaited &&
        (Queue.emails, "a") ∈ c.label.notes.enqueued) = true ∧
      ((s.queue.log[1]?).all fun d => (d.label.call.removed
        (Log.store ((s.queue.log.take 1).take d.label.snap))).isNone) = true :=
    Machine.exists_of_run_any (by decide +kernel)
  obtain ⟨s₀, hs₀, hsteps⟩ := (Option.any_eq_true _ _).mp hsteps
  obtain ⟨s₁, hs₁, htodo⟩ := (Option.any_eq_true _ _).mp hsteps
  obtain ⟨c, hc, hins⟩ := (Option.any_eq_true _ _).mp hfirst
  rw [Bool.and_eq_true, decide_eq_true_iff] at hins
  have hreach := Machine.reachable_of_run hs rfl
  have hls : ∀ l ∈ [openAfterCrash, .queue (.requeue 9)],
      l.isRecovery (s.queue.log.take 2).length = true := by
    simp [openAfterCrash, Label.isRecovery]
  obtain ⟨hnone, -, -, -, hkept, -⟩ := recovery_complete hreach hs₀ rfl hls hs₁
    (List.isEmpty_iff.mp htodo)
  refine ⟨s, s₀, s₁, hs, hs₀, hs₁, hnone, hkept 0 c _ _ hret hc hins.1 hins.2 fun m d h h' hd => ?_⟩
  obtain rfl : m = 1 := by omega
  rw [hd] at hsecond
  simp [Option.isNone_iff_eq_none.mp hsecond]

end Recovery

end Taquba
