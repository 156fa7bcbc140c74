import Taquba.Queue.Trace

/-! # What the stages of a call write

A stage keeps the snapshot of its transaction, adds to its read set and writes the records,
index entries, dedup entries and histories of jobs. Only some stages write a count, a job that
waits for one, or a key of the user or the inbox. Only a compare fails with a failed compare,
and only a new job is refused because another one waits.
-/

namespace Taquba

open Snapshot

variable {κ β : Type}

theorem Except.bind_eq_error {ε α γ : Type} {x : Except ε α} {f : α → Except ε γ} {e : ε} :
    x >>= f = .error e ↔ x = .error e ∨ ∃ a, x = .ok a ∧ f a = .error e := by
  cases x with
  | error e => simp [bind, Except.bind]
  | ok a => simp [bind, Except.bind]

/-- What writes may do beyond the keys of jobs that wait for nothing. -/
structure Scope where
  waits : Prop
  counts : Prop
  external : Prop

/-- How a stage may fail because of other calls. -/
structure Faults where
  compares : Prop
  refusals : Prop

def Faults.any : Faults := ⟨True, True⟩

def Scope.Admits (A : Scope) : (Σ k : Key κ, Write (Val κ β k)) → Prop
  | ⟨.record _, .merge _⟩ => False
  | ⟨.record key, .put job⟩ => A.waits ∨ (key.keyStatus ≠ .pending → job.countWait = none)
  | ⟨.count _, _⟩ => A.counts
  | ⟨.user _, _⟩ | ⟨.inboxRecord _ _, _⟩ | ⟨.inboxExpiry _ _ _, _⟩ => A.external
  | _ => True

def Faults.Admits (F : Faults) : Error κ → Prop
  | .kvCompareFailed _ => F.compares
  | .countWaiterExists _ _ => F.refusals
  | _ => True

namespace Txn

structure Adds (A : Scope) (t t' : Txn κ β) : Prop where
  base : t'.base = t.base
  reads : t.reads ⊆ t'.reads
  writes : ∃ ws, t'.writes = t.writes ++ ws ∧ ∀ w ∈ ws, A.Admits w

/-- A stage adds writes of the scope, or it fails in one of the ways. -/
def Staged (A : Scope) (F : Faults) {α : Type} (txn : α → Txn κ β) (t : Txn κ β) :
    Except (Error κ) α → Prop
  | .ok a => Adds A t (txn a)
  | .error e => F.Admits e

section Combinators

variable {A : Scope} {F : Faults} {t t' t'' : Txn κ β}

theorem Adds.of_eq (hb : t'.base = t.base) (hr : t'.reads = t.reads)
    (hw : t'.writes = t.writes) : Adds A t t' :=
  ⟨hb, hr ▸ List.Subset.refl _, [], by simp [hw], by simp⟩

theorem Adds.refl (t : Txn κ β) : Adds A t t :=
  .of_eq rfl rfl rfl

theorem Adds.trans (h : Adds A t t') (h' : Adds A t' t'') : Adds A t t'' := by
  obtain ⟨hb, hr, ws, hw, hA⟩ := h
  obtain ⟨hb', hr', ws', hw', hA'⟩ := h'
  exact ⟨hb'.trans hb, List.Subset.trans hr hr', ws ++ ws', by rw [hw', hw, List.append_assoc],
    List.forall_mem_append.mpr ⟨hA, hA'⟩⟩

theorem Adds.write {w : Σ k : Key κ, Write (Val κ β k)} (h : Adds A t t')
    (hb : t''.base = t'.base) (hr : t''.reads = t'.reads) (hw : t''.writes = t'.writes ++ [w])
    (hA : A.Admits w) : Adds A t t'' :=
  h.trans ⟨hb, hr ▸ List.Subset.refl _, [w], hw, by simpa using hA⟩

theorem adds_markRead (t : Txn κ β) (k : Key κ) : Adds A t (t.markRead k) :=
  ⟨rfl, List.subset_append_left _ _, [], by simp [markRead], by simp⟩

theorem adds_foldl {γ : Type} {f : Txn κ β → γ → Txn κ β} (hf : ∀ t c, Adds A t (f t c))
    (t : Txn κ β) (cs : List γ) : Adds A t (cs.foldl f t) := by
  induction cs generalizing t with
  | nil => exact .refl t
  | cons c cs ih => exact (hf t c).trans (ih (f t c))

variable {α γ : Type} {txn : α → Txn κ β} {txn' : γ → Txn κ β} {r : Except (Error κ) α}

theorem Staged.of_ok {a : α} (h : Staged A F txn t r) (hr : r = .ok a) : Adds A t (txn a) := by
  rw [hr] at h
  exact h

theorem Staged.of_error {e : Error κ} (h : Staged A F txn t r) (hr : r = .error e) :
    F.Admits e := by
  rw [hr] at h
  exact h

theorem Adds.staged (h : Adds A t t') (h' : Staged A F txn t' r) : Staged A F txn t r := by
  cases r with
  | error e => exact h'
  | ok a => exact h.trans h'

theorem Staged.bind {f : α → Except (Error κ) γ} (h : Staged A F txn t r)
    (h' : ∀ a, Staged A F txn' (txn a) (f a)) : Staged A F txn' t (r >>= f) := by
  cases r with
  | error e => exact h
  | ok a => exact Adds.staged h (h' a)

end Combinators

section Stages

variable {A : Scope} {F : Faults} (t : Txn κ β) (source : RecordKey) {job : JobRecord} (now : ℕ)

/-- A moved job that stays scheduled must not wait. -/
theorem staged_moveJob (h : A.waits ∨ (job.status = .scheduled → job.countWait = none)) :
    Staged A F Prod.fst t (t.moveJob source job) := by
  have hput : ∀ key, A.Admits (κ := κ) (β := β)
      ⟨.record key, .put (leaveWaits job).stored⟩ := by
    refine fun key => h.imp id fun hs hk => ?_
    by_cases hst : job.status = .scheduled
    · simp [leaveWaits, hst, JobRecord.stored, hs hst]
    · exact (leavesWaits_leaveWaits job (by simpa using hst)).2
  unfold moveJob
  simp only
  split
  · rename_i key hkey
    split
    · exact Adds.write (.refl t) rfl rfl rfl (hput key)
    · have hd : Adds A t (t.delete (.record source)) :=
        .write (.refl t) rfl rfl rfl trivial
      have hr : Adds A t ((t.delete (.record source)).put (.record key) _) :=
        hd.write rfl rfl rfl (hput key)
      exact hr.write rfl rfl rfl trivial
  · exact trivial

theorem adds_stageRemove (job : JobRecord) :
    Adds A t (t.stageRemove source job) := by
  have hr : Adds A t (t.delete (.record source)) :=
    .write (.refl t) rfl rfl rfl trivial
  have hi : Adds A t ((t.delete (.record source)).delete (.jobIndex job.id)) :=
    hr.write rfl rfl rfl trivial
  have ha : Adds A t (((t.delete (.record source)).delete
      (.jobIndex job.id)).delete (.attemptHistory job.id)) := hi.write rfl rfl rfl trivial
  simp only [stageRemove]
  split
  · exact ha.write rfl rfl rfl trivial
  · exact ha.trans (.of_eq rfl rfl rfl)

theorem adds_appendAttempt (id : String) (entry : JobAttempt) :
    Adds A t (t.appendAttempt id entry) :=
  .write (.refl t) rfl rfl rfl trivial

theorem staged_stageClaimEnd (claimEnd : ClaimEnd) (h : A.waits ∨ job.countWait = none) :
    Staged A F Prod.fst t (t.stageClaimEnd job claimEnd now) := by
  unfold stageClaimEnd
  simp only
  split
  · split
    · exact (adds_appendAttempt ..).staged (staged_moveJob _ _ (.inr (by simp)))
    · exact adds_stageRemove ..
  · split
    · exact (adds_appendAttempt ..).staged (staged_moveJob _ _ (.inr (by simp)))
    · exact (adds_appendAttempt ..).staged (staged_moveJob _ _ (h.imp id fun h _ => h))
  · unfold stageDeadLetter
    exact (adds_appendAttempt ..).staged (staged_moveJob _ _ (.inr (by simp)))

theorem staged_stageToPending (job : JobRecord) :
    Staged A F Prod.fst t (t.stageToPending source job) :=
  staged_moveJob _ _ (.inr (by simp))

theorem staged_stageClaim (job : JobRecord) :
    Staged A F Prod.fst t (t.stageClaim source job now) := by
  refine (staged_moveJob t source (.inr (by simp))).bind fun a => ?_
  change Adds _ _ _
  split
  · exact .write (.refl _) rfl rfl rfl trivial
  · exact .refl _

theorem staged_stageClaims (cs : List (RecordKey × JobRecord)) :
    Staged A F Prod.fst t (t.stageClaims now cs) := by
  induction cs generalizing t with
  | nil => exact Adds.refl t
  | cons c cs ih =>
    exact (staged_stageClaim ..).bind fun a => (ih a.1).bind fun b => Adds.refl b.1

variable [DecidableEq κ]

theorem staged_readClaim (leases : Leases)
    (queue : QueueName) (id : String) (claimId : ℕ) :
    Staged A F Prod.fst t (t.readClaim leases queue id claimId) := by
  unfold readClaim
  split
  · split
    · split
      · exact adds_markRead ..
      · exact trivial
    · exact trivial
  · exact trivial

theorem staged_takeClaim (leases : Leases) (queue : QueueName) (id : String) (claimId : ℕ) :
    Staged A F Prod.fst t (t.takeClaim leases queue id claimId) :=
  (staged_readClaim ..).bind fun a => Adds.write (.refl a.1) rfl rfl rfl trivial

theorem staged_stageFence (leases : Leases)
    (fence : Option ClaimFence) : Staged A F id t (t.stageFence leases fence) := by
  cases fence with
  | none => exact Adds.refl t
  | some fence => exact (staged_readClaim ..).bind fun a => Adds.refl a.1

theorem staged_stageWake (id : String) (wake : Wake) :
    Staged A F Prod.fst t (t.stageWake id wake) := by
  unfold stageWake
  split
  · exact Adds.refl t
  · split
    · exact Adds.refl t
    · split
      · exact Adds.refl t
      · exact (staged_stageToPending ..).bind fun a => Adds.refl a.1

theorem staged_stageSignal (id : String) (payload : List UInt8) :
    Staged A F Prod.fst t (t.stageSignal id payload) :=
  (staged_stageWake ..).bind fun a => Adds.refl a.1

theorem staged_stageCancel (id : String) :
    Staged A F Prod.fst t (t.stageCancel id) := by
  unfold stageCancel
  split
  · exact Adds.refl t
  · split
    · exact adds_stageRemove ..
    · exact adds_stageRemove ..
    · rename_i hst
      split
      · exact Adds.refl t
      · exact (staged_moveJob _ _ (.inr (by simp [hst]))).bind fun a => Adds.refl a.1
    · exact Adds.refl t
    · exact Adds.refl t

theorem staged_claimBatch (queue : QueueName) (keys : List PendingKey) :
    Staged A F Prod.fst t (t.claimBatch queue keys now) := by
  unfold claimBatch
  split
  · exact Adds.refl t
  · exact (staged_stageClaims ..).bind fun a => Adds.refl a.1

theorem staged_claimById (id : String) :
    Staged A F Prod.fst t (t.claimById id now) := by
  unfold claimById
  split
  · exact Adds.refl t
  · split
    · exact (staged_stageClaim ..).bind fun a => Adds.refl a.1
    · exact Adds.refl t

theorem staged_reapJob (leases : Leases) (queue : QueueName) (id : String) (claimId : ℕ)
    (h : A.waits ∨ ∀ job ∈ t.get (.record (.claimed queue id)), job.countWait = none) :
    Staged A F Prod.fst t (t.reapJob leases queue id claimId now) := by
  unfold reapJob
  split
  · split
    · exact Adds.refl t
    · rename_i stored hg
      exact (staged_stageClaimEnd _ _ _ (h.imp_right fun h => h stored hg)).bind fun a =>
        Adds.refl a.1
  · exact Adds.refl t

theorem staged_promoteJob (runAt : ℕ) (queue : QueueName) (id : String) :
    Staged A F Prod.fst t (t.promoteJob runAt queue id) := by
  unfold promoteJob
  split
  · exact Adds.refl t
  · exact (staged_stageToPending ..).bind fun a => Adds.refl a.1

theorem staged_requeueDeadJob (id : String) :
    Staged A F Prod.fst t (t.requeueDeadJob id now) := by
  unfold requeueDeadJob
  split
  · exact trivial
  · split
    · exact trivial
    · exact (staged_stageToPending ..).bind fun a => adds_appendAttempt ..

theorem staged_sweepVictim (job : JobRecord) :
    Staged A F Prod.fst t (t.sweepVictim source job) := by
  unfold sweepVictim
  split
  · exact adds_stageRemove ..
  · exact Adds.refl t

omit [DecidableEq κ] in
/-- A new job that is not pending must not wait. -/
theorem staged_insertJob (h : A.waits ∨ job.status = .pending ∨ job.countWait = none) :
    Staged A F id t (t.insertJob job) := by
  unfold insertJob
  split
  · rename_i key hkey
    have hr : Adds A t (t.put (.record key) job.stored) := by
      refine .write (.refl t) rfl rfl rfl (h.imp_right fun h hk => ?_)
      rw [JobRecord.keyStatus_of_storedKey hkey] at hk
      exact h.resolve_left hk
    exact hr.write rfl rfl rfl trivial
  · exact trivial

omit [DecidableEq κ] in
theorem adds_putDedup (job : JobRecord) : Adds A t (t.putDedup job) := by
  unfold putDedup
  split
  · exact .write (.refl t) rfl rfl rfl trivial
  · exact .refl t

theorem staged_stageCountChange (hA : A.counts) (checks : Bool) (name : String) (delta : Int64) :
    Staged A F id t (t.stageCountChange checks name delta) := by
  unfold stageCountChange
  simp only
  split
  · exact Adds.refl t
  · split
    · exact trivial
    · split
      · exact Adds.write (.refl t) rfl rfl rfl hA
      · have hd : Adds A t (t.delete (.count name)) := .write (.refl t) rfl rfl rfl hA
        split
        · exact hd.staged ((staged_stageWake ..).bind fun a => Adds.refl a.1)
        · exact hd

theorem staged_stageCountChanges (hA : A.counts) (checks : Bool)
    (changes : List (String × Int64)) :
    Staged A F id t (t.stageCountChanges checks changes) := by
  induction changes generalizing t with
  | nil => exact Adds.refl t
  | cons change changes ih => exact (staged_stageCountChange t hA _ _ _).bind ih

theorem staged_stageCountWait (hA : A.counts) (hF : F.refusals) (job : JobRecord) :
    Staged A F Prod.fst t (t.stageCountWait job) := by
  unfold stageCountWait
  split
  · exact Adds.refl t
  · simp only
    split
    · exact Adds.refl t
    · split
      · split
        · exact hF
        · exact Adds.write (.refl t) rfl rfl rfl hA
      · exact Adds.write (.refl t) rfl rfl rfl hA

theorem staged_stageJobWrites (hA : A.waits ∧ A.counts) (hF : F.refusals)
    (prepared : PreparedJob) : Staged A F Prod.fst t (t.stageJobWrites prepared) := by
  unfold stageJobWrites
  simp only
  split
  · exact Adds.refl t
  · split
    · exact trivial
    · refine (staged_stageCountWait t hA.2 hF _).bind fun a => ?_
      exact (staged_insertJob _ (.inl hA.1)).bind fun t' => adds_putDedup t' _

theorem staged_stageJobs (hA : A.waits ∧ A.counts) (hF : F.refusals) (jobs : List PreparedJob) :
    Staged A F Prod.fst t (t.stageJobs jobs) := by
  induction jobs generalizing t with
  | nil => exact Adds.refl t
  | cons job jobs ih =>
    refine (staged_stageJobWrites t hA hF job).bind fun a => ?_
    exact (ih a.1).bind fun b => Adds.refl b.1

theorem staged_stageCompares [DecidableEq β] (hF : F.compares) (compares : List (KvCompare κ β)) :
    Staged A F id t (t.stageCompares compares) := by
  induction compares generalizing t with
  | nil => exact Adds.refl t
  | cons c compares ih =>
    unfold stageCompares
    split
    · exact (adds_markRead ..).staged (ih _)
    · exact hF

omit [DecidableEq κ] in
theorem adds_stageKv (hA : A.external) (kvWrites : List (κ × β)) (kvDeletes : List κ) :
    Adds A t (t.stageKv kvWrites kvDeletes) := by
  have hput : ∀ (t : Txn κ β) (w : κ × β), Adds A t (t.put (.user w.1) w.2) :=
    fun t _ => .write (.refl t) rfl rfl rfl hA
  have hdelete : ∀ (t : Txn κ β) (k : κ), Adds A t (t.delete (.user k)) :=
    fun t _ => .write (.refl t) rfl rfl rfl hA
  exact (adds_foldl hput t kvWrites).trans (adds_foldl hdelete _ kvDeletes)

omit [DecidableEq κ] in
theorem adds_noteExpiryEntries (entries : List (ExpiryIndex × ℕ)) :
    Adds A t (entries.foldl (fun t e => t.noteExpiryEntry e.1 e.2) t) :=
  adds_foldl (fun t e => (.of_eq rfl rfl rfl : Adds A t (t.noteExpiryEntry e.1 e.2))) t entries

omit [DecidableEq κ] in
theorem adds_stageInboxRecord (hA : A.external) (queue : QueueName) (id : String)
    (record : InboxRecord) : Adds A t (t.stageInboxRecord queue id record) :=
  ⟨rfl, List.Subset.refl _, [⟨.inboxRecord queue id, .put record⟩,
    ⟨.inboxExpiry record.appliedAtMs queue id, .put ()⟩], by simp [stageInboxRecord, put],
    by simp [Scope.Admits, hA]⟩

omit [DecidableEq κ] in
theorem staged_requeueInterrupted (h : A.waits ∨ job.countWait = none) :
    Staged A F Prod.fst t (t.requeueInterrupted job now) :=
  (staged_stageClaimEnd _ _ _ h).bind fun a => Adds.refl a.1

theorem staged_wakeScheduled (id : String) :
    Staged A F Prod.fst t (t.wakeScheduled id) :=
  (staged_stageWake ..).bind fun a => Adds.refl a.1

theorem staged_signal (id : String) (payload : List UInt8) :
    Staged A F Prod.fst t (t.signal id payload) :=
  (staged_stageSignal ..).bind fun a => Adds.refl a.1

omit [DecidableEq κ] in
theorem staged_sweepInboxRecords (hA : A.external) (entries : List (ℕ × QueueName × String)) :
    Staged A F Prod.fst t (t.sweepInboxRecords entries) := by
  have hdelete : ∀ (t : Txn κ β) (e : ℕ × QueueName × String),
      Adds A t ((t.delete (.inboxExpiry e.1 e.2.1 e.2.2)).delete (.inboxRecord e.2.1 e.2.2)) := by
    intro t e
    have he : Adds A t (t.delete (.inboxExpiry e.1 e.2.1 e.2.2)) :=
      .write (.refl t) rfl rfl rfl hA
    exact he.write rfl rfl rfl hA
  exact adds_foldl hdelete t entries

theorem staged_kvCompareThen [DecidableEq β] (hA : A.external) (key : κ)
    (expected value : Option β) :
    Staged A F Prod.fst t (t.kvCompareThen key expected value) := by
  unfold kvCompareThen
  split
  · cases value with
    | none => exact (adds_markRead t _).write rfl rfl rfl hA
    | some v => exact (adds_markRead t _).write rfl rfl rfl hA
  · exact Adds.refl t

end Stages

end Txn

/-- What the application of an inbox entry does besides its record. -/
inductive InboxEffect where
  | enqueue (prepared : PreparedJob)
  | cancel (jobId : String)
  | signal (jobId : String) (payload : List UInt8)
  | reject (rejection : Rejection)

structure Application where
  queue : QueueName
  id : String
  appliedAt : ℕ
  effect : InboxEffect

def Application.call (a : Application) : Call κ β :=
  match a.effect with
  | .enqueue prepared => .applyEnqueue a.queue a.id a.appliedAt prepared
  | .cancel jobId => .applyCancel a.queue a.id a.appliedAt jobId
  | .signal jobId payload => .applySignal a.queue a.id a.appliedAt jobId payload
  | .reject rejection => .commitRejection a.queue a.id a.appliedAt rejection

section Effect

variable [DecidableEq κ]

def InboxEffect.stage (queue : QueueName) (t : Txn κ β) :
    InboxEffect → Except (Error κ) (Txn κ β × InboxOutcome)
  | .enqueue prepared => do
    let (t, written) ← t.stageJobWrites prepared
    return (t, .enqueue (match written with
      | .ok id => .new id
      | .error existing => .alreadyEnqueued existing))
  | .cancel jobId =>
    match t.onAnotherQueue jobId queue with
    | some rejection => .ok (t, .rejected rejection)
    | none => do
      let (t, staged) ← t.stageCancel jobId
      return (t, .cancel staged.outcome)
  | .signal jobId payload =>
    match t.onAnotherQueue jobId queue with
    | some rejection => .ok (t, .rejected rejection)
    | none => do
      let (t, outcome) ← t.stageSignal jobId payload
      return (t, .signal outcome)
  | .reject rejection => .ok (t, .rejected rejection)

theorem InboxEffect.staged_stage {A : Scope} {F : Faults} (queue : QueueName) (t : Txn κ β)
    (effect : InboxEffect)
    (h : A.waits ∧ A.counts ∧ F.refusals ∨ ∀ prepared, effect ≠ .enqueue prepared) :
    Txn.Staged A F Prod.fst t (effect.stage queue t) := by
  cases effect with
  | enqueue prepared =>
    obtain ⟨hw, hc, hF⟩ := h.resolve_right fun h => h prepared rfl
    exact (Txn.staged_stageJobWrites t ⟨hw, hc⟩ hF prepared).bind fun a => Txn.Adds.refl a.1
  | cancel jobId =>
    simp only [stage]
    split
    · exact Txn.Adds.refl t
    · exact (Txn.staged_stageCancel ..).bind fun a => Txn.Adds.refl a.1
  | signal jobId payload =>
    simp only [stage]
    split
    · exact Txn.Adds.refl t
    · exact (Txn.staged_stageSignal ..).bind fun a => Txn.Adds.refl a.1
  | reject rejection => exact Txn.Adds.refl t

variable [DecidableEq β] {s : Store (Val κ β)} {t : Txn κ β} {delivered : List JobRecord}

/-- An application stages its effect and then its record. -/
theorem Application.attempt_eq_some {a : Application}
    (h : (a.call : Call κ β).attempt s = some (t, delivered)) :
    ∃ t₁ outcome, a.effect.stage a.queue (Txn.begin s) = .ok (t₁, outcome) ∧
      t = t₁.stageInboxRecord a.queue a.id ⟨a.appliedAt, outcome⟩ := by
  obtain ⟨queue, id, appliedAt, effect⟩ := a
  cases effect with
  | enqueue prepared =>
    obtain ⟨value, hr, -⟩ := Call.committing_eq_some h
    obtain ⟨⟨t₁, written⟩, h₁, hr⟩ := Except.bind_eq_ok.mp hr
    cases hr
    refine ⟨t₁, _, ?_, rfl⟩
    simp only [InboxEffect.stage, h₁]
    rfl
  | cancel jobId =>
    obtain ⟨value, hr, -⟩ := Call.committing_eq_some h
    simp only [Txn.applyCancel] at hr
    split at hr
    · rename_i rejection hq
      cases hr
      exact ⟨Txn.begin s, _, by simp only [InboxEffect.stage, hq], rfl⟩
    · rename_i hq
      obtain ⟨⟨t₁, staged⟩, h₁, hr⟩ := Except.bind_eq_ok.mp hr
      cases hr
      refine ⟨t₁, _, ?_, rfl⟩
      simp only [InboxEffect.stage, hq, h₁]
      rfl
  | signal jobId payload =>
    obtain ⟨value, hr, -⟩ := Call.committing_eq_some h
    simp only [Txn.applySignal] at hr
    split at hr
    · rename_i rejection hq
      cases hr
      exact ⟨Txn.begin s, _, by simp only [InboxEffect.stage, hq], rfl⟩
    · rename_i hq
      obtain ⟨⟨t₁, outcome⟩, h₁, hr⟩ := Except.bind_eq_ok.mp hr
      cases hr
      refine ⟨t₁, _, ?_, rfl⟩
      simp only [InboxEffect.stage, hq, h₁]
      rfl
  | reject rejection =>
    simp only [Application.call, Call.attempt] at h
    obtain ⟨value, hr, -⟩ := Call.committing_eq_some h
    cases hr
    exact ⟨Txn.begin s, _, rfl, rfl⟩

end Effect

end Taquba
