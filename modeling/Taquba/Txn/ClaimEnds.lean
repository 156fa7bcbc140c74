import Taquba.Txn.Transitions

/-! # The actions of the start and the end of a claim

A claim moves a waiting record into the claimed key space and releases its dedup
entry. The end of a claim removes the claimed record or moves it to the state the
transition chose. A settlement stages the deletion of the claimed record before
that, which adds nothing.
-/

namespace Taquba

open Snapshot

def ClaimEnd.status : ClaimEnd → JobStatus
  | .done _ => .done
  | .retry none _ _ => .pending
  | .retry (some _) _ _ => .scheduled
  | .dead _ => .dead

theorem ClaimEnd.status_ne_claimed (claimEnd : ClaimEnd) : claimEnd.status ≠ .claimed := by
  match claimEnd with
  | .done _ | .retry none _ _ | .retry (some _) _ _ | .dead _ => simp [ClaimEnd.status]

namespace Txn

variable {κ β : Type}

inductive EndActions (old : JobRecord) (claimEnd : ClaimEnd) : List (JobAction κ β) → Prop where
  | remove : claimEnd = .done false →
      EndActions old claimEnd [.remove (.claimed old.queue old.id) old true]
  | move {entry : JobAttempt} {job : JobRecord} {key : RecordKey} :
      job.storedKey = some key → job.id = old.id → job.queue = old.queue →
      job.dedupKey = old.dedupKey → job.status = claimEnd.status → JobAction.LeavesWaits job →
      EndActions old claimEnd
        [.history old.id entry, .move (.claimed old.queue old.id) old job key]

/-- The actions write no job but the one they found, as it is `written`, and remove it when
it is not kept. -/
structure EndCarries (old : JobRecord) (claimEnd : ClaimEnd) (written : JobRecord)
    (as : List (JobAction κ β)) : Prop where
  carries : ∀ a ∈ as, a.Carries []
  removes : claimEnd = .done false → .remove (.claimed old.queue old.id) old true ∈ as
  moves : ∀ source o job key, .move source o job key ∈ as → job = written ∧ claimEnd ≠ .done false

section End

variable {t t' : Txn κ β} {old job' : JobRecord} {claimEnd : ClaimEnd} {now : ℕ}
  {as : List (JobAction κ β)}

theorem appendAttempt_moveJob_eq_ok {entry : JobAttempt} {job : JobRecord}
    (h : (t.appendAttempt old.id entry).moveJob (.claimed old.queue old.id) job = .ok (t', job'))
    (hd : job.dedupKey = old.dedupKey) (hs : job.status ≠ .claimed) :
    job' = leaveWaits job ∧ ∃ key, job'.storedKey = some key ∧ t'.base = t.base ∧
      t'.writes = t.writes ++ (jobActions κ β).batch
        [.history old.id entry, .move (.claimed old.queue old.id) old job' key] ∧
      Notes t t' [.history old.id entry, .move (.claimed old.queue old.id) old job' key] := by
  obtain ⟨rfl, key, hkey, hb, -, ⟨rfl, -⟩ | ⟨-, hw, hn⟩⟩ := moveJob_eq_ok h
  · have := JobRecord.keyStatus_of_storedKey hkey
    rw [leaveWaits_status] at this
    exact absurd this.symm hs
  · refine ⟨rfl, key, hkey, hb, ?_, (notes_appendAttempt t old.id entry).trans (hn old)⟩
    rw [hw]
    cases hk : old.dedupKey <;>
      simp [appendAttempt, merge, jobActions, JobAction.writes, JobAction.releaseDedup, hd, hk]

theorem moveJob_of_claimed {entry : JobAttempt} {job : JobRecord}
    (h : (t.appendAttempt old.id entry).moveJob (.claimed old.queue old.id) job
      = .ok (t', job'))
    (hsame : JobRecord.Same old job) (hd : job.dedupKey = old.dedupKey)
    (hs : job.status = claimEnd.status) (hkeep : claimEnd ≠ .done false) :
    JobRecord.Same old job' ∧ ∃ as, EndActions (κ := κ) (β := β) old claimEnd as ∧
      EndCarries old claimEnd job' as ∧ t'.base = t.base ∧
      t'.writes = t.writes ++ (jobActions κ β).batch as ∧ Notes t t' as := by
  obtain ⟨rfl, key, hkey, hb, hw, hn⟩ :=
    appendAttempt_moveJob_eq_ok h hd (hs ▸ claimEnd.status_ne_claimed)
  have hsame' := hsame.trans (same_leaveWaits job)
  exact ⟨hsame', _,
    .move hkey hsame'.id hsame'.queue (by simp [hd]) (by simp [hs]) (leavesWaits_leaveWaits job),
    ⟨by simpa [JobAction.Carries] using hsame', fun h => absurd h hkeep,
      by simp +contextual [hkeep]⟩,
    hb, hw, hn⟩

/-- The end of a claim reads nothing: its writes do not depend on the transaction. -/
theorem stageClaimEnd_eq_ok (h : t.stageClaimEnd old claimEnd now = .ok (t', job')) :
    JobRecord.Same old job' ∧ ∃ as, EndActions (κ := κ) (β := β) old claimEnd as ∧
      EndCarries old claimEnd job' as ∧ t'.base = t.base ∧
      t'.writes = t.writes ++ (jobActions κ β).batch as ∧ Notes t t' as := by
  have hsame : ∀ status claimedAt runAt lastError completedAt failedAt, JobRecord.Same old
      { old with status, claimedAt, runAt, lastError, completedAt, failedAt } :=
    fun _ _ _ _ _ _ => ⟨rfl, rfl, rfl, rfl, rfl, rfl, rfl, rfl⟩
  match claimEnd with
  | .done true =>
    simp only [stageClaimEnd, if_true] at h
    exact moveJob_of_claimed h (hsame _ _ _ _ _ _) rfl rfl (by simp)
  | .done false =>
    cases h
    refine ⟨hsame _ _ _ _ _ _, _, .remove rfl, ⟨by simp [JobAction.Carries], by simp, by simp⟩,
      stageRemove_base _ _ _, ?_, notes_stageRemove rfl⟩
    refine (stageRemove_writes (t := t) rfl rfl rfl true).trans ?_
    rw [Actions.batch_cons, Actions.batch_nil, List.append_nil]
    rfl
  | .retry none outcome error =>
    simp only [stageClaimEnd, stageToPending] at h
    exact moveJob_of_claimed h (hsame _ _ _ _ _ _) rfl rfl (by simp)
  | .retry (some runAt) outcome error =>
    simp only [stageClaimEnd] at h
    exact moveJob_of_claimed h (hsame _ _ _ _ _ _) rfl rfl (by simp)
  | .dead error =>
    simp only [stageClaimEnd, stageDeadLetter] at h
    exact moveJob_of_claimed h (hsame _ _ _ _ _ _) rfl rfl (by simp)

theorem EndActions.delete_equiv (ha : EndActions (κ := κ) (β := β) old claimEnd as)
    [DecidableEq κ] :
    Batch.Equiv (⟨.record (.claimed old.queue old.id), .delete⟩ :: (jobActions κ β).batch as)
      ((jobActions κ β).batch as) := by
  cases ha with
  | remove => exact Batch.Equiv.delete_cons [] _ (by simp)
  | @move entry =>
    let us : Batch (Val κ β) := [⟨.attemptHistory old.id, .merge [entry]⟩]
    exact Batch.Equiv.delete_cons us _ (by simp [us])

variable [DecidableEq κ]

theorem EndActions.allEnabled (ha : EndActions old claimEnd as)
    (hf : JobAction.Found t.view (.claimed old.queue old.id) old) (hd : old.dedupKey = none) :
    (jobActions κ β).AllEnabled as t.view := by
  cases ha with
  | remove => exact ⟨hf, trivial⟩
  | move hkey hid hq hdk hs hlw =>
    refine ⟨trivial, ⟨?_, ?_, hkey, hid, hq, ?_, .inl hdk, hlw⟩, trivial⟩
    · exact JobAction.found_congr (JobAction.history_of_not_isPlain _ _ rfl).symm hf
    · rintro rfl
      exact claimEnd.status_ne_claimed (hs.symm.trans (JobRecord.keyStatus_of_storedKey hkey).symm)
    · intro h
      exact absurd (hdk.trans hd) h

/-- A reap or a requeue at open ends the claim of the record it found. -/
theorem extends_stageClaimEnd (hf : JobAction.Found t.view (.claimed old.queue old.id) old)
    (hd : old.dedupKey = none) (h : t.stageClaimEnd old claimEnd now = .ok (t', job')) :
    JobRecord.Same old job' ∧
      ∃ as, EndActions old claimEnd as ∧ EndCarries old claimEnd job' as ∧ Extends t t' as := by
  obtain ⟨hsame, as, ha, hcarries, hb, hw, hn⟩ := stageClaimEnd_eq_ok h
  exact ⟨hsame, as, ha, hcarries, hb, hw ▸ .refl _, ha.allEnabled hf hd, hn⟩

/-- So does a settlement, which deleted the claimed record first. -/
theorem extends_delete_stageClaimEnd
    (hf : JobAction.Found t.view (.claimed old.queue old.id) old) (hd : old.dedupKey = none)
    (h : (t.delete (.record (.claimed old.queue old.id))).stageClaimEnd old claimEnd now
      = .ok (t', job')) :
    JobRecord.Same old job' ∧
      ∃ as, EndActions old claimEnd as ∧ EndCarries old claimEnd job' as ∧ Extends t t' as := by
  obtain ⟨hsame, as, ha, hcarries, hb, hw, hn⟩ := stageClaimEnd_eq_ok h
  refine ⟨hsame, as, ha, hcarries, hb, ?_, ha.allEnabled hf hd, hn.stats, hn.enqueued, hn.le,
    hn.covers⟩
  rw [hw]
  simp only [delete, List.append_assoc, List.singleton_append]
  exact (Batch.Equiv.refl _).append ha.delete_equiv

end End

section Start

variable [DecidableEq κ] {t t' : Txn κ β} {source : RecordKey} {old job : JobRecord} {now : ℕ}

def claimAction (source : RecordKey) (old job : JobRecord) : JobAction κ β :=
  .move source old job (.claimed old.queue old.id)

theorem extends_stageClaim (hf : JobAction.Found t.view source old)
    (hs : source.keyStatus ≠ .claimed) (h : t.stageClaim source old now = .ok (t', job)) :
    JobRecord.Same old job ∧ job.status = .claimed ∧ job.dedupKey = none ∧
      Extends t t' [claimAction source old job] := by
  obtain ⟨⟨t₁, claimed⟩, hm, h⟩ := Except.bind_eq_ok.mp h
  obtain ⟨hc, key, hkey, hb, -, hcase⟩ := moveJob_eq_ok hm
  have hsame : JobRecord.Same old claimed := by
    rw [hc]
    refine JobRecord.Same.trans ?_ (same_leaveWaits _)
    exact ⟨rfl, rfl, rfl, rfl, rfl, rfl, rfl, rfl⟩
  obtain ⟨hid, hq⟩ : claimed.id = old.id ∧ claimed.queue = old.queue := ⟨hsame.id, hsame.queue⟩
  obtain ⟨hst, hd⟩ : claimed.status = .claimed ∧ claimed.dedupKey = none := by simp [hc]
  have hk : key = .claimed old.queue old.id := by
    simpa [JobRecord.storedKey, hst, hq, hid, eq_comm] using hkey
  have hne : source ≠ key := by
    rintro rfl
    exact hs (by rw [hk]; rfl)
  obtain ⟨-, hw, hn⟩ := hcase.resolve_left fun h => hne h.1
  subst hk
  have hen : (claimAction (κ := κ) (β := β) source old claimed).Enabled t.view :=
    ⟨hf, hne, hkey, hid, hq, fun h => absurd hd h, .inr ⟨hd, hst⟩,
      hc ▸ leavesWaits_leaveWaits _⟩
  cases hdk : old.dedupKey with
  | none =>
    rw [hdk] at h
    cases h
    refine ⟨hsame, hst, hd, .single hb ?_ (hn old) hen⟩
    simp [hw, claimAction, JobAction.writes, JobAction.releaseDedup, hdk]
  | some dedupKey =>
    rw [hdk] at h
    cases h
    refine ⟨hsame, hst, hd, .single hb ?_
      ⟨(hn old).stats, (hn old).enqueued, (hn old).le, (hn old).covers⟩ hen⟩
    simp [delete, hw, claimAction, JobAction.writes, JobAction.releaseDedup, hdk, hd, hq]

end Start

end Txn

end Taquba
