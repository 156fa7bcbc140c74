import Mathlib.Algebra.Ring.Int.Defs
import Taquba.Txn.Effects
import Taquba.Txn.Notes
import Taquba.Store.Index

/-! # The actions behind staged writes

A staged transition extends a transaction by a sequence of job actions that are
enabled where they run. Its writes are those of the actions, up to a claimed
record deleted twice, its counter changes are their sum, and its notes list the
new jobs and cover the writes.
-/

namespace Taquba

open Snapshot

theorem Except.bind_eq_ok {ε α γ : Type} {x : Except ε α} {f : α → Except ε γ} {c : γ} :
    x >>= f = .ok c ↔ ∃ a, x = .ok a ∧ f a = .ok c := by
  cases x with
  | error e => simp [bind, Except.bind]
  | ok a => simp [bind, Except.bind]

theorem Except.map_eq_ok {ε α γ : Type} {x : Except ε α} {f : α → γ} {c : γ} :
    x.map f = .ok c ↔ ∃ a, x = .ok a ∧ f a = c := by
  cases x with
  | error e => simp [Except.map]
  | ok a => simp [Except.map]

namespace Txn

variable {κ β : Type}

/-- What a sequence of actions adds to the notes and the counters. -/
structure Notes (t t' : Txn κ β) (as : List (JobAction κ β)) : Prop where
  stats : ∀ q status, t'.stats q status = t.stats q status + (as.map (·.delta q status)).sum
  enqueued : t'.notes.enqueued = t.notes.enqueued ++ as.filterMap (·.insert?)
  le : t.notes.Le t'.notes
  covers : ∀ w ∈ (jobActions κ β).batch as, t'.notes.Covers w

namespace Notes

variable {t t' t'' : Txn κ β} {as bs : List (JobAction κ β)}

theorem trans (h : Notes t t' as) (h' : Notes t' t'' bs) : Notes t t'' (as ++ bs) where
  stats q status := by
    rw [h'.stats, h.stats, List.map_append, List.sum_append, Int.add_assoc]
  enqueued := by rw [h'.enqueued, h.enqueued, List.filterMap_append, List.append_assoc]
  le := h.le.trans h'.le
  covers w hw := by
    rw [Actions.batch_append, List.mem_append] at hw
    rcases hw with hw | hw
    · exact (h.covers w hw).mono h'.le
    · exact h'.covers w hw

theorem of_eq (hs : t'.stats = t.stats) (he : t'.notes.enqueued = t.notes.enqueued)
    (hle : t.notes.Le t'.notes) : Notes t t' [] where
  stats q status := by simp [hs]
  enqueued := by simp [he]
  le := hle
  covers w hw := by cases hw

theorem single {a : JobAction κ β}
    (hs : ∀ q status, t'.stats q status = t.stats q status + a.delta q status)
    (he : t'.notes.enqueued = t.notes.enqueued ++ a.insert?.toList) (hle : t.notes.Le t'.notes)
    (hc : ∀ w ∈ a.writes, t'.notes.Covers w) : Notes t t' [a] where
  stats q status := by simp [hs]
  enqueued := by
    rw [he]
    cases h : a.insert? <;> simp [h]
  le := hle
  covers w hw := by
    rw [Actions.batch_cons, Actions.batch_nil, List.append_nil] at hw
    exact hc w hw

end Notes

variable [DecidableEq κ]

structure Extends (t t' : Txn κ β) (as : List (JobAction κ β)) : Prop where
  base : t'.base = t.base
  writes : Batch.Equiv t'.writes (t.writes ++ (jobActions κ β).batch as)
  enabled : (jobActions κ β).AllEnabled as t.view
  notes : Notes t t' as

namespace Extends

variable {t t' t'' : Txn κ β} {as bs : List (JobAction κ β)}

theorem view_eq (h : Extends t t' as) :
    t'.view = t.view.applyBatch ((jobActions κ β).batch as) := by
  rw [view, view, h.base, h.writes.apply, Store.applyBatch_append]

theorem trans (h : Extends t t' as) (h' : Extends t' t'' bs) : Extends t t'' (as ++ bs) where
  base := h'.base.trans h.base
  writes := by
    rw [Actions.batch_append, ← List.append_assoc]
    exact h'.writes.trans (h.writes.append (.refl _))
  enabled := h.enabled.append (h.view_eq ▸ h'.enabled)
  notes := h.notes.trans h'.notes

theorem inv (h : Extends t t' as) (hi : StoreInv t.view) : StoreInv t'.view := by
  rw [h.view_eq]
  exact h.enabled.invariant StoreInv.action hi

theorem of_eq (hb : t'.base = t.base) (hw : t'.writes = t.writes) (hn : Notes t t' []) :
    Extends t t' [] where
  base := hb
  writes := by
    rw [hw, Actions.batch_nil, List.append_nil]
    exact .refl _
  enabled := trivial
  notes := hn

theorem refl (t : Txn κ β) : Extends t t [] := of_eq rfl rfl (.of_eq rfl rfl (.refl _))

theorem single {a : JobAction κ β} (hb : t'.base = t.base) (hw : t'.writes = t.writes ++ a.writes)
    (hn : Notes t t' [a]) (he : a.Enabled t.view) : Extends t t' [a] where
  base := hb
  writes := by
    rw [hw]
    simp only [Actions.batch_cons, Actions.batch_nil, List.append_nil]
    exact .refl _
  enabled := ⟨he, trivial⟩
  notes := hn

end Extends

section Primitive

variable (t : Txn κ β)

theorem extends_put {k : Key κ} (v : Val κ β k) (hk : k.isPlain = true)
    (hc : t.notes.Covers ⟨k, .put v⟩) : Extends t (t.put k v) [.plain ⟨k, .put v⟩] :=
  .single rfl rfl (.single (fun _ _ => by simp [put, JobAction.delta])
    (by simp [put, JobAction.insert?]) (.refl _)
    (fun _ hw => List.mem_singleton.mp hw ▸ hc)) hk

theorem extends_delete {k : Key κ} (hk : k.isPlain = true) :
    Extends t (t.delete k) [.plain ⟨k, .delete⟩] :=
  .single rfl rfl (.single (fun _ _ => by simp [delete, JobAction.delta])
    (by simp [delete, JobAction.insert?]) (.refl _)
    (by cases k <;> simp [JobAction.writes, CommitNotes.Covers])) hk

omit [DecidableEq κ] in
theorem notes_appendAttempt (id : String) (entry : JobAttempt) :
    Notes t (t.appendAttempt id entry) [.history id entry] :=
  .single (fun _ _ => by simp [appendAttempt, merge, JobAction.delta])
    (by simp [appendAttempt, merge, JobAction.insert?]) (.refl _)
    (by simp [JobAction.writes, CommitNotes.Covers])

theorem extends_appendAttempt (id : String) (entry : JobAttempt) :
    Extends t (t.appendAttempt id entry) [.history id entry] :=
  .single rfl rfl (t.notes_appendAttempt id entry) trivial

theorem extends_markRead (k : Key κ) : Extends t (t.markRead k) [] :=
  .of_eq rfl rfl (.of_eq rfl rfl (.refl _))

theorem extends_noteExpiryEntry (index : ExpiryIndex) (atMs : ℕ) :
    Extends t (t.noteExpiryEntry index atMs) [] :=
  .of_eq rfl rfl (.of_eq rfl rfl
    { CommitNotes.Le.refl t.notes with expiry := List.subset_append_left _ _ })

theorem extends_stageInboxRecord (queue : QueueName) (id : String) (record : InboxRecord) :
    Extends t (t.stageInboxRecord queue id record)
      [.plain ⟨.inboxRecord queue id, .put record⟩,
        .plain ⟨.inboxExpiry record.appliedAtMs queue id, .put ()⟩] where
  base := rfl
  writes := by
    simp only [stageInboxRecord, put, List.append_assoc]
    exact .refl _
  enabled := ⟨rfl, rfl, trivial⟩
  notes := {
    stats := fun q status => by simp [stageInboxRecord, put, JobAction.delta]
    enqueued := by simp [stageInboxRecord, put, JobAction.insert?]
    le := { CommitNotes.Le.refl t.notes with
      inbox := fun b h => by
        change ∃ a, earliest t.notes.inbox (some record.appliedAtMs) = some a ∧ a ≤ b
        exact earliest_le_left h }
    covers := by
      simp only [Actions.batch_cons, Actions.batch_nil, jobActions, JobAction.writes,
        List.append_nil, List.singleton_append, List.mem_cons, List.not_mem_nil, or_false,
        forall_eq_or_imp, forall_eq]
      exact ⟨trivial, earliest_le_right _⟩ }

end Primitive

section Moves

variable {t t' : Txn κ β} {source key : RecordKey} {job job' old : JobRecord}

/-- What a transition may do to the record it found: it keeps the job's identity
and, while the job waits, its dedup key. -/
structure Rewrites (old job : JobRecord) : Prop where
  id : job.id = old.id
  queue : job.queue = old.queue
  dedupKey : job.dedupKey = old.dedupKey
  waits : JobAction.DedupWaits job

omit [DecidableEq κ] in
theorem covers_releaseDedup {notes : CommitNotes} {kept : Option String}
    {w : Σ k : Key κ, Write (Val κ β k)} (hw : w ∈ JobAction.releaseDedup old kept) :
    notes.Covers w := by
  unfold JobAction.releaseDedup at hw
  split at hw
  · rw [List.mem_singleton.mp hw]
    trivial
  · cases hw

omit [DecidableEq κ] in
/-- A move rewrites the record in place, or replaces it and repoints the index. -/
theorem moveJob_eq_ok (h : t.moveJob source job = .ok (t', job')) :
    job' = leaveWaits job ∧ ∃ key, job'.storedKey = some key ∧ t'.base = t.base ∧
      t'.reads = t.reads ∧
      ((source = key ∧ t'.writes = t.writes ++ [⟨.record key, .put job'.stored⟩] ∧
        ∀ old, Notes t t' [.rewrite key old job']) ∨
      (source ≠ key ∧
        t'.writes = t.writes ++ [⟨.record source, .delete⟩, ⟨.record key, .put job'.stored⟩,
          ⟨.jobIndex job'.id, .put key⟩] ∧
        ∀ old, Notes t t' [.move source old job' key])) := by
  unfold moveJob at h
  simp only at h
  split at h
  · rename_i key hkey
    have hcov : ∀ u : Txn κ β, (u.noteWritten (leaveWaits job) key).notes.CoversKey key :=
      fun u => u.coversKey_noteWritten hkey
    split_ifs at h with hs
    · cases h
      refine ⟨rfl, key, hkey, rfl, rfl, .inl ⟨hs, rfl, fun old => ?_⟩⟩
      refine .single (fun q status => ?_) ?_ (le_noteWritten (t.put _ _) _ _) ?_
      · simp [noteWritten, put, JobAction.delta]
      · simp [put, JobAction.insert?]
      · intro w hw
        rw [List.mem_singleton.mp hw]
        exact hcov _
    · cases h
      refine ⟨rfl, key, hkey, rfl, rfl, .inr ⟨hs, ?_, fun old => ?_⟩⟩
      · simp [countMove, putJob, put, delete]
      · refine .single (fun q status => ?_) ?_ (le_noteWritten (((t.delete _).put _ _).put _ _) _ _)
          ?_
        · simp [countMove, putJob, noteWritten, put, delete, JobAction.delta]
        · simp [countMove, putJob, put, delete, JobAction.insert?]
        · intro w hw
          simp only [JobAction.writes, List.mem_append, List.mem_cons, List.not_mem_nil,
            or_false] at hw
          rcases hw with (rfl | rfl | rfl) | hw
          · trivial
          · exact hcov _
          · trivial
          · exact covers_releaseDedup hw
  · cases h

theorem extends_moveJob (hf : JobAction.Found t.view source old) (hr : Rewrites old job)
    (hs : source.keyStatus ≠ job.status) (h : t.moveJob source job = .ok (t', job')) :
    ∃ key, job'.storedKey = some key ∧ source ≠ key ∧ Extends t t' [.move source old job' key] := by
  obtain ⟨rfl, key, hkey, hb, -, ⟨rfl, -⟩ | ⟨hne, hw, hn⟩⟩ := moveJob_eq_ok h
  · exact absurd (by simp [JobRecord.keyStatus_of_storedKey hkey]) hs
  · refine ⟨key, hkey, hne, .single hb ?_ (hn old) ?_⟩
    · rw [hw]
      cases hd : old.dedupKey <;>
        simp [JobAction.writes, JobAction.releaseDedup, hr.dedupKey, hd]
    · refine ⟨hf, hne, hkey, by simp [hr.id], by simp [hr.queue], ?_, .inl (by simp [hr.dedupKey]),
        leavesWaits_leaveWaits job⟩
      intro hd
      rw [leaveWaits_dedupKey] at hd
      rw [leaveWaits_status]
      exact hr.waits hd

/-- The cancellation flag of a claimed job is set in place. -/
theorem extends_flag (hkey : old.storedKey = some source) (hf : JobAction.Found t.view source old)
    (hst : old.status = .claimed)
    (h : t.moveJob source { old with cancelRequested := true } = .ok (t', job')) :
    Extends t t' [.rewrite source old job'] := by
  obtain ⟨rfl, key, hkey', hb, -, hcase⟩ := moveJob_eq_ok h
  have hk : source = key := by
    simp only [JobRecord.storedKey, leaveWaits_status, leaveWaits_queue, leaveWaits_id,
      hst] at hkey'
    simp only [JobRecord.storedKey, hst] at hkey
    exact Option.some.inj (hkey.symm.trans hkey')
  obtain ⟨-, hw, hn⟩ := hcase.resolve_right fun h => h.1 hk
  subst hk
  refine .single hb hw (hn old) ⟨hf, hkey', by simp, fun hsig hcount => ?_⟩
  simp [leaveWaits, hst, ← hsig, ← hcount]

omit [DecidableEq κ] in
theorem notes_stageRemove (hq : job.queue = old.queue) :
    Notes t (t.stageRemove key job) [.remove key old (job.status = .done)] := by
  refine .single (fun q status => ?_) ?_ ?_ ?_
  · cases hk : job.dedupKey <;> simp [stageRemove, countMove, delete, hk, JobAction.delta, hq]
  · cases hk : job.dedupKey <;> simp [stageRemove, countMove, delete, hk, JobAction.insert?]
  · cases hk : job.dedupKey <;> simp only [stageRemove, countMove, delete, hk] <;> exact .refl _
  · intro w hw
    simp only [JobAction.writes, List.mem_append, List.mem_cons, List.not_mem_nil, or_false] at hw
    rcases hw with (rfl | rfl | rfl) | hw
    · trivial
    · trivial
    · trivial
    · exact covers_releaseDedup hw

omit [DecidableEq κ] in
@[simp] theorem stageRemove_base (t : Txn κ β) (key : RecordKey) (job : JobRecord) :
    (t.stageRemove key job).base = t.base := by
  cases hk : job.dedupKey <;> simp [stageRemove, countMove, delete, hk]

omit [DecidableEq κ] in
theorem stageRemove_writes (hid : job.id = old.id) (hq : job.queue = old.queue)
    (hd : job.dedupKey = old.dedupKey) (completed : Bool) :
    (t.stageRemove key job).writes = t.writes ++ JobAction.writes (.remove key old completed) := by
  cases hk : job.dedupKey <;> rw [hk] at hd <;>
    simp [stageRemove, countMove, delete, hk, JobAction.writes, JobAction.releaseDedup, hid, hq,
      ← hd]

theorem extends_stageRemove (hf : JobAction.Found t.view key old) (hid : job.id = old.id)
    (hq : job.queue = old.queue) (hd : job.dedupKey = old.dedupKey) :
    Extends t (t.stageRemove key job) [.remove key old (job.status = .done)] :=
  .single (stageRemove_base _ _ _) (stageRemove_writes hid hq hd _) (notes_stageRemove hq) hf

end Moves

end Txn

end Taquba
