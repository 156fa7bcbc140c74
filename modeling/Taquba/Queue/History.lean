import Taquba.Queue.Trace

/-! # Committed calls

The history of a store is the log of the calls that committed. A call commits when
its attempt on some earlier state succeeds and no later commit wrote a key that it
tracks. A committed call has run its actions on the state it committed to, so every
state of a history has one record and one index entry for each job.
-/

namespace Taquba

open Snapshot

variable {κ β : Type}

/-- What the history knows about a commit: the call, the number of commits its
snapshot saw, its notes, its counter changes and the jobs it delivered. -/
structure Entry (κ β : Type) where
  call : Call κ β
  snap : ℕ
  notes : CommitNotes
  stats : QueueName → JobStatus → ℤ
  delivered : List JobRecord

abbrev History (κ β : Type) := Log (Val κ β) (Entry κ β)

abbrev CallCommit (κ β : Type) := Commit (Val κ β) (Entry κ β)

structure Performs [DecidableEq κ] (log : History κ β) (c : CallCommit κ β)
    (as : List (JobAction κ β)) : Prop where
  writes : Batch.Equiv c.writes ((jobActions κ β).batch as)
  enabled : (jobActions κ β).AllEnabled as log.store
  unwritten : ¬ log.Conflicts c.label.snap (Batch.keys c.writes)
  shape : Shape as c.label.delivered c.label.call.ended
    c.label.call.acked c.label.call.cancels
  stats : ∀ q status, c.label.stats q status = (as.map (·.delta q status)).sum
  enqueued : c.label.notes.enqueued = as.filterMap (·.insert?)
  covers : ∀ w ∈ (jobActions κ β).batch as, c.label.notes.Covers w

variable [DecidableEq κ]
variable {c : CallCommit κ β} {as : List (JobAction κ β)}

/-- The commits of the history each performed job actions. -/
def History.Sound (log : History κ β) : Prop :=
  log.Lawful fun log c => ∃ as, Performs log c as

theorem Performs.store_eq {log : History κ β} (h : Performs log c as) :
    Log.store (log ++ [c]) = log.store.applyBatch ((jobActions κ β).batch as) := by
  rw [Log.store_append_singleton, h.writes.apply]

theorem Performs.covers_of_ne_none {log : History κ β} (hp : Performs log c as) {key : Key κ}
    (hk : key ∈ Batch.keys c.writes) (h : Log.store (log ++ [c]) key ≠ none) :
    ∃ w : Write (Val κ β key), w ≠ .delete ∧ c.label.notes.Covers ⟨key, w⟩ := by
  rw [hp.store_eq] at h
  obtain ⟨w, hw, hne⟩ := Store.exists_write_of_ne_none ((hp.writes.keys key).mp hk) h
  exact ⟨w, hne, hp.covers _ hw⟩

theorem Performs.coversKey {log : History κ β} (hp : Performs log c as) {key : RecordKey}
    (hk : .record key ∈ Batch.keys c.writes) (h : Log.store (log ++ [c]) (.record key) ≠ none) :
    c.label.notes.CoversKey key := by
  obtain ⟨w, hne, hc⟩ := hp.covers_of_ne_none hk h
  cases w with
  | put v => exact hc
  | merge v => exact hc
  | delete => exact absurd rfl hne

theorem History.Sound.storeInv {log : History κ β} (h : log.Sound) : StoreInv log.store := by
  refine Log.Lawful.invariant h storeInv_empty ?_
  rintro log c ⟨as, hp⟩ hi
  rw [hp.writes.apply]
  exact hp.enabled.invariant StoreInv.action hi

def History.Spares (log : History κ β) (c : CallCommit κ β) : Prop :=
  ∀ key job, log.store (.record key) = some job → ¬ c.label.call.Takes key →
    Log.store (log ++ [c]) (.record key) = some job

theorem Performs.spares {log : History κ β} (hp : Performs log c as) (hi : StoreInv log.store)
    (ht : ∀ a ∈ as, ∀ key ∈ a.source?, c.label.call.Takes key) : History.Spares log c := by
  intro key job hj hnot
  rw [hp.store_eq]
  exact hi.record_actions hp.enabled hj fun a ha hs => hnot (ht a ha key hs)

/-- A record that no call since then may take is still there. -/
theorem History.record_since {log : History κ β} (h : log.Lawful History.Spares) {n : ℕ}
    {key : RecordKey} {job : JobRecord} (hj : Log.store (log.take n) (.record key) = some job)
    (hnot : ∀ c ∈ log.drop n, ¬ c.label.call.Takes key) :
    log.store (.record key) = some job :=
  h.invariant_since (I := fun l => Log.store l (.record key) = some job) hj
    fun _ c _ hspares hc hl => hspares key job hl (hnot c hc)

theorem History.Sound.get {log : History κ β} (h : log.Sound) {n : ℕ} (hn : log[n]? = some c) :
    log.take (n + 1) = log.take n ++ [c] ∧ ∃ as, Performs (log.take n) c as := by
  refine ⟨?_, Log.Lawful.get h hn⟩
  rw [List.take_add_one, hn]
  rfl

theorem History.Sound.take {log : History κ β} (h : log.Sound) (n : ℕ) :
    History.Sound (log.take n) :=
  Log.Lawful.take h n

section Commit

variable [DecidableEq β]

def commitCall (log : History κ β) (call : Call κ β) (snap : ℕ) : Option (History κ β) :=
  match call.attempt (Log.store (log.take snap)) with
  | some (t, delivered) =>
    if log.Conflicts snap t.tracked then none
    else some (log ++ [⟨⟨call, snap, t.notes, t.stats, delivered⟩, t.writes⟩])
  | none => none

variable {log log' : History κ β} {call : Call κ β} {snap : ℕ}

theorem commitCall_eq_some (h : commitCall log call snap = some log') :
    ∃ t delivered, call.attempt (Log.store (log.take snap)) = some (t, delivered) ∧
      ¬ log.Conflicts snap t.tracked ∧
      log' = log ++ [⟨⟨call, snap, t.notes, t.stats, delivered⟩, t.writes⟩] := by
  unfold commitCall at h
  split at h
  · rename_i t delivered ht
    obtain ⟨hc, ⟨⟩⟩ := Option.ite_none_left_eq_some.mp h
    exact ⟨t, delivered, ht, hc, rfl⟩
  · cases h

/-- A call that commits performs its actions on the state it commits to, and they are
those of its attempt. -/
theorem performs_traces_of_attempt (hs : log.Sound) (hp : call.Pre (Log.store (log.take snap)))
    {t : Txn κ β} {delivered : List JobRecord}
    (h : call.attempt (Log.store (log.take snap)) = some (t, delivered))
    (hc : ¬ log.Conflicts snap t.tracked) :
    ∃ as, Performs log ⟨⟨call, snap, t.notes, t.stats, delivered⟩, t.writes⟩ as ∧
      call.Traces (Log.store (log.take snap)) delivered as := by
  obtain ⟨as, he, htraces⟩ := Call.attempt_trace (hs.take snap).storeInv hp h
  have hkeys : Batch.keys t.writes ⊆ t.tracked := List.subset_append_left _ _
  refine ⟨as, ⟨he.writes, ?_, fun hw => hc (hw.mono hkeys), htraces.shape, ?_, ?_, he.notes.covers⟩,
    htraces⟩
  · exact he.enabled.rerun (fun k hk => hkeys ((he.writes.keys k).mpr hk)) hc
  · intro q status
    simpa [Txn.begin] using he.notes.stats q status
  · simpa [Txn.begin] using he.notes.enqueued

theorem performs_of_attempt (hs : log.Sound) (hp : call.Pre (Log.store (log.take snap)))
    {t : Txn κ β} {delivered : List JobRecord}
    (h : call.attempt (Log.store (log.take snap)) = some (t, delivered))
    (hc : ¬ log.Conflicts snap t.tracked) :
    ∃ as, Performs log ⟨⟨call, snap, t.notes, t.stats, delivered⟩, t.writes⟩ as := by
  obtain ⟨as, hperforms, -⟩ := performs_traces_of_attempt hs hp h hc
  exact ⟨as, hperforms⟩

end Commit

end Taquba
