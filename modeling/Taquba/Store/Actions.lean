import Taquba.Txn.Keys

/-! # What a transaction does to the jobs of the store

Every transition stages a sequence of five kinds of job actions and of writes to
other key spaces. An action says which record it found; its precondition reads
only keys that it writes.
-/

namespace Taquba

open Snapshot

inductive JobAction (κ β : Type) where
  | insert (job : JobRecord) (key : RecordKey)
  | move (source : RecordKey) (old job : JobRecord) (key : RecordKey)
  | rewrite (key : RecordKey) (old job : JobRecord)
  | remove (key : RecordKey) (old : JobRecord) (completed : Bool)
  | history (id : String) (entry : JobAttempt)
  | plain (write : Σ k : Key κ, Write (Val κ β k))

def Key.isPlain {κ : Type} : Key κ → Bool
  | .record _ | .jobIndex _ | .dedup _ _ => false
  | _ => true

namespace JobAction

variable {κ β : Type}

def takeDedup (job : JobRecord) : Batch (Val κ β) :=
  match job.dedupKey with
  | some dedupKey => [⟨.dedup job.queue dedupKey, .put job.id⟩]
  | none => []

/-- The dedup entry that is given up when `old` becomes a record with `kept`. -/
def releaseDedup (old : JobRecord) (kept : Option String) : Batch (Val κ β) :=
  match old.dedupKey, kept with
  | some dedupKey, none => [⟨.dedup old.queue dedupKey, .delete⟩]
  | _, _ => []

def writes : JobAction κ β → Batch (Val κ β)
  | .insert job key =>
    [⟨.record key, .put job.stored⟩, ⟨.jobIndex job.id, .put key⟩] ++ takeDedup job
  | .move source old job key =>
    [⟨.record source, .delete⟩, ⟨.record key, .put job.stored⟩, ⟨.jobIndex job.id, .put key⟩] ++
      releaseDedup old job.dedupKey
  | .rewrite key _ job => [⟨.record key, .put job.stored⟩]
  | .remove key old _ =>
    [⟨.record key, .delete⟩, ⟨.jobIndex old.id, .delete⟩, ⟨.attemptHistory old.id, .delete⟩] ++
      releaseDedup old none
  | .history id entry => [⟨.attemptHistory id, .merge [entry]⟩]
  | .plain write => [write]

def Found (s : Store (Val κ β)) (key : RecordKey) (old : JobRecord) : Prop :=
  (s (.record key)).map (JobRecord.decode key) = some old

theorem Found.of_record {s : Store (Val κ β)} {key : RecordKey} {stored : JobRecord}
    (h : s (.record key) = some stored) : Found s key (JobRecord.decode key stored) := by
  rw [Found, h, Option.map_some]

def DedupWaits (job : JobRecord) : Prop :=
  job.dedupKey ≠ none → job.status = .pending ∨ job.status = .scheduled

def LeavesWaits (job : JobRecord) : Prop :=
  job.status ≠ .scheduled → job.signalWait = false ∧ job.countWait = none

def Flags (old job : JobRecord) : Prop :=
  old.signalWait = false → old.countWait = none → job = { old with cancelRequested := true }

def Enabled : JobAction κ β → Store (Val κ β) → Prop
  | .insert job key, s =>
    s (.jobIndex job.id) = none ∧ job.storedKey = some key ∧
      (job.status = .pending ∨ job.status = .scheduled) ∧
      ∀ dedupKey, job.dedupKey = some dedupKey → s (.dedup job.queue dedupKey) = none
  | .move source old job key, s =>
    Found s source old ∧ source ≠ key ∧ job.storedKey = some key ∧ job.id = old.id ∧
      job.queue = old.queue ∧ DedupWaits job ∧
      (job.dedupKey = old.dedupKey ∨ job.dedupKey = none ∧ job.status = .claimed) ∧
      LeavesWaits job
  | .rewrite key old job, s =>
    Found s key old ∧ job.storedKey = some key ∧ job.dedupKey = old.dedupKey ∧ Flags old job
  | .remove key old _, s => Found s key old
  | .history _ _, _ => True
  | .plain write, _ => write.1.isPlain = true

def delta : JobAction κ β → QueueName → JobStatus → ℤ
  | .insert job _ => countDelta job.queue none (some job.status)
  | .move source _ job _ => countDelta job.queue (some source.keyStatus) (some job.status)
  | .remove key old completed =>
    countDelta old.queue (some key.keyStatus) (if completed then some .done else none)
  | _ => fun _ _ => 0

def claim? : JobAction κ β → Option JobRecord
  | .move _ _ job (.claimed _ _) => some job
  | _ => none

def insert? : JobAction κ β → Option (QueueName × String)
  | .insert job _ => some (job.queue, job.id)
  | _ => none

def inserted? : JobAction κ β → Option JobRecord
  | .insert job _ => some job.identity
  | _ => none

def end? : JobAction κ β → Option (QueueName × String)
  | .move (.claimed queue id) _ _ _ => some (queue, id)
  | .remove (.claimed queue id) _ _ => some (queue, id)
  | _ => none

/-- The job that the action cancels: a waiting job is removed, the record of a
claimed one is flagged in place. -/
def cancel? : JobAction κ β → Option String
  | .remove (.pending _ _) old _ | .remove (.scheduled _ _ _) old _ => some old.id
  | .rewrite _ old _ => some old.id
  | _ => none

/-- The record that the action takes away or changes. -/
def source? : JobAction κ β → Option RecordKey
  | .move source _ _ _ => some source
  | .rewrite key _ _ | .remove key _ _ => some key
  | _ => none

def remove? : JobAction κ β → Option String
  | .remove _ old _ => some old.id
  | _ => none

def IsWake : JobAction κ β → Prop
  | .move source _ job key =>
    source.keyStatus = .scheduled ∧ job.status = .pending ∧ key.keyStatus = .pending
  | .plain _ => True
  | _ => False

/-- What settlement effects do to jobs: they add waiting jobs and wake scheduled
ones. -/
def IsEffect : JobAction κ β → Prop
  | .insert job _ => job.status = .pending ∨ job.status = .scheduled
  | a => a.IsWake

theorem IsWake.isEffect {a : JobAction κ β} (h : a.IsWake) : a.IsEffect := by
  cases a <;> first | exact h | cases h

theorem found_congr {s t : Store (Val κ β)} {key : RecordKey} {old : JobRecord}
    (h : s (.record key) = t (.record key)) : Found s key old → Found t key old := by
  simp [Found, h]

theorem enabled_congr (a : JobAction κ β) (s t : Store (Val κ β))
    (h : ∀ k ∈ Batch.keys a.writes, s k = t k) : Enabled a s → Enabled a t := by
  cases a with
  | insert job key =>
    rintro ⟨hidx, hkey, hwaits, hdedup⟩
    refine ⟨?_, hkey, hwaits, fun dedupKey hd => ?_⟩
    · rw [← h (.jobIndex job.id) (by simp [writes]), hidx]
    · rw [← h (.dedup job.queue dedupKey) (by simp [writes, takeDedup, hd]), hdedup _ hd]
  | move source old job key =>
    rintro ⟨hf, hrest⟩
    exact ⟨found_congr (h (.record source) (by simp [writes])) hf, hrest⟩
  | rewrite key old job =>
    rintro ⟨hf, hrest⟩
    exact ⟨found_congr (h (.record key) (by simp [writes])) hf, hrest⟩
  | remove key old completed =>
    exact found_congr (h (.record key) (by simp [writes]))
  | history id entry => exact fun h => h
  | plain write => exact fun h => h

end JobAction

def jobActions (κ β : Type) : Actions (Val κ β) (JobAction κ β) where
  writes := JobAction.writes
  Enabled := JobAction.Enabled
  enabled_congr := JobAction.enabled_congr

end Taquba
