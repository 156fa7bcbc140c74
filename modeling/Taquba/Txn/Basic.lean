import Taquba.Txn.Keys

/-! # Transactions

A transaction reads its snapshot through its own writes. It notes what its commit
tells the in-process indexes about the records it writes, and counts the state
change of every job it inserts, moves or removes.
-/

namespace Taquba

open Snapshot

/-- The failures of a transaction body. `panicked` is a failed `expect` or an
overflow in a build that checks for it. -/
inductive Error (κ : Type) where
  | jobNotFound (id : String)
  | invalidState
  | claimLost
  | kvCompareFailed (key : κ)
  | duplicateJobId (id : String)
  | countWaiterExists (count waiter : String)
  | panicked
  deriving DecidableEq, Repr

/-- The in-process state that the writes of a transaction update. The pending notes
are a map, with its keys in `queues`. -/
structure CommitNotes where
  queues : List QueueName := []
  pending : QueueName → Option (PendingKey × ℕ) := fun _ => none
  scheduled : Option ℕ := none
  done : Option ℕ := none
  expiry : List (ExpiryIndex × ℕ) := []
  enqueued : List (QueueName × String) := []
  inbox : Option ℕ := none

/-- The earlier of a bound and a time, either of which may be missing. -/
def earliest (bound time : Option ℕ) : Option ℕ :=
  match time with
  | some a => some (bound.elim a fun b => min b a)
  | none => bound

/-- A snapshot, the writes staged on it, the keys marked read, and the notes and
counter changes of the commit. -/
structure Txn (κ β : Type) where
  base : Store (Val κ β)
  writes : Batch (Val κ β) := []
  reads : List (Key κ) := []
  notes : CommitNotes := {}
  stats : QueueName → JobStatus → ℤ := fun _ _ => 0

namespace Txn

variable {κ β : Type}

def begin (s : Store (Val κ β)) : Txn κ β := { base := s }

def put (t : Txn κ β) (k : Key κ) (v : Val κ β k) : Txn κ β :=
  { t with writes := t.writes ++ [⟨k, .put v⟩] }

def delete (t : Txn κ β) (k : Key κ) : Txn κ β :=
  { t with writes := t.writes ++ [⟨k, .delete⟩] }

def merge (t : Txn κ β) (k : Key κ) (v : Val κ β k) : Txn κ β :=
  { t with writes := t.writes ++ [⟨k, .merge v⟩] }

def markRead (t : Txn κ β) (k : Key κ) : Txn κ β :=
  { t with reads := t.reads ++ [k] }

/-- The keys whose concurrent change fails the commit. -/
def tracked (t : Txn κ β) : List (Key κ) := Batch.keys t.writes ++ t.reads

/-- Count the move of a job of `queue` between states, where `none` is the absence
of a record. -/
def countMove (t : Txn κ β) (queue : QueueName) (source target : Option JobStatus) : Txn κ β :=
  { t with stats := fun q status => t.stats q status + countDelta queue source target q status }

/-- Note a pending record for the claim cursor of its queue. -/
def notePending (notes : CommitNotes) (queue : QueueName) (key : PendingKey) : CommitNotes :=
  { notes with
    queues := if queue ∈ notes.queues then notes.queues else notes.queues ++ [queue]
    pending := Function.update notes.pending queue
      (match notes.pending queue with
      | some (minKey, count) => some (if key < minKey then key else minKey, count + 1)
      | none => some (key, 1)) }

def noteWritten (t : Txn κ β) (job : JobRecord) (key : RecordKey) : Txn κ β :=
  { t with
    notes := match job.status, key with
      | .pending, .pending _ k => notePending t.notes job.queue k
      | .scheduled, _ => { t.notes with scheduled := earliest t.notes.scheduled job.runAt }
      | .done, _ => { t.notes with done := earliest t.notes.done job.completedAt }
      | _, _ => t.notes }

/-- Write the record and repoint the index entry of the job. -/
def putJob (t : Txn κ β) (key : RecordKey) (job : JobRecord) : Txn κ β :=
  ((t.put (.record key) job.stored).put (.jobIndex job.id) key).noteWritten job key

def noteEnqueued (t : Txn κ β) (queue : QueueName) (id : String) : Txn κ β :=
  { t with notes := { t.notes with enqueued := t.notes.enqueued ++ [(queue, id)] } }

/-- Write a new job and its index entry. -/
def insertJob (t : Txn κ β) (job : JobRecord) : Except (Error κ) (Txn κ β) :=
  match job.storedKey with
  | some key =>
    .ok (((t.putJob key job).countMove job.queue none (some job.status)).noteEnqueued
      job.queue job.id)
  | none => .error .panicked

def leaveWaits (job : JobRecord) : JobRecord :=
  if job.status ≠ .scheduled then { job with signalWait := false, countWait := none } else job

/-- Move `job` from its record at `source` to the key of its state, and return the
record as written. -/
def moveJob (t : Txn κ β) (source : RecordKey) (job : JobRecord) :
    Except (Error κ) (Txn κ β × JobRecord) :=
  let job := leaveWaits job
  match job.storedKey with
  | some key =>
    if source = key then
      .ok ((t.put (.record key) job.stored).noteWritten job key, job)
    else
      .ok (((t.delete (.record source)).putJob key job).countMove job.queue
        (some source.keyStatus) (some job.status), job)
  | none => .error .panicked

@[simp] theorem leaveWaits_id (job : JobRecord) : (leaveWaits job).id = job.id := by
  unfold leaveWaits
  split <;> rfl

@[simp] theorem leaveWaits_queue (job : JobRecord) : (leaveWaits job).queue = job.queue := by
  unfold leaveWaits
  split <;> rfl

@[simp] theorem leaveWaits_status (job : JobRecord) : (leaveWaits job).status = job.status := by
  unfold leaveWaits
  split <;> rfl

@[simp] theorem leaveWaits_cancelRequested (job : JobRecord) :
    (leaveWaits job).cancelRequested = job.cancelRequested := by
  unfold leaveWaits
  split <;> rfl

@[simp] theorem leaveWaits_dedupKey (job : JobRecord) :
    (leaveWaits job).dedupKey = job.dedupKey := by
  unfold leaveWaits
  split <;> rfl

theorem same_leaveWaits (job : JobRecord) : JobRecord.Same job (leaveWaits job) := by
  unfold leaveWaits
  split <;> exact ⟨rfl, rfl, rfl, rfl, rfl, rfl, rfl, rfl⟩

theorem leavesWaits_leaveWaits (job : JobRecord) (h : (leaveWaits job).status ≠ .scheduled) :
    (leaveWaits job).signalWait = false ∧ (leaveWaits job).countWait = none := by
  rw [leaveWaits_status] at h
  simp [leaveWaits, h]

/-- Remove the last record of a job, stored at `key`, with its index entry, its
history and its dedup entry. -/
def stageRemove (t : Txn κ β) (key : RecordKey) (job : JobRecord) : Txn κ β :=
  let t := ((t.delete (.record key)).delete (.jobIndex job.id)).delete (.attemptHistory job.id)
  let t := match job.dedupKey with
    | some dedupKey => t.delete (.dedup job.queue dedupKey)
    | none => t
  t.countMove job.queue (some key.keyStatus) (if job.status = .done then some .done else none)

def appendAttempt (t : Txn κ β) (id : String) (entry : JobAttempt) : Txn κ β :=
  t.merge (.attemptHistory id) [entry]

def noteExpiryEntry (t : Txn κ β) (index : ExpiryIndex) (atMs : ℕ) : Txn κ β :=
  { t with notes := { t.notes with expiry := t.notes.expiry ++ [(index, atMs)] } }

/-- Write the record of an applied inbox entry and its expiry entry. -/
def stageInboxRecord (t : Txn κ β) (queue : QueueName) (id : String) (record : InboxRecord) :
    Txn κ β :=
  let t := (t.put (.inboxRecord queue id) record).put
    (.inboxExpiry record.appliedAtMs queue id) ()
  { t with notes := { t.notes with inbox := earliest t.notes.inbox (some record.appliedAtMs) } }

variable [DecidableEq κ]

def view (t : Txn κ β) : Store (Val κ β) := t.base.applyBatch t.writes

def get (t : Txn κ β) (k : Key κ) : Option (Val κ β k) := t.view k

def getIndexedJob (t : Txn κ β) (id : String) : Option (RecordKey × JobRecord) :=
  (t.get (.jobIndex id)).bind fun key =>
    (t.get (.record key)).map fun job => (key, JobRecord.decode key job)

end Txn

end Taquba
