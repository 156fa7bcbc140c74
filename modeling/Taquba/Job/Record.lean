import Mathlib.Data.String.Basic
import Mathlib.Order.Lattice
import Mathlib.Data.Prod.Lex

/-! # Job records and the keys they are stored at

A job has one record, in the key space of its state. The stored value has no
state of its own: decoding takes it from the key. Times are milliseconds and
counters are natural numbers.
-/

namespace Taquba

/-- The rules a name or an id can break, in the order they are checked. -/
inductive FormError where
  | empty
  | tooLong (max : ℕ)
  | invalidStart (character : Char)
  | invalidCharacter (character : Char)
  deriving DecidableEq, Repr

structure Form where
  max : ℕ
  start : Option (Char → Bool)
  characters : Char → Bool

def Form.check (form : Form) (value : String) : Except FormError Unit :=
  match value.toList with
  | [] => .error .empty
  | first :: rest =>
    if form.max < value.utf8ByteSize then .error (.tooLong form.max)
    else if form.start.any fun start => !start first then .error (.invalidStart first)
    else
      match (first :: rest).find? fun c => !form.characters c with
      | some c => .error (.invalidCharacter c)
      | none => .ok ()

theorem Form.characters_of_check {form : Form} {value : String}
    (h : form.check value = .ok ()) : ∀ c ∈ value.toList, form.characters c = true := by
  unfold Form.check at h
  split at h
  · cases h
  · rename_i first rest hv
    split at h
    · cases h
    · split at h
      · cases h
      · split at h
        · cases h
        · rename_i hfind
          rw [hv]
          simpa using hfind

def maxQueueNameLen : ℕ := 255

def queueNameForm : Form where
  max := maxQueueNameLen
  start := some Char.isAlphanum
  characters c := c.isAlphanum || "._-".toList.contains c

/-- The form of a caller-supplied id of up to `max` bytes. -/
def Form.id (max : ℕ) : Form where
  max := max
  start := none
  characters c := c.isAlphanum || "_-".toList.contains c

structure QueueName where
  name : String
  valid : queueNameForm.check name = .ok ()
  deriving DecidableEq

def QueueName.new (name : String) : Except FormError QueueName :=
  match h : queueNameForm.check name with
  | .ok () => .ok ⟨name, h⟩
  | .error e => .error e

theorem QueueName.new_eq_ok {name : String} {queue : QueueName}
    (h : QueueName.new name = .ok queue) : queue.name = name := by
  unfold QueueName.new at h
  split at h
  · cases h
    rfl
  · cases h

theorem QueueName.new_of_check {name : String} (h : queueNameForm.check name = .ok ()) :
    QueueName.new name = .ok ⟨name, h⟩ := by
  unfold QueueName.new
  split
  · rfl
  · rename_i e he
    rw [h] at he
    cases he

@[ext] theorem QueueName.ext {q q' : QueueName} (h : q.name = q'.name) : q = q' := by
  cases q
  cases q'
  simpa using h

inductive JobStatus where
  | pending
  | scheduled
  | claimed
  | done
  | dead
  deriving DecidableEq, Repr

/-- A pending key below its queue: claims take the lowest priority number first,
then the earliest enqueue, then the lowest id. -/
structure PendingKey where
  priority : ℕ
  enqueuedAt : ℕ
  id : String
  deriving DecidableEq, Repr

def PendingKey.order (k : PendingKey) : ℕ ×ₗ (ℕ ×ₗ String) :=
  toLex (k.priority, toLex (k.enqueuedAt, k.id))

theorem PendingKey.order_injective : Function.Injective PendingKey.order := by
  rintro ⟨_, _, _⟩ ⟨_, _, _⟩ h
  simpa [PendingKey.order] using h

instance : LinearOrder PendingKey :=
  LinearOrder.lift' PendingKey.order PendingKey.order_injective

/-- The key of a job record, in the key space of its state. -/
inductive RecordKey where
  | pending (queue : QueueName) (key : PendingKey)
  | claimed (queue : QueueName) (id : String)
  | scheduled (runAt : ℕ) (queue : QueueName) (id : String)
  | done (completedAt : ℕ) (queue : QueueName) (id : String)
  | dead (queue : QueueName) (id : String)
  deriving DecidableEq

namespace RecordKey

def keyStatus : RecordKey → JobStatus
  | .pending _ _ => .pending
  | .claimed _ _ => .claimed
  | .scheduled _ _ _ => .scheduled
  | .done _ _ _ => .done
  | .dead _ _ => .dead

def queue : RecordKey → QueueName
  | .pending q _ => q
  | .claimed q _ => q
  | .scheduled _ q _ => q
  | .done _ q _ => q
  | .dead q _ => q

def id : RecordKey → String
  | .pending _ k => k.id
  | .claimed _ i => i
  | .scheduled _ _ i => i
  | .done _ _ i => i
  | .dead _ i => i

end RecordKey

structure JobRecord where
  id : String
  queue : QueueName
  payload : List UInt8
  payloadRef : Option String := none
  headers : List (String × String) := []
  status : JobStatus := .pending
  attempts : ℕ := 0
  maxAttempts : ℕ
  enqueuedAt : ℕ
  claimedAt : Option ℕ := none
  runAt : Option ℕ := none
  signal : Option (List UInt8) := none
  signalWait : Bool := false
  countWait : Option String := none
  priority : ℕ
  lastError : Option String := none
  dedupKey : Option String := none
  completedAt : Option ℕ := none
  failedAt : Option ℕ := none
  cancelRequested : Bool := false
  deriving DecidableEq

namespace JobRecord

def isLastAttempt (job : JobRecord) : Bool :=
  job.maxAttempts ≤ job.attempts

def newPending (id : String) (queue : QueueName) (payload : List UInt8)
    (maxAttempts priority enqueuedAt : ℕ) : JobRecord :=
  { id, queue, payload, maxAttempts, priority, enqueuedAt }

/-- A record as an enqueue writes it: not claimed, woken, cancelled or ended so far, and
without a wait unless it has a `runAt`. -/
def IsNew (job : JobRecord) : Prop :=
  job.attempts = 0 ∧ job.claimedAt = none ∧ job.signal = none ∧ job.lastError = none ∧
    job.completedAt = none ∧ job.failedAt = none ∧ job.cancelRequested = false ∧
    (job.runAt = none → job.signalWait = false ∧ job.countWait = none)

instance (job : JobRecord) : Decidable job.IsNew := inferInstanceAs (Decidable (_ ∧ _))

/-- The record read from a stored value, with the state of its key. -/
def decode (key : RecordKey) (stored : JobRecord) : JobRecord :=
  { stored with status := key.keyStatus }

/-- The key the record is stored under. A scheduled record without a `runAt` and a
done record without a `completedAt` have none. -/
def storedKey (job : JobRecord) : Option RecordKey :=
  match job.status with
  | .pending => some (.pending job.queue ⟨job.priority, job.enqueuedAt, job.id⟩)
  | .scheduled => job.runAt.map fun runAt => .scheduled runAt job.queue job.id
  | .claimed => some (.claimed job.queue job.id)
  | .done => job.completedAt.map fun completedAt => .done completedAt job.queue job.id
  | .dead => some (.dead job.queue job.id)

/-- The stored value: no state, and no payload when it is offloaded. -/
def stored (job : JobRecord) : JobRecord :=
  { job with
    status := .pending
    payload := if job.payloadRef.isSome then [] else job.payload }

variable {job : JobRecord} {key : RecordKey}

@[simp] theorem decode_status (key : RecordKey) (job : JobRecord) :
    (decode key job).status = key.keyStatus := rfl

@[simp] theorem decode_dedupKey (key : RecordKey) (job : JobRecord) :
    (decode key job).dedupKey = job.dedupKey := rfl

@[simp] theorem decode_id (key : RecordKey) (job : JobRecord) :
    (decode key job).id = job.id := rfl

@[simp] theorem decode_cancelRequested (key : RecordKey) (job : JobRecord) :
    (decode key job).cancelRequested = job.cancelRequested := rfl

@[simp] theorem decode_queue (key : RecordKey) (job : JobRecord) :
    (decode key job).queue = job.queue := rfl

@[simp] theorem stored_dedupKey (job : JobRecord) : job.stored.dedupKey = job.dedupKey := rfl

@[simp] theorem stored_id (job : JobRecord) : job.stored.id = job.id := rfl

@[simp] theorem stored_queue (job : JobRecord) : job.stored.queue = job.queue := rfl

theorem storedKey_spec (h : job.storedKey = some key) :
    key.keyStatus = job.status ∧ key.queue = job.queue ∧ key.id = job.id := by
  unfold storedKey at h
  cases hs : job.status <;> simp only [hs] at h
  case pending | claimed | dead =>
    cases h
    exact ⟨rfl, rfl, rfl⟩
  case scheduled | done =>
    obtain ⟨at', _, rfl⟩ := Option.map_eq_some_iff.mp h
    exact ⟨rfl, rfl, rfl⟩

theorem keyStatus_of_storedKey (h : job.storedKey = some key) : key.keyStatus = job.status :=
  (storedKey_spec h).1

theorem queue_of_storedKey (h : job.storedKey = some key) : key.queue = job.queue :=
  (storedKey_spec h).2.1

theorem id_of_storedKey (h : job.storedKey = some key) : key.id = job.id :=
  (storedKey_spec h).2.2

structure Same (old job : JobRecord) : Prop where
  id : job.id = old.id
  queue : job.queue = old.queue
  payload : job.payload = old.payload
  payloadRef : job.payloadRef = old.payloadRef
  headers : job.headers = old.headers
  maxAttempts : job.maxAttempts = old.maxAttempts
  enqueuedAt : job.enqueuedAt = old.enqueuedAt
  priority : job.priority = old.priority

theorem Same.trans {a b c : JobRecord} (h : Same a b) (h' : Same b c) : Same a c where
  id := h'.id.trans h.id
  queue := h'.queue.trans h.queue
  payload := h'.payload.trans h.payload
  payloadRef := h'.payloadRef.trans h.payloadRef
  headers := h'.headers.trans h.headers
  maxAttempts := h'.maxAttempts.trans h.maxAttempts
  enqueuedAt := h'.enqueuedAt.trans h.enqueuedAt
  priority := h'.priority.trans h.priority

/-- The job as its enqueue fixed it, with its dedup key. -/
def identity (job : JobRecord) : JobRecord :=
  { id := job.id
    queue := job.queue
    payload := job.payload
    payloadRef := job.payloadRef
    headers := job.headers
    maxAttempts := job.maxAttempts
    enqueuedAt := job.enqueuedAt
    priority := job.priority
    dedupKey := job.dedupKey }

theorem Same.identity_eq {old job : JobRecord} (h : Same old job)
    (hd : job.dedupKey = old.dedupKey) : job.identity = old.identity := by
  simp only [identity, h.id, h.queue, h.payload, h.payloadRef, h.headers, h.maxAttempts,
    h.enqueuedAt, h.priority, hd]

/-- Decoding reads the state back from the key a record is stored under. -/
theorem storedKey_decode_stored (h : job.storedKey = some key) :
    (decode key job.stored).storedKey = some key := by
  have hs := keyStatus_of_storedKey h
  rw [← h]
  simp only [storedKey, decode, stored, hs]

end JobRecord

end Taquba
