import Taquba.Bytes.Order
import Taquba.Job.Record

/-! # The binary keys of the store

Every key is a tag, the version of the format and the fields of its key space. A number is
big-endian, a queue name that further fields follow has its length before it, and an id, a
name or a caller's key is the tail. A caller's key has no version.
-/

namespace Taquba

open Bytes

theorem Form.size_of_check {form : Form} {value : String} (h : form.check value = .ok ()) :
    value.utf8ByteSize ≤ form.max ∧ value ≠ "" := by
  unfold Form.check at h
  split at h
  · cases h
  · rename_i first rest hv
    split_ifs at h with hmax
    refine ⟨by omega, ?_⟩
    rintro rfl
    simp at hv

def keyVersion : UInt8 := 1

/-- The discriminator of a key space, its first byte. -/
inductive KeyTag where
  | pending
  | claimed
  | scheduled
  | done
  | dead
  | jobIndex
  | dedup
  | cursor
  | stats
  | attemptHistory
  | heartbeat
  | inboxRecord
  | inboxExpiry
  | inboxFailure
  | count
  | user
  deriving DecidableEq, Repr

namespace KeyTag

def id : KeyTag → UInt8
  | .pending => 0x01
  | .claimed => 0x02
  | .scheduled => 0x03
  | .done => 0x04
  | .dead => 0x05
  | .jobIndex => 0x06
  | .dedup => 0x07
  | .cursor => 0x08
  | .stats => 0x09
  | .attemptHistory => 0x0A
  | .heartbeat => 0x0B
  | .inboxRecord => 0x0C
  | .inboxExpiry => 0x0D
  | .inboxFailure => 0x0E
  | .count => 0x0F
  | .user => 0xFF

def of (key : List UInt8) : Option KeyTag :=
  match key with
  | [] => none
  | byte :: _ =>
    if byte = 0x01 then some .pending
    else if byte = 0x02 then some .claimed
    else if byte = 0x03 then some .scheduled
    else if byte = 0x04 then some .done
    else if byte = 0x05 then some .dead
    else if byte = 0x06 then some .jobIndex
    else if byte = 0x07 then some .dedup
    else if byte = 0x08 then some .cursor
    else if byte = 0x09 then some .stats
    else if byte = 0x0A then some .attemptHistory
    else if byte = 0x0B then some .heartbeat
    else if byte = 0x0C then some .inboxRecord
    else if byte = 0x0D then some .inboxExpiry
    else if byte = 0x0E then some .inboxFailure
    else if byte = 0x0F then some .count
    else if byte = 0xFF then some .user
    else none

/-- The state of the job records of a key space. -/
def jobStatus : KeyTag → Option JobStatus
  | .pending => some .pending
  | .claimed => some .claimed
  | .scheduled => some .scheduled
  | .done => some .done
  | .dead => some .dead
  | _ => none

theorem id_injective : Function.Injective id := by
  intro a b h
  cases a <;> cases b <;> first | rfl | (revert h; decide)

theorem of_id_cons (tag : KeyTag) (rest : List UInt8) : of (tag.id :: rest) = some tag := by
  cases tag <;> rfl

end KeyTag

/-- The first two bytes of an internal key. -/
def header (tag : KeyTag) : List UInt8 := [tag.id, keyVersion]

def pushQueue (queue : QueueName) : List UInt8 :=
  UInt8.ofNat queue.name.utf8ByteSize :: utf8 queue.name

def u32be (n : UInt32) : List UInt8 := bigEndian 4 n.toNat

def u64be (n : UInt64) : List UInt8 := bigEndian 8 n.toNat

def pendingKey (queue : QueueName) (priority : UInt32) (enqueuedAt : UInt64) (id : String) :
    List UInt8 :=
  header .pending ++ (pushQueue queue ++ (u32be priority ++ (u64be enqueuedAt ++ utf8 id)))

def pendingPrefix (queue : QueueName) : List UInt8 := header .pending ++ pushQueue queue

def timeFirstKey (tag : KeyTag) (ts : UInt64) (queue : QueueName) (id : String) : List UInt8 :=
  header tag ++ (u64be ts ++ (pushQueue queue ++ utf8 id))

def queueFirstKey (tag : KeyTag) (queue : QueueName) (id : String) : List UInt8 :=
  header tag ++ (pushQueue queue ++ utf8 id)

def queuePrefix (tag : KeyTag) (queue : QueueName) : List UInt8 := header tag ++ pushQueue queue

def claimedKey (queue : QueueName) (id : String) : List UInt8 := queueFirstKey .claimed queue id

def claimedPrefix (queue : QueueName) : List UInt8 := queuePrefix .claimed queue

def scheduledKey (queue : QueueName) (runAt : UInt64) (id : String) : List UInt8 :=
  timeFirstKey .scheduled runAt queue id

def doneKey (completedAt : UInt64) (queue : QueueName) (id : String) : List UInt8 :=
  timeFirstKey .done completedAt queue id

def deadKey (queue : QueueName) (id : String) : List UInt8 := queueFirstKey .dead queue id

def deadPrefix (queue : QueueName) : List UInt8 := queuePrefix .dead queue

def jobIndexKey (id : String) : List UInt8 := header .jobIndex ++ utf8 id

def attemptHistoryKey (id : String) : List UInt8 := header .attemptHistory ++ utf8 id

def dedupIndexKey (queue : QueueName) (key : String) : List UInt8 :=
  header .dedup ++ (pushQueue queue ++ utf8 key)

def cursorKey (queue : QueueName) : List UInt8 := header .cursor ++ utf8 queue.name

def heartbeatKey : List UInt8 := header .heartbeat

def inboxRecordKey (queue : QueueName) (id : String) : List UInt8 :=
  queueFirstKey .inboxRecord queue id

def inboxExpiryKey (appliedAt : UInt64) (queue : QueueName) (id : String) : List UInt8 :=
  timeFirstKey .inboxExpiry appliedAt queue id

def inboxFailureKey (queue : QueueName) (id : String) : List UInt8 :=
  queueFirstKey .inboxFailure queue id

def countKey (name : String) : List UInt8 := header .count ++ utf8 name

def statsKey (queue : QueueName) (metric : String) : List UInt8 :=
  header .stats ++ (pushQueue queue ++ utf8 metric)

def tagPrefix (tag : KeyTag) : List UInt8 := header tag

/-- A caller's key in the key space of callers. -/
def userScopedKey (key : List UInt8) : List UInt8 := KeyTag.user.id :: key

def stripPrefix (front key : List UInt8) : Option (List UInt8) :=
  if front <+: key then some (key.drop front.length) else none

def leadingU64 (rest : List UInt8) : Option UInt64 :=
  if 8 ≤ rest.length then some (UInt64.ofNat (ofBigEndian (rest.take 8))) else none

/-- The timestamp of a time-first key of the given space. -/
def parseKeyTimestamp (key : List UInt8) (tag : KeyTag) : Option UInt64 :=
  (stripPrefix (header tag) key).bind leadingU64

def parseQueueName (bytes : List UInt8) : Option QueueName :=
  (ofUtf8 bytes).bind fun name => (QueueName.new name).toOption

def parseCursorKey (key : List UInt8) : Option QueueName :=
  (stripPrefix (header .cursor) key).bind parseQueueName

/-- Split off a field that has its length in the byte before it. -/
def splitLength (rest : List UInt8) : Option (List UInt8 × List UInt8) :=
  match rest with
  | [] => none
  | len :: rest => if len.toNat ≤ rest.length then some (rest.splitAt len.toNat) else none

def parseStatsKey (key : List UInt8) : Option (String × String) := do
  let rest ← stripPrefix (header .stats) key
  let (queue, metric) ← splitLength rest
  return (← ofUtf8 queue, ← ofUtf8 metric)

def parseInboxExpiryEntry (key : List UInt8) : Option (QueueName × String) := do
  let rest ← stripPrefix (header .inboxExpiry) key
  if rest.length < 8 then none
  else
    let (queue, id) ← splitLength (rest.drop 8)
    return (← parseQueueName queue, ← ofUtf8 id)

/-- A key of the store, by its key space and the fields of the space. -/
inductive DbKey where
  | pending (queue : QueueName) (priority : UInt32) (enqueuedAt : UInt64) (id : String)
  | claimed (queue : QueueName) (id : String)
  | scheduled (queue : QueueName) (runAt : UInt64) (id : String)
  | done (completedAt : UInt64) (queue : QueueName) (id : String)
  | dead (queue : QueueName) (id : String)
  | jobIndex (id : String)
  | dedup (queue : QueueName) (key : String)
  | cursor (queue : QueueName)
  | stats (queue : QueueName) (metric : String)
  | attemptHistory (id : String)
  | heartbeat
  | inboxRecord (queue : QueueName) (id : String)
  | inboxExpiry (appliedAt : UInt64) (queue : QueueName) (id : String)
  | inboxFailure (queue : QueueName) (id : String)
  | count (name : String)
  | user (key : List UInt8)
  deriving DecidableEq

namespace DbKey

def tag : DbKey → KeyTag
  | .pending _ _ _ _ => .pending
  | .claimed _ _ => .claimed
  | .scheduled _ _ _ => .scheduled
  | .done _ _ _ => .done
  | .dead _ _ => .dead
  | .jobIndex _ => .jobIndex
  | .dedup _ _ => .dedup
  | .cursor _ => .cursor
  | .stats _ _ => .stats
  | .attemptHistory _ => .attemptHistory
  | .heartbeat => .heartbeat
  | .inboxRecord _ _ => .inboxRecord
  | .inboxExpiry _ _ _ => .inboxExpiry
  | .inboxFailure _ _ => .inboxFailure
  | .count _ => .count
  | .user _ => .user

/-- The key as the builder of its key space writes it. -/
def encode : DbKey → List UInt8
  | .pending queue priority enqueuedAt id => pendingKey queue priority enqueuedAt id
  | .claimed queue id => claimedKey queue id
  | .scheduled queue runAt id => scheduledKey queue runAt id
  | .done completedAt queue id => doneKey completedAt queue id
  | .dead queue id => deadKey queue id
  | .jobIndex id => jobIndexKey id
  | .dedup queue key => dedupIndexKey queue key
  | .cursor queue => cursorKey queue
  | .stats queue metric => statsKey queue metric
  | .attemptHistory id => attemptHistoryKey id
  | .heartbeat => heartbeatKey
  | .inboxRecord queue id => inboxRecordKey queue id
  | .inboxExpiry appliedAt queue id => inboxExpiryKey appliedAt queue id
  | .inboxFailure queue id => inboxFailureKey queue id
  | .count name => countKey name
  | .user key => userScopedKey key

end DbKey

def RecordKey.dbKey : RecordKey → DbKey
  | .pending queue key =>
    .pending queue (UInt32.ofNat key.priority) (UInt64.ofNat key.enqueuedAt) key.id
  | .claimed queue id => .claimed queue id
  | .scheduled runAt queue id => .scheduled queue (UInt64.ofNat runAt) id
  | .done completedAt queue id => .done (UInt64.ofNat completedAt) queue id
  | .dead queue id => .dead queue id

/-- Decode the value stored under a key, with the state of its key space. `fromSlice` reads
the serialized record. -/
def JobRecord.decodeStored (fromSlice : List UInt8 → Option JobRecord) (key value : List UInt8) :
    Option JobRecord := do
  let status ← (KeyTag.of key).bind KeyTag.jobStatus
  let job ← fromSlice value
  return { job with status }

end Taquba
