import Mathlib
import Taquba.Effects.Prepare
import Taquba.Inbox.Records

/-! # Inbox entries

An entry is an object whose path names its queue, its kind and its id. A listing keeps
the objects of the layout and sorts them by the time of their sends. The body of an
entry decodes as the entry of its kind, and its application has an effect, or rejects
it. The decoder of the bodies, the parser of a ULID and the texts of the errors are
parameters.
-/

namespace Taquba.Inbox

variable {κ β : Type}

/-- The kind of an entry, as the path of its object names it. -/
inductive EntryKind where
  | enqueue
  | cancel
  | signal
  | unknown (segment : String)
  deriving DecidableEq, Repr

def EntryKind.ofSegment (segment : String) : EntryKind :=
  if segment = "enqueue" then .enqueue
  else if segment = "cancel" then .cancel
  else if segment = "signal" then .signal
  else .unknown segment

/-- The path of an object below the version prefix. `stem` is what its name has before the
first dot, if it has one, and `id` the rest. -/
structure Location where
  queue : String
  kind : String
  stem : Option String
  id : String
  deriving DecidableEq, Repr

abbrev Objects := Location → Option (List UInt8)

inductive InboxEntry where
  | enqueue (payload : List UInt8) (options : EnqueueOptions)
  | cancel (jobId : String)
  | signal (jobId : String) (payload : List UInt8)
  deriving DecidableEq

/-- The options of the inbox, and what it takes from its libraries. -/
structure Settings (κ β : Type) where
  configs : Configs β
  queues : List String
  retentionMs : ℕ
  ulid : String → Option ℕ
  decodeEnqueue : List UInt8 → Except String (List UInt8 × EnqueueOptions)
  decodeCancel : List UInt8 → Except String String
  decodeSignal : List UInt8 → Except String (String × List UInt8)
  message : Refusal κ → String

def maxInboxIdLen : ℕ := 64

def maxInboxEntrySize : ℕ := 16 * 1024 * 1024

/-- The objects that a pass settles before one flush. -/
def inboxBatch : ℕ := 1000

/-- The objects whose bodies a pass reads before their application. -/
def inboxPrefetch : ℕ := 16

def inboxPrefetchBytes : ℕ := maxInboxEntrySize

/-- The records that one transaction of a sweep deletes. -/
def inboxSweepBatch : ℕ := 256

structure PendingEntry where
  queue : QueueName
  id : String
  kind : EntryKind
  size : ℕ
  order : Option ℕ
  location : Location
  deriving DecidableEq

variable (settings : Settings κ β)

/-- The entry of an object, or none for a path outside the layout. -/
def PendingEntry.parse (location : Location) (body : List UInt8) : Option PendingEntry :=
  if location.kind = "" then none
  else
    match (Form.id maxInboxIdLen).check location.id, QueueName.new location.queue with
    | .ok (), .ok queue => some
      { queue, location
        id := location.id
        kind := EntryKind.ofSegment location.kind
        size := body.length
        order := location.stem.bind settings.ulid }
    | _, _ => none

def oversized (size : ℕ) : Option Rejection :=
  if maxInboxEntrySize < size then some (.tooLarge size) else none

def PendingEntry.listingRejection (entry : PendingEntry) : Option Rejection :=
  match entry.order with
  | some _ => oversized entry.size
  | none => some .unordered

def rejection (entry : PendingEntry) : Option Rejection :=
  if entry.queue.name ∈ settings.queues then entry.listingRejection
  else some .queueNotAccepted

def EntryKind.compare : EntryKind → EntryKind → Ordering
  | .enqueue, .enqueue | .cancel, .cancel | .signal, .signal => .eq
  | .enqueue, _ => .lt
  | _, .enqueue => .gt
  | .cancel, _ => .lt
  | _, .cancel => .gt
  | .signal, _ => .lt
  | _, .signal => .gt
  | .unknown a, .unknown b => Ord.compare a b

def PendingEntry.passOrder (a b : PendingEntry) : Ordering :=
  (compare a.order.isNone b.order.isNone).then <| (compare a.order b.order).then <|
    (compare a.id b.id).then <| (compare a.queue.name b.queue.name).then (a.kind.compare b.kind)

def sortEntries (entries : List PendingEntry) : List PendingEntry :=
  entries.insertionSort fun a b => (a.passOrder b).isLE

inductive Read where
  | body (body : List UInt8)
  | missing
  | rejected (rejection : Rejection)
  | failed (detail : String)
  deriving DecidableEq, Repr

/-- Read the object at the location. A `failure` is the error of the store. -/
def readObject (objects : Objects) (location : Location) (failure : Option String) : Read :=
  match failure, objects location with
  | some detail, _ => .failed detail
  | none, none => .missing
  | none, some body => (oversized body.length).elim (.body body) .rejected

def InboxEntry.decode (kind : EntryKind) (body : List UInt8) : Except Rejection InboxEntry :=
  match kind with
  | .enqueue =>
    match settings.decodeEnqueue body with
    | .ok (payload, options) => .ok (.enqueue payload options)
    | .error detail => .error (.malformed detail)
  | .cancel =>
    match settings.decodeCancel body with
    | .ok jobId => .ok (.cancel jobId)
    | .error detail => .error (.malformed detail)
  | .signal =>
    match settings.decodeSignal body with
    | .ok (jobId, payload) => .ok (.signal jobId payload)
    | .error detail => .error (.malformed detail)
  | .unknown _ => .error .unknownKind

/-- The effect of an entry of `queue`, with the id that is generated for its job and the
object of an offloaded payload. -/
def InboxEntry.effect (queue : QueueName) (entry : InboxEntry) (generated : String)
    (name : Option String) (now : ℕ) : Except (Refusal κ) InboxEffect :=
  match entry with
  | .enqueue payload options =>
    (prepareJobRecord settings.configs queue.name payload options generated now).map
      fun prepared => .enqueue (offloadPrepared prepared name)
  | .cancel jobId => .ok (.cancel jobId)
  | .signal jobId payload => .ok (.signal jobId payload)

/-- A failure that a retry cannot repair. -/
def isPermanent : Refusal κ → Bool
  | .body (.kvCompareFailed _) | .body .panicked | .storage => false
  | _ => true

/-- The rejection of an entry whose operation failed with a permanent error. -/
def ofPermanent : Refusal κ → Rejection
  | .invalidId _ reason => .invalidId reason
  | .body (.duplicateJobId _) => .duplicateJobId
  | .signalWaitWithoutRunAt => .signalWaitWithoutRunAt
  | .countWaitWithoutRunAt => .countWaitWithoutRunAt
  | .body (.countWaiterExists _ _) => .countWaiterExists
  | refusal => .failed (settings.message refusal)

end Taquba.Inbox
