import Taquba.Bounds.Spaces
import Taquba.Cursor.Invariant

/-! # Commits and their in-process updates

A commit applies its transaction, waits for durability when its caller asked for
it, and then updates the claim cursors and the bounds. The future of the call may
be dropped, or its wait may fail, after the transaction applied. Claims, scans of
the time-ordered spaces, reopens after a crash and clean closes run in between.
-/

namespace Taquba.Bounds

open Snapshot Transition

variable {β : Type}

/-- When a commit returns: once its write is durable, or once it is applied. -/
inductive Durability where
  | awaited
  | deferred
  deriving DecidableEq

/-- A committed call that has not made all its updates. `returned` says that the
commit, with its wait, returned to the caller. -/
structure InProgress where
  durability : Durability
  todo : List Note
  returned : Bool := false

def restored (live : Finset PendingKey) (saved : Cursor.CursorState PendingKey) :
    Cursor.State PendingKey :=
  { Cursor.State.start live with cursor := ({} : Cursor.QueueClaimState PendingKey).restore saved }

def commitCursor (log : History UserKey β) (c : Commit (Val UserKey β) (Entry UserKey β))
    (queue : QueueName) (cursor : Cursor.State PendingKey) : Cursor.State PendingKey :=
  let touched := ((Batch.keys c.writes).filterMap (pendingKey? queue)).toFinset
  let isLive := fun key => (log.store (.record (.pending queue key))).isSome
  cursor.applyTxn (touched.filter (isLive · = true)) (touched.filter (isLive · = false))
    ((c.label.notes.pending queue).map Prod.fst)

/-- The store, the claim cursor of each queue with the number of commits that the
snapshot of its attempt saw, the bound of each space, the calls in progress, and the
cursors that a clean close saved after some number of commits. -/
structure State (β : Type) where
  queue : Queue.State UserKey β := {}
  cursors : QueueName → Cursor.State PendingKey := fun _ => restored ∅ {}
  snaps : QueueName → ℕ := fun _ => 0
  bounds : Space → TimeBound.State (Key UserKey) := fun _ => {}
  calls : List InProgress := []
  saved : Option (ℕ × (QueueName → Cursor.CursorState PendingKey)) := none

/-- What one scan of a space does. A key is `gone` when a state since the scan began
lacked it: its transaction removed it or did not find it. -/
inductive ScanOp where
  | page (keys : List (Key UserKey)) (last : Bool)
  | gone (key : Key UserKey) (snap : ℕ)
  | keep (key : Key UserKey)
  | complete
  | abandon

inductive Label (β : Type) where
  | commit (call : Call UserKey β) (snap : ℕ) (durability : Durability)
  | requeue (now : ℕ)
  | returned (call : ℕ)
  | fail (call : ℕ)
  | drop (call : ℕ)
  | note (call update : ℕ)
  | finish (call : ℕ)
  | claim (queue : QueueName) (label : Cursor.Label PendingKey)
  | claimCommit (queue : QueueName) (claimIds : List ℕ) (now : ℕ)
  | beginScan (space : Space) (loaded : TimeBound.Bound) (now retention : ℕ)
  | scan (space : Space) (i : ℕ) (op : ScanOp)
  | close (todo : List JobRecord)
  | reopen (kept : ℕ) (todo : List JobRecord) (restoring : Bool)

namespace State

def Quiet (s : State β) : Prop :=
  s.calls = [] ∧ (∀ queue, (s.cursors queue).attempt = none) ∧ ∀ space, (s.bounds space).scans = []

def store (s : State β) : Store (Val UserKey β) := s.queue.log.store

def setCursor (s : State β) (queue : QueueName) (cursor : Cursor.State PendingKey) : State β :=
  { s with cursors := Function.update s.cursors queue cursor }

def setBound (s : State β) (space : Space) (bound : TimeBound.State (Key UserKey)) : State β :=
  { s with bounds := Function.update s.bounds space bound }

def setCall (s : State β) (i : ℕ) (call : InProgress) : State β :=
  { s with calls := s.calls.set i call }

def removeCall (s : State β) (i : ℕ) : State β := { s with calls := s.calls.eraseIdx i }

def pendingKeys (log : History UserKey β) (queue : QueueName) : Finset PendingKey :=
  (log.keys.filterMap (pendingKey? queue)).toFinset.filter fun key =>
    (log.store (.record (.pending queue key))).isSome

/-- The transaction `c` applied, and gave the store of `queue`. -/
def committed (s : State β) (queue : Queue.State UserKey β)
    (c : Commit (Val UserKey β) (Entry UserKey β)) (durability : Durability) : State β :=
  { s with
    queue := queue
    cursors := fun q => commitCursor queue.log c q (s.cursors q)
    bounds := fun space =>
      (s.bounds space).commit (Batch.keys c.writes).toFinset (space.written queue.log c)
    calls := s.calls ++
      [{ durability, todo := c.label.notes.updates fun q => (s.cursors q).next }] }

def applyNote (s : State β) : Note → State β
  | .pending queue number minKey => s.setCursor queue ((s.cursors queue).applyNote number minKey)
  | .time space atMs => s.setBound space ((s.bounds space).lower space.time atMs)

def opened (queue : Queue.State UserKey β)
    (cursors : QueueName → Cursor.CursorState PendingKey)
    (saved : Option (ℕ × (QueueName → Cursor.CursorState PendingKey))) : State β where
  queue := queue
  cursors := fun q => restored (pendingKeys queue.log q) (cursors q)
  saved := saved

def spaceKeys (s : State β) (space : Space) : List (Key UserKey) :=
  s.queue.log.keys.filter fun key => (s.store key).isSome && (space.time? key).isSome

/-- The key is one of the space, and a state since the scan began had it. -/
def wasPresent (s : State β) (space : Space) (scan : TimeBound.Scan (Key UserKey))
    (key : Key UserKey) : Bool :=
  (space.time? key).isSome && (List.range (s.queue.log.length + 1)).any fun n =>
    scan.snap ≤ n && (Log.store (s.queue.log.take n) key).isSome

/-- The scan reads `keys` next: keys from its start on, in time order, of snapshots since
it began. Nothing is left out that it has not read, unless a later page has it or a
commit wrote it since the scan began. -/
def IsPage (s : State β) (space : Space) (scan : TimeBound.Scan (Key UserKey))
    (keys : List (Key UserKey)) (last : Bool) : Prop :=
  keys.Pairwise (space.time · ≤ space.time ·) ∧
  (∀ key ∈ keys, s.wasPresent space scan key = true ∧ scan.start ≤ space.time key) ∧
  ∀ key ∈ s.spaceKeys space, scan.start ≤ space.time key → key ∉ scan.since → key ∉ scan.seen →
    key ∉ keys → last = false ∧ ∀ k ∈ keys, space.time k ≤ space.time key

instance (s : State β) (space : Space) (scan : TimeBound.Scan (Key UserKey))
    (keys : List (Key UserKey)) (last : Bool) : Decidable (s.IsPage space scan keys last) :=
  inferInstanceAs (Decidable (_ ∧ _ ∧ _))

def scanStep (s : State β) (space : Space) (i : ℕ) (scan : TimeBound.Scan (Key UserKey)) :
    ScanOp → Option (State β)
  | .page keys last =>
    if scan.unread = true ∧ s.IsPage space scan keys last then
      some (s.setBound space ((s.bounds space).setScan i (scan.page space.time keys last)))
    else none
  | .gone key snap =>
    if scan.snap ≤ snap ∧ (Log.store (s.queue.log.take snap) key).isNone then
      some (s.setBound space ((s.bounds space).setScan i (scan.settle key)))
    else none
  | .keep key =>
    let kept := (scan.retain (space.time key)).settle key
    some (s.setBound space ((s.bounds space).setScan i kept))
  | .complete =>
    if scan.unread = false ∧ scan.todo = [] then
      some (s.setBound space ((s.bounds space).finish i scan.retained))
    else none
  | .abandon => some (s.setBound space ((s.bounds space).finish i scan.start))

variable [DecidableEq β]

def commit (s : State β) (label : Queue.Label UserKey β) (durability : Durability) :
    Option (State β) :=
  (Queue.step s.queue label).bind fun queue =>
    queue.log.getLast?.map fun c => s.committed queue c durability

end State

open State

variable [DecidableEq β]

/-- A claim that scans the pending keys, whose commit moves the claim cursor. -/
def isScanClaim : Call UserKey β → Bool
  | .claimBatch _ _ _ _ => true
  | _ => false

def step (s : State β) : Label β → Option (State β)
  | .commit call snap durability =>
    if isScanClaim call then none else s.commit (.commit call snap) durability
  | .requeue now => s.commit (.requeue now) .deferred
  | .returned i => (s.calls[i]?).map fun call => s.setCall i { call with returned := true }
  | .fail i =>
    (s.calls[i]?).bind fun call =>
      if call.durability = .awaited ∧ call.returned = false then some (s.removeCall i) else none
  | .drop i =>
    (s.calls[i]?).bind fun call => if call.returned = false then some (s.removeCall i) else none
  | .note i j =>
    (s.calls[i]?).bind fun call =>
      if call.returned = true then
        (call.todo[j]?).map fun note =>
          (s.applyNote note).setCall i { call with todo := call.todo.eraseIdx j }
      else none
  | .finish i =>
    (s.calls[i]?).bind fun call =>
      if call.returned = true ∧ call.todo = [] then some (s.removeCall i) else none
  | .claim queue label =>
    if label.isAttempt then
      (Cursor.step (s.cursors queue) label).map fun cursor =>
        { s.setCursor queue cursor with
          snaps := match label with
            | .snapshot => Function.update s.snaps queue s.queue.log.length
            | _ => s.snaps }
    else none
  | .claimCommit queue claimIds now =>
    match (s.cursors queue).attempt with
    | some (.scanned a) =>
      a.candidates.getLast?.bind fun last =>
        (s.commit (.commit (.claimBatch queue a.candidates claimIds now) (s.snaps queue))
          .deferred).map fun s' =>
            s'.setCursor queue { s'.cursors queue with
              attempt := some (.committed a.observed last a.drained) }
    | _ => none
  | .beginScan space loaded now retention =>
    if TimeBound.isDue loaded now retention then
      some (s.setBound space ((s.bounds space).begin now retention s.queue.log.length))
    else none
  | .scan space i op => ((s.bounds space).scans[i]?).bind fun scan => s.scanStep space i scan op
  | .close todo =>
    if s.calls = [] ∧ s.queue.todo = [] then
      let cursors := fun q => (s.cursors q).cursor.exportState
      (Queue.step s.queue (.reopen s.queue.log.length todo)).map fun queue =>
        opened queue cursors (some (s.queue.log.length, cursors))
    else none
  | .reopen kept todo restoring =>
    match s.saved with
    | none =>
      if restoring then none
      else (Queue.step s.queue (.reopen kept todo)).map fun queue => opened queue (fun _ => {}) none
    | some (n, cursors) =>
      if kept < n ∨ restoring = true ∧ kept ≠ n then none
      else
        (Queue.step s.queue (.reopen kept todo)).map fun queue =>
          opened queue (if restoring then cursors else fun _ => {})
            (if kept = n then s.saved else none)

/-- The runs of a process and its successors from an empty store. -/
def machine (β : Type) [DecidableEq β] : Machine (State β) (Label β) where
  init s := s = {}
  step := step

end Taquba.Bounds
