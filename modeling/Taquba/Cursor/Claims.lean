import Taquba.Cursor.Scan
import Taquba.Transition.Machine

/-! # Claims and inserts on one queue

The live pending keys of a queue and its claim cursor, under transactions that
insert and remove pending keys, their notes, which run after the commit in any
order, and claim attempts, one at a time under the claim lock. An attempt reads
the bound, takes a snapshot, scans it, commits or retries, and then moves the
cursor. A call that stops on the way leaves its attempt where it was.
-/

namespace Taquba.Cursor

open Transition

/-- An attempt whose snapshot is scanned and whose transaction is undecided.
`notedAtBegin` are the inserts noted when the bound was read, `latest` is the
snapshot's last insert of each key, and `dirty` collects the keys that other
transactions wrote since the snapshot. -/
structure Scanned (K : Type*) where
  observed : ClaimScanStart K
  maxJobs : ℕ
  notedAtBegin : Finset ℕ
  snapshot : Finset K
  latest : K → ℕ
  candidates : List K
  drained : Bool
  dirty : Finset K

/-- The progress of the attempt that holds the claim lock. -/
inductive Attempt (K : Type*) where
  | begun (observed : ClaimScanStart K) (maxJobs : ℕ) (notedAtBegin : Finset ℕ)
  | scanned (scan : Scanned K)
  | committed (observed : ClaimScanStart K) (last : K) (drained : Bool)
  | advanced (observed : ClaimScanStart K)

/-- Inserting transactions are numbered in commit order: `latest` is the last one
to write a key, `minKey` the smallest key of each, `noted` those whose note ran. -/
structure State (K : Type*) where
  live : Finset K
  cursor : QueueClaimState K
  latest : K → ℕ
  minKey : ℕ → Option K
  noted : Finset ℕ
  next : ℕ
  attempt : Option (Attempt K)

inductive Label (K : Type*) where
  | txn (inserted removed : Finset K)
  | note (i : ℕ)
  | beginClaim (maxJobs : ℕ)
  | snapshot
  | noCandidate
  | commit
  | conflict
  | advance
  | markEmpty
  | drop

variable {K : Type*}

/-- A step of the claim attempt that leaves the store as it is. -/
def Label.isAttempt : Label K → Bool
  | .txn _ _ | .note _ | .commit => false
  | _ => true

variable [LinearOrder K]

/-- Mark keys written by another transaction under an attempt's snapshot. -/
def Attempt.touch (keys : Finset K) : Attempt K → Attempt K
  | .scanned a => .scanned { a with dirty := a.dirty ∪ keys }
  | a => a

namespace State

/-- The last insert of the key has been noted. -/
def Noted (s : State K) (k : K) : Prop := s.latest k ∈ s.noted

instance (s : State K) (k : K) : Decidable (s.Noted k) :=
  inferInstanceAs (Decidable (s.latest k ∈ s.noted))

/-- A process start: the live keys are what the store has, the cursor is new. -/
def start (live : Finset K) : State K where
  live := live
  cursor := {}
  latest := fun _ => 0
  minKey := fun _ => none
  noted := {0}
  next := 1
  attempt := none

def smallest (keys : Finset K) : Option K :=
  if h : keys.Nonempty then some (keys.min' h) else none

/-- Commit a transaction that inserts and removes keys, and that will note `minKey`. -/
def applyTxn (s : State K) (inserted removed : Finset K) (minKey : Option K) : State K :=
  { s with
    live := (s.live \ removed) ∪ inserted
    latest := fun k => if k ∈ inserted then s.next else s.latest k
    minKey := Function.update s.minKey s.next minKey
    next := s.next + 1
    attempt := s.attempt.map (Attempt.touch (inserted ∪ removed)) }

def applyNote (s : State K) (i : ℕ) (minKey : K) : State K :=
  { s with
    cursor := s.cursor.notePendingInserts minKey
    noted := insert i s.noted }

/-- The snapshot of a begun attempt and its scan from the bound it read. -/
def takeSnapshot (s : State K) (observed : ClaimScanStart K) (maxJobs : ℕ)
    (notedAtBegin : Finset ℕ) : Scanned K where
  observed := observed
  maxJobs := maxJobs
  notedAtBegin := notedAtBegin
  snapshot := s.live
  latest := s.latest
  candidates := (scan observed.scanFrom maxJobs s.live).1
  drained := (scan observed.scanFrom maxJobs s.live).2
  dirty := ∅

end State

open State

def step (s : State K) : Label K → Option (State K)
  | .txn inserted removed => some (s.applyTxn inserted removed (smallest inserted))
  | .note i =>
    match s.minKey i with
    | some m => if i ∈ s.noted then none else some (s.applyNote i m)
    | none => none
  | .beginClaim maxJobs =>
    if s.attempt.isNone ∧ 0 < maxJobs ∧ s.cursor.knownEmpty = false then
      some { s with attempt := some (.begun s.cursor.beginClaim maxJobs s.noted) }
    else none
  | .snapshot =>
    match s.attempt with
    | some (.begun observed maxJobs notedAtBegin) =>
      some { s with attempt := some (.scanned (s.takeSnapshot observed maxJobs notedAtBegin)) }
    | _ => none
  | .noCandidate =>
    match s.attempt with
    | some (.scanned a) =>
      if a.candidates = [] then
        some { s with cursor := s.cursor.markEmpty a.observed, attempt := none }
      else none
    | _ => none
  | .commit =>
    match s.attempt with
    | some (.scanned a) =>
      match a.candidates.getLast? with
      | some last =>
        if Disjoint a.candidates.toFinset a.dirty then
          some { s with
            live := s.live \ a.candidates.toFinset
            attempt := some (.committed a.observed last a.drained) }
        else none
      | none => none
    | _ => none
  | .conflict =>
    match s.attempt with
    | some (.scanned _) => some { s with attempt := none }
    | _ => none
  | .advance =>
    match s.attempt with
    | some (.committed observed last drained) =>
      some { s with
        cursor := s.cursor.advance last observed
        attempt := if drained then some (.advanced observed) else none }
    | _ => none
  | .markEmpty =>
    match s.attempt with
    | some (.advanced observed) =>
      some { s with cursor := s.cursor.markEmpty observed, attempt := none }
    | _ => none
  | .drop => some { s with attempt := none }

variable (K) in
def machine : Machine (State K) (Label K) where
  init s := ∃ live, s = State.start live
  step := step

end Taquba.Cursor
