import Taquba.Expiry.Index
import Taquba.Transition.Machine

/-! # Passes over an expiry index

A pass reads the entries of an index page by page from an in-memory bound, calls back for
each due entry and applies the answer. It deletes entries from the range it reads. It may
fail or be dropped at each access to the store and in each call. The bound starts at zero,
is lowered by each write of an entry and raised by a completed pass.
-/

namespace Taquba.Expiry

open Transition

abbrev KvEffects := SettlementEffects (List UInt8) (List UInt8)

inductive Expired where
  | delete (effects : KvEffects)
  | deleteIf (compare : KvCompare (List UInt8) (List UInt8)) (effects : KvEffects)
  | keep

/-- What becomes of one access of a pass to the store. A failed access has no effect: the
store refuses it, or the pass is dropped before it. The pass is dropped in a lost access,
which takes effect. -/
inductive Access where
  | done
  | failed
  | lost
  deriving DecidableEq

/-- One pass: its time, its retention in nanoseconds, the answer of each call, absent when
the pass is dropped in the call, and the fate of each access. -/
structure Pass where
  now : ℕ
  retention : ℕ
  clear : ℕ → ℕ → List UInt8 → Option Expired
  access : ℕ → Access

def u64Max : ℕ := 2 ^ 64 - 1

def pageSize : ℕ := 256

def Pass.retentionMs (p : Pass) : ℕ := min (p.retention / 10 ^ 6) u64Max

def isDue (atMs now retentionMs : ℕ) : Bool := min (atMs + retentionMs) u64Max ≤ now

/-- The state of a pass in progress. `bound` is the in-memory bound, which the scan left at
the maximum, and `committed` are the effects of its transactions. -/
structure Loop where
  db : Db
  bound : ℕ := u64Max
  retained : ℕ := u64Max
  calls : List (ℕ × List UInt8) := []
  committed : List KvEffects := []
  removed : ℕ := 0
  accesses : ℕ := 0

inductive Result where
  | ok
  | compareFailed
  | ended
  deriving DecidableEq

/-- How the loop of a pass goes on after an entry. -/
inductive Flow where
  | next
  | stop
  | ended
  deriving DecidableEq

section Model

variable (index : ExpiryIndex) (p : Pass)

namespace Loop

def retain (loop : Loop) (atMs : ℕ) : Loop := { loop with retained := min loop.retained atMs }

/-- Commit effects. A write of an entry of the index lowers the bound after the commit. -/
def transact (effects : KvEffects) (loop : Loop) : Loop × Result :=
  let tried := { loop with accesses := loop.accesses + 1 }
  if p.access loop.accesses = .failed ∨ effects.kvDeletes.any (· ∈ effects.kvWrites) then
    (tried, .ended)
  else if effects.kvCompares.all fun c => loop.db.kvGet c.key = c.expected then
    let committed := { tried with
      db := loop.db.apply effects
      committed := loop.committed ++ [effects] }
    if p.access loop.accesses = .done then
      let entries := effects.expiryEntries.filter (·.1 = index)
      ({ committed with bound := entries.foldl (fun bound e => min bound e.2) loop.bound }, .ok)
    else (committed, .ended)
  else (tried, if p.access loop.accesses = .done then .compareFailed else .ended)

def kvDelete (key : List UInt8) (loop : Loop) : Loop × Result :=
  loop.transact index p (({} : KvEffects).kvDelete key)

def settle (key : List UInt8) (atMs : ℕ) (answer : Expired) (loop : Loop) : Loop × Flow :=
  match answer with
  | .delete effects =>
    match loop.transact index p (effects.kvDelete key) with
    | (loop, .ok) => ({ loop with removed := loop.removed + 1 }, .next)
    | (loop, _) => (loop, .ended)
  | .deleteIf compare effects =>
    match loop.transact index p ((effects.kvCompare compare).kvDelete key) with
    | (loop, .ok) => ({ loop with removed := loop.removed + 1 }, .next)
    | (loop, .compareFailed) =>
      match loop.kvDelete index p key with
      | (loop, .ok) => ({ loop with removed := loop.removed + 1 }, .next)
      | (loop, _) => (loop, .ended)
    | (loop, .ended) => (loop, .ended)
  | .keep => (loop.retain atMs, .next)

/-- One entry of the stream. A key without a time is deleted without a call. -/
def visit (key : List UInt8) (loop : Loop) : Loop × Flow :=
  match index.parse key with
  | none =>
    match loop.kvDelete index p key with
    | (loop, .ok) => (loop, .next)
    | (loop, _) => (loop, .ended)
  | some (atMs, suffix) =>
    if isDue atMs p.now p.retentionMs then
      let called := { loop with calls := loop.calls ++ [(atMs, suffix)] }
      match p.clear loop.calls.length atMs suffix with
      | none => (called, .ended)
      | some answer => called.settle index p key atMs answer
    else (loop.retain atMs, .stop)

def visitAll : List (List UInt8) → Loop → Loop × Flow
  | [], loop => (loop, .next)
  | key :: keys, loop =>
    match loop.visit index p key with
    | (loop, .next) => visitAll keys loop
    | r => r

end Loop

/-- Read the entries page by page from the key `start` on. The flag says that the pass
completed. -/
def readPages (start : List UInt8) : (fuel : ℕ) → Option (List UInt8) → Loop → Option (Loop × Bool)
  | 0, _, _ => none
  | fuel + 1, cursor, loop =>
    let tried := { loop with accesses := loop.accesses + 1 }
    if p.access loop.accesses ≠ .done then some (tried, false)
    else
      let page := fetchEntries loop.db index.leading ⟨.included start, .unbounded⟩ .ascending
        pageSize cursor
      match tried.visitAll index p (page.1.map Prod.fst), page.2 with
      | (loop, .next), none => some (loop, true)
      | (loop, .next), some cursor => readPages start fuel (some cursor) loop
      | (loop, .stop), _ => some (loop, true)
      | (loop, .ended), _ => some (loop, false)

structure State where
  db : Db := ⟨[], List.Pairwise.nil⟩
  bound : ℕ := 0

/-- What a pass did: its calls, its transactions and whether it completed. -/
structure Outcome where
  calls : List (ℕ × List UInt8) := []
  committed : List KvEffects := []
  removed : ℕ := 0
  completed : Bool := true

/-- One pass. It returns without a read while no entry can be due. -/
def pass (fuel : ℕ) (s : State) : Option (State × Outcome) :=
  if isDue s.bound p.now p.retentionMs then
    (readPages index p (index.entryKey s.bound []) fuel none { db := s.db }).map
      fun (loop, completed) =>
        ({ db := loop.db
           bound := min loop.bound (if completed then loop.retained else s.bound) },
          { calls := loop.calls, committed := loop.committed, removed := loop.removed, completed })
  else some (s, {})

/-- Effects with the entries of a caller's write. -/
def withEntries (entries : List (ℕ × List UInt8)) (changes : KvEffects) : KvEffects :=
  entries.foldl (fun effects e => effects.expiryEntry index e.1 (index.entryKey e.1 e.2) []) changes

inductive Label where
  | write (entries : List (ℕ × List UInt8)) (changes : KvEffects)
  | pass (fuel : ℕ) (p : Pass)
  | restart

/-- Entries are written through the effects of a caller, whose other changes are outside the
index, and no write is made during a pass. A restart begins with a new bound. -/
def step (s : State) : Label → Option State
  | .write entries changes =>
    if (∀ e ∈ entries, e.1 ≤ u64Max) ∧ index.Avoided changes then
      some {
        db := s.db.apply (withEntries index entries changes)
        bound := entries.foldl (fun bound e => min bound e.1) s.bound }
    else none
  | .pass fuel p => (pass index p fuel s).map Prod.fst
  | .restart => some { s with bound := 0 }

def machine : Machine State Label where
  init s := s = {}
  step := step index

end Model

section Specification

variable (index : ExpiryIndex) (p : Pass)

def entries (db : Db) : List (ℕ × List UInt8) :=
  (index.rows db).filterMap fun row => index.parse row.1

/-- The entry's time and the retention are not after the time of the pass. -/
def Pass.Due (e : ℕ × List UInt8) : Prop := e.1 * 10 ^ 6 + p.retention ≤ p.now * 10 ^ 6

instance (e : ℕ × List UInt8) : Decidable (p.Due e) := inferInstanceAs (Decidable (_ ≤ _))

def dueEntries (db : Db) : List (ℕ × List UInt8) := (entries index db).filter p.Due

def Expired.transaction (db : Db) (key : List UInt8) : Expired → Option KvEffects
  | .delete effects => some (effects.kvDelete key)
  | .deleteIf compare effects =>
    if db.kvGet compare.key = compare.expected then
      some ((effects.kvCompare compare).kvDelete key)
    else some (({} : KvEffects).kvDelete key)
  | .keep => none

/-- The transactions for the answers to the calls from the `i`-th on, for these entries. -/
def settlements (db : Db) (i : ℕ) : List (ℕ × List UInt8) → List KvEffects
  | [] => []
  | e :: es =>
    match (p.clear i e.1 e.2).bind (Expired.transaction db (index.entryKey e.1 e.2)) with
    | none => settlements db (i + 1) es
    | some effects => effects :: settlements (db.apply effects) (i + 1) es

/-- The answer to the `i`-th call keeps the entry. -/
def Pass.keeps (i : ℕ) (e : ℕ × List UInt8) : Bool :=
  match p.clear i e.1 e.2 with
  | some .keep => true
  | _ => false

/-- The entries that the answers from the `i`-th on keep. -/
def kept (i : ℕ) : List (ℕ × List UInt8) → List (ℕ × List UInt8)
  | [] => []
  | e :: es => if p.keeps i e then e :: kept (i + 1) es else kept (i + 1) es

/-- A pass did what its callback answered. It called for the due entries, oldest first, and
settled the first of them, each in the transaction of its answer. A completed pass called
for and settled all of them. -/
def Exact (s s' : State) (o : Outcome) : Prop :=
  s'.db = o.committed.foldl Db.apply s.db ∧
  ∃ settled, o.calls <+: dueEntries index p s.db ∧
    settled ≤ o.calls.length ∧ o.calls.length ≤ settled + 1 ∧
    o.committed = settlements index p s.db 0 ((dueEntries index p s.db).take settled) ∧
    entries index s'.db =
      kept p 0 ((dueEntries index p s.db).take settled) ++ (entries index s.db).drop settled ∧
    (o.completed = true →
      o.calls = dueEntries index p s.db ∧ settled = (dueEntries index p s.db).length)

def Untouched (effects : KvEffects) : Prop :=
  index.Avoided effects ∧ ∀ e ∈ effects.expiryEntries, e.1 ≠ index

def Expired.Plain : Expired → Prop
  | .delete effects => Untouched index effects
  | .deleteIf _ effects => Untouched index effects ∧ effects.kvCompares = []
  | .keep => True

/-- The effects of the answers change no entry and, with a compare of the answer, have none
of their own. The retention is in whole milliseconds and the time below the maximum. -/
structure Pass.Plain : Prop where
  answers : ∀ n atMs suffix answer, p.clear n atMs suffix = some answer → answer.Plain index
  retention : 10 ^ 6 ∣ p.retention
  now : p.now < u64Max

def PlainPasses (_ : State) : Label → Prop
  | .write _ _ => True
  | .pass _ p => p.Plain index
  | .restart => True

end Specification

end Taquba.Expiry
