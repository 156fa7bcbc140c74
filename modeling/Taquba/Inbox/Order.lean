import Taquba.Inbox.Moves

/-! # Listings while sends continue

A listing reads the names of the objects one after the other, in the order of their paths,
and an object that is put while it runs is listed if its position has still to be read.
The sends of one process are awaited one after the other, and their ULIDs increase. The
commits of the entries are noted with the locations of their objects.
-/

namespace Taquba

def Call.sweeps {κ β : Type} : Call κ β → List (ℕ × QueueName × String)
  | .sweepInboxRecords entries => entries
  | _ => []

namespace Inbox

open Snapshot Transition

variable {κ β : Type}

/-- The path of an object below the version prefix, in characters. -/
def Location.path (location : Location) : List Char :=
  location.queue.toList ++ '/' :: location.kind.toList ++ '/' ::
    (location.stem.elim [] fun stem => stem.toList ++ ['.']) ++ location.id.toList

/-- The entries of the two objects have one queue and one id. -/
def Location.SameId (a b : Location) : Prop := a.queue = b.queue ∧ a.id = b.id

instance (a b : Location) : Decidable (a.SameId b) :=
  inferInstanceAs (Decidable (_ ∧ _))

def Label.lists : Label κ β → Bool
  | .list _ | .listed => true
  | _ => false

namespace Order

/-- The inbox with the sends of the process, the last one first, those of them since the
last listing began, the position that the listing has read, and the commits of entries,
the last one first, with their places in the log. -/
structure State (κ β : Type) where
  inbox : Inbox.State κ β := {}
  mine : List Location := []
  since : List Location := []
  cursor : List Char := []
  applied : List (ℕ × Location) := []

inductive Label (κ β : Type) where
  /-- A send of the process. -/
  | send (location : Location) (body : List UInt8)
  /-- A send of another process. -/
  | other (location : Location) (body : List UInt8)
  | lock
  /-- The listing reads on to the position, and finds no object. -/
  | skip (position : List Char)
  | list (location : Location)
  | listed
  | pass (label : Inbox.Label κ β)
  | drop
  | writer (label : Inbox.Label κ β)
  | crash (kept : ℕ) (todo : List JobRecord)

def State.commits (s : State κ β) (label : Inbox.Label κ β) : List (ℕ × Location) :=
  match s.inbox.pass with
  | some (.settling b) =>
    if label.commits then
      b.slots.head?.toList.map fun slot => (s.inbox.queue.log.length, slot.entry.location)
    else []
  | _ => []

def State.Clear (s : State κ β) (position : List Char) : Prop :=
  ∀ l ∈ s.inbox.sent, s.cursor < l.path → l.path < position → s.inbox.objects l = none

instance (s : State κ β) (position : List Char) : Decidable (s.Clear position) :=
  inferInstanceAs (Decidable (∀ l ∈ s.inbox.sent, s.cursor < l.path → l.path < position →
    s.inbox.objects l = none))

/-- A path is read in one way, so no other location has it. -/
def State.OwnPath (s : State κ β) (location : Location) : Prop :=
  ∀ l ∈ s.inbox.sent, l.path = location.path → l = location

instance (s : State κ β) (location : Location) : Decidable (s.OwnPath location) :=
  inferInstanceAs (Decidable (∀ l ∈ s.inbox.sent, l.path = location.path → l = location))

variable [DecidableEq κ] [DecidableEq β] (settings : Settings κ β)

/-- The ULID of the object is later than those of the earlier sends of the process. -/
def State.Later (s : State κ β) (location : Location) : Prop :=
  ∃ order ∈ location.stem.bind settings.ulid, ∀ l ∈ s.mine, ∀ earlier ∈ l.stem.bind settings.ulid,
    earlier < order

instance (s : State κ β) (location : Location) : Decidable (s.Later settings location) :=
  inferInstanceAs (Decidable (∃ order ∈ _, ∀ l ∈ s.mine, ∀ earlier ∈ _, earlier < order))

def step (s : State κ β) : Label κ β → Option (State κ β)
  | .send location body =>
    if s.OwnPath location ∧ (PendingEntry.parse settings location body).isSome ∧
        s.Later settings location then
      (Inbox.step settings s.inbox (.send location body)).map fun inbox =>
        { s with inbox, mine := location :: s.mine, since := location :: s.since }
    else none
  | .other location body =>
    if s.OwnPath location then
      (Inbox.step settings s.inbox (.send location body)).map fun inbox => { s with inbox }
    else none
  | .lock =>
    (Inbox.step settings s.inbox .lock).map fun inbox => { s with inbox, since := [], cursor := [] }
  | .skip position =>
    if s.cursor < position ∧ s.Clear position ∧
        ∀ l ∈ s.inbox.sent, l.path = position → s.inbox.objects l = none then
      some { s with cursor := position }
    else none
  | .list location =>
    if s.cursor < location.path ∧ s.Clear location.path then
      (Inbox.step settings s.inbox (.list location)).map fun inbox =>
        { s with inbox, cursor := location.path }
    else none
  | .listed =>
    if ∀ l ∈ s.inbox.sent, s.cursor < l.path → s.inbox.objects l = none then
      (Inbox.step settings s.inbox .listed).map fun inbox => { s with inbox }
    else none
  | .pass label =>
    if label.ofPass ∧ ¬ label.lists then
      (Inbox.step settings s.inbox label).map fun inbox =>
        { s with inbox, applied := s.commits label ++ s.applied }
    else none
  | .drop => (Inbox.step settings s.inbox .drop).map fun inbox => { s with inbox }
  | .writer label =>
    if label.ofWriter then
      (Inbox.step settings s.inbox label).map fun inbox => { s with inbox }
    else none
  | .crash kept todo =>
    (Inbox.step settings s.inbox (.crash kept todo)).map fun inbox =>
      { s with inbox, applied := s.applied.filter (·.1 < kept) }

/-- The runs of an inbox with the senders of one process and of others. -/
def machine : Machine (State κ β) (Label κ β) where
  init s := s = {}
  step := step settings

/-- A commit of the log swept the record of the entry at the location. -/
def Swept (log : History κ β) (location : Location) : Prop :=
  ∃ c ∈ log, ∃ e ∈ c.label.call.sweeps, e.2.1.name = location.queue ∧ e.2.2 = location.id

instance (log : History κ β) (location : Location) : Decidable (Swept log location) :=
  inferInstanceAs (Decidable (∃ c ∈ log, ∃ e ∈ c.label.call.sweeps, _ ∧ _))

def Label.sends : Label κ β → Option Location
  | .send location _ => some location
  | _ => none

def Label.sweeps : Label κ β → Bool
  | .writer (.sweep _) => true
  | _ => false

/-- While a listing runs the process puts one object at most, it reuses no id whose record
was swept, and no sweep deletes a record of an id that an object of the process has. -/
def Apart (s : State κ β) (label : Label κ β) : Prop :=
  (∀ location ∈ label.sends, (s.inbox.pass.any Phase.isListing = true → s.since = []) ∧
    ¬ Swept s.inbox.queue.log location) ∧
  (label.sweeps = true → ∀ entries ∈ s.inbox.sweep, ∀ e ∈ entries.take inboxSweepBatch,
    ∀ l ∈ s.mine, s.inbox.objects l ≠ none → ¬ (e.2.1.name = l.queue ∧ e.2.2 = l.id))

instance (s : State κ β) (label : Label κ β) : Decidable (Apart s label) :=
  inferInstanceAs (Decidable (_ ∧ _))

/-- The entries of the process commit in send order, and of several entries with one queue
and id the first one commits. -/
structure InSendOrder (mine : List Location) (applied : List (ℕ × Location)) : Prop where
  order : (applied.filter (·.2 ∈ mine)).Pairwise fun p q => [p.2, q.2].Sublist mine
  first : ∀ p ∈ applied, ∀ l, [p.2, l].Sublist mine → ¬ p.2.SameId l

/-- The noted commits are those of the log that apply or reject an entry. -/
structure Noted (log : History κ β) (applied : List (ℕ × Location)) : Prop where
  places : applied.Pairwise fun p q => q.1 < p.1
  commits : ∀ p ∈ applied, ∃ c a, log[p.1]? = some c ∧ c.label.call.application = some a ∧
    a.queue.name = p.2.queue ∧ a.id = p.2.id
  complete : ∀ n c a, log[n]? = some c → c.label.call.application = some a →
    ∃ l, (n, l) ∈ applied

end Order

end Inbox

end Taquba
