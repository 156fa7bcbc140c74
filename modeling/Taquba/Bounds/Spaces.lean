import Taquba.Bounds.TimeBound
import Taquba.Queue.Machine

/-! # The key spaces with an in-process bound

Scheduled and done records, the expiry entries of the inbox and the entries of the
expiry indexes lead with a time, and each space has a bound. The pending keys of a
queue have its claim cursor. The notes of a commit reach every key that it writes
in one of them.
-/

namespace Taquba

open Snapshot

variable {atMs : ℕ} {key : Key UserKey} {space : Space}

abbrev UserKey := List UInt8

namespace ExpiryIndex

/-- The last eight base-256 digits of a number, most significant first. -/
def bigEndian (n : ℕ) : List UInt8 :=
  [n / 256 ^ 7, n / 256 ^ 6, n / 256 ^ 5, n / 256 ^ 4, n / 256 ^ 3, n / 256 ^ 2, n / 256, n].map
    UInt8.ofNat

def ofBigEndian (bytes : List UInt8) : ℕ := bytes.foldl (fun n b => n * 256 + b.toNat) 0

def entryKey (index : ExpiryIndex) (atMs : ℕ) (suffix : UserKey) : UserKey :=
  index.leading ++ (bigEndian atMs ++ suffix)

/-- The time and the suffix of the entry at `key`. -/
def parse (index : ExpiryIndex) (key : UserKey) : Option (ℕ × UserKey) :=
  (index.leading.isPrefixOf? key).bind fun rest =>
    if 8 ≤ rest.length then some (ofBigEndian (rest.take 8), rest.drop 8) else none

theorem ofBigEndian_bigEndian {n : ℕ} (h : n < 2 ^ 64) : ofBigEndian (bigEndian n) = n := by
  simp only [bigEndian, ofBigEndian, List.map_cons, List.map_nil, List.foldl_cons, List.foldl_nil,
    UInt8.toNat_ofNat']
  omega

theorem parse_entryKey (index : ExpiryIndex) (h : atMs < 2 ^ 64) (suffix : UserKey) :
    index.parse (index.entryKey atMs suffix) = some (atMs, suffix) := by
  have hp : index.leading.isPrefixOf? (index.entryKey atMs suffix) =
      some (bigEndian atMs ++ suffix) := by
    rw [List.isPrefixOf?_eq_some_iff_append_eq]
    rfl
  have hlen : (bigEndian atMs).length = 8 := rfl
  simp [parse, hp, hlen, ofBigEndian_bigEndian h]

end ExpiryIndex

inductive Space where
  | scheduled
  | done
  | inbox
  | expiry (index : ExpiryIndex)
  deriving DecidableEq

namespace Space

variable {β : Type}

def time? : Space → Key UserKey → Option ℕ
  | .scheduled, .record (.scheduled runAt _ _) => some runAt
  | .done, .record (.done completedAt _ _) => some completedAt
  | .inbox, .inboxExpiry appliedAt _ _ => some appliedAt
  | .expiry index, .user key => (index.parse key).map Prod.fst
  | _, _ => none

def time (space : Space) (key : Key UserKey) : ℕ := (space.time? key).getD 0

/-- The writer of a key at a time records it. An entry of an expiry index is recorded
by its writer alone; the writes of the other spaces are all recorded. -/
def records (notes : CommitNotes) (atMs : ℕ) : Space → Bool
  | .expiry index => (index, atMs) ∈ notes.expiry
  | _ => true

/-- A live key of the space. A user key is an entry of an index when its last writer
recorded it there. -/
def isLive (space : Space) (log : History UserKey β) (key : Key UserKey) : Bool :=
  (log.store key).isSome && (space.time? key).any fun atMs =>
    (log.lastWriter key).any fun c => space.records c.label.notes atMs

def written (space : Space) (log : History UserKey β)
    (c : Commit (Val UserKey β) (Entry UserKey β)) : Finset (Key UserKey) :=
  (Batch.keys c.writes).toFinset.filter fun key => space.isLive log key

theorem isLive_iff {log : History UserKey β} :
    space.isLive log key = true ↔ log.store key ≠ none ∧ ∃ atMs c, space.time? key = some atMs ∧
      log.lastWriter key = some c ∧ space.records c.label.notes atMs = true := by
  simp only [isLive, Bool.and_eq_true, Option.isSome_iff_ne_none, Option.any_eq_true]
  constructor
  · rintro ⟨hs, atMs, ht, c, hc, hr⟩
    exact ⟨hs, atMs, c, ht, hc, hr⟩
  · rintro ⟨hs, atMs, c, ht, hc, hr⟩
    exact ⟨hs, atMs, ht, c, hc, hr⟩

end Space

def pendingKey? {κ : Type} (queue : QueueName) : Key κ → Option PendingKey
  | .record (.pending q key) => if q = queue then some key else none
  | _ => none

/-- One update of the in-process state that a commit has still to make. A pending note
has the number that the cursor of its queue gave to the commit. -/
inductive Note where
  | pending (queue : QueueName) (number : ℕ) (minKey : PendingKey)
  | time (space : Space) (atMs : ℕ)
  deriving DecidableEq

def CommitNotes.updates (notes : CommitNotes) (number : QueueName → ℕ) : List Note :=
  (notes.queues.filterMap fun queue =>
    (notes.pending queue).map fun p => .pending queue (number queue) p.1) ++
  notes.scheduled.toList.map (.time .scheduled) ++ notes.done.toList.map (.time .done) ++
  (notes.expiry.map fun e => .time (.expiry e.1) e.2) ++ notes.inbox.toList.map (.time .inbox)

namespace CommitNotes

variable {notes : CommitNotes} {number : QueueName → ℕ}

theorem pending_mem_updates {queue : QueueName} {i : ℕ} {m : PendingKey} :
    Note.pending queue i m ∈ notes.updates number ↔
      i = number queue ∧ queue ∈ notes.queues ∧ (notes.pending queue).map Prod.fst = some m := by
  simp only [updates, List.mem_append, List.mem_filterMap, List.mem_map, Option.map_eq_some_iff,
    reduceCtorEq, and_false, exists_false, or_false, Note.pending.injEq]
  constructor
  · rintro ⟨q, hq, p, hp, rfl, rfl, rfl⟩
    exact ⟨rfl, hq, p, hp, rfl⟩
  · rintro ⟨rfl, hq, p, hp, rfl⟩
    exact ⟨queue, hq, p, hp, rfl, rfl, rfl⟩

theorem scheduled_mem_updates (h : notes.scheduled = some atMs) :
    Note.time .scheduled atMs ∈ notes.updates number := by
  simp [updates, h]

theorem done_mem_updates (h : notes.done = some atMs) :
    Note.time .done atMs ∈ notes.updates number := by
  simp [updates, h]

theorem inbox_mem_updates (h : notes.inbox = some atMs) :
    Note.time .inbox atMs ∈ notes.updates number := by
  simp [updates, h]

theorem expiry_mem_updates {index : ExpiryIndex} (h : (index, atMs) ∈ notes.expiry) :
    Note.time (.expiry index) atMs ∈ notes.updates number := by
  simp [updates, h]

end CommitNotes

section Commit

variable {β : Type} {log : History UserKey β} {c : Commit (Val UserKey β) (Entry UserKey β)}

theorem Space.isLive_append_of_not_mem (h : key ∉ Batch.keys c.writes) :
    space.isLive (log ++ [c]) key = space.isLive log key := by
  simp [isLive, h, Store.applyBatch_of_not_mem h]

/-- A commit lowers the bound of a space to every live key that it wrote there. -/
theorem Performs.time_mem_updates {as : List (JobAction UserKey β)} (hp : Performs log c as)
    (hk : key ∈ space.written (log ++ [c]) c) (number : QueueName → ℕ) :
    ∃ atMs, .time space atMs ∈ c.label.notes.updates number ∧ atMs ≤ space.time key := by
  obtain ⟨hmem, hlive⟩ := Finset.mem_filter.mp hk
  rw [List.mem_toFinset] at hmem
  obtain ⟨hstore, atMs, d, htime, hlast, hrec⟩ := Space.isLive_iff.mp hlive
  rw [Log.lastWriter_append_singleton, if_pos hmem] at hlast
  cases hlast
  have hle : space.time key = atMs := by simp [Space.time, htime]
  match space, key with
  | .expiry index, _ =>
    have hmem : (index, atMs) ∈ c.label.notes.expiry := by simpa [Space.records] using hrec
    exact ⟨atMs, CommitNotes.expiry_mem_updates hmem, hle.ge⟩
  | .scheduled, .record (.scheduled runAt queue id) =>
    obtain ⟨bound, hb, hbt⟩ := hp.coversKey hmem hstore
    exact ⟨bound, CommitNotes.scheduled_mem_updates hb, hbt⟩
  | .done, .record (.done completedAt queue id) =>
    obtain ⟨bound, hb, hbt⟩ := hp.coversKey hmem hstore
    exact ⟨bound, CommitNotes.done_mem_updates hb, hbt⟩
  | .inbox, .inboxExpiry appliedAt queue id =>
    obtain ⟨w, hne, hc⟩ := hp.covers_of_ne_none hmem hstore
    obtain ⟨bound, hb, hbt⟩ : ∃ bound, c.label.notes.inbox = some bound ∧ bound ≤ appliedAt := by
      cases w with
      | put v => exact hc
      | merge v => exact hc
      | delete => exact absurd rfl hne
    exact ⟨bound, CommitNotes.inbox_mem_updates hb, hbt⟩

/-- A commit notes, for the cursor of its queue, every pending key that it leaves live. -/
theorem Performs.pending_mem_updates {as : List (JobAction UserKey β)} (hp : Performs log c as)
    {queue : QueueName} {key : PendingKey} (hk : .record (.pending queue key) ∈ Batch.keys c.writes)
    (h : Log.store (log ++ [c]) (.record (.pending queue key)) ≠ none) (number : QueueName → ℕ) :
    ∃ m, .pending queue (number queue) m ∈ c.label.notes.updates number ∧ m ≤ key := by
  obtain ⟨hq, m, count, hm, hle⟩ := hp.coversKey hk h
  exact ⟨m, CommitNotes.pending_mem_updates.mpr ⟨rfl, hq, by simp [hm]⟩, hle⟩

end Commit

end Taquba
