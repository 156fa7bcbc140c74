import Taquba.Inbox.Entry
import Taquba.Transition.Machine

/-! # Passes over an inbox

A pass holds the lock. It lists the objects, and for each batch it reads bodies ahead,
settles the entries in order, flushes their commits and deletes their objects. Every
await of the source is a step of its own, at which the pass can fail or be dropped, and
between which the queue, the senders and the sweep of the records take steps. A commit
takes effect at once or not at all. A crash keeps the commits that were flushed, and any
part of those after them.
-/

namespace Taquba.Inbox

open Snapshot Transition

variable {κ β : Type} [DecidableEq κ] [DecidableEq β]

/-- The read of an entry ahead of its application: before the check of its record, after
a check that found none, and at its end. -/
inductive Fetch where
  | waiting
  | checked
  | done (read : Option Read)
  deriving DecidableEq

structure Slot where
  entry : PendingEntry
  fetch : Fetch := .waiting
  deriving DecidableEq

/-- The settlement of the first entry of a batch: before the check of its record, and
after a check that found none. -/
inductive Settling where
  | ready
  | reading (appliedAt : ℕ)
  | applying (appliedAt : ℕ) (entry : InboxEntry)
  | rejecting (appliedAt : ℕ) (rejection : Rejection)
  deriving DecidableEq

/-- A batch, with the entries after it, those that have still to be settled, the number of
them that are read ahead, and the locations of those that are settled. -/
structure Batch where
  later : List PendingEntry
  slots : List Slot
  reads : ℕ
  settled : List Location := []
  head : Settling := .ready
  deriving DecidableEq

/-- Where a pass stands. `failed` says that an entry ended the batch with an error. -/
inductive Phase where
  | listing (found : List PendingEntry)
  | between (later : List PendingEntry)
  | settling (batch : Batch)
  | closing (later : List PendingEntry) (settled : List Location) (failed : Bool)
  | flushing (later : List PendingEntry) (settled : List Location) (failed : Bool) (commits : ℕ)
  | deleting (later : List PendingEntry) (settled : List Location) (failed : Bool)
  deriving DecidableEq

/-- The queue with the number of its commits that are flushed, the objects with the
locations of all sends so far, the pass that holds the lock, and the expired entries that
the sweep has still to delete. -/
structure State (κ β : Type) where
  queue : Queue.State κ β := {}
  flushed : ℕ := 0
  objects : Objects := fun _ => none
  sent : List Location := []
  pass : Option Phase := none
  sweep : Option (List (ℕ × QueueName × String)) := none

inductive Label (κ β : Type) where
  | send (location : Location) (body : List UInt8)
  | remove (location : Location)
  | lock
  | list (location : Location)
  | listed
  | batch
  | check (i : ℕ)
  | read (i : ℕ) (failure : Option String)
  | settle (now : ℕ) (unreadable : Bool)
  | readHead (failure : Option String) (unreadable : Bool)
  | apply (snap : ℕ) (generated : String) (name : Option String) (now : ℕ) (reported : Bool)
  | refuse (snap : ℕ) (generated : String) (now : ℕ)
  | reject (snap : ℕ) (reported : Bool)
  | fail
  | beginFlush
  | endFlush (flushed : Bool)
  | delete (deleted : Bool)
  | drop
  | scan (expired : List (ℕ × QueueName × String)) (now : ℕ)
  | sweep (snap : Option ℕ)
  | endSweep
  | queue (label : Queue.Label κ β)
  | crash (kept : ℕ) (todo : List JobRecord)

def State.store (s : State κ β) : Store (Val κ β) := s.queue.log.store

/-- Read further entries ahead, while there is room. -/
def fill : List PendingEntry → ℕ → ℕ → ℕ
  | [], reads, _ => reads
  | entry :: ahead, reads, reading =>
    if (inboxPrefetch ≤ reads ∨ inboxPrefetchBytes < reading + entry.size) ∧ reads ≠ 0 then reads
    else fill ahead (reads + 1) (reading + entry.size)

def fillSlots (slots : List Slot) (reads : ℕ) : ℕ :=
  fill ((slots.drop reads).map (·.entry)) reads ((slots.take reads).map (·.entry.size)).sum

/-- What follows a batch: the pass fails, or goes on. -/
def afterBatch (later : List PendingEntry) (failed : Bool) : Option Phase :=
  if failed then none else some (.between later)

/-- The end of the settlement of a batch. A batch without a settled entry flushes and
deletes nothing. -/
def closeBatch (later : List PendingEntry) (settled : List Location) (failed : Bool) :
    Option Phase :=
  if settled = [] then afterBatch later failed else some (.closing later settled failed)

def Batch.settleHead (b : Batch) (slot : Slot) (rest : List Slot) : Option Phase :=
  let settled := b.settled ++ [slot.entry.location]
  if rest = [] then closeBatch b.later settled false
  else some (.settling
    { b with slots := rest, reads := fillSlots rest (b.reads - 1), settled, head := .ready })

def Batch.withHead (b : Batch) (head : Settling) : Option Phase :=
  some (.settling { b with head })

def Batch.failHead (b : Batch) : Option Phase := closeBatch b.later b.settled true

/-- What follows a commit that took effect, which an error of the store can hide. -/
def Batch.afterCommit (b : Batch) (slot : Slot) (rest : List Slot) (reported : Bool) :
    Option Phase :=
  if reported then b.settleHead slot rest else b.failHead

variable (settings : Settings κ β)

/-- What follows the read of the first entry, whose record does not exist. `unreadable`
says that its reads have failed for long enough. -/
def Batch.afterRead (b : Batch) (slot : Slot) (rest : List Slot) (now : ℕ) (unreadable : Bool) :
    Read → Option Phase
  | .body body =>
    match InboxEntry.decode settings slot.entry.kind body with
    | .ok entry => b.withHead (.applying now entry)
    | .error rejection => b.withHead (.rejecting now rejection)
  | .rejected rejection => b.withHead (.rejecting now rejection)
  | .missing => b.settleHead slot rest
  | .failed detail =>
    if unreadable then b.withHead (.rejecting now (.unreadable detail)) else b.failHead

/-- The check of the first entry's record, and what follows it. -/
def Batch.settleEntry (b : Batch) (s : State κ β) (slot : Slot) (rest : List Slot)
    (prefetched : Option Read) (now : ℕ) (unreadable : Bool) : Option Phase :=
  if (s.store (.inboxRecord slot.entry.queue slot.entry.id)).isSome then b.settleHead slot rest
  else
    match rejection settings slot.entry with
    | some rejection => b.withHead (.rejecting now rejection)
    | none =>
      match prefetched with
      | some read => b.afterRead settings slot rest now unreadable read
      | none => b.withHead (.reading now)

/-- The refusal of the operation of an entry, on the state that its attempt reads. -/
def refusalOf (s : Store (Val κ β)) (queue : QueueName) (entry : InboxEntry)
    (generated : String) (now : ℕ) : Option (Refusal κ) :=
  match entry.effect settings queue generated none now with
  | .error refusal => some refusal
  | .ok effect =>
    match effect.stage queue (Txn.begin s) with
    | .error e => some (.body e)
    | .ok _ => none

def settleStep (s : State κ β) (b : Batch) : Label κ β → Option (State κ β)
  | .check i =>
    match b.slots[i]? with
    | some slot =>
      if i < b.reads ∧ slot.fetch = .waiting then
        let fetch := if (rejection settings slot.entry).isSome ∨
            (s.store (.inboxRecord slot.entry.queue slot.entry.id)).isSome
          then .done none else .checked
        some { s with
          pass := some (.settling { b with slots := b.slots.set i { slot with fetch } }) }
      else none
    | none => none
  | .read i failure =>
    match b.slots[i]? with
    | some slot =>
      if i < b.reads ∧ slot.fetch = .checked then
        let fetch := .done (some (readObject s.objects slot.entry.location failure))
        some { s with
          pass := some (.settling { b with slots := b.slots.set i { slot with fetch } }) }
      else none
    | none => none
  | .settle now unreadable =>
    match b.head, b.slots with
    | .ready, ⟨entry, .done prefetched⟩ :: rest =>
      some { s with
        pass := b.settleEntry settings s ⟨entry, .done prefetched⟩ rest prefetched now unreadable }
    | _, _ => none
  | .readHead failure unreadable =>
    match b.head, b.slots with
    | .reading appliedAt, slot :: rest =>
      let read := readObject s.objects slot.entry.location failure
      some { s with pass := b.afterRead settings slot rest appliedAt unreadable read }
    | _, _ => none
  | .apply snap generated name now reported =>
    match b.head, b.slots with
    | .applying appliedAt entry, slot :: rest =>
      match entry.effect settings slot.entry.queue generated name now with
      | .ok effect =>
        let a : Application := ⟨slot.entry.queue, slot.entry.id, appliedAt, effect⟩
        (Queue.step s.queue (.commit a.call snap)).map fun queue =>
          { s with queue, pass := b.afterCommit slot rest reported }
      | .error _ => none
    | _, _ => none
  | .refuse snap generated now =>
    match b.head, b.slots with
    | .applying appliedAt entry, slot :: _ =>
      match refusalOf settings (Log.store (s.queue.log.take snap)) slot.entry.queue entry generated
        now with
      | some refusal =>
        if isPermanent refusal then
          some { s with pass := b.withHead (.rejecting appliedAt (ofPermanent settings refusal)) }
        else none
      | none => none
    | _, _ => none
  | .reject snap reported =>
    match b.head, b.slots with
    | .rejecting appliedAt rejection, slot :: rest =>
      let a : Application := ⟨slot.entry.queue, slot.entry.id, appliedAt, .reject rejection⟩
      (Queue.step s.queue (.commit a.call snap)).map fun queue =>
        { s with queue, pass := b.afterCommit slot rest reported }
    | _, _ => none
  | .fail => some { s with pass := b.failHead }
  | _ => none

def passStep (s : State κ β) : Phase → Label κ β → Option (State κ β)
  | .listing found, .list location =>
    match s.objects location with
    | some body => some { s with
        pass := some (.listing (found ++ (PendingEntry.parse settings location body).toList)) }
    | none => none
  | .listing found, .listed => some { s with pass := some (.between (sortEntries found)) }
  | .listing _, .fail | .between _, .fail => some { s with pass := none }
  | .between later, .batch =>
    if later = [] then some { s with pass := none }
    else
      let slots := (later.take inboxBatch).map fun entry => { entry }
      some { s with pass := some (.settling
        { slots, later := later.drop inboxBatch, reads := fillSlots slots 0 }) }
  | .settling b, label => settleStep settings s b label
  | .closing later settled failed, .beginFlush =>
    some { s with pass := some (.flushing later settled failed s.queue.log.length) }
  | .flushing later settled failed commits, .endFlush true => some { s with
      flushed := max s.flushed commits
      pass := some (.deleting later settled failed) }
  | .flushing _ _ _ _, .endFlush false => some { s with pass := none }
  | .deleting later [] failed, .delete _ => some { s with pass := afterBatch later failed }
  | .deleting later (location :: rest) failed, .delete deleted => some { s with
      objects := if deleted then Function.update s.objects location none else s.objects
      pass := some (.deleting later rest failed) }
  | _, _ => none

def step (s : State κ β) : Label κ β → Option (State κ β)
  | .send location body =>
    if location ∈ s.sent ∧ (location.stem.bind settings.ulid).isSome then none
    else some { s with
      objects := Function.update s.objects location (some body)
      sent := location :: s.sent }
  | .remove location => some { s with objects := Function.update s.objects location none }
  | .lock => if s.pass = none then some { s with pass := some (.listing []) } else none
  | .drop => some { s with pass := none }
  | .scan expired now =>
    if s.sweep = none ∧ expired.Nodup ∧ ∀ e ∈ expired,
        (s.store (.inboxExpiry e.1 e.2.1 e.2.2)).isSome ∧ e.1 + settings.retentionMs ≤ now then
      some { s with sweep := some expired }
    else none
  | .sweep snap =>
    match s.sweep, snap with
    | some (e :: entries), some snap =>
      let batch := (e :: entries).take inboxSweepBatch
      (Queue.step s.queue (.commit (.sweepInboxRecords batch) snap)).map fun queue =>
        { s with queue, sweep := some ((e :: entries).drop inboxSweepBatch) }
    | some (e :: entries), none =>
      some { s with sweep := some ((e :: entries).drop inboxSweepBatch) }
    | _, _ => none
  | .endSweep => some { s with sweep := none }
  | .queue (.commit call snap) =>
    if call.isInbox then none
    else (Queue.step s.queue (.commit call snap)).map fun queue => { s with queue }
  | .queue (.requeue now) =>
    (Queue.step s.queue (.requeue now)).map fun queue => { s with queue }
  | .crash kept todo =>
    if s.flushed ≤ kept then
      (Queue.step s.queue (.reopen kept todo)).map fun queue =>
        { s with queue, flushed := queue.log.length, pass := none, sweep := none }
    else none
  | label =>
    match s.pass with
    | some phase => passStep settings s phase label
    | none => none

inductive SettleStep (s : State κ β) (b : Batch) : Label κ β → State κ β → Prop
  | check {i slot} (hslot : b.slots[i]? = some slot) (hreads : i < b.reads)
      (hfetch : slot.fetch = .waiting) :
      SettleStep s b (.check i) { s with
        pass := some (.settling { b with slots := b.slots.set i { slot with
          fetch := if (rejection settings slot.entry).isSome ∨
              (s.store (.inboxRecord slot.entry.queue slot.entry.id)).isSome
            then .done none else .checked } }) }
  | read {i slot failure} (hslot : b.slots[i]? = some slot) (hreads : i < b.reads)
      (hfetch : slot.fetch = .checked) :
      SettleStep s b (.read i failure) { s with
        pass := some (.settling { b with slots := b.slots.set i { slot with
          fetch := .done (some (readObject s.objects slot.entry.location failure)) } }) }
  | settle {entry prefetched rest now unreadable} (hhead : b.head = .ready)
      (hslots : b.slots = ⟨entry, .done prefetched⟩ :: rest) :
      SettleStep s b (.settle now unreadable) { s with
        pass := b.settleEntry settings s ⟨entry, .done prefetched⟩ rest prefetched now unreadable }
  | readHead {slot rest appliedAt failure unreadable} (hhead : b.head = .reading appliedAt)
      (hslots : b.slots = slot :: rest) :
      SettleStep s b (.readHead failure unreadable) { s with
        pass := b.afterRead settings slot rest appliedAt unreadable
          (readObject s.objects slot.entry.location failure) }
  | apply {slot rest appliedAt snap now entry generated name reported effect queue}
      (hhead : b.head = .applying appliedAt entry) (hslots : b.slots = slot :: rest)
      (heffect : entry.effect settings slot.entry.queue generated name now = .ok effect)
      (hqueue : Queue.step s.queue (.commit (Application.call
        ⟨slot.entry.queue, slot.entry.id, appliedAt, effect⟩) snap) = some queue) :
      SettleStep s b (.apply snap generated name now reported)
        { s with queue, pass := b.afterCommit slot rest reported }
  | refuse {slot rest appliedAt snap now entry generated refusal}
      (hhead : b.head = .applying appliedAt entry) (hslots : b.slots = slot :: rest)
      (hrefusal : refusalOf settings (Log.store (s.queue.log.take snap)) slot.entry.queue entry
        generated now = some refusal) (hpermanent : isPermanent refusal) :
      SettleStep s b (.refuse snap generated now)
        { s with pass := b.withHead (.rejecting appliedAt (ofPermanent settings refusal)) }
  | reject {slot rest appliedAt snap rejection reported queue}
      (hhead : b.head = .rejecting appliedAt rejection) (hslots : b.slots = slot :: rest)
      (hqueue : Queue.step s.queue (.commit (Application.call
        ⟨slot.entry.queue, slot.entry.id, appliedAt, .reject rejection⟩) snap) = some queue) :
      SettleStep s b (.reject snap reported)
        { s with queue, pass := b.afterCommit slot rest reported }
  | fail : SettleStep s b .fail { s with pass := b.failHead }

/-- The steps, each with what it finds. -/
inductive Step (s : State κ β) : Label κ β → State κ β → Prop
  | send {location body}
      (hfresh : ¬ (location ∈ s.sent ∧ (location.stem.bind settings.ulid).isSome)) :
      Step s (.send location body) { s with
        objects := Function.update s.objects location (some body)
        sent := location :: s.sent }
  | remove {location} :
      Step s (.remove location) { s with objects := Function.update s.objects location none }
  | lock (hpass : s.pass = none) : Step s .lock { s with pass := some (.listing []) }
  | drop : Step s .drop { s with pass := none }
  | scan {expired now} (hnone : s.sweep = none) (hnodup : expired.Nodup) (hall : ∀ e ∈ expired,
        (s.store (.inboxExpiry e.1 e.2.1 e.2.2)).isSome ∧ e.1 + settings.retentionMs ≤ now) :
      Step s (.scan expired now) { s with sweep := some expired }
  | sweep {entries snap queue} (hsweep : s.sweep = some entries)
      (hqueue : Queue.step s.queue
        (.commit (.sweepInboxRecords (entries.take inboxSweepBatch)) snap) = some queue) :
      Step s (.sweep (some snap)) { s with queue, sweep := some (entries.drop inboxSweepBatch) }
  | failSweep {entries} (hsweep : s.sweep = some entries) :
      Step s (.sweep none) { s with sweep := some (entries.drop inboxSweepBatch) }
  | endSweep : Step s .endSweep { s with sweep := none }
  | commit {call snap queue} (hcall : call.isInbox = false)
      (hqueue : Queue.step s.queue (.commit call snap) = some queue) :
      Step s (.queue (.commit call snap)) { s with queue }
  | requeue {now queue} (hqueue : Queue.step s.queue (.requeue now) = some queue) :
      Step s (.queue (.requeue now)) { s with queue }
  | crash {kept todo queue} (hkept : s.flushed ≤ kept)
      (hqueue : Queue.step s.queue (.reopen kept todo) = some queue) :
      Step s (.crash kept todo)
        { s with queue, flushed := queue.log.length, pass := none, sweep := none }
  | list {found location body} (hpass : s.pass = some (.listing found))
      (hbody : s.objects location = some body) :
      Step s (.list location) { s with
        pass := some (.listing (found ++ (PendingEntry.parse settings location body).toList)) }
  | listed {found} (hpass : s.pass = some (.listing found)) :
      Step s .listed { s with pass := some (.between (sortEntries found)) }
  | abort {phase} (hpass : s.pass = some phase) (hphase : ∀ b, phase ≠ .settling b) :
      Step s .fail { s with pass := none }
  | finish (hpass : s.pass = some (.between [])) : Step s .batch { s with pass := none }
  | batch {later slots} (hpass : s.pass = some (.between later)) (hne : later ≠ [])
      (hslots : slots = (later.take inboxBatch).map fun entry => { entry }) :
      Step s .batch { s with pass := some (.settling
        { slots, later := later.drop inboxBatch, reads := fillSlots slots 0 }) }
  | settling {b label s'} (hpass : s.pass = some (.settling b))
      (h : SettleStep settings s b label s') : Step s label s'
  | beginFlush {later settled failed} (hpass : s.pass = some (.closing later settled failed)) :
      Step s .beginFlush
        { s with pass := some (.flushing later settled failed s.queue.log.length) }
  | endFlush {later settled failed commits}
      (hpass : s.pass = some (.flushing later settled failed commits)) :
      Step s (.endFlush true) { s with
        flushed := max s.flushed commits
        pass := some (.deleting later settled failed) }
  | failFlush {later settled failed commits}
      (hpass : s.pass = some (.flushing later settled failed commits)) :
      Step s (.endFlush false) { s with pass := none }
  | endBatch {later failed deleted} (hpass : s.pass = some (.deleting later [] failed)) :
      Step s (.delete deleted) { s with pass := afterBatch later failed }
  | delete {later location rest failed deleted}
      (hpass : s.pass = some (.deleting later (location :: rest) failed)) :
      Step s (.delete deleted) { s with
        objects := if deleted then Function.update s.objects location none else s.objects
        pass := some (.deleting later rest failed) }

variable {settings}

theorem settleStep_cases {s s' : State κ β} {b : Batch} {label : Label κ β}
    (h : settleStep settings s b label = some s') : SettleStep settings s b label s' := by
  unfold settleStep at h
  split at h
  · split at h
    · rename_i slot hslot
      obtain ⟨⟨hreads, hfetch⟩, h⟩ := Option.ite_none_right_eq_some.mp h
      cases h
      exact .check hslot hreads hfetch
    · cases h
  · split at h
    · rename_i slot hslot
      obtain ⟨⟨hreads, hfetch⟩, h⟩ := Option.ite_none_right_eq_some.mp h
      cases h
      exact .read hslot hreads hfetch
    · cases h
  · split at h
    · rename_i hhead hslots
      cases h
      exact .settle hhead hslots
    · cases h
  · split at h
    · rename_i hhead hslots
      cases h
      exact .readHead hhead hslots
    · cases h
  · split at h
    · rename_i hhead hslots
      split at h
      · rename_i heffect
        obtain ⟨queue, hqueue, rfl⟩ := Option.map_eq_some_iff.mp h
        exact .apply hhead hslots heffect hqueue
      · cases h
    · cases h
  · split at h
    · rename_i hhead hslots
      split at h
      · rename_i hrefusal
        obtain ⟨hpermanent, h⟩ := Option.ite_none_right_eq_some.mp h
        cases h
        exact .refuse hhead hslots hrefusal hpermanent
      · cases h
    · cases h
  · split at h
    · rename_i hhead hslots
      obtain ⟨queue, hqueue, rfl⟩ := Option.map_eq_some_iff.mp h
      exact .reject hhead hslots hqueue
    · cases h
  · cases h
    exact .fail
  · cases h

theorem passStep_cases {s s' : State κ β} {phase : Phase} {label : Label κ β}
    (hpass : s.pass = some phase) (h : passStep settings s phase label = some s') :
    Step settings s label s' := by
  unfold passStep at h
  split at h
  · split at h
    · rename_i hbody
      cases h
      exact .list hpass hbody
    · cases h
  · cases h
    exact .listed hpass
  · cases h
    exact .abort hpass (by simp)
  · cases h
    exact .abort hpass (by simp)
  · split at h
    · rename_i hnil
      cases h
      exact .finish (hnil ▸ hpass)
    · rename_i hne
      cases h
      exact .batch hpass hne rfl
  · exact .settling hpass (settleStep_cases h)
  · cases h
    exact .beginFlush hpass
  · cases h
    exact .endFlush hpass
  · cases h
    exact .failFlush hpass
  · cases h
    exact .endBatch hpass
  · cases h
    exact .delete hpass
  · cases h

theorem step_cases {s s' : State κ β} {label : Label κ β}
    (h : step settings s label = some s') : Step settings s label s' := by
  unfold step at h
  split at h
  · split_ifs at h with hfresh
    cases h
    exact .send hfresh
  · cases h
    exact .remove
  · obtain ⟨hpass, h⟩ := Option.ite_none_right_eq_some.mp h
    cases h
    exact .lock hpass
  · cases h
    exact .drop
  · obtain ⟨⟨hnone, hnodup, hall⟩, h⟩ := Option.ite_none_right_eq_some.mp h
    cases h
    exact .scan hnone hnodup hall
  · split at h
    · rename_i hsweep
      obtain ⟨queue, hqueue, rfl⟩ := Option.map_eq_some_iff.mp h
      exact .sweep hsweep hqueue
    · rename_i hsweep
      cases h
      exact .failSweep hsweep
    · cases h
  · cases h
    exact .endSweep
  · split_ifs at h with hcall
    obtain ⟨queue, hqueue, rfl⟩ := Option.map_eq_some_iff.mp h
    exact .commit (by simpa using hcall) hqueue
  · obtain ⟨queue, hqueue, rfl⟩ := Option.map_eq_some_iff.mp h
    exact .requeue hqueue
  · obtain ⟨hkept, h⟩ := Option.ite_none_right_eq_some.mp h
    obtain ⟨queue, hqueue, rfl⟩ := Option.map_eq_some_iff.mp h
    exact .crash hkept hqueue
  · split at h
    · rename_i hpass
      exact passStep_cases hpass h
    · cases h

/-- The runs of a queue with an inbox, from an empty store and without objects. -/
def machine (settings : Settings κ β) : Machine (State κ β) (Label κ β) where
  init s := s = {}
  step := step settings

end Taquba.Inbox
