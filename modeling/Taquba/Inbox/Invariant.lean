import Taquba.Inbox.Machine

/-! # What a pass knows

The check of a pass holds until its commit, since only the pass that holds the lock
writes records. A settled entry has a record among the commits that the flush covers, or
its object is gone, and a send never makes an object at the path of an earlier one. The
records that a sweep found stay until it deletes them.
-/

namespace Taquba.Inbox

open Snapshot Transition

variable {κ β : Type} {settings : Settings κ β}

section Parse

variable {location : Location} {body : List UInt8} {entry : PendingEntry}

theorem parse_eq_some (h : PendingEntry.parse settings location body = some entry) :
    entry.location = location ∧ entry.queue.name = location.queue ∧ entry.id = location.id ∧
      entry.order = location.stem.bind settings.ulid := by
  unfold PendingEntry.parse at h
  obtain ⟨-, h⟩ := Option.ite_none_left_eq_some.mp h
  split at h
  · rename_i queue _ hq
    cases h
    exact ⟨rfl, QueueName.new_eq_ok hq, rfl, rfl⟩
  · cases h

theorem ordered_of_rejection (hp : PendingEntry.parse settings location body = some entry)
    (h : rejection settings entry = none) : (location.stem.bind settings.ulid).isSome := by
  obtain ⟨-, -, -, ho⟩ := parse_eq_some hp
  unfold rejection PendingEntry.listingRejection at h
  split at h
  · split at h
    · rename_i hsome
      rw [← ho, hsome]
      rfl
    · cases h
  · cases h

theorem readObject_eq_missing {objects : Objects} {failure : Option String}
    (h : readObject objects location failure = .missing) : objects location = none := by
  unfold readObject at h
  split at h
  · cases h
  · rename_i hnone
    exact hnone
  · rename_i body _
    cases ho : oversized body.length with
    | none => simp [ho] at h
    | some rejection => simp [ho] at h

end Parse

variable [DecidableEq κ]

/-- One of the first `n` commits gives a record of the entry at the location. -/
def Recorded (log : History κ β) (n : ℕ) (location : Location) : Prop :=
  ∃ queue : QueueName, queue.name = location.queue ∧
    ∃ m ≤ n, Log.store (log.take m) (.inboxRecord queue location.id) ≠ none

theorem Recorded.mono {log log' : History κ β} {n n' : ℕ} {location : Location}
    (h : Recorded log n location) (hlog : log <+: log') (hn : n ≤ n') (hlen : n ≤ log.length) :
    Recorded log' n' location := by
  obtain ⟨queue, hq, m, hm, hr⟩ := h
  refine ⟨queue, hq, m, hm.trans hn, ?_⟩
  obtain ⟨rest, rfl⟩ := hlog
  rwa [List.take_append_of_le_length (hm.trans hlen)]

section Invariant

variable (settings) (s : State κ β)

structure Gone (location : Location) : Prop where
  sent : location ∈ s.sent
  ordered : (location.stem.bind settings.ulid).isSome
  missing : s.objects location = none

structure Listed (entry : PendingEntry) : Prop where
  sent : entry.location ∈ s.sent
  parsed : ∃ body, PendingEntry.parse settings entry.location body = some entry

/-- The entry at the location has a record among the first `n` commits, or is gone. -/
def Settled (n : ℕ) (location : Location) : Prop :=
  Recorded s.queue.log n location ∨ Gone settings s location

structure SlotInv (slot : Slot) : Prop where
  listed : Listed settings s slot.entry
  checked : slot.fetch = .checked → rejection settings slot.entry = none
  missing : slot.fetch = .done (some .missing) → Gone settings s slot.entry.location

structure BatchInv (b : Batch) : Prop where
  later : ∀ entry ∈ b.later, Listed settings s entry
  slots : ∀ slot ∈ b.slots, SlotInv settings s slot
  settled : ∀ location ∈ b.settled, Settled settings s s.queue.log.length location

/-- The first entry has no record once its check found none. -/
def HeadInv (b : Batch) : Prop :=
  ∀ slot rest, b.slots = slot :: rest →
    (b.head ≠ .ready → s.store (.inboxRecord slot.entry.queue slot.entry.id) = none) ∧
    ∀ appliedAt, b.head = .reading appliedAt → rejection settings slot.entry = none

def PassInv : Phase → Prop
  | .listing found => ∀ entry ∈ found, Listed settings s entry
  | .between later => ∀ entry ∈ later, Listed settings s entry
  | .settling b => BatchInv settings s b ∧ HeadInv settings s b
  | .closing later settled _ => (∀ entry ∈ later, Listed settings s entry) ∧
      ∀ location ∈ settled, Settled settings s s.queue.log.length location
  | .flushing later settled _ commits => (∀ entry ∈ later, Listed settings s entry) ∧
      commits ≤ s.queue.log.length ∧ ∀ location ∈ settled, Settled settings s commits location
  | .deleting later settled _ => (∀ entry ∈ later, Listed settings s entry) ∧
      ∀ location ∈ settled, Settled settings s s.flushed location

def SweepInv (entries : List (ℕ × QueueName × String)) : Prop :=
  entries.Nodup ∧ ∀ e ∈ entries,
    ∃ record, s.store (.inboxRecord e.2.1 e.2.2) = some record ∧ record.appliedAtMs = e.1

structure Inv [DecidableEq β] : Prop where
  queue : (Queue.machine κ β).Reachable s.queue
  lawful : s.queue.log.Lawful InboxLawful
  flushed : s.flushed ≤ s.queue.log.length
  sent : ∀ location, s.objects location ≠ none → location ∈ s.sent
  pass : ∀ phase ∈ s.pass, PassInv settings s phase
  sweep : ∀ entries ∈ s.sweep, SweepInv s entries

end Invariant

structure Follows (settings : Settings κ β) (s s' : State κ β) : Prop where
  log : s.queue.log <+: s'.queue.log
  flushed : s.flushed ≤ s'.flushed
  sent : s.sent ⊆ s'.sent
  gone : ∀ location, Gone settings s location → Gone settings s' location

section Follows

variable {s s' : State κ β}

omit [DecidableEq κ] in
theorem Follows.of_log (hlog : s.queue.log <+: s'.queue.log) (hf : s.flushed ≤ s'.flushed)
    (hsent : s'.sent = s.sent) (hobj : s'.objects = s.objects) : Follows settings s s' where
  log := hlog
  flushed := hf
  sent := by rw [hsent]; exact List.Subset.refl _
  gone _ h := ⟨hsent ▸ h.sent, h.ordered, hobj ▸ h.missing⟩

omit [DecidableEq κ] in
theorem Listed.follows {entry : PendingEntry} (h : Listed settings s entry)
    (hl : Follows settings s s') : Listed settings s' entry :=
  ⟨hl.sent h.sent, h.parsed⟩

theorem Settled.follows {n n' : ℕ} {location : Location} (h : Settled settings s n location)
    (hl : Follows settings s s') (hn : n ≤ n') (hlen : n ≤ s.queue.log.length) :
    Settled settings s' n' location := by
  rcases h with h | h
  · exact .inl (h.mono hl.log hn hlen)
  · exact .inr (hl.gone _ h)

theorem BatchInv.follows {b : Batch} (h : BatchInv settings s b) (hl : Follows settings s s') :
    BatchInv settings s' b where
  later entry he := (h.later entry he).follows hl
  slots slot hs :=
    { listed := (h.slots slot hs).listed.follows hl
      checked := (h.slots slot hs).checked
      missing := fun hm => hl.gone _ ((h.slots slot hs).missing hm) }
  settled location hs := (h.settled location hs).follows hl hl.log.length_le le_rfl

/-- The state of a pass survives a step that applies no entry. -/
theorem PassInv.follows {phase : Phase} (h : PassInv settings s phase) (hl : Follows settings s s')
    (hf : s.flushed ≤ s.queue.log.length)
    (hnone : ∀ queue id, s.store (.inboxRecord queue id) = none →
      s'.store (.inboxRecord queue id) = none) : PassInv settings s' phase := by
  cases phase with
  | listing found => exact fun entry he => (h entry he).follows hl
  | between later => exact fun entry he => (h entry he).follows hl
  | settling b =>
    obtain ⟨hb, hh⟩ := h
    refine ⟨hb.follows hl, fun slot rest hs => ⟨fun hne => ?_, (hh slot rest hs).2⟩⟩
    exact hnone _ _ ((hh slot rest hs).1 hne)
  | closing later settled failed =>
    obtain ⟨hlater, hs⟩ := h
    exact ⟨fun entry he => (hlater entry he).follows hl,
      fun location hm => (hs location hm).follows hl hl.log.length_le le_rfl⟩
  | flushing later settled failed commits =>
    obtain ⟨hlater, hc, hs⟩ := h
    exact ⟨fun entry he => (hlater entry he).follows hl, hc.trans hl.log.length_le,
      fun location hm => (hs location hm).follows hl le_rfl hc⟩
  | deleting later settled failed =>
    obtain ⟨hlater, hs⟩ := h
    exact ⟨fun entry he => (hlater entry he).follows hl,
      fun location hm => (hs location hm).follows hl hl.flushed hf⟩

end Follows

section Phases

variable {s : State κ β} {b : Batch} {slot : Slot} {rest : List Slot}

theorem passInv_afterBatch {later : List PendingEntry} {failed : Bool}
    (h : ∀ entry ∈ later, Listed settings s entry) :
    ∀ phase ∈ afterBatch later failed, PassInv settings s phase := by
  cases failed with
  | true => rintro _ ⟨⟩
  | false =>
    rintro _ ⟨⟩
    exact h

theorem passInv_closeBatch {later : List PendingEntry} {settled : List Location} {failed : Bool}
    (h : ∀ entry ∈ later, Listed settings s entry)
    (hs : ∀ location ∈ settled, Settled settings s s.queue.log.length location) :
    ∀ phase ∈ closeBatch later settled failed, PassInv settings s phase := by
  unfold closeBatch
  split
  · exact passInv_afterBatch h
  · rintro _ ⟨⟩
    exact ⟨h, hs⟩

theorem passInv_failHead (hb : BatchInv settings s b) :
    ∀ phase ∈ b.failHead, PassInv settings s phase :=
  passInv_closeBatch hb.later hb.settled

theorem passInv_settleHead (hb : BatchInv settings s b) (hslots : b.slots = slot :: rest)
    (hs : Settled settings s s.queue.log.length slot.entry.location) :
    ∀ phase ∈ b.settleHead slot rest, PassInv settings s phase := by
  have hsettled : ∀ location ∈ b.settled ++ [slot.entry.location],
      Settled settings s s.queue.log.length location := by
    intro location hl
    rcases List.mem_append.mp hl with hl | hl
    · exact hb.settled location hl
    · rw [List.mem_singleton.mp hl]
      exact hs
  unfold Batch.settleHead
  simp only
  split
  · exact passInv_closeBatch hb.later hsettled
  · rintro _ ⟨⟩
    refine ⟨⟨hb.later, fun slot' hs' => ?_, hsettled⟩, fun slot' rest' _ => ⟨?_, ?_⟩⟩
    · exact hb.slots slot' (hslots ▸ .tail _ hs')
    · exact fun hne => absurd rfl hne
    · rintro appliedAt ⟨⟩

theorem passInv_withHead {head : Settling} (hb : BatchInv settings s b)
    (hslots : b.slots = slot :: rest)
    (hnone : s.store (.inboxRecord slot.entry.queue slot.entry.id) = none)
    (hread : ∀ appliedAt, head = .reading appliedAt → rejection settings slot.entry = none) :
    ∀ phase ∈ b.withHead head, PassInv settings s phase := by
  rintro _ ⟨⟩
  refine ⟨{ hb with }, fun slot' rest' hs => ?_⟩
  obtain ⟨rfl, rfl⟩ := List.cons.inj (hslots.symm.trans hs)
  exact ⟨fun _ => hnone, hread⟩

theorem passInv_afterRead {now : ℕ} {unreadable : Bool} {read : Read}
    (hb : BatchInv settings s b) (hslots : b.slots = slot :: rest)
    (hnone : s.store (.inboxRecord slot.entry.queue slot.entry.id) = none)
    (hgone : read = .missing → Gone settings s slot.entry.location) :
    ∀ phase ∈ b.afterRead settings slot rest now unreadable read, PassInv settings s phase := by
  cases read with
  | body body =>
    simp only [Batch.afterRead]
    split
    · exact passInv_withHead hb hslots hnone (by simp)
    · exact passInv_withHead hb hslots hnone (by simp)
  | missing => exact passInv_settleHead hb hslots (.inr (hgone rfl))
  | rejected rejection => exact passInv_withHead hb hslots hnone (by simp)
  | failed detail =>
    simp only [Batch.afterRead]
    split
    · exact passInv_withHead hb hslots hnone (by simp)
    · exact passInv_failHead hb

/-- The entry of a record in the store is settled. -/
theorem settled_of_record (hl : Listed settings s slot.entry)
    (h : s.store (.inboxRecord slot.entry.queue slot.entry.id) ≠ none) :
    Settled settings s s.queue.log.length slot.entry.location := by
  obtain ⟨body, hp⟩ := hl.parsed
  obtain ⟨-, hq, hid, -⟩ := parse_eq_some hp
  refine .inl ⟨slot.entry.queue, hq, s.queue.log.length, le_rfl, ?_⟩
  rw [List.take_length, ← hid]
  exact h

theorem passInv_settleEntry {prefetched : Option Read} {now : ℕ} {unreadable : Bool}
    (hb : BatchInv settings s b) (hslots : b.slots = slot :: rest)
    (hfetch : slot.fetch = .done prefetched) :
    ∀ phase ∈ b.settleEntry settings s slot rest prefetched now unreadable,
      PassInv settings s phase := by
  have hslot := hb.slots slot (hslots ▸ .head _)
  unfold Batch.settleEntry
  split
  · rename_i hsome
    exact passInv_settleHead hb hslots
      (settled_of_record hslot.listed (Option.isSome_iff_ne_none.mp hsome))
  · rename_i hnone
    simp only [Option.not_isSome_iff_eq_none] at hnone
    split
    · exact passInv_withHead hb hslots hnone (by simp)
    · rename_i hrej
      split
      · refine passInv_afterRead hb hslots hnone fun hm => hslot.missing ?_
        rw [hfetch, hm]
      · exact passInv_withHead hb hslots hnone fun _ _ => hrej

theorem passInv_setFetch {i : ℕ} {fetch : Fetch} (hb : BatchInv settings s b)
    (hh : HeadInv settings s b) (hslot : b.slots[i]? = some slot)
    (hchecked : fetch = .checked → rejection settings slot.entry = none)
    (hmissing : fetch = .done (some .missing) → Gone settings s slot.entry.location) :
    PassInv settings s (.settling { b with slots := b.slots.set i { slot with fetch } }) := by
  have hmem : slot ∈ b.slots := List.mem_of_getElem? hslot
  refine ⟨⟨hb.later, fun slot' hs => ?_, hb.settled⟩, fun slot' rest' hs => ?_⟩
  · rcases List.mem_or_eq_of_mem_set hs with hs | rfl
    · exact hb.slots slot' hs
    · exact ⟨(hb.slots slot hmem).listed, hchecked, hmissing⟩
  · cases hcase : b.slots with
    | nil =>
      rw [hcase] at hslot
      cases hslot
    | cons first others =>
      have hentry : slot'.entry = first.entry := by
        have hhead : (b.slots.set i { slot with fetch }).head? = some slot' := by
          rw [show b.slots.set i { slot with fetch } = slot' :: rest' from hs]
          rfl
        cases i with
        | zero =>
          rw [hcase] at hhead hslot
          cases hslot
          cases hhead
          rfl
        | succ i =>
          rw [hcase] at hhead
          cases hhead
          rfl
      rw [hentry]
      exact hh first others hcase

end Phases

end Taquba.Inbox
