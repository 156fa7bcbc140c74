import Taquba.Bounds.Machine

/-! # What a process knows about its live keys

The claim cursor of a queue knows the pending keys of the store, a scan knows what
is gone since it began, and every live key that a cursor or a bound does not have
yet is in an update of a call in progress. A commit and its updates keep this.
-/

namespace Taquba.Bounds

open Snapshot Transition

variable {β : Type}
variable {bound : TimeBound.State (Key UserKey)} {space : Space}

/-- A call in progress has the update still to make. -/
def Awaits (calls : List InProgress) (note : Note) : Prop := ∃ call ∈ calls, note ∈ call.todo

/-- A claim cursor, the snapshot of its attempt, and the updates on their way to it. -/
structure QueueInv (log : History UserKey β) (awaits : Note → Prop) (queue : QueueName) (snap : ℕ)
    (cursor : Cursor.State PendingKey) : Prop where
  inv : Cursor.Inv cursor
  live : ∀ key, key ∈ cursor.live ↔ log.store (.record (.pending queue key)) ≠ none
  snapshot : ∀ a, cursor.attempt = some (.scanned a) → snap ≤ log.length ∧
    ∀ key ∈ a.snapshot, Log.store (log.take snap) (.record (.pending queue key)) ≠ none
  minKey : ∀ i m, awaits (.pending queue i m) → cursor.minKey i = some m
  noted : ∀ key ∈ cursor.live, ¬ cursor.Noted key →
    ∃ m, awaits (.pending queue (cursor.latest key) m)

/-- A key that a state since the scan began lacked, and that no commit wrote since, is
not live. -/
def Gone (log : History UserKey β) (space : Space) (scan : TimeBound.Scan (Key UserKey)) : Prop :=
  scan.snap ≤ log.length ∧ ∀ key ∉ scan.since, ∀ n, scan.snap ≤ n →
    Log.store (log.take n) key = none → space.isLive log key = false

structure ScanInv (log : History UserKey β) (space : Space)
    (bound : TimeBound.State (Key UserKey)) : Prop where
  time : TimeBound.Inv space.time (space.isLive log · = true) bound
  gone : ∀ scan ∈ bound.scans, Gone log space scan

structure SpaceInv (log : History UserKey β) (awaits : Note → Prop) (space : Space)
    (bound : TimeBound.State (Key UserKey)) : Prop where
  time : TimeBound.Inv space.time (space.isLive log · = true) bound
  gone : ∀ scan ∈ bound.scans, Gone log space scan
  unnoted : ∀ key ∈ bound.unnoted, ∃ atMs, awaits (.time space atMs) ∧ atMs ≤ space.time key

/-- A claim from the saved state of a queue misses no pending key. -/
def Reaches (log : History UserKey β) (queue : QueueName)
    (cursor : Cursor.CursorState PendingKey) : Prop :=
  ∀ key, log.store (.record (.pending queue key)) ≠ none →
    cursor.knownEmpty = false ∧ Cursor.Yields cursor.scanFrom key

structure Inv (s : State β) : Prop where
  queue : Queue.Inv s.queue
  queues : ∀ queue, QueueInv s.queue.log (Awaits s.calls) queue (s.snaps queue) (s.cursors queue)
  spaces : ∀ space, SpaceInv s.queue.log (Awaits s.calls) space (s.bounds space)
  saved : ∀ n cursors, s.saved = some (n, cursors) → n ≤ s.queue.log.length ∧
    ∀ queue, Reaches (s.queue.log.take n) queue (cursors queue)

section Commit

variable {log : History UserKey β} {c : Commit (Val UserKey β) (Entry UserKey β)}
  {as : List (JobAction UserKey β)}

theorem mem_pendingKeys_keys {queue : QueueName} {key : PendingKey} {keys : List (Key UserKey)} :
    key ∈ (keys.filterMap (pendingKey? queue)).toFinset ↔ .record (.pending queue key) ∈ keys := by
  simp only [List.mem_toFinset, List.mem_filterMap]
  constructor
  · rintro ⟨k, hk, h⟩
    unfold pendingKey? at h
    split at h
    · split_ifs at h with hq
      cases h
      exact hq ▸ hk
    · cases h
  · intro h
    exact ⟨_, h, by simp [pendingKey?]⟩

theorem awaits_append {calls : List InProgress} {call : InProgress} {note : Note} :
    Awaits (calls ++ [call]) note ↔ Awaits calls note ∨ note ∈ call.todo := by
  simp [Awaits, or_and_right, exists_or]

theorem Gone.append {scan : TimeBound.Scan (Key UserKey)} (h : Gone log space scan) :
    Gone (log ++ [c]) space (scan.touch (space.written (log ++ [c]) c)) := by
  constructor
  · have := h.1
    simp only [TimeBound.Scan.touch, List.length_append]
    omega
  intro key hk n hn hnone
  simp only [TimeBound.Scan.touch, Finset.mem_union, not_or] at hk hn
  rw [← Bool.not_eq_true]
  intro hlive
  by_cases hw : key ∈ Batch.keys c.writes
  · exact hk.2 (Finset.mem_filter.mpr ⟨List.mem_toFinset.mpr hw, hlive⟩)
  · rcases Nat.lt_or_ge log.length n with hlen | hlen
    · rw [List.take_of_length_le (by simp; omega)] at hnone
      exact (Space.isLive_iff.mp hlive).1 hnone
    · rw [List.take_append_of_le_length hlen] at hnone
      rw [Space.isLive_append_of_not_mem hw, h.2 key hk.1 n hn hnone] at hlive
      cases hlive

theorem SpaceInv.scans {awaits : Note → Prop} (h : SpaceInv log awaits space bound) :
    ScanInv log space bound := ⟨h.time, h.gone⟩

theorem ScanInv.commit (h : ScanInv log space bound) :
    ScanInv (log ++ [c]) space
      (bound.commit (Batch.keys c.writes).toFinset (space.written (log ++ [c]) c)) where
  time := by
    refine h.time.commit (fun key hk hlive => ?_) fun key hk hlive => ?_
    · exact Finset.mem_filter.mpr ⟨hk, hlive⟩
    · rwa [Space.isLive_append_of_not_mem (by simpa using hk)] at hlive
  gone scan hs := by
    obtain ⟨scan', hs', rfl⟩ := List.mem_map.mp hs
    exact (h.gone scan' hs').append

theorem SpaceInv.commit {calls : List InProgress} (h : SpaceInv log (Awaits calls) space bound)
    (hp : Performs log c as) {call : InProgress} {number : QueueName → ℕ}
    (hcall : call.todo = c.label.notes.updates number) :
    SpaceInv (log ++ [c]) (Awaits (calls ++ [call])) space
      (bound.commit (Batch.keys c.writes).toFinset (space.written (log ++ [c]) c)) where
  time := h.scans.commit.time
  gone := h.scans.commit.gone
  unnoted key hk := by
    simp only [TimeBound.State.commit, Finset.mem_union, Finset.mem_sdiff] at hk
    rcases hk with ⟨hk, -⟩ | hk
    · obtain ⟨atMs, ha, hle⟩ := h.unnoted key hk
      exact ⟨atMs, awaits_append.mpr (.inl ha), hle⟩
    · obtain ⟨atMs, hmem, hle⟩ := hp.time_mem_updates hk number
      exact ⟨atMs, awaits_append.mpr (.inr (hcall ▸ hmem)), hle⟩

section Queue

variable {calls : List InProgress} {queue : QueueName} {snap : ℕ}
  {cursor : Cursor.State PendingKey} {call : InProgress} {number : QueueName → ℕ}

theorem live_commitCursor {awaits : Note → Prop} (h : QueueInv log awaits queue snap cursor)
    (key : PendingKey) :
    key ∈ (commitCursor (log ++ [c]) c queue cursor).live ↔
      Log.store (log ++ [c]) (.record (.pending queue key)) ≠ none := by
  simp only [commitCursor, Cursor.State.applyTxn, Finset.mem_union, Finset.mem_sdiff,
    Finset.mem_filter, mem_pendingKeys_keys, h.live key, Option.isSome_eq_false_iff,
    Option.isNone_iff_eq_none, Option.isSome_iff_ne_none]
  by_cases hk : .record (.pending queue key) ∈ Batch.keys c.writes
  · simp only [hk, true_and]
    tauto
  · simp only [hk, false_and, not_false_iff, and_true, or_false, Log.store_append_singleton,
      Store.applyBatch_of_not_mem hk]

theorem latest_commitCursor (log' : History UserKey β) (key : PendingKey) :
    (commitCursor log' c queue cursor).latest key =
      if .record (.pending queue key) ∈ Batch.keys c.writes ∧
        log'.store (.record (.pending queue key)) ≠ none then cursor.next
      else cursor.latest key := by
  simp only [commitCursor, Cursor.State.applyTxn, Finset.mem_filter, mem_pendingKeys_keys,
    Option.isSome_iff_ne_none]

theorem QueueInv.commit (h : QueueInv log (Awaits calls) queue snap cursor)
    (hp : Performs log c as) (hcall : call.todo = c.label.notes.updates number)
    (hnumber : number queue = cursor.next) :
    QueueInv (log ++ [c]) (Awaits (calls ++ [call])) queue snap
      (commitCursor (log ++ [c]) c queue cursor) where
  inv := by
    refine Cursor.inv_applyTxn h.inv fun m hm key hk => ?_
    obtain ⟨hmem, hlive⟩ := Finset.mem_filter.mp hk
    rw [Option.isSome_iff_ne_none] at hlive
    obtain ⟨-, m', count, hm', hle⟩ := hp.coversKey (mem_pendingKeys_keys.mp hmem) hlive
    rw [hm'] at hm
    cases hm
    exact hle
  live := live_commitCursor h
  snapshot a ha := by
    obtain ⟨b, hb, hba⟩ := Option.map_eq_some_iff.mp ha
    cases b with
    | scanned a' =>
      cases hba
      obtain ⟨hle, hsnap⟩ := h.snapshot a' hb
      rw [List.length_append, List.take_append_of_le_length hle]
      exact ⟨by omega, hsnap⟩
    | begun | committed | advanced => cases hba
  minKey i m ha := by
    simp only [commitCursor, Cursor.State.applyTxn]
    rcases awaits_append.mp ha with ha | hmem
    · have hm := h.minKey i m ha
      rwa [Function.update_of_ne (h.inv.minKey_lt i m hm).ne]
    · rw [hcall] at hmem
      obtain ⟨rfl, -, hm⟩ := CommitNotes.pending_mem_updates.mp hmem
      rwa [hnumber, Function.update_self]
  noted key hk hn := by
    have hlive := (live_commitCursor h key).mp hk
    rw [Cursor.State.Noted, latest_commitCursor] at hn
    rw [latest_commitCursor]
    by_cases hw : .record (.pending queue key) ∈ Batch.keys c.writes
    · obtain ⟨m, hm, -⟩ := hp.pending_mem_updates hw hlive number
      rw [if_pos ⟨hw, hlive⟩, ← hnumber]
      exact ⟨m, awaits_append.mpr (.inr (hcall ▸ hm))⟩
    · rw [if_neg fun h => hw h.1] at hn ⊢
      rw [Log.store_append_singleton, Store.applyBatch_of_not_mem hw, ← h.live] at hlive
      obtain ⟨m, ha⟩ := h.noted key hlive hn
      exact ⟨m, awaits_append.mpr (.inl ha)⟩

end Queue

/-- A transaction applied: its call has every update that the new keys need. -/
theorem inv_committed {s : State β} {queue : Queue.State UserKey β} {durability : Durability}
    (hi : Inv s) (hq : Queue.Inv queue) (hlog : queue.log = s.queue.log ++ [c])
    (hp : Performs s.queue.log c as) : Inv (s.committed queue c durability) where
  queue := hq
  queues q := by
    simp only [State.committed, hlog]
    exact (hi.queues q).commit hp rfl rfl
  spaces space := by
    simp only [State.committed, hlog]
    exact (hi.spaces space).commit hp rfl
  saved n cursors hs := by
    obtain ⟨hle, hr⟩ := hi.saved n cursors hs
    simp only [State.committed, hlog, List.length_append, List.take_append_of_le_length hle]
    exact ⟨by omega, hr⟩

end Commit

section Updates

variable {log : History UserKey β} {awaits awaits' : Note → Prop} {queue : QueueName} {snap : ℕ}
  {cursor : Cursor.State PendingKey} {space : Space} {bound : TimeBound.State (Key UserKey)}

theorem QueueInv.congr (h : QueueInv log awaits queue snap cursor)
    (ha : ∀ i m, awaits' (.pending queue i m) ↔ awaits (.pending queue i m)) :
    QueueInv log awaits' queue snap cursor where
  __ := h
  minKey i m hm := h.minKey i m ((ha i m).mp hm)
  noted key hk hn := by
    obtain ⟨m, hm⟩ := h.noted key hk hn
    exact ⟨m, (ha _ m).mpr hm⟩

theorem SpaceInv.congr (h : SpaceInv log awaits space bound)
    (ha : ∀ atMs, awaits (.time space atMs) → awaits' (.time space atMs)) :
    SpaceInv log awaits' space bound where
  __ := h
  unnoted key hk := by
    obtain ⟨atMs, hat, hle⟩ := h.unnoted key hk
    exact ⟨atMs, ha atMs hat, hle⟩

theorem QueueInv.applyNote {i : ℕ} {m : PendingKey} (h : QueueInv log awaits queue snap cursor)
    (ha : awaits (.pending queue i m)) (hsub : ∀ note, awaits' note → awaits note)
    (hkeep : ∀ note, awaits note → note ≠ .pending queue i m → awaits' note) :
    QueueInv log awaits' queue snap (cursor.applyNote i m) where
  inv := Cursor.inv_applyNote h.inv (h.minKey i m ha)
  __ := h
  minKey j m' hm := h.minKey j m' (hsub _ hm)
  noted key hk hn := by
    rw [Cursor.noted_applyNote, not_or] at hn
    obtain ⟨m', hm⟩ := h.noted key hk hn.2
    exact ⟨m', hkeep _ hm fun he => hn.1 (Note.pending.inj he).2.1⟩

theorem ScanInv.lower (h : ScanInv log space bound) (atMs : ℕ) :
    ScanInv log space (bound.lower space.time atMs) :=
  ⟨h.time.lower atMs, h.gone⟩

theorem SpaceInv.lower {atMs : ℕ} (h : SpaceInv log awaits space bound)
    (hkeep : ∀ note, awaits note → note ≠ .time space atMs → awaits' note) :
    SpaceInv log awaits' space (bound.lower space.time atMs) where
  time := (h.scans.lower atMs).time
  gone := (h.scans.lower atMs).gone
  unnoted key hk := by
    obtain ⟨hk, hlt⟩ := Finset.mem_filter.mp hk
    obtain ⟨t, ht, hle⟩ := h.unnoted key hk
    refine ⟨t, hkeep _ ht fun he => ?_, hle⟩
    obtain rfl := (Note.time.inj he).2
    omega

variable {s : State β} {calls : List InProgress}

theorem Inv.withCalls (hi : Inv s) (h : ∀ note, Awaits calls note ↔ Awaits s.calls note) :
    Inv { s with calls } where
  __ := hi
  queues q := (hi.queues q).congr fun _ _ => h _
  spaces space := (hi.spaces space).congr fun _ => (h _).mpr

theorem Inv.withCursor (hi : Inv s) {q : QueueName} {cursor : Cursor.State PendingKey}
    {snaps : QueueName → ℕ} (hc : QueueInv s.queue.log (Awaits s.calls) q (snaps q) cursor)
    (hsnaps : ∀ q' ≠ q, snaps q' = s.snaps q') : Inv { s.setCursor q cursor with snaps } where
  __ := hi
  queues := (Function.forall_update_iff s.cursors fun q' c =>
    QueueInv s.queue.log (Awaits s.calls) q' (snaps q') c).mpr
      ⟨hc, fun q' hq => hsnaps q' hq ▸ hi.queues q'⟩

theorem Inv.withBound (hi : Inv s) (hb : SpaceInv s.queue.log (Awaits s.calls) space bound) :
    Inv (s.setBound space bound) where
  __ := hi
  spaces := (Function.forall_update_iff s.bounds fun sp b =>
    SpaceInv s.queue.log (Awaits s.calls) sp b).mpr ⟨hb, fun sp _ => hi.spaces sp⟩

/-- One update, after which the calls have every other update they had. -/
theorem inv_applyNote (hi : Inv s) {note : Note} (ha : Awaits s.calls note)
    (hsub : ∀ n, Awaits calls n → Awaits s.calls n)
    (hkeep : ∀ n, Awaits s.calls n → n ≠ note → Awaits calls n) :
    Inv { s.applyNote note with calls } := by
  have hothers : ∀ n, n ≠ note → (Awaits calls n ↔ Awaits s.calls n) := fun n hn =>
    ⟨hsub n, fun h => hkeep n h hn⟩
  cases note with
  | pending q i m =>
    constructor
    · exact hi.queue
    · refine (Function.forall_update_iff s.cursors fun q' c =>
        QueueInv s.queue.log (Awaits calls) q' (s.snaps q') c).mpr ⟨?_, fun q' hq => ?_⟩
      · exact (hi.queues q).applyNote ha hsub hkeep
      · exact (hi.queues q').congr fun i m => hothers _ fun he => hq (Note.pending.inj he).1
    · exact fun space => (hi.spaces space).congr fun t => (hothers (.time space t) nofun).mpr
    · exact hi.saved
  | time space atMs =>
    constructor
    · exact hi.queue
    · exact fun q => (hi.queues q).congr fun i m => hothers (.pending q i m) nofun
    · refine (Function.forall_update_iff s.bounds fun sp b =>
        SpaceInv s.queue.log (Awaits calls) sp b).mpr ⟨?_, fun sp hsp => ?_⟩
      · exact (hi.spaces space).lower hkeep
      · exact (hi.spaces sp).congr fun t => (hothers _ fun he => hsp (Note.time.inj he).1).mpr
    · exact hi.saved

end Updates

end Taquba.Bounds
