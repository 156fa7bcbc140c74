import Taquba.Txn.Basic

/-! # The notes of a commit cover its writes

For every record and inbox expiry entry that a transaction writes in a key space
with an in-process bound, its notes have a bound at or below the key.
-/

namespace Taquba

open Snapshot

namespace CommitNotes

/-- The notes bring the bound of the key space of `key` to the key or below it. -/
def CoversKey (notes : CommitNotes) : RecordKey → Prop
  | .pending queue key =>
    queue ∈ notes.queues ∧ ∃ minKey count, notes.pending queue = some (minKey, count) ∧ minKey ≤ key
  | .scheduled runAt _ _ => ∃ bound, notes.scheduled = some bound ∧ bound ≤ runAt
  | .done completedAt _ _ => ∃ bound, notes.done = some bound ∧ bound ≤ completedAt
  | .claimed _ _ | .dead _ _ => True

def Covers {κ β : Type} (notes : CommitNotes) : (Σ k : Key κ, Write (Val κ β k)) → Prop
  | ⟨.record key, .put _⟩ | ⟨.record key, .merge _⟩ => notes.CoversKey key
  | ⟨.inboxExpiry appliedAt _ _, .put _⟩ | ⟨.inboxExpiry appliedAt _ _, .merge _⟩ =>
    ∃ bound, notes.inbox = some bound ∧ bound ≤ appliedAt
  | _ => True

structure Le (notes notes' : CommitNotes) : Prop where
  queues : notes.queues ⊆ notes'.queues
  pending : ∀ queue minKey count, notes.pending queue = some (minKey, count) →
    ∃ minKey' count', notes'.pending queue = some (minKey', count') ∧ minKey' ≤ minKey
  scheduled : ∀ bound, notes.scheduled = some bound → ∃ b, notes'.scheduled = some b ∧ b ≤ bound
  done : ∀ bound, notes.done = some bound → ∃ b, notes'.done = some b ∧ b ≤ bound
  inbox : ∀ bound, notes.inbox = some bound → ∃ b, notes'.inbox = some b ∧ b ≤ bound
  expiry : notes.expiry ⊆ notes'.expiry

variable {notes notes' notes'' : CommitNotes}

theorem Le.refl (notes : CommitNotes) : notes.Le notes where
  queues := fun _ h => h
  pending _ m c h := ⟨m, c, h, le_rfl⟩
  scheduled b h := ⟨b, h, le_rfl⟩
  done b h := ⟨b, h, le_rfl⟩
  inbox b h := ⟨b, h, le_rfl⟩
  expiry := fun _ h => h

theorem Le.trans (h : notes.Le notes') (h' : notes'.Le notes'') : notes.Le notes'' where
  queues := fun _ hq => h'.queues (h.queues hq)
  pending q m c hm := by
    obtain ⟨m', c', hm', hle⟩ := h.pending q m c hm
    obtain ⟨m'', c'', hm'', hle'⟩ := h'.pending q m' c' hm'
    exact ⟨m'', c'', hm'', hle'.trans hle⟩
  scheduled b hb := by
    obtain ⟨b', hb', hle⟩ := h.scheduled b hb
    obtain ⟨b'', hb'', hle'⟩ := h'.scheduled b' hb'
    exact ⟨b'', hb'', hle'.trans hle⟩
  done b hb := by
    obtain ⟨b', hb', hle⟩ := h.done b hb
    obtain ⟨b'', hb'', hle'⟩ := h'.done b' hb'
    exact ⟨b'', hb'', hle'.trans hle⟩
  inbox b hb := by
    obtain ⟨b', hb', hle⟩ := h.inbox b hb
    obtain ⟨b'', hb'', hle'⟩ := h'.inbox b' hb'
    exact ⟨b'', hb'', hle'.trans hle⟩
  expiry := fun _ he => h'.expiry (h.expiry he)

theorem CoversKey.mono {key : RecordKey} (h : notes.CoversKey key) (hle : notes.Le notes') :
    notes'.CoversKey key := by
  cases key with
  | pending queue key =>
    obtain ⟨hq, m, c, hm, hk⟩ := h
    obtain ⟨m', c', hm', hmm⟩ := hle.pending queue m c hm
    exact ⟨hle.queues hq, m', c', hm', hmm.trans hk⟩
  | scheduled runAt queue id =>
    obtain ⟨b, hb, hk⟩ := h
    obtain ⟨b', hb', hle⟩ := hle.scheduled b hb
    exact ⟨b', hb', hle.trans hk⟩
  | done completedAt queue id =>
    obtain ⟨b, hb, hk⟩ := h
    obtain ⟨b', hb', hle⟩ := hle.done b hb
    exact ⟨b', hb', hle.trans hk⟩
  | claimed queue id => trivial
  | dead queue id => trivial

theorem Covers.mono {κ β : Type} {w : Σ k : Key κ, Write (Val κ β k)} (h : notes.Covers w)
    (hle : notes.Le notes') : notes'.Covers w := by
  match w with
  | ⟨.record key, .put _⟩ | ⟨.record key, .merge _⟩ => exact CoversKey.mono h hle
  | ⟨.inboxExpiry appliedAt _ _, .put _⟩ | ⟨.inboxExpiry appliedAt _ _, .merge _⟩ =>
    obtain ⟨b, hb, hk⟩ := h
    obtain ⟨b', hb', hle⟩ := hle.inbox b hb
    exact ⟨b', hb', hle.trans hk⟩
  | ⟨.record _, .delete⟩ | ⟨.inboxExpiry _ _ _, .delete⟩ => trivial
  | ⟨.jobIndex _, _⟩ | ⟨.dedup _ _, _⟩ | ⟨.attemptHistory _, _⟩ => trivial
  | ⟨.inboxRecord _ _, _⟩ | ⟨.count _, _⟩ | ⟨.user _, _⟩ => trivial

end CommitNotes

theorem earliest_le_left {bound time : Option ℕ} {b : ℕ} (h : bound = some b) :
    ∃ a, earliest bound time = some a ∧ a ≤ b := by
  subst h
  cases time with
  | none => exact ⟨b, rfl, le_rfl⟩
  | some a => exact ⟨min b a, rfl, min_le_left b a⟩

theorem earliest_le_right {bound : Option ℕ} (a : ℕ) :
    ∃ b, earliest bound (some a) = some b ∧ b ≤ a := by
  cases bound with
  | none => exact ⟨a, rfl, le_rfl⟩
  | some b => exact ⟨min b a, rfl, min_le_right b a⟩

namespace Txn

variable {κ β : Type} {t : Txn κ β}

theorem le_notePending (notes : CommitNotes) (queue : QueueName) (key : PendingKey) :
    notes.Le (notePending notes queue key) where
  queues := by
    intro q hq
    simp only [notePending]
    split
    · exact hq
    · exact List.mem_append_left _ hq
  pending q m c hm := by
    by_cases hq : q = queue
    · subst hq
      simp only [notePending, Function.update_self, hm]
      exact ⟨_, _, rfl, by split <;> [exact le_of_lt ‹_›; exact le_rfl]⟩
    · exact ⟨m, c, by simpa [notePending, hq] using hm, le_rfl⟩
  scheduled b h := ⟨b, h, le_rfl⟩
  done b h := ⟨b, h, le_rfl⟩
  inbox b h := ⟨b, h, le_rfl⟩
  expiry := fun _ h => h

theorem coversKey_notePending (notes : CommitNotes) (queue : QueueName) (key : PendingKey) :
    (notePending notes queue key).CoversKey (.pending queue key) := by
  simp only [CommitNotes.CoversKey, notePending, Function.update_self]
  refine ⟨by split <;> [assumption; simp], ?_⟩
  cases notes.pending queue with
  | none => exact ⟨key, 1, rfl, le_rfl⟩
  | some m =>
    refine ⟨_, _, rfl, ?_⟩
    split
    · exact le_rfl
    · exact le_of_not_gt ‹_›

theorem le_noteWritten (t : Txn κ β) (job : JobRecord) (key : RecordKey) :
    t.notes.Le (t.noteWritten job key).notes := by
  unfold noteWritten
  split
  · exact le_notePending _ _ _
  · exact { CommitNotes.Le.refl t.notes with scheduled := fun b h => earliest_le_left h }
  · exact { CommitNotes.Le.refl t.notes with done := fun b h => earliest_le_left h }
  · exact .refl _

theorem coversKey_noteWritten (t : Txn κ β) {job : JobRecord} {key : RecordKey}
    (h : job.storedKey = some key) : (t.noteWritten job key).notes.CoversKey key := by
  unfold JobRecord.storedKey at h
  cases hs : job.status <;> simp only [hs] at h
  case pending =>
    cases h
    simp only [noteWritten, hs]
    exact coversKey_notePending _ _ _
  case scheduled =>
    obtain ⟨runAt, hr, rfl⟩ := Option.map_eq_some_iff.mp h
    simp only [noteWritten, hs, hr]
    exact earliest_le_right runAt
  case done =>
    obtain ⟨completedAt, hc, rfl⟩ := Option.map_eq_some_iff.mp h
    simp only [noteWritten, hs, hc]
    exact earliest_le_right completedAt
  case claimed =>
    cases h
    trivial
  case dead =>
    cases h
    trivial

@[simp] theorem noteWritten_enqueued (t : Txn κ β) (job : JobRecord) (key : RecordKey) :
    (t.noteWritten job key).notes.enqueued = t.notes.enqueued := by
  unfold noteWritten
  split <;> rfl

@[simp] theorem noteWritten_writes (t : Txn κ β) (job : JobRecord) (key : RecordKey) :
    (t.noteWritten job key).writes = t.writes := rfl

end Txn

end Taquba
