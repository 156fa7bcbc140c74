import Taquba.Queue.User

/-! # Inbox records in a history

The application of an inbox entry is one commit, which has the writes of its effect
and then its record with the expiry entry of the record. When every application finds
no record of its entry and every sweep deletes records with the expiry entries it read,
each record has one expiry entry, at the time of its application.
-/

namespace Taquba

open Snapshot

variable {κ β : Type}
variable {entries : List (ℕ × QueueName × String)} {queue : QueueName} {k : Key κ} {id : String}
  {a : Application}

def Call.application : Call κ β → Option Application
  | .applyEnqueue queue id appliedAt prepared => some ⟨queue, id, appliedAt, .enqueue prepared⟩
  | .applyCancel queue id appliedAt jobId => some ⟨queue, id, appliedAt, .cancel jobId⟩
  | .applySignal queue id appliedAt jobId payload =>
    some ⟨queue, id, appliedAt, .signal jobId payload⟩
  | .commitRejection queue id appliedAt rejection =>
    some ⟨queue, id, appliedAt, .reject rejection⟩
  | _ => none

@[simp] theorem Application.application_call (a : Application) :
    (a.call : Call κ β).application = some a := by
  obtain ⟨queue, id, appliedAt, effect⟩ := a
  cases effect <;> rfl

theorem Call.eq_of_application {call : Call κ β} (h : call.application = some a) :
    call = a.call := by
  cases call with
  | applyEnqueue | applyCancel | applySignal | commitRejection =>
    cases h
    rfl
  | _ => cases h

/-- The call writes inbox keys: it applies an entry, or it sweeps records. -/
def Call.isInbox : Call κ β → Bool
  | .sweepInboxRecords _ => true
  | call => call.application.isSome

/-- An application stages its effect, which writes no inbox key, and then its record. -/
theorem Application.writes_of_attempt [DecidableEq κ] [DecidableEq β] {s : Store (Val κ β)}
    {t : Txn κ β} {delivered : List JobRecord}
    (h : (a.call : Call κ β).attempt s = some (t, delivered)) :
    ∃ t₁ outcome, a.effect.stage a.queue (Txn.begin s) = .ok (t₁, outcome) ∧
      externalWrites t₁.writes = [] ∧
      t.writes = t₁.writes ++ InboxRecord.writes ⟨a.appliedAt, outcome⟩ a.queue a.id := by
  obtain ⟨t₁, outcome, h₁, rfl⟩ := a.attempt_eq_some h
  obtain ⟨ws, hw, hws⟩ :=
    (InboxEffect.staged_stage _ _ _ (.inl ⟨trivial, trivial, trivial⟩)).stagesExternal h₁
  refine ⟨t₁, outcome, h₁, hw ▸ hws, ?_⟩
  simp [Txn.stageInboxRecord, Txn.put, InboxRecord.writes]

theorem mem_keys_inboxDeletes :
    k ∈ Batch.keys (entries.flatMap inboxDeletes : Batch (Val κ β)) ↔
      ∃ e ∈ entries, k = .inboxExpiry e.1 e.2.1 e.2.2 ∨ k = .inboxRecord e.2.1 e.2.2 := by
  simp [Batch.keys, List.map_flatMap, inboxDeletes]

theorem mem_keys_kvBatch {effects : Option (PreparedEffects κ β)}
    (h : k ∈ Batch.keys (effects.elim [] PreparedEffects.kvBatch)) : ∃ key, k = .user key := by
  cases effects with
  | none => cases h
  | some effects =>
    obtain ⟨w, hw, rfl⟩ := List.mem_map.mp h
    rcases List.mem_append.mp hw with hw | hw
    · obtain ⟨⟨key, value⟩, -, rfl⟩ := List.mem_map.mp hw
      exact ⟨key, rfl⟩
    · obtain ⟨key, -, rfl⟩ := List.mem_map.mp hw
      exact ⟨key, rfl⟩

/-- Each inbox record has one expiry entry, at the time of its application. -/
def InboxPaired (s : Store (Val κ β)) : Prop :=
  ∀ appliedAt queue id, s (.inboxExpiry appliedAt queue id) ≠ none ↔
    ∃ record, s (.inboxRecord queue id) = some record ∧ record.appliedAtMs = appliedAt

theorem InboxPaired.congr {s s' : Store (Val κ β)} (hp : InboxPaired s)
    (h : ∀ k : Key κ, k.isExternal = true → (∀ key, k ≠ .user key) → s' k = s k) :
    InboxPaired s' := by
  intro appliedAt queue id
  rw [h _ rfl (by simp), h _ rfl (by simp)]
  exact hp appliedAt queue id

section Keys

variable [DecidableEq κ]

theorem applyBatch_externalWrites (hk : k.isExternal = true) (s : Store (Val κ β))
    (ws : Batch (Val κ β)) : s.applyBatch ws k = s.applyBatch (externalWrites ws) k := by
  induction ws generalizing s with
  | nil => rfl
  | cons w ws ih =>
    rw [Store.applyBatch_cons, ih]
    simp only [externalWrites, List.filter_cons]
    cases hw : w.1.isExternal with
    | true => rfl
    | false =>
      have hne : k ≠ w.1 := fun he => by simp [← he, hk] at hw
      exact Store.applyBatch_congr (Store.write_of_ne hne)

variable {s : Store (Val κ β)}

theorem applyBatch_record (record : InboxRecord) (queue : QueueName) (id : String) :
    s.applyBatch (record.writes queue id) (.inboxRecord queue id) = some record ∧
    s.applyBatch (record.writes queue id) (.inboxExpiry record.appliedAtMs queue id) = some () ∧
    ∀ k, k ≠ .inboxRecord queue id → k ≠ .inboxExpiry record.appliedAtMs queue id →
      s.applyBatch (record.writes queue id) k = s k := by
  refine ⟨?_, ?_, fun k hr he => ?_⟩
  · simp only [InboxRecord.writes, Store.applyBatch_cons, Store.applyBatch_nil]
    rw [Store.write_of_ne (by simp)]
    exact Store.write_self ..
  · simp only [InboxRecord.writes, Store.applyBatch_cons, Store.applyBatch_nil]
    exact Store.write_self ..
  · apply Store.applyBatch_of_not_mem
    simp [InboxRecord.writes, hr, he]

theorem applyBatch_inboxDeletes_of_mem
    (hk : k ∈ Batch.keys (entries.flatMap inboxDeletes : Batch (Val κ β))) :
    s.applyBatch (entries.flatMap inboxDeletes) k = none := by
  by_contra hne
  obtain ⟨w, hw, hd⟩ := Store.exists_write_of_ne_none hk hne
  obtain ⟨e, -, he⟩ := List.mem_flatMap.mp hw
  simp only [inboxDeletes, List.mem_cons, List.not_mem_nil, or_false] at he
  rcases he with he | he
  · cases he
    exact hd rfl
  · cases he
    exact hd rfl

end Keys

section Lawful

variable [DecidableEq κ] {log : History κ β} {c : CallCommit κ β}

inductive InboxWrites (c : CallCommit κ β) : Prop where
  | applied (a : Application) (outcome : InboxOutcome) (ha : c.label.call.application = some a)
      (hw : externalWrites c.writes = InboxRecord.writes ⟨a.appliedAt, outcome⟩ a.queue a.id)
  | swept (entries : List (ℕ × QueueName × String))
      (hs : c.label.call = .sweepInboxRecords entries)
      (hw : externalWrites c.writes = entries.flatMap inboxDeletes)
  | other (ho : c.label.call.isInbox = false)
      (hw : ∀ k ∈ Batch.keys (externalWrites c.writes), ∃ key, k = .user key)

/-- A commit that applies an entry finds no record of it, and one that sweeps finds the
records that it deletes, with the times of the expiry entries. -/
structure InboxLawful (log : History κ β) (c : CallCommit κ β) : Prop where
  writes : InboxWrites c
  applies : ∀ a, c.label.call.application = some a →
    log.store (.inboxRecord a.queue a.id) = none
  sweeps : ∀ entries, c.label.call = .sweepInboxRecords entries → ∀ e ∈ entries,
    ∃ record, log.store (.inboxRecord e.2.1 e.2.2) = some record ∧ record.appliedAtMs = e.1

theorem Queue.Attempted.inboxWrites [DecidableEq β] (h : Queue.Attempted log c) :
    InboxWrites c := by
  obtain ⟨t, delivered, h, hw⟩ := h
  generalize hc : c.label.call = call at h
  obtain ⟨external, ⟨ws, hws, rfl⟩, hext⟩ := Call.attempt_external h
  have hwrites : externalWrites c.writes = externalWrites ws := by
    rw [hw, hws]
    rfl
  cases call with
  | applyEnqueue | applyCancel | applySignal | commitRejection =>
    obtain ⟨outcome, he⟩ := hext
    exact .applied _ outcome (by rw [hc]; rfl) (hwrites.trans he)
  | sweepInboxRecords entries => exact .swept entries hc (hwrites.trans hext)
  | kvPut key value | kvDelete key =>
    refine .other (by rw [hc]; rfl) fun k hk => ⟨key, ?_⟩
    rw [hwrites, show externalWrites ws = _ from hext] at hk
    exact List.mem_singleton.mp hk
  | kvCompareThen key expected value =>
    refine .other (by rw [hc]; rfl) fun k hk => ⟨key, ?_⟩
    cases value <;>
    · rw [hwrites, show externalWrites ws = _ from hext] at hk
      exact List.mem_singleton.mp hk
  | _ =>
    refine .other (by rw [hc]; rfl) fun k hk => ?_
    rw [hwrites, show externalWrites ws = _ from hext] at hk
    exact mem_keys_kvBatch hk

theorem InboxWrites.store_of_other (h : InboxWrites c) (ho : c.label.call.isInbox = false)
    (log : History κ β) (hk : k.isExternal = true) (hu : ∀ key, k ≠ .user key) :
    Log.store (log ++ [c]) k = log.store k := by
  rw [Log.store_append_singleton, applyBatch_externalWrites hk]
  cases h with
  | applied a outcome ha hw =>
    rw [Call.eq_of_application ha] at ho
    obtain ⟨queue, id, appliedAt, effect⟩ := a
    cases effect <;> cases ho
  | swept entries hs hw =>
    rw [hs] at ho
    cases ho
  | other _ hw =>
    apply Store.applyBatch_of_not_mem
    intro hmem
    obtain ⟨key, rfl⟩ := hw k hmem
    exact hu key rfl

/-- A record stays, unless a sweep deletes it. -/
theorem InboxLawful.keeps_record (hl : InboxLawful log c) {record : InboxRecord}
    (hr : log.store (.inboxRecord queue id) = some record)
    (hs : ∀ entries, c.label.call = .sweepInboxRecords entries → ∀ e ∈ entries,
      e.2 ≠ (queue, id)) : Log.store (log ++ [c]) (.inboxRecord queue id) = some record := by
  rw [Log.store_append_singleton, applyBatch_externalWrites rfl, ← hr]
  apply Store.applyBatch_of_not_mem
  intro hk
  cases hl.writes with
  | applied a outcome ha hw =>
    have hnone := hl.applies a ha
    rw [hw] at hk
    simp only [InboxRecord.writes, Batch.keys_cons, Batch.keys_nil, List.mem_cons,
      List.not_mem_nil, or_false, reduceCtorEq, Key.inboxRecord.injEq] at hk
    obtain ⟨rfl, rfl⟩ := hk
    rw [hr] at hnone
    cases hnone
  | swept entries hcall hw =>
    rw [hw, mem_keys_inboxDeletes] at hk
    obtain ⟨e, he, hk | hk⟩ := hk
    · cases hk
    · obtain ⟨rfl, rfl⟩ := Key.inboxRecord.inj hk
      exact hs entries hcall e he rfl
  | other ho hw =>
    obtain ⟨key, hk⟩ := hw _ hk
    cases hk

omit [DecidableEq κ] in
theorem InboxWrites.application_of_put (h : InboxWrites c) {record : InboxRecord}
    (hput : (⟨.inboxRecord queue id, .put record⟩ : Σ k : Key κ, Write (Val κ β k)) ∈ c.writes) :
    ∃ a, c.label.call.application = some a ∧ a.queue = queue ∧ a.id = id ∧
      a.appliedAt = record.appliedAtMs := by
  have hext : (⟨.inboxRecord queue id, .put record⟩ : Σ k : Key κ, Write (Val κ β k)) ∈
      externalWrites c.writes := List.mem_filter.mpr ⟨hput, rfl⟩
  cases h with
  | applied a outcome ha hw =>
    rw [hw] at hext
    simp only [InboxRecord.writes, List.mem_cons, List.not_mem_nil, or_false] at hext
    rcases hext with hext | hext
    · cases hext
      exact ⟨a, ha, rfl, rfl, rfl⟩
    · cases hext
  | swept entries hs hw =>
    rw [hw] at hext
    obtain ⟨e, -, he⟩ := List.mem_flatMap.mp hext
    simp [inboxDeletes] at he
  | other ho hw =>
    obtain ⟨key, hk⟩ := hw _ (List.mem_map_of_mem hext)
    cases hk

theorem InboxWrites.keeps_none (h : InboxWrites c) (hn : log.store (.inboxRecord queue id) = none)
    (ha : ∀ a, c.label.call.application = some a → (a.queue, a.id) ≠ (queue, id)) :
    Log.store (log ++ [c]) (.inboxRecord queue id) = none := by
  rw [Log.store_append_singleton, applyBatch_externalWrites rfl]
  cases h with
  | applied a outcome happ hw =>
    rw [hw, ← hn]
    refine (applyBatch_record _ _ _).2.2 _ ?_ (by simp)
    rintro ⟨⟩
    exact ha a happ rfl
  | swept entries hcall hw =>
    rw [hw]
    by_cases hk : (.inboxRecord queue id : Key κ) ∈
        Batch.keys (entries.flatMap inboxDeletes : Batch (Val κ β))
    · exact applyBatch_inboxDeletes_of_mem hk
    · rw [Store.applyBatch_of_not_mem hk, hn]
  | other ho hw =>
    rw [← hn]
    apply Store.applyBatch_of_not_mem
    intro hk
    obtain ⟨key, hk⟩ := hw _ hk
    cases hk

theorem InboxWrites.recorded (h : InboxWrites c) (ha : c.label.call.application = some a)
    (log : History κ β) : Log.store (log ++ [c]) (.inboxRecord a.queue a.id) ≠ none := by
  cases h with
  | applied a' outcome ha' hw =>
    obtain rfl : a' = a := Option.some.inj (ha'.symm.trans ha)
    rw [Log.store_append_singleton, applyBatch_externalWrites rfl, hw, (applyBatch_record _ _ _).1]
    simp
  | swept entries hs hw =>
    rw [hs] at ha
    cases ha
  | other ho hw =>
    rw [Call.eq_of_application ha] at ho
    obtain ⟨queue, id, appliedAt, effect⟩ := a
    cases effect <;> cases ho

theorem InboxPaired.applied {s : Store (Val κ β)} (hp : InboxPaired s) (record : InboxRecord)
    (hnone : s (.inboxRecord queue id) = none) :
    InboxPaired (s.applyBatch (record.writes queue id)) := by
  obtain ⟨hrec, hexp, hother⟩ := applyBatch_record (s := s) record queue id
  intro appliedAt q i
  by_cases hk : q = queue ∧ i = id
  · obtain ⟨rfl, rfl⟩ := hk
    rw [hrec]
    by_cases hat : appliedAt = record.appliedAtMs
    · subst hat
      simp [hexp]
    · rw [hother _ (by simp) (by simp [hat]), hp, hnone]
      simp [Ne.symm hat]
  · rw [hother _ (by simp) (by simpa using fun _ hq hi => hk ⟨hq, hi⟩),
      hother _ (by simpa using fun hq hi => hk ⟨hq, hi⟩) (by simp)]
    exact hp appliedAt q i

theorem InboxPaired.swept {s : Store (Val κ β)} (hp : InboxPaired s) (hfound : ∀ e ∈ entries,
      ∃ record, s (.inboxRecord e.2.1 e.2.2) = some record ∧ record.appliedAtMs = e.1) :
    InboxPaired (s.applyBatch (entries.flatMap inboxDeletes)) := by
  intro appliedAt queue id
  by_cases hmem : ∃ sweptAt, (sweptAt, queue, id) ∈ entries
  · obtain ⟨sweptAt, hmem⟩ := hmem
    obtain ⟨record, hrec, hat⟩ := hfound _ hmem
    have hexp : s.applyBatch (entries.flatMap inboxDeletes) (.inboxExpiry appliedAt queue id)
        = none := by
      by_cases hk : (.inboxExpiry appliedAt queue id : Key κ) ∈
          Batch.keys (entries.flatMap inboxDeletes : Batch (Val κ β))
      · exact applyBatch_inboxDeletes_of_mem hk
      · rw [Store.applyBatch_of_not_mem hk]
        by_contra hne
        obtain ⟨record', hrec', rfl⟩ := (hp appliedAt queue id).mp hne
        rw [hrec] at hrec'
        cases hrec'
        rw [hat] at hk
        exact hk (mem_keys_inboxDeletes.mpr ⟨_, hmem, .inl rfl⟩)
    rw [applyBatch_inboxDeletes_of_mem (mem_keys_inboxDeletes.mpr ⟨_, hmem, .inr rfl⟩), hexp]
    simp
  · have hkeys : ∀ k : Key κ, (∃ e ∈ entries, k = .inboxExpiry e.1 e.2.1 e.2.2 ∨
        k = .inboxRecord e.2.1 e.2.2) → k ≠ .inboxExpiry appliedAt queue id ∧
          k ≠ .inboxRecord queue id := by
      rintro k ⟨⟨sweptAt, q, i⟩, he, rfl | rfl⟩
      · refine ⟨?_, by simp⟩
        rintro ⟨⟩
        exact hmem ⟨_, he⟩
      · refine ⟨by simp, ?_⟩
        rintro ⟨⟩
        exact hmem ⟨sweptAt, he⟩
    rw [Store.applyBatch_of_not_mem fun hk => (hkeys _ (mem_keys_inboxDeletes.mp hk)).1 rfl,
      Store.applyBatch_of_not_mem fun hk => (hkeys _ (mem_keys_inboxDeletes.mp hk)).2 rfl]
    exact hp appliedAt queue id

/-- A lawful commit keeps the records and the expiry entries paired. -/
theorem InboxPaired.commit (hp : InboxPaired log.store) (hl : InboxLawful log c) :
    InboxPaired (Log.store (log ++ [c])) := by
  cases hl.writes with
  | applied a outcome ha hw =>
    refine (hp.applied ⟨a.appliedAt, outcome⟩ (hl.applies a ha)).congr fun k hk _ => ?_
    rw [Log.store_append_singleton, applyBatch_externalWrites hk, hw]
  | swept entries hs hw =>
    refine (hp.swept (hl.sweeps entries hs)).congr fun k hk _ => ?_
    rw [Log.store_append_singleton, applyBatch_externalWrites hk, hw]
  | other ho hw =>
    exact hp.congr fun k hk hu => (InboxWrites.other ho hw).store_of_other ho log hk hu

end Lawful

end Taquba
