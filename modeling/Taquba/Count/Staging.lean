import Mathlib.Algebra.Group.Pi.Basic
import Taquba.Count.Quiet

/-! # Counts within a transaction

A change of a count writes its record, and so does a new job that waits for it. The
change that brings the count to zero wakes the recorded job, which is the only one
that can wait. A new job is recorded only when no job waits.
-/

namespace Taquba

open Clock Snapshot

variable {κ β : Type} [DecidableEq κ]

namespace Txn

variable {t t' t'' : Txn κ β}

/-- What staging does to the counts, with the net change of each. A job that waits
after it waited before, or the count is among the keys written. -/
structure Counts (checks : Bool) (t t' : Txn κ β) (change : String → ℤ) : Prop where
  base : t'.base = t.base
  keys : Batch.keys t.writes ⊆ Batch.keys t'.writes
  active : ∀ name, SumI64 checks (activeCount t.view name) (change name) (activeCount t'.view name)
  written : ∀ name, change name ≠ 0 → .count name ∈ Batch.keys t'.writes
  waits : ∀ key name, Waits t'.view key name →
    Waits t.view key name ∨ .count name ∈ Batch.keys t'.writes
  inv : CountInv t'.view

namespace Counts

variable {checks : Bool} {change change' : String → ℤ}

theorem trans (h : Counts checks t t' change) (h' : Counts checks t' t'' change') :
    Counts checks t t'' (change + change') where
  base := h'.base.trans h.base
  keys := List.Subset.trans h.keys h'.keys
  active name := (h.active name).trans (h'.active name)
  written name hne := by
    by_cases hc : change name = 0
    · apply h'.written
      simpa [hc] using hne
    · exact h'.keys (h.written name hc)
  waits key name hw := by
    rcases h'.waits key name hw with hw | hk
    · rcases h.waits key name hw with hw | hk
      · exact .inl hw
      · exact .inr (h'.keys hk)
    · exact .inr hk
  inv := h'.inv

theorem of_quietly (h : Quietly t t') (hc : CountInv t.view) : Counts checks t t' 0 := by
  obtain ⟨ws, hq, hview⟩ := h.view_eq
  refine ⟨h.base, h.keys, ?_, by simp, ?_, ?_⟩
  · intro name
    refine .of_eq ?_
    simp [activeCount, hview, (quiet_batch hq).1]
  · intro key name h
    rw [hview] at h
    exact .inl (waits_of_quiet hq h)
  · rw [hview]
    exact hc.quiet hq

theorem refl (hc : CountInv t.view) : Counts checks t t 0 :=
  .of_quietly (.refl t) hc

theorem quietly (h : Counts checks t t' change) (hq : Quietly t' t'') :
    Counts checks t t'' change := by
  rw [← add_zero change]
  exact h.trans (.of_quietly hq h.inv)

end Counts

section Change

variable {checks : Bool} {name : String} {delta active : Int64}

def changeOf (name : String) (delta : Int64) (n : String) : ℤ :=
  if n = name then delta.toInt else 0

theorem count_put (record : CountRecord) (n : String) :
    (t.put (.count name) record).view (.count n) =
      if n = name then some record else t.view (.count n) := by
  simp only [put, view, Store.applyBatch_append, Store.applyBatch_cons, Store.applyBatch_nil]
  by_cases hn : n = name
  · subst hn
    rw [if_pos rfl, Store.write_self]
    rfl
  · rw [if_neg hn, Store.write_of_ne (by simpa using hn)]

theorem count_delete (n : String) :
    (t.delete (.count name)).view (.count n) = if n = name then none else t.view (.count n) := by
  simp only [delete, view, Store.applyBatch_append, Store.applyBatch_cons, Store.applyBatch_nil]
  by_cases hn : n = name
  · subst hn
    rw [if_pos rfl, Store.write_self]
    rfl
  · rw [if_neg hn, Store.write_of_ne (by simpa using hn)]

theorem record_put_count (record : CountRecord) (key : RecordKey) :
    (t.put (.count name) record).view (.record key) = t.view (.record key) := by
  simp only [put, view, Store.applyBatch_append, Store.applyBatch_cons, Store.applyBatch_nil]
  exact Store.write_of_ne (by simp)

theorem record_delete_count (key : RecordKey) :
    (t.delete (.count name)).view (.record key) = t.view (.record key) := by
  simp only [delete, view, Store.applyBatch_append, Store.applyBatch_cons, Store.applyBatch_nil]
  exact Store.write_of_ne (by simp)

theorem waiter_of_waits (hc : CountInv t.view) {key : RecordKey} (h : Waits t.view key name) :
    (t.readRecord name).waiter = some key.id := by
  obtain ⟨record, hr, hw⟩ := hc.waiter key name h
  simpa [readRecord, get, hr] using hw

theorem countInv_put (hc : CountInv t.view) {record : CountRecord} (ha : record.active ≠ 0)
    (hw : ∀ key, Waits t.view key name → record.waiter = some key.id) :
    CountInv (t.put (.count name) record).view where
  active n r h := by
    rw [count_put] at h
    split at h
    · cases h
      exact ha
    · exact hc.active n r h
  waiter key n h := by
    rw [Waits, record_put_count] at h
    rw [count_put]
    by_cases hn : n = name
    · subst hn
      exact ⟨record, if_pos rfl, hw key h⟩
    · obtain ⟨r, hr, hwr⟩ := hc.waiter key n h
      exact ⟨r, by rw [if_neg hn, hr], hwr⟩
  claimed queue id job h := by
    rw [record_put_count] at h
    exact hc.claimed queue id job h

theorem counts_put (hc : CountInv t.view)
    (hs : SumI64 checks (t.readRecord name).active delta.toInt active) (ha : active ≠ 0) :
    Counts checks t (t.put (.count name) { t.readRecord name with active })
      (changeOf name delta) where
  base := rfl
  keys := by simp [put]
  active n := by
    unfold activeCount changeOf
    rw [count_put]
    by_cases hn : n = name
    · subst hn
      simpa [readRecord, get] using hs
    · rw [if_neg hn, if_neg hn]
      exact .of_eq rfl
  written n hn := by
    have : n = name := by
      by_contra h
      simp [changeOf, h] at hn
    simp [put, this]
  waits key n h := by
    rw [Waits, record_put_count] at h
    exact .inl h
  inv := countInv_put hc ha fun _ => waiter_of_waits hc

theorem stageWake_of_waits (hi : StoreInv t.view) {key : RecordKey} (h : Waits t.view key name)
    {r : Except NotWoken QueueName} (hw : t.stageWake key.id (.count name) = .ok (t', r)) :
    t'.view (.record key) = none := by
  obtain ⟨hk, job, hj, hc⟩ := h
  obtain ⟨hidx, -⟩ := hi.record_index key job hj
  have hget : t.getIndexedJob key.id = some (key, JobRecord.decode key job) := by
    simp [getIndexedJob, get, hidx, hj]
  simp only [stageWake, hget, JobRecord.decode_status, hk, ne_eq, not_true_eq_false, if_false,
    wakeRecord] at hw
  rw [if_pos (by simpa [JobRecord.decode] using hc)] at hw
  obtain ⟨⟨t₁, job'⟩, h₁, hw⟩ := Except.bind_eq_ok.mp hw
  cases hw
  obtain ⟨rfl, pk, hpk, hb, -, ⟨rfl, -⟩ | ⟨hne, hws, -⟩⟩ := moveJob_eq_ok h₁
  · have hst := JobRecord.keyStatus_of_storedKey hpk
    rw [hk, leaveWaits_status] at hst
    cases hst
  · rw [view, hb, hws, Store.applyBatch_append]
    simp only [Store.applyBatch_cons, Store.applyBatch_nil]
    rw [Store.write_of_ne (by simp), Store.write_of_ne (by simpa using hne), Store.write_self]
    rfl

theorem counts_delete (hc : CountInv t.view)
    (hs : SumI64 checks (t.readRecord name).active delta.toInt 0)
    (hq : Quietly (t.delete (.count name)) t')
    (hnone : ∀ key, ¬ Waits t'.view key name) : Counts checks t t' (changeOf name delta) := by
  obtain ⟨ws, hws, hview⟩ := hq.view_eq
  have hcount : ∀ n, t'.view (.count n) = if n = name then none else t.view (.count n) := by
    intro n
    rw [hview, (quiet_batch hws).1, count_delete]
  have hwaits : ∀ key n, Waits t'.view key n → Waits t.view key n := by
    intro key n h
    rw [hview] at h
    have h := waits_of_quiet hws h
    rwa [Waits, record_delete_count] at h
  have hkey : (.count name : Key κ) ∈ Batch.keys t'.writes := hq.keys (by simp [delete])
  refine ⟨hq.base, List.Subset.trans (by simp [delete]) hq.keys, ?_, ?_,
    fun key n h => .inl (hwaits key n h), ?_, ?_, ?_⟩
  · intro n
    unfold activeCount changeOf
    rw [hcount]
    by_cases hn : n = name
    · subst hn
      simpa [readRecord, get] using hs
    · rw [if_neg hn, if_neg hn]
      exact .of_eq rfl
  · intro n hn
    by_cases hname : n = name
    · exact hname ▸ hkey
    · simp [changeOf, hname] at hn
  · intro n record h
    rw [hcount] at h
    obtain ⟨-, h⟩ := Option.ite_none_left_eq_some.mp h
    exact hc.active n record h
  · intro key n h
    obtain ⟨record, hr, hwt⟩ := hc.waiter key n (hwaits key n h)
    refine ⟨record, ?_, hwt⟩
    rw [hcount, if_neg, hr]
    rintro rfl
    exact hnone key h
  · intro queue id job h
    rw [hview] at h
    refine claimed_of_quiet hws (fun q i j hj => ?_) h
    rw [record_delete_count] at hj
    exact hc.claimed q i j hj

/-- The change to zero wakes the recorded job, which is the only one that may wait. -/
theorem counts_stageCountChange (hi : StoreInv t.view) (hc : CountInv t.view)
    (h : t.stageCountChange checks name delta = .ok t') :
    Counts checks t t' (changeOf name delta) := by
  cases stageCountChange_eq_ok h with
  | zero hd =>
    have hz : changeOf name delta = 0 := by
      funext n
      simp [changeOf, hd]
    rw [hz]
    exact .refl hc
  | put _ hsum ha => exact counts_put hc (addI64_eq_some_iff.mp hsum) ha
  | @wake waiter _ _ _ hsum hw h₁ =>
    have hq := (staged_stageWake ..).quietly h₁
    refine counts_delete hc (addI64_eq_some_iff.mp hsum) hq fun key hk => ?_
    have hk₁ : Waits (t.delete (.count name)).view key name := hq.waits hk
    have hk₀ : Waits t.view key name := by
      rwa [Waits, record_delete_count] at hk₁
    obtain rfl : waiter = key.id := Option.some.inj (hw.symm.trans (waiter_of_waits hc hk₀))
    have hi₁ := (t.extends_delete (k := .count name) rfl).inv hi
    obtain ⟨-, job, hj, -⟩ := hk
    rw [stageWake_of_waits hi₁ hk₁ h₁] at hj
    cases hj
  | delete _ hsum hw =>
    refine counts_delete hc (addI64_eq_some_iff.mp hsum) (.refl _) fun key hk => ?_
    rw [Waits, record_delete_count] at hk
    cases hw.symm.trans (waiter_of_waits hc hk)

theorem counts_stageCountChanges {changes : List (String × Int64)} (hi : StoreInv t.view)
    (hc : CountInv t.view) (h : t.stageCountChanges checks changes = .ok t') :
    Counts checks t t' fun n => (changes.map fun c => changeOf c.1 c.2 n).sum := by
  induction changes generalizing t with
  | nil =>
    cases h
    exact .refl hc
  | cons c changes ih =>
    obtain ⟨t₁, h₁, h⟩ := Except.bind_eq_ok.mp h
    obtain ⟨as, he, -⟩ := extends_stageCountChange hi h₁
    have hcs := counts_stageCountChange hi hc h₁
    exact hcs.trans (ih (he.inv hi) hcs.inv h)

end Change

section Wait

variable {checks : Bool} {job : JobRecord} {name : String}

omit [DecidableEq κ] in
theorem insertJob_eq_ok (h : t.insertJob job = .ok t') :
    ∃ key, job.storedKey = some key ∧ t'.base = t.base ∧
      t'.writes = t.writes ++ [⟨.record key, .put job.stored⟩, ⟨.jobIndex job.id, .put key⟩] := by
  unfold insertJob at h
  split at h
  · rename_i key hkey
    cases h
    exact ⟨key, hkey, rfl, by simp [noteEnqueued, countMove, putJob, put]⟩
  · cases h

theorem counts_setWaiter (hc : CountInv t.view) (ha : activeCount t.view name ≠ 0)
    (hnone : ∀ key, ¬ Waits t.view key name) (id : String) :
    Counts checks t (t.put (.count name) { t.readRecord name with waiter := some id }) 0 where
  base := rfl
  keys := by simp [put]
  active n := by
    refine .of_eq ?_
    unfold activeCount
    rw [count_put]
    by_cases hn : n = name
    · subst hn
      simp [readRecord, get]
    · simp [hn]
  written n hn := absurd rfl hn
  waits key n h := by
    rw [Waits, record_put_count] at h
    exact .inl h
  inv := countInv_put hc ha fun key hk => absurd hk (hnone key)

theorem counts_insertJob (hc : CountInv t.view) (hs : job.status = .scheduled)
    (hw : job.countWait = some name) (hk : .count name ∈ Batch.keys t.writes)
    {record : CountRecord} (hr : t.view (.count name) = some record)
    (hwt : record.waiter = some job.id) (h : t.insertJob job = .ok t') : Counts checks t t' 0 := by
  obtain ⟨key, hkey, hb, hws⟩ := insertJob_eq_ok h
  obtain ⟨hst, -, hid⟩ := JobRecord.storedKey_spec hkey
  have hview : t'.view = (t.view.write ⟨.record key, .put job.stored⟩).write
      ⟨.jobIndex job.id, .put key⟩ := by
    rw [view, hb, hws, Store.applyBatch_append]
    rfl
  have hcount : ∀ n, t'.view (.count n) = t.view (.count n) := by
    intro n
    rw [hview, Store.write_of_ne (by simp), Store.write_of_ne (by simp)]
  have hrecord : ∀ k, t'.view (.record k) =
      if k = key then some job.stored else t.view (.record k) := by
    intro k
    rw [hview, Store.write_of_ne (by simp), write_record]
    rfl
  have hkeys : Batch.keys t.writes ⊆ Batch.keys t'.writes := by simp [hws]
  have hwaits : ∀ k n, Waits t'.view k n → k = key ∧ n = name ∨ Waits t.view k n := by
    rintro k n ⟨hks, j, hj, hjc⟩
    rw [hrecord] at hj
    split at hj
    · cases hj
      exact .inl ⟨‹k = key›, Option.some.inj (hjc.symm.trans hw)⟩
    · exact .inr ⟨hks, j, hj, hjc⟩
  refine ⟨hb, hkeys, fun n => .of_eq (by simp [activeCount, hcount]), by simp, ?_, ?_, ?_, ?_⟩
  · intro k n h
    rcases hwaits k n h with ⟨-, rfl⟩ | h
    · exact .inr (hkeys hk)
    · exact .inl h
  · intro n r h
    rw [hcount] at h
    exact hc.active n r h
  · intro k n h
    rw [hcount]
    rcases hwaits k n h with ⟨rfl, rfl⟩ | h
    · exact ⟨record, hr, by rw [hwt, hid]⟩
    · exact hc.waiter k n h
  · intro queue id j h
    rw [hrecord, if_neg] at h
    · exact hc.claimed queue id j h
    · rintro rfl
      rw [hs] at hst
      cases hst

theorem not_waits_of_stillWaiting (hi : StoreInv t.view) (hc : CountInv t.view)
    (h : ∀ waiter, (t.readRecord name).waiter = some waiter → t.stillWaiting waiter name = false)
    (key : RecordKey) : ¬ Waits t.view key name := by
  intro hw
  obtain ⟨record, hr, hwt⟩ := hc.waiter key name hw
  have hf := h key.id (by simpa [readRecord, get, hr] using hwt)
  obtain ⟨hk, job, hj, hjc⟩ := hw
  obtain ⟨hidx, -⟩ := hi.record_index key job hj
  have hget : t.getIndexedJob key.id = some (key, JobRecord.decode key job) := by
    simp [getIndexedJob, get, hidx, hj]
  simp [stillWaiting, hget, hk, JobRecord.decode, hjc] at hf

/-- A new job waits for nothing, or it is recorded for a count without a waiting job. -/
theorem counts_stageCountWait (hi : StoreInv t.view) (hc : CountInv t.view) {job' : JobRecord}
    (h : t.stageCountWait job = .ok (t', job')) :
    Counts checks t t' 0 ∧ (job'.countWait = none ∨ job' = job ∧ ∃ name record,
      job.countWait = some name ∧ .count name ∈ Batch.keys t'.writes ∧
      t'.view (.count name) = some record ∧ record.waiter = some job.id) := by
  cases stageCountWait_eq_ok h with
  | none hn => exact ⟨.refl hc, .inl hn⟩
  | zero => exact ⟨.refl hc, .inl rfl⟩
  | @wait name hn ha hfree =>
    refine ⟨counts_setWaiter hc ha (not_waits_of_stillWaiting hi hc hfree) job.id,
      .inr ⟨rfl, name, { t.readRecord name with waiter := some job.id }, hn, by simp [put], ?_,
        rfl⟩⟩
    rw [count_put, if_pos rfl]

theorem counts_stageJobWrites (hi : StoreInv t.view) (hc : CountInv t.view)
    {prepared : PreparedJob} {r : Except String String}
    (h : t.stageJobWrites prepared = .ok (t', r)) : Counts checks t t' 0 := by
  unfold stageJobWrites at h
  simp only at h
  split at h
  · cases h
    exact .refl hc
  · split at h
    · cases h
    · obtain ⟨⟨t₁, written⟩, h₁, h⟩ := Except.bind_eq_ok.mp h
      obtain ⟨t₂, h₂, h⟩ := Except.bind_eq_ok.mp h
      cases h
      obtain ⟨-, -, hst, -⟩ := extends_stageCountWait h₁
      have hstatus : written.status = .pending ∨ written.status = .scheduled := by
        rcases hst with h | h
        · exact .inl h
        · rw [h]
          exact prepared.status_waiting
      obtain ⟨hc₁, hcase⟩ := counts_stageCountWait hi hc h₁
      have hc₂ : Counts checks t₁ t₂ 0 := by
        rcases hcase with hn | ⟨rfl, name, record, hn, hk, hr, hw⟩
        · exact .of_quietly ((staged_insertJob _ (.inr (.inr hn))).quietly h₂) hc₁.inv
        · by_cases hs : prepared.job.status = .scheduled
          · exact counts_insertJob hc₁.inv hs hn hk hr hw h₂
          · have hp := hstatus.resolve_right hs
            exact .of_quietly ((staged_insertJob _ (.inr (.inl hp))).quietly h₂) hc₁.inv
      exact (hc₁.trans hc₂).quietly (adds_putDedup ..).quietly

end Wait

end Txn

def PreparedEffects.countChange (effects : PreparedEffects κ β) (name : String) : ℤ :=
  (effects.countChanges.map fun c => Txn.changeOf c.1 c.2 name).sum

namespace Txn

section Effects

variable {checks : Bool} {t t' : Txn κ β} {leases : Leases} {effects : PreparedEffects κ β}

theorem counts_stageJobs {jobs : List PreparedJob} (hi : StoreInv t.view) (hc : CountInv t.view)
    (hf : FreshIds t.view jobs) {rs : List EnqueueResult} (h : t.stageJobs jobs = .ok (t', rs)) :
    Counts checks t t' 0 := by
  induction jobs generalizing t rs with
  | nil =>
    cases h
    exact .refl hc
  | cons p jobs ih =>
    obtain ⟨⟨t₁, written⟩, h₁, h⟩ := Except.bind_eq_ok.mp h
    obtain ⟨⟨t₂, rs'⟩, h₂, h⟩ := Except.bind_eq_ok.mp h
    cases h
    obtain ⟨as, he, -, hins, -⟩ := extends_stageJobWrites (hf.1 p (.head _)) h₁
    have hc₁ : Counts checks t t₁ 0 := counts_stageJobWrites hi hc h₁
    exact hc₁.trans (ih (he.inv hi) hc₁.inv (hf.tail hi he hins) h₂)

variable [DecidableEq β]

theorem counts_stageEffects (hi : StoreInv t.view) (hc : CountInv t.view)
    (hf : FreshIds t.view effects.preparedJobs) {rs : List EnqueueResult}
    (h : t.stageEffects leases effects = .ok (t', rs)) :
    Counts effects.overflowChecks t t' effects.countChange := by
  obtain ⟨t₁, t₂, t₃, t₄, h₁, h₂, h₃, h₄, rfl⟩ := stageEffects_parts h
  have he₂ : Extends t t₂ [] := (extends_stageFence h₁).trans (extends_stageCompares h₂)
  have hc₂ : Counts effects.overflowChecks t t₂ 0 :=
    .of_quietly (((staged_stageFence ..).quietly h₁).trans
      ((staged_stageCompares _ trivial _).quietly h₂)) hc
  obtain ⟨as, he₃, has⟩ := extends_stageCountChanges (he₂.inv hi) h₃
  have hc₃ := counts_stageCountChanges (he₂.inv hi) hc₂.inv h₃
  have hf₃ : FreshIds t₃.view effects.preparedJobs :=
    hf.extends hi (he₂.trans he₃) (inserts_of_isWake has) (by simp)
  have hc₄ : Counts effects.overflowChecks t₃ t₄ 0 :=
    counts_stageJobs (he₃.inv (he₂.inv hi)) hc₃.inv hf₃ h₄
  have hq : Quietly t₄ _ := ((adds_stageKv t₄ trivial effects.kvWrites effects.kvDeletes).trans
    (adds_noteExpiryEntries _ effects.expiryEntries)).quietly
  have hall := ((hc₂.trans hc₃).trans hc₄).quietly hq
  rwa [zero_add, add_zero] at hall

end Effects

end Txn

end Taquba
