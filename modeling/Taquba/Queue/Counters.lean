import Mathlib.Data.Set.Card
import Mathlib.Tactic.Ring
import Taquba.Queue.Machine
import Taquba.Snapshot.Merge

/-! # The queue counters

A commit merges the sum of its counter changes into the counters of the queues it
moved jobs of. In every grouping of these merges the live counters are the numbers of
records in their key spaces, and the done counter is the number of completions.
-/

namespace Taquba

open Snapshot Transition

variable {κ β : Type}

/-- The merge of counter operands under an optional earlier value. -/
def mergeCounters (existing : Option ℤ) (operands : List ℤ) : ℤ :=
  operands.foldl (· + ·) (existing.getD 0)

theorem mergeCounters_eq (existing : Option ℤ) (operands : List ℤ) :
    mergeCounters existing operands = existing.getD 0 + operands.sum := by
  unfold mergeCounters
  generalize existing.getD 0 = total
  induction operands generalizing total with
  | nil => simp
  | cons op operands ih => rw [List.foldl_cons, ih, List.sum_cons, add_assoc]

/-- The operands that the commits merged into a counter: their nonzero changes. -/
def History.counterOperands (log : History κ β) (queue : QueueName) (status : JobStatus) : List ℤ :=
  (log.map fun c => c.label.stats queue status).filter (· ≠ 0)

/-- The count of a counter as `QueueView.stats` reports it. -/
def countFor (value : Option ℤ) : ℤ := value.getD 0

theorem sum_filter_ne_zero (xs : List ℤ) : (xs.filter (· ≠ 0)).sum = xs.sum := by
  induction xs with
  | nil => rfl
  | cons x xs ih =>
    rw [List.filter_cons, List.sum_cons, ← ih]
    by_cases h : x = 0
    · simp [h]
    · simp [h]

def records (s : Store (Val κ β)) (queue : QueueName) (status : JobStatus) : Set RecordKey :=
  {key | key.queue = queue ∧ key.keyStatus = status ∧ (s (.record key)).isSome = true}

section Cards

variable {s : Store (Val κ β)} {queue : QueueName} {status : JobStatus} {key : RecordKey}

theorem records_congr (s' : Store (Val κ β))
    (h : ∀ j, (s' (.record j)).isSome = (s (.record j)).isSome) :
    records s' queue status = records s queue status := by
  simp only [records, h]

theorem ncard_records_put (s' : Store (Val κ β)) (hfin : (records s queue status).Finite)
    (hnone : s (.record key) = none)
    (h : ∀ j, (s' (.record j)).isSome = true ↔ j = key ∨ (s (.record j)).isSome = true) :
    (records s' queue status).Finite ∧ ((records s' queue status).ncard : ℤ) =
      (records s queue status).ncard +
        if queue = key.queue ∧ key.keyStatus = status then 1 else 0 := by
  split_ifs with hk
  · obtain ⟨rfl, rfl⟩ := hk
    have hins : records s' key.queue key.keyStatus =
        insert key (records s key.queue key.keyStatus) := by
      ext j
      simp only [records, Set.mem_ofPred_eq, Set.mem_insert_iff, h]
      constructor
      · rintro ⟨hq, hst, rfl | hj⟩
        · exact .inl rfl
        · exact .inr ⟨hq, hst, hj⟩
      · rintro (rfl | ⟨hq, hst, hj⟩)
        · exact ⟨rfl, rfl, .inl rfl⟩
        · exact ⟨hq, hst, .inr hj⟩
    have hnot : key ∉ records s key.queue key.keyStatus := by
      rintro ⟨-, -, hk⟩
      simp [hnone] at hk
    rw [hins, Set.ncard_insert_of_notMem hnot hfin]
    exact ⟨hfin.insert key, by push_cast; rfl⟩
  · have hsame : records s' queue status = records s queue status := by
      ext j
      simp only [records, Set.mem_ofPred_eq, h]
      constructor
      · rintro ⟨hq, hst, rfl | hj⟩
        · exact absurd ⟨hq.symm, hst⟩ hk
        · exact ⟨hq, hst, hj⟩
      · rintro ⟨hq, hst, hj⟩
        exact ⟨hq, hst, .inr hj⟩
    rw [hsame]
    exact ⟨hfin, by simp⟩

theorem ncard_records_delete (s' : Store (Val κ β)) (hfin : (records s queue status).Finite)
    (hsome : (s (.record key)).isSome = true)
    (h : ∀ j, (s' (.record j)).isSome = true ↔ j ≠ key ∧ (s (.record j)).isSome = true) :
    (records s' queue status).Finite ∧ ((records s' queue status).ncard : ℤ) =
      (records s queue status).ncard -
        if queue = key.queue ∧ key.keyStatus = status then 1 else 0 := by
  have hsub : records s' queue status = records s queue status \ {key} := by
    ext j
    simp only [records, Set.mem_ofPred_eq, Set.mem_sdiff, Set.mem_singleton_iff, h]
    tauto
  rw [hsub]
  refine ⟨hfin.subset Set.sdiff_subset, ?_⟩
  split_ifs with hk
  · have hmem : key ∈ records s queue status := ⟨hk.1.symm, hk.2, hsome⟩
    rw [Set.ncard_sdiff_singleton_of_mem hmem,
      Nat.cast_sub (Set.ncard_pos hfin |>.mpr ⟨key, hmem⟩), Nat.cast_one]
  · have hnot : key ∉ records s queue status := fun hm => hk ⟨hm.1.symm, hm.2.1⟩
    rw [Set.sdiff_singleton_eq_self hnot, sub_zero]

end Cards

variable [DecidableEq κ]

section Actions

variable {s : Store (Val κ β)} {a : JobAction κ β} {as : List (JobAction κ β)}
  {queue : QueueName} {status : JobStatus}

theorem StoreInv.ncard_action (hi : StoreInv s) (he : a.Enabled s) (hst : status ≠ .done)
    (hfin : (records s queue status).Finite) :
    (records (s.applyBatch a.writes) queue status).Finite ∧
      ((records (s.applyBatch a.writes) queue status).ncard : ℤ) =
        (records s queue status).ncard + a.delta queue status := by
  cases a with
  | insert job key =>
    obtain ⟨hidx, hkey, -⟩ := he
    obtain ⟨hks, hkq, hkid⟩ := JobRecord.storedKey_spec hkey
    have hfree : s (.record key) = none := hi.record_eq_none_of_jobIndex (by rw [hkid, hidx])
    obtain ⟨hf, hn⟩ := ncard_records_put (s.applyBatch (JobAction.writes (.insert job key))) hfin
      hfree fun j => by
        rw [JobAction.insert_record]
        split <;> simp_all
    refine ⟨hf, ?_⟩
    rw [hn, hks, hkq]
    simp [JobAction.delta, countDelta, hst]
  | move source old job key =>
    obtain ⟨hf, hne, hkey, hid, hq, -⟩ := he
    obtain ⟨v, hv, hv'⟩ := Option.map_eq_some_iff.mp hf
    obtain ⟨hks, hkq, hkid⟩ := JobRecord.storedKey_spec hkey
    obtain ⟨hos, hoq, hoid⟩ := JobRecord.storedKey_spec (hi.storedKey_of_found hf)
    have hfree : s (.record key) = none := by
      cases hr : s (.record key) with
      | none => rfl
      | some w => exact absurd (hi.unique hv hr (by rw [hoid, hkid, hid])) hne
    obtain ⟨hf₁, hn₁⟩ := ncard_records_delete (s.write ⟨.record source, .delete⟩) hfin
      (by simp [hv] : (s (.record source)).isSome = true) fun j => by
        rw [write_record]
        by_cases hj : j = source
        · simp [hj, Write.apply]
        · simp [hj]
    obtain ⟨hf₂, hn₂⟩ := ncard_records_put
      (s.applyBatch (JobAction.writes (.move source old job key))) hf₁
      (by rw [write_record, if_neg hne.symm, hfree] :
        s.write ⟨.record source, .delete⟩ (.record key) = none) fun j => by
        rw [JobAction.move_record, write_record]
        by_cases hj : j = key
        · simp [hj]
        · by_cases hj' : j = source
          · simp [hj', hne, Write.apply]
          · simp [hj, hj']
    refine ⟨hf₂, ?_⟩
    rw [hn₂, hn₁, hks, hkq, hoq, ← hq]
    simp only [JobAction.delta, countDelta, Option.some.injEq, ne_eq, hst, not_false_eq_true,
      and_true]
    by_cases hsame : source.keyStatus = job.status
    · simp [hsame]
    · rw [if_neg hsame]
      ring
  | rewrite key old job =>
    obtain ⟨v, hv, -⟩ := Option.map_eq_some_iff.mp he.1
    rw [records_congr (s.applyBatch (JobAction.writes (.rewrite key old job))) fun j => ?_]
    · exact ⟨hfin, by simp [JobAction.delta]⟩
    · rw [JobAction.rewrite_record]
      split_ifs with hj
      · rw [hj, hv]
        rfl
      · rfl
  | remove key old completed =>
    obtain ⟨v, hv, -⟩ := Option.map_eq_some_iff.mp he
    obtain ⟨hos, hoq, -⟩ := JobRecord.storedKey_spec (hi.storedKey_of_found he)
    obtain ⟨hf, hn⟩ := ncard_records_delete
      (s.applyBatch (JobAction.writes (.remove key old completed))) hfin
      (by simp [hv] : (s (.record key)).isSome = true) fun j => by
        rw [JobAction.remove_record]
        by_cases hj : j = key
        · simp [hj]
        · simp [hj]
    refine ⟨hf, ?_⟩
    rw [hn, hoq]
    cases completed with
    | false => simp [JobAction.delta, countDelta, hst, sub_eq_add_neg]
    | true =>
      by_cases hd : key.keyStatus = .done
      · simp [JobAction.delta, countDelta, hd, Ne.symm hst]
      · simp [JobAction.delta, countDelta, hd, hst, Ne.symm hst, sub_eq_add_neg]
  | history id entry =>
    rw [records_congr (s.applyBatch (JobAction.writes (.history id entry))) fun j => by
      rw [JobAction.history_of_not_isPlain s id rfl]]
    exact ⟨hfin, by simp [JobAction.delta]⟩
  | plain write =>
    rw [records_congr (s.applyBatch (JobAction.writes (.plain write))) fun j => by
      rw [JobAction.plain_of_not_isPlain s he rfl]]
    exact ⟨hfin, by simp [JobAction.delta]⟩

theorem StoreInv.ncard_actions (hi : StoreInv s) (he : (jobActions κ β).AllEnabled as s)
    (hst : status ≠ .done) (hfin : (records s queue status).Finite) :
    (records (s.applyBatch ((jobActions κ β).batch as)) queue status).Finite ∧
      ((records (s.applyBatch ((jobActions κ β).batch as)) queue status).ncard : ℤ) =
        (records s queue status).ncard + (as.map (·.delta queue status)).sum := by
  induction as generalizing s with
  | nil => exact ⟨hfin, by simp⟩
  | cons a as ih =>
    obtain ⟨hf, hn⟩ := hi.ncard_action he.1 hst hfin
    obtain ⟨hf', hn'⟩ := ih (StoreInv.action a s hi he.1) he.2 hf
    rw [Actions.batch_cons, Store.applyBatch_append]
    refine ⟨hf', ?_⟩
    rw [List.map_cons, List.sum_cons, ← add_assoc, ← hn]
    exact hn'

end Actions

section Totals

variable {log : History κ β}

/-- The changes of a live counter add up to the number of its records. -/
theorem History.Sound.ncard_records (hs : log.Sound) (queue : QueueName) {status : JobStatus}
    (hst : status ≠ .done) :
    (records log.store queue status).Finite ∧
      ((records log.store queue status).ncard : ℤ) =
        (log.map fun c => c.label.stats queue status).sum := by
  induction hs with
  | nil =>
    have hempty : records (Log.store ([] : History κ β)) queue status = ∅ := by
      ext j
      simp [records]
    rw [hempty]
    exact ⟨Set.finite_empty, by simp⟩
  | @append log c hs hc ih =>
    obtain ⟨as, hp⟩ := hc
    obtain ⟨hf, hn⟩ := (History.Sound.storeInv hs).ncard_actions hp.enabled hst ih.1
    rw [hp.store_eq]
    refine ⟨hf, ?_⟩
    rw [hn, ih.2, List.map_append, List.sum_append, List.map_singleton, List.sum_singleton,
      hp.stats]

/-- The changes of the done counter add up to the number of acks. -/
theorem History.Sound.sum_done (hs : log.Sound) (queue : QueueName) :
    (log.map fun c => c.label.stats queue .done).sum =
      (log.countP fun c => c.label.call.acked = some queue : ℤ) := by
  induction hs with
  | nil => rfl
  | @append log c hs hc ih =>
    obtain ⟨as, hp⟩ := hc
    rw [List.map_append, List.sum_append, ih, List.countP_append, List.map_singleton,
      List.sum_singleton, hp.stats, hp.shape.done]
    by_cases h : c.label.call.acked = some queue <;> simp [h]

end Totals

namespace Queue

variable [DecidableEq β] {s : State κ β}

/-- In every grouping of the merges, the live counters of a queue are the numbers of
its records in the four key spaces, and the done counter is the number of acks of the
queue that committed, which no later commit decreases. -/
theorem counters_exact (h : (machine κ β).Reachable s) (queue : QueueName) :
    (∀ status value, status ≠ .done →
      Reads mergeCounters (s.log.counterOperands queue status) value →
      (records s.log.store queue status).Finite ∧
        countFor value = (records s.log.store queue status).ncard) ∧
    (∀ value, Reads mergeCounters (s.log.counterOperands queue .done) value →
      countFor value = s.log.countP fun c => c.label.call.acked = some queue) ∧
    (∀ n value value',
      Reads mergeCounters (History.counterOperands (s.log.take n) queue .done) value →
      Reads mergeCounters (s.log.counterOperands queue .done) value' →
      countFor value ≤ countFor value') := by
  have hs := (inv_reachable h).sound
  have hsum : ∀ (log : History κ β) status value,
      Reads mergeCounters (log.counterOperands queue status) value →
      countFor value = (log.map fun c => c.label.stats queue status).sum := by
    intro log status value hv
    rw [countFor, hv.getD_eq_sum mergeCounters_eq, History.counterOperands, sum_filter_ne_zero]
  refine ⟨fun status value hst hv => ?_, fun value hv => ?_, fun n value value' hv hv' => ?_⟩
  · obtain ⟨hf, hn⟩ := hs.ncard_records queue hst
    exact ⟨hf, by rw [hsum _ _ _ hv, hn]⟩
  · rw [hsum _ _ _ hv, hs.sum_done]
  · rw [hsum _ _ _ hv, hsum _ _ _ hv', hs.sum_done, (hs.take n).sum_done]
    exact Int.ofNat_le.mpr ((List.take_sublist n s.log).countP_le)

theorem counters_exact_after_reopen :
    ∃ s, (machine ℕ ℕ).run {} interruptedClaim = some s ∧
      s.log.counterOperands emails .pending = [1, -1, 1] ∧
      (records s.log.store emails .pending).ncard = 1 := by
  obtain ⟨s, hs, hops⟩ : ∃ s, (machine ℕ ℕ).run {} interruptedClaim = some s ∧
      s.log.counterOperands emails .pending = [1, -1, 1] :=
    Machine.exists_of_run_any (by decide +kernel)
  have hreach := Machine.reachable_of_run hs rfl
  have hgroup : Groups mergeCounters [1, -1, 1] ([1] ++ [mergeCounters none [-1, 1]] ++ []) :=
    .alone .refl (by simp)
  have hread : Reads mergeCounters (s.log.counterOperands emails .pending) (some 1) := by
    rw [hops]
    exact @Groups.onto _ mergeCounters [1, -1, 1] [] [0] [] 1 hgroup
  have hn := ((counters_exact hreach emails).1 .pending (some 1) (by decide) hread).2
  exact ⟨s, hs, hops, (Int.ofNat.inj hn).symm⟩

end Queue

end Taquba
