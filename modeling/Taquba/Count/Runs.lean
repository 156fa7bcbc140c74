import Taquba.Count.Waiting
import Taquba.Queue.Machine

/-! # Counts over runs

The number that a count's record holds is the sum of the changes that committed. Two
commits that change a count, or let a job wait for it, write its record, so the second
sees the first. A commit that only read which job waits relies on this: no job begins
to wait without a write to the record of the count.
-/

namespace Taquba

open Clock Snapshot Transition

variable {κ β : Type} [DecidableEq κ]
variable {key : RecordKey} {name : String}

namespace History

def countChange (log : History κ β) (c : CallCommit κ β) (name : String) : ℤ :=
  c.label.call.countChange (Log.store (log.take c.label.snap)) name

def countTotal (log : History κ β) (name : String) : ℤ :=
  ((List.range log.length).map fun n =>
    (log[n]?).elim 0 fun c => History.countChange (log.take n) c name).sum

theorem countTotal_append (log : History κ β) (c : CallCommit κ β) (name : String) :
    History.countTotal (log ++ [c]) name = log.countTotal name + log.countChange c name := by
  have hmap : (List.range log.length).map (fun n =>
      ((log ++ [c])[n]?).elim 0 fun d => History.countChange ((log ++ [c]).take n) d name) =
      (List.range log.length).map fun n =>
        (log[n]?).elim 0 fun d => History.countChange (log.take n) d name := by
    apply List.map_congr_left
    intro n hn
    have hn := List.mem_range.mp hn
    rw [List.getElem?_append_left hn, List.take_append_of_le_length (Nat.le_of_lt hn)]
  rw [countTotal, List.length_append, List.length_singleton, List.range_succ, List.map_append,
    List.sum_append, hmap]
  simp [countTotal]

end History

structure CountCommit (log : History κ β) (c : CallCommit κ β) : Prop where
  active : ∀ name, SumI64 (c.label.call.overflowChecks (Log.store (log.take c.label.snap)))
    (activeCount log.store name) (log.countChange c name)
    (activeCount (log.store.applyBatch c.writes) name)
  current : ∀ name, log.countChange c name ≠ 0 →
    activeCount log.store name = activeCount (Log.store (log.take c.label.snap)) name
  waits : ∀ key name, Waits (log.store.applyBatch c.writes) key name →
    Waits log.store key name ∨ .count name ∈ Batch.keys c.writes
  inv : CountInv log.store → CountInv (log.store.applyBatch c.writes)

/-- The counts after the commit are exact. -/
def CountExact (log : History κ β) (c : CallCommit κ β) : Prop :=
  ∀ name, (activeCount (log.store.applyBatch c.writes) name).toInt =
    (activeCount log.store name).toInt + log.countChange c name

theorem CountCommit.exact {log : History κ β} {c : CallCommit κ β}
    (h : CountCommit log c) (hf : c.label.call.CountsFit (Log.store (log.take c.label.snap))) :
    CountExact log c := by
  intro name
  by_cases hz : log.countChange c name = 0
  · have ha := h.active name
    rw [hz] at ha ⊢
    refine ha.toInt_eq ?_ ?_
    · rw [add_zero]
      exact Int64.le_toInt _
    · rw [add_zero]
      exact Int64.toInt_lt _
  · have hb := hf.bounds name
    rw [← h.current name hz] at hb
    exact (h.active name).toInt_eq hb.1 hb.2

def History.Counted (log : History κ β) : Prop := log.Lawful CountCommit

namespace History.Counted

variable {log : History κ β}

theorem countInv (h : log.Counted) : CountInv log.store :=
  Log.Lawful.invariant h countInv_empty fun _ _ hc hi => hc.inv hi

theorem active_eq (h : log.Lawful CountExact) (name : String) :
    (activeCount log.store name).toInt = log.countTotal name := by
  induction h with
  | nil => rfl
  | @append log c _ hc ih =>
    rw [Log.store_append_singleton, hc name, ih, History.countTotal_append]

theorem waits_of_unwritten (h : log.Counted) {snap : ℕ} (hw : Waits log.store key name)
    (hu : ¬ log.Conflicts snap [.count name]) : Waits (Log.store (log.take snap)) key name := by
  induction h with
  | nil => simpa using hw
  | @append log c hl hc ih =>
    rcases Nat.lt_or_ge log.length snap with hn | hn
    · rwa [List.take_of_length_le (by simp; omega)]
    · rw [Log.conflicts_append_iff hn] at hu
      rw [List.take_append_of_le_length hn]
      rw [Log.store_append_singleton] at hw
      rcases hc.waits key name hw with hw | hk
      · exact ih hw fun hcf => hu (.inl hcf)
      · exact absurd (.inr ⟨_, .head _, hk⟩) hu

end History.Counted

section Commit

omit [DecidableEq κ] in
theorem waits_congr {s s' : Store (Val κ β)} (h : s (.record key) = s' (.record key)) :
    Waits s key name ↔ Waits s' key name := by
  rw [Waits, Waits, h]

variable {log : History κ β} {call : Call κ β} {snap : ℕ} {t : Txn κ β}
  {delivered : List JobRecord}

theorem view_of_mem (hb : t.base = Log.store (log.take snap)) (hc : ¬ log.Conflicts snap t.tracked)
    {k : Key κ} (hk : k ∈ Batch.keys t.writes) :
    log.store.applyBatch t.writes k = t.view k ∧ log.store k = Log.store (log.take snap) k := by
  have hS := Log.store_eq_of_not_conflicts hc (List.mem_append_left t.reads hk)
  refine ⟨?_, hS⟩
  rw [Txn.view, hb]
  exact Store.applyBatch_congr hS

omit [DecidableEq κ] in
theorem unwritten_of_mem (hc : ¬ log.Conflicts snap t.tracked) {k : Key κ}
    (hk : k ∈ Batch.keys t.writes) : ¬ log.Conflicts snap [k] := by
  intro h
  apply hc
  apply h.mono
  intro j hj
  rw [List.mem_singleton.mp hj]
  exact List.mem_append_left t.reads hk

/-- The invariant of the counts, after a commit that read which job waits: a job that
waits now and that the commit left alone waited in its snapshot, when it wrote the count. -/
theorem countInv_commit (hl : log.Counted) {change : String → ℤ} {checks : Bool}
    (hcs : Txn.Counts checks (Txn.begin (Log.store (log.take snap))) t change)
    (hc : ¬ log.Conflicts snap t.tracked) : CountInv (log.store.applyBatch t.writes) := by
  have hmem : ∀ k ∈ Batch.keys t.writes, _ := fun k hk => view_of_mem hcs.base hc hk
  constructor
  · intro name record h
    by_cases hk : (.count name : Key κ) ∈ Batch.keys t.writes
    · rw [(hmem _ hk).1] at h
      exact hcs.inv.active name record h
    · rw [Store.applyBatch_of_not_mem hk] at h
      exact hl.countInv.active name record h
  · intro key name hw
    by_cases hn : (.count name : Key κ) ∈ Batch.keys t.writes
    · rw [(hmem _ hn).1]
      refine hcs.inv.waiter key name ?_
      by_cases hk : (.record key : Key κ) ∈ Batch.keys t.writes
      · rwa [waits_congr (hmem _ hk).1] at hw
      · rw [waits_congr (Store.applyBatch_of_not_mem hk)] at hw
        have hws := hl.waits_of_unwritten hw (unwritten_of_mem hc hn)
        rwa [Txn.view, hcs.base, waits_congr (Store.applyBatch_of_not_mem hk)]
    · rw [Store.applyBatch_of_not_mem hn]
      refine hl.countInv.waiter key name ?_
      by_cases hk : (.record key : Key κ) ∈ Batch.keys t.writes
      · obtain ⟨hv, hS⟩ := hmem _ hk
        rw [waits_congr hv] at hw
        rw [waits_congr hS]
        exact (hcs.waits key name hw).resolve_right hn
      · rwa [waits_congr (Store.applyBatch_of_not_mem hk)] at hw
  · intro queue id job h
    by_cases hk : (.record (.claimed queue id) : Key κ) ∈ Batch.keys t.writes
    · rw [(hmem _ hk).1] at h
      exact hcs.inv.claimed queue id job h
    · rw [Store.applyBatch_of_not_mem hk] at h
      exact hl.countInv.claimed queue id job h

variable [DecidableEq β]

theorem countCommit_of_attempt (hs : log.Sound) (hl : log.Counted)
    (hp : call.Pre (Log.store (log.take snap)))
    (ht : call.attempt (Log.store (log.take snap)) = some (t, delivered))
    (hc : ¬ log.Conflicts snap t.tracked) :
    CountCommit log ⟨⟨call, snap, t.notes, t.stats, delivered⟩, t.writes⟩ := by
  have hsnap : CountInv (Log.store (log.take snap)) :=
    History.Counted.countInv (Log.Lawful.take hl snap)
  have hcs := Call.attempt_counts (hs.take snap).storeInv hsnap hp ht
  have hmem : ∀ k ∈ Batch.keys t.writes, _ := fun k hk => view_of_mem hcs.base hc hk
  constructor
  · intro name
    change SumI64 (call.overflowChecks _) _ (call.countChange _ name)
      (activeCount (log.store.applyBatch t.writes) name)
    by_cases hk : (.count name : Key κ) ∈ Batch.keys t.writes
    · obtain ⟨hv, hS⟩ := hmem _ hk
      have hact := hcs.active name
      simp only [activeCount, hv, hS] at hact ⊢
      exact hact
    · have hz : call.countChange (Log.store (log.take snap)) name = 0 := by
        by_contra hne
        exact hk (hcs.written name hne)
      rw [hz]
      refine .of_eq ?_
      rw [activeCount, Store.applyBatch_of_not_mem hk]
      rfl
  · intro name hne
    rw [activeCount, activeCount, (hmem _ (hcs.written name hne)).2]
  · intro key name hw
    change Waits (log.store.applyBatch t.writes) key name at hw
    by_cases hk : (.record key : Key κ) ∈ Batch.keys t.writes
    · obtain ⟨hv, hS⟩ := hmem _ hk
      rw [waits_congr hv] at hw
      rw [waits_congr hS]
      exact hcs.waits key name hw
    · rw [waits_congr (Store.applyBatch_of_not_mem hk)] at hw
      exact .inl hw
  · exact fun _ => countInv_commit hl hcs hc

/-- The commit that brings a count to zero makes its waiting job pending, unless it
cancels that job. -/
theorem pending_of_commit (hs : log.Sound) (hl : log.Counted)
    (hp : call.Pre (Log.store (log.take snap)))
    (ht : call.attempt (Log.store (log.take snap)) = some (t, delivered))
    (hc : ¬ log.Conflicts snap t.tracked) (hw : Waits log.store key name)
    (hz : activeCount (log.store.applyBatch t.writes) name = 0) (hg : call.cancels ≠ some key.id) :
    ∃ key', key'.keyStatus = .pending ∧ key'.id = key.id ∧ key'.queue = key.queue ∧
      log.store.applyBatch t.writes (.record key') ≠ none := by
  have hsnap : CountInv (Log.store (log.take snap)) :=
    History.Counted.countInv (Log.Lawful.take hl snap)
  have hi := (hs.take snap).storeInv
  have hcs := Call.attempt_counts hi hsnap hp ht
  have hmem : ∀ k ∈ Batch.keys t.writes, _ := fun k hk => view_of_mem hcs.base hc hk
  obtain ⟨record, hr, -⟩ := hl.countInv.waiter key name hw
  have hactive : activeCount log.store name ≠ 0 := by
    simpa [activeCount, hr] using hl.countInv.active name record hr
  have hcc := countCommit_of_attempt hs hl hp ht hc
  have hchange : call.countChange (Log.store (log.take snap)) name ≠ 0 := by
    intro hzero
    have hsum := (hcc.active name).wraps
    rw [History.countChange, hzero] at hsum
    exact hactive ((Int64.add_zero _).symm.trans (hsum.symm.trans hz))
  have happlied : call.appliedEffects (Log.store (log.take snap)) ≠ none := by
    intro hn
    simp [Call.countChange, hn] at hchange
  have hn := hcs.written name hchange
  obtain ⟨hk, job, hj, hjc⟩ := hl.waits_of_unwritten hw (unwritten_of_mem hc hn)
  rcases (Call.attempt_keeps hi hp ht happlied).scheduled key job hk hg hj with hstay | hpend
  · obtain ⟨r, hr, -⟩ := hcs.inv.waiter key name ⟨hk, job, hstay, hjc⟩
    rw [activeCount, (hmem _ hn).1, hr] at hz
    exact absurd hz (hcs.inv.active name r hr)
  · obtain ⟨key', hp', hid, hq, hsome⟩ := hpend
    refine ⟨key', hp', hid, hq, ?_⟩
    by_cases hkey : (.record key' : Key κ) ∈ Batch.keys t.writes
    · rwa [(hmem _ hkey).1]
    · rw [Txn.view, hcs.base, Store.applyBatch_of_not_mem hkey] at hsome
      obtain ⟨job', hj'⟩ := Option.ne_none_iff_exists'.mp hsome
      have := hi.unique hj' hj hid
      rw [this, hk] at hp'
      cases hp'

end Commit

namespace Queue

variable [DecidableEq β] {s : State κ β}

theorem counted_reachable (h : (machine κ β).Reachable s) : s.log.Counted :=
  lawful_reachable (fun _ _ _ _ _ hs hl hp ht hc => countCommit_of_attempt hs hl hp ht hc) h

/-- Every count that a commit changes stays a signed 64-bit integer. -/
def CountsFit (s : State κ β) : Label κ β → Prop
  | .commit call snap => call.CountsFit (Log.store (s.log.take snap))
  | .requeue _ | .reopen _ _ => True

instance (s : State κ β) (l : Label κ β) : Decidable (CountsFit s l) := by
  unfold CountsFit
  split <;> infer_instance

theorem exact_reachable (h : (machine κ β).ReachableVia CountsFit s) :
    s.log.Lawful CountExact := by
  refine lawful_reachableVia (fun s l call snap t delivered hr _ hf hlabel hp ht hc => ?_) h
  refine (countCommit_of_attempt (inv_reachable hr).sound (counted_reachable hr) hp ht hc).exact ?_
  obtain rfl | ⟨job, now, rfl, rfl⟩ := hlabel
  · exact hf
  · rintro effects ⟨⟩

/-- While the counts are 64-bit integers, a count has a record exactly when the sum of its
committed changes is not zero, and the record holds the sum. A scheduled job that waits for a
count is its recorded waiter, and at most one job waits. The commit that brings a count to zero
makes the waiting job pending, unless it cancels that job. An enqueue is refused because of a
count only while another job waits, in its snapshot or among the new jobs of its call. -/
theorem count_protocol (h : (machine κ β).ReachableVia CountsFit s) :
    (∀ name, (s.log.store (.count name) ≠ none ↔ s.log.countTotal name ≠ 0) ∧
      ∀ record, s.log.store (.count name) = some record →
        record.active.toInt = s.log.countTotal name) ∧
    (∀ key name, Waits s.log.store key name → s.log.countTotal name ≠ 0 ∧
      ∃ record, s.log.store (.count name) = some record ∧ record.waiter = some key.id) ∧
    (∀ key key' name, Waits s.log.store key name → Waits s.log.store key' name → key = key') ∧
    (∀ call snap s', step s (.commit call snap) = some s' →
      ∀ key name, Waits s.log.store key name → s'.log.countTotal name = 0 →
        call.cancels ≠ some key.id →
        ∃ pending, s'.log.store (.record (.pending key.queue pending)) ≠ none ∧
          pending.id = key.id) ∧
    (∀ (call : Call κ β) snap, call.Given s.log snap → ∀ name waiter,
      call.refusal (Log.store (s.log.take snap)) = some (.countWaiterExists name waiter) →
      (∃ key, key.id = waiter ∧ Waits (Log.store (s.log.take snap)) key name) ∨
        waiter ∈ call.newIds) := by
  have hi := inv_reachable h.reachable
  have hl := counted_reachable h.reachable
  have hci := hl.countInv
  have htotal := History.Counted.active_eq (exact_reachable h)
  have hrecord : ∀ name record, s.log.store (.count name) = some record →
      record.active.toInt = s.log.countTotal name := by
    intro name record hr
    rw [← htotal, activeCount, hr]
    rfl
  have hactive : ∀ name record, s.log.store (.count name) = some record →
      s.log.countTotal name ≠ 0 := by
    intro name record hr hz
    rw [← hrecord name record hr] at hz
    exact hci.active name record hr (Int64.toInt_inj.mp hz)
  refine ⟨fun name => ⟨⟨?_, ?_⟩, hrecord name⟩, ?_, ?_, ?_, ?_⟩
  · intro hne
    obtain ⟨record, hr⟩ := Option.ne_none_iff_exists'.mp hne
    exact hactive name record hr
  · intro hne hnone
    rw [← htotal, activeCount, hnone] at hne
    exact hne rfl
  · intro key name hw
    obtain ⟨record, hr, hwt⟩ := hci.waiter key name hw
    exact ⟨hactive name record hr, record, hr, hwt⟩
  · intro key key' name hw hw'
    obtain ⟨record, hr, hwt⟩ := hci.waiter key name hw
    obtain ⟨record', hr', hwt'⟩ := hci.waiter key' name hw'
    rw [hr] at hr'
    cases hr'
    obtain ⟨-, job, hj, -⟩ := hw
    obtain ⟨-, job', hj', -⟩ := hw'
    exact hi.sound.storeInv.unique hj hj' (Option.some.inj (hwt.symm.trans hwt'))
  · intro call snap s' hstep key name hw hz hg
    obtain ⟨-, hgiven, t, delivered, ht, hc, rfl⟩ := commit_eq_some hstep
    have hp := hgiven.pre hi.sound
    rw [History.countTotal_append, ← htotal] at hz
    have hcommit := countCommit_of_attempt hi.sound hl hp ht hc
    have hsum := (hcommit.active name).toInt_eq (by omega) (by omega)
    rw [hz] at hsum
    obtain ⟨key', hpend, hid, hq, hsome⟩ :=
      pending_of_commit hi.sound hl hp ht hc hw (Int64.toInt_inj.mp hsum) hg
    rw [Log.store_append_singleton]
    cases key' with
    | pending queue k =>
      cases hq
      exact ⟨k, hsome, hid⟩
    | _ => cases hpend
  · intro call snap hg name waiter hr
    exact Call.waits_of_refusal (hi.sound.take snap).storeInv
      (History.Counted.countInv (Log.Lawful.take hl snap)) (hg.pre hi.sound) hr

def afterTasks : PreparedJob where
  job := { welcome.job with
    id := "b", status := .scheduled, runAt := some 100, countWait := some "tasks" }

def countTasks (delta : Int64) : Call ℕ ℕ :=
  .commitEffects (fun _ _ => none) { countChanges := [("tasks", delta)] }

def waitForTask : List (Label ℕ ℕ) :=
  [.commit (countTasks 1) 0, .commit (.enqueue (fun _ _ => none) afterTasks {}) 1]

theorem count_protocol_of_last_task :
    ∃ s s', (machine ℕ ℕ).runVia CountsFit {} waitForTask = some s ∧
      step s (.commit (countTasks (-1)) 2) = some s' ∧
      Waits s.log.store (.scheduled 100 emails "b") "tasks" ∧
      ∃ pending, s'.log.store (.record (.pending emails pending)) ≠ none ∧ pending.id = "b" := by
  obtain ⟨s, hs, hwait, hstep⟩ : ∃ s, (machine ℕ ℕ).runVia CountsFit {} waitForTask = some s ∧
      (s.log.store (.record (.scheduled 100 emails "b"))).map (·.countWait)
        = some (some "tasks") ∧
      (step s (.commit (countTasks (-1)) 2)).any
        (fun s' => s'.log.countTotal "tasks" = 0) = true :=
    Machine.exists_of_runVia_any (by decide +kernel)
  obtain ⟨job, hj, hjc⟩ := Option.map_eq_some_iff.mp hwait
  have hw : Waits s.log.store (.scheduled 100 emails "b") "tasks" := ⟨rfl, job, hj, hjc⟩
  have hreach : (machine ℕ ℕ).ReachableVia CountsFit s :=
    (Machine.ReachableVia.init (T := machine ℕ ℕ) rfl).runVia hs
  cases hs' : step s (.commit (countTasks (-1)) 2) with
  | none => simp [hs'] at hstep
  | some s' =>
    have hz : s'.log.countTotal "tasks" = 0 := by simpa [hs'] using hstep
    exact ⟨s, s', hs, hs', hw, (count_protocol hreach).2.2.2.1 _ _ s' hs' _ "tasks" hw hz
      (by simp [countTasks, Call.cancels])⟩

/-- Three changes of a count wrap to zero, and the record is gone. -/
theorem count_protocol_fails :
    ∃ s, (machine ℕ ℕ).run {} [.commit (countTasks Int64.maxValue) 0,
        .commit (countTasks Int64.maxValue) 1, .commit (countTasks 2) 2] = some s ∧
      s.log.countTotal "tasks" = 2 ^ 64 ∧ s.log.store (.count "tasks") = none :=
  Machine.exists_of_run_any (by decide +kernel)

end Queue

end Taquba
