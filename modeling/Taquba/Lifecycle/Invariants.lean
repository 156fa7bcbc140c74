import Taquba.Lifecycle.Machine

/-! # What holds in every life of a job

Which fields a record has in each state, how the attempts are counted and recorded,
and what a wait and a signal leave on the record. Each is kept by every event.
-/

namespace Taquba

open Transition

variable {history : List JobAttempt}

/-- The fields of a record that depend on its state. -/
structure JobRecord.WellFormed (job : JobRecord) : Prop where
  runAt : job.runAt.isSome = true ↔ job.status = .scheduled
  claimedAt : job.claimedAt.isSome = true → job.status = .claimed ∨ job.status = .done
  claimed : job.status = .claimed → job.claimedAt.isSome = true
  completedAt : job.completedAt.isSome = true ↔ job.status = .done
  failedAt : job.failedAt.isSome = true ↔ job.status = .dead
  dedupKey : job.dedupKey.isSome = true → job.status = .pending ∨ job.status = .scheduled

def JobEvent.ClaimsPending : JobEvent → Prop
  | .claim source _ => source ≠ .scheduled
  | _ => True

namespace Life

variable {life life' : Life} {event : JobEvent}

theorem record_invariant {D : JobEvent → Prop} {I : JobRecord → Prop}
    (hstart : ∀ job, Starts job → I job)
    (hevent : ∀ old event, I old → D event → event.Allowed old → I (event.apply old))
    (h : machine.ReachableVia (fun _ => D) life) : ∀ job, life.record = some job → I job := by
  refine h.invariant (I := fun life => ∀ job, life.record = some job → I job) ?_ ?_
  · rintro _ rfl job ⟨⟩
  · intro life event life' hi hd hstep job hj
    obtain ⟨new, -, -, hs, rfl⟩ | ⟨-, -, rfl⟩ | ⟨old, hr, ha, rfl⟩ := step_cases hstep
    · cases hj
      exact hstart _ hs
    · cases hj
    · cases hj
      exact hevent old event (hi old hr) hd ha

theorem wellFormed_starts {job : JobRecord} (h : Starts job) : job.WellFormed := by
  obtain ⟨⟨-, hclaimed, -, -, hcompleted, hfailed, -, -⟩, hstatus⟩ := h
  cases hr : job.runAt with
  | none =>
    rw [hr] at hstatus
    constructor <;> simp [hr, hclaimed, hcompleted, hfailed, hstatus]
  | some runAt =>
    rw [hr] at hstatus
    constructor <;> simp [hr, hclaimed, hcompleted, hfailed, hstatus]

theorem wellFormed_leaveWaits {job : JobRecord} (h : job.WellFormed) :
    (Txn.leaveWaits job).WellFormed := by
  unfold Txn.leaveWaits
  split
  · exact { h with }
  · exact h

theorem wellFormed_apply {old : JobRecord} (h : old.WellFormed) (hd : event.ClaimsPending)
    (ha : event.Allowed old) : (event.apply old).WellFormed := by
  obtain ⟨hrun, hclaimedAt, hclaimed, hcompleted, hfailed, hdedup⟩ := h
  cases event with
  | enqueue | remove => exact ha.elim
  | claim source now =>
    obtain ⟨rfl, hst⟩ := ha
    have hst : old.status = .pending := hst.resolve_right hd
    rw [hst] at hrun hcompleted hfailed
    refine wellFormed_leaveWaits ⟨?_, ?_, ?_, ?_, ?_, ?_⟩ <;> simp_all
  | complete now =>
    have hst : old.status = .claimed := ha
    rw [hst] at hrun hcompleted hfailed hdedup
    refine wellFormed_leaveWaits ⟨?_, ?_, ?_, ?_, ?_, ?_⟩ <;> simp_all
  | retry runAt outcome error now =>
    obtain ⟨hst, -⟩ := ha
    rw [hst] at hrun hcompleted hfailed hdedup
    refine wellFormed_leaveWaits ⟨?_, ?_, ?_, ?_, ?_, ?_⟩ <;> cases runAt <;> simp_all
  | deadLetter forced error now =>
    obtain ⟨hst, -⟩ := ha
    rw [hst] at hrun hcompleted hfailed hdedup
    refine wellFormed_leaveWaits ⟨?_, ?_, ?_, ?_, ?_, ?_⟩ <;> simp_all
  | wake signal =>
    obtain ⟨hst, -⟩ := ha
    rw [hst] at hrun hclaimedAt hcompleted hfailed
    refine wellFormed_leaveWaits ⟨?_, ?_, ?_, ?_, ?_, ?_⟩ <;> simp_all
  | requestCancel =>
    exact wellFormed_leaveWaits ⟨hrun, hclaimedAt, hclaimed, hcompleted, hfailed, hdedup⟩
  | revive now =>
    have hst : old.status = .dead := ha
    rw [hst] at hcompleted
    refine wellFormed_leaveWaits ⟨?_, ?_, ?_, ?_, ?_, ?_⟩ <;> simp_all

end Life

/-- The entries between two revivals: at most the last of them ended the job. -/
def IsBlock (block : List JobAttempt) : Prop :=
  (∀ entry ∈ block, entry.outcome ≠ .requeued) ∧
    ∀ entry ∈ block.dropLast, entry.outcome.isFinal = false

/-- A history of blocks with a revival after each but the last, which has an entry for each
of the attempts from the first to the `n`-th, in order. -/
def InBlocks (history : List JobAttempt) (n : ℕ) : Prop :=
  ∃ (past : List (List JobAttempt × JobAttempt)) (last : List JobAttempt),
    history = past.flatMap (fun b => b.1 ++ [b.2]) ++ last ∧
    (∀ b ∈ past, IsBlock b.1 ∧ b.2.outcome = .requeued) ∧ IsBlock last ∧
    last.map (·.attempt) = List.range' 1 n

/-- How a history grows: by the next attempt, until an entry `ended` the job, or by a
revival. -/
inductive Grows : List JobAttempt → ℕ → Bool → Prop where
  | nil : Grows [] 0 false
  | attempt {history : List JobAttempt} {n : ℕ} {entry : JobAttempt} : Grows history n false →
      entry.outcome ≠ .requeued → entry.attempt = n + 1 →
      Grows (history ++ [entry]) (n + 1) entry.outcome.isFinal
  | revival {history : List JobAttempt} {n : ℕ} {ended : Bool} {entry : JobAttempt} :
      Grows history n ended → entry.outcome = .requeued → Grows (history ++ [entry]) 0 false

theorem isBlock_append {block : List JobAttempt} {entry : JobAttempt} (h : IsBlock block)
    (hf : ∀ e ∈ block, e.outcome.isFinal = false) (he : entry.outcome ≠ .requeued) :
    IsBlock (block ++ [entry]) := by
  constructor
  · exact List.forall_mem_append.mpr ⟨h.1, by simpa using he⟩
  · simpa using hf

theorem Grows.exists_blocks {n : ℕ} {ended : Bool} (h : Grows history n ended) :
    ∃ (past : List (List JobAttempt × JobAttempt)) (last : List JobAttempt),
      history = past.flatMap (fun b => b.1 ++ [b.2]) ++ last ∧
      (∀ b ∈ past, IsBlock b.1 ∧ b.2.outcome = .requeued) ∧ IsBlock last ∧
      last.map (·.attempt) = List.range' 1 n ∧
      (ended = false → ∀ entry ∈ last, entry.outcome.isFinal = false) := by
  induction h with
  | nil => exact ⟨[], [], rfl, by simp, by simp [IsBlock], rfl, by simp⟩
  | @attempt history n entry _ hne hn ih =>
    obtain ⟨past, last, rfl, hpast, hlast, hmap, hopen⟩ := ih
    have hopen := hopen rfl
    refine ⟨past, last ++ [entry], by simp, hpast, isBlock_append hlast hopen hne, ?_, ?_⟩
    · rw [List.map_append, hmap, List.range'_concat]
      simp [hn, Nat.add_comm]
    · exact fun hf => List.forall_mem_append.mpr ⟨hopen, by simpa using hf⟩
  | @revival history n ended entry _ hm ih =>
    obtain ⟨past, last, rfl, hpast, hlast, -⟩ := ih
    refine ⟨past ++ [(last, entry)], [], by simp, ?_, by simp [IsBlock], rfl, by simp⟩
    exact List.forall_mem_append.mpr ⟨hpast, by simpa using ⟨hlast, hm⟩⟩

theorem Grows.inBlocks {n : ℕ} {ended : Bool} (h : Grows history n ended) : InBlocks history n := by
  obtain ⟨past, last, heq, hpast, hlast, hmap, -⟩ := h.exists_blocks
  exact ⟨past, last, heq, hpast, hlast, hmap⟩

/-- The attempts that the history of a job has recorded since its last revival. -/
def JobRecord.recorded (job : JobRecord) : ℕ :=
  if job.status = .claimed then job.attempts - 1 else job.attempts

/-- The counter, the limit and the history of a job agree. -/
structure JobRecord.Counted (job : JobRecord) (history : List JobAttempt) : Prop where
  bound : job.attempts ≤ max job.maxAttempts 1
  waiting : job.status = .pending ∨ job.status = .scheduled → job.attempts < max job.maxAttempts 1
  claimed : job.status = .claimed → 0 < job.attempts
  grows : ∃ ended, Grows history job.recorded ended ∧
    (job.status ≠ .done → job.status ≠ .dead → ended = false)

namespace Life

variable {life life' : Life} {event : JobEvent}

theorem counted_starts {job : JobRecord} (h : Starts job) : job.Counted [] := by
  obtain ⟨⟨hattempts, -⟩, hstatus⟩ := h
  have hne : job.status ≠ .claimed := by
    rw [hstatus]
    split <;> simp
  refine ⟨by omega, fun _ => by omega, fun hc => absurd hc hne, false, ?_, fun _ _ => rfl⟩
  rw [JobRecord.recorded, if_neg hne, hattempts]
  exact .nil

theorem counted_leaveWaits {job : JobRecord} (h : job.Counted history) :
    (Txn.leaveWaits job).Counted history := by
  unfold Txn.leaveWaits
  split
  · exact { h with }
  · exact h

theorem recorded_of_ne {job : JobRecord} (h : job.status ≠ .claimed) :
    job.recorded = job.attempts :=
  if_neg h

theorem grows_of_claimed {old : JobRecord} (h : old.Counted history) (hc : old.status = .claimed) :
    ∃ n, old.attempts = n + 1 ∧ Grows history n false := by
  obtain ⟨ended, hg, hlive⟩ := h.grows
  obtain rfl := hlive (by simp [hc]) (by simp [hc])
  obtain ⟨n, hn⟩ := Nat.exists_eq_succ_of_ne_zero (Nat.pos_iff_ne_zero.mp (h.claimed hc))
  rw [JobRecord.recorded, if_pos hc, hn] at hg
  exact ⟨n, hn, hg⟩

theorem counted_apply {old : JobRecord} (h : old.Counted history) (ha : event.Allowed old) :
    (event.apply old).Counted (history ++ (event.entry old).toList) := by
  cases event with
  | enqueue | remove => exact ha.elim
  | claim source now =>
    obtain ⟨rfl, hst⟩ := ha
    have hlt := h.waiting hst
    obtain ⟨ended, hg, hlive⟩ := h.grows
    have hne : old.status ≠ .claimed := by rcases hst with hst | hst <;> simp [hst]
    obtain rfl := hlive (by rcases hst with hst | hst <;> simp [hst])
      (by rcases hst with hst | hst <;> simp [hst])
    rw [recorded_of_ne hne] at hg
    refine counted_leaveWaits ⟨hlt, by simp, fun _ => Nat.succ_pos _, false, ?_, fun _ _ => rfl⟩
    simpa [JobRecord.recorded, JobEvent.entry] using hg
  | complete now =>
    obtain ⟨n, hn, hg⟩ := grows_of_claimed h ha
    refine counted_leaveWaits ⟨h.bound, by simp, by simp, true, ?_, by simp⟩
    rw [recorded_of_ne (by simp)]
    simp only [hn, JobEvent.entry]
    exact hg.attempt (by simp) rfl
  | retry runAt outcome error now =>
    obtain ⟨hc, hlast, hretry⟩ := ha
    obtain ⟨n, hn, hg⟩ := grows_of_claimed h hc
    have hlt : old.attempts < old.maxAttempts := by
      simpa [JobRecord.isLastAttempt] using hlast
    refine counted_leaveWaits ⟨h.bound, fun _ => ?_, ?_, false, ?_, fun _ _ => rfl⟩
    · exact lt_of_lt_of_le hlt (le_max_left _ _)
    · cases runAt <;> simp
    · rw [recorded_of_ne (by cases runAt <;> simp)]
      simp only [hn, JobEvent.entry]
      have hne : outcome ≠ .requeued := by
        rintro rfl
        cases hretry
      have hfinal : outcome.isFinal = false := by cases outcome <;> first | rfl | cases hretry
      rw [← hfinal]
      exact hg.attempt hne rfl
  | deadLetter forced error now =>
    obtain ⟨hc, -⟩ := ha
    obtain ⟨n, hn, hg⟩ := grows_of_claimed h hc
    refine counted_leaveWaits ⟨h.bound, by simp, by simp, true, ?_, by simp⟩
    rw [recorded_of_ne (by simp)]
    simp only [hn, JobEvent.entry]
    exact hg.attempt (by simp) rfl
  | wake signal =>
    obtain ⟨hst, -⟩ := ha
    have hlt := h.waiting (.inr hst)
    obtain ⟨ended, hg, hlive⟩ := h.grows
    obtain rfl := hlive (by simp [hst]) (by simp [hst])
    rw [recorded_of_ne (by simp [hst])] at hg
    refine counted_leaveWaits ⟨h.bound, fun _ => hlt, by simp, false, ?_, fun _ _ => rfl⟩
    simpa [JobRecord.recorded, JobEvent.entry] using hg
  | requestCancel =>
    refine counted_leaveWaits { h with grows := ?_ }
    simpa [JobRecord.recorded, JobEvent.entry] using h.grows
  | revive now =>
    obtain ⟨ended, hg, -⟩ := h.grows
    refine counted_leaveWaits ⟨by simp, by simp, by simp, false, ?_, fun _ _ => rfl⟩
    exact hg.revival rfl

/-- In every life the counter, the limit and the history agree, and a history belongs to a
record. -/
theorem counted_of_reachable (h : machine.Reachable life) :
    (∀ job, life.record = some job → job.Counted (life.history.getD [])) ∧
      (life.record = none → life.history = none) := by
  refine h.invariant (I := fun life =>
    (∀ job, life.record = some job → job.Counted (life.history.getD [])) ∧
      (life.record = none → life.history = none)) ?_ ?_
  · rintro _ rfl
    exact ⟨by rintro _ ⟨⟩, fun _ => rfl⟩
  · rintro life event life' ⟨hi, hnone⟩ hstep
    obtain ⟨new, -, hr, hs, rfl⟩ | ⟨-, -, rfl⟩ | ⟨old, hr, ha, rfl⟩ := step_cases hstep
    · refine ⟨?_, by rintro ⟨⟩⟩
      rintro _ ⟨⟩
      simp only [hnone hr, Option.getD_none]
      exact counted_starts hs
    · exact ⟨by rintro _ ⟨⟩, fun _ => rfl⟩
    · refine ⟨?_, by rintro ⟨⟩⟩
      rintro _ ⟨⟩
      have hc := counted_apply (hi old hr) ha
      cases he : event.entry old with
      | none => simpa [he, append] using hc
      | some entry => simpa [he, append] using hc

end Life

def JobRecord.Waits (job : JobRecord) : Prop := job.signalWait = true ∨ job.countWait ≠ none

structure JobRecord.WaitsOnce (job : JobRecord) : Prop where
  scheduled : job.Waits → job.status = .scheduled
  unsignalled : job.signalWait = true → job.signal = none

namespace Life

variable {life life' : Life} {event : JobEvent} {events : List JobEvent} {old job : JobRecord}

theorem waitsOnce_starts (h : Starts job) : job.WaitsOnce := by
  obtain ⟨⟨-, -, hsignal, -, -, -, -, hwaits⟩, hstatus⟩ := h
  refine ⟨fun hw => ?_, fun _ => hsignal⟩
  cases hr : job.runAt with
  | none =>
    obtain ⟨hsw, hcw⟩ := hwaits hr
    rcases hw with hw | hw
    · simp [hsw] at hw
    · exact absurd hcw hw
  | some runAt => simpa [hr] using hstatus

theorem not_waits_leaveWaits (h : job.status ≠ .scheduled) : ¬ (Txn.leaveWaits job).Waits := by
  simp [Txn.leaveWaits, h, JobRecord.Waits]

theorem not_waits_apply (h : old.WaitsOnce) (ha : event.Allowed old) :
    ¬ (event.apply old).Waits := by
  cases event with
  | enqueue | remove => exact ha.elim
  | requestCancel =>
    have hst : old.status = .claimed := ha
    exact not_waits_leaveWaits (by simp [hst])
  | retry runAt outcome error now =>
    cases runAt with
    | none => exact not_waits_leaveWaits (by simp)
    | some runAt =>
      intro hw
      have hst := h.scheduled hw
      rw [ha.1] at hst
      cases hst
  | _ => exact not_waits_leaveWaits (by simp)

theorem waitsOnce_apply (h : old.WaitsOnce) (ha : event.Allowed old) :
    (event.apply old).WaitsOnce := by
  have hw := not_waits_apply h ha
  exact ⟨fun h => absurd h hw, fun h => absurd (.inl h) hw⟩

theorem waitsOnce_of_reachable (h : machine.Reachable life) :
    ∀ job, life.record = some job → job.WaitsOnce :=
  record_invariant (D := fun _ => True) (fun _ => waitsOnce_starts)
    (fun _ _ ho _ ha => waitsOnce_apply ho ha) h

theorem signal_apply (ha : event.Allowed old) (hne : ∀ payload, event ≠ .wake (some payload)) :
    (event.apply old).signal = old.signal := by
  have hleave : ∀ job, (Txn.leaveWaits job).signal = job.signal := by
    intro job
    unfold Txn.leaveWaits
    split <;> rfl
  cases event with
  | enqueue | remove => exact ha.elim
  | wake signal =>
    cases signal with
    | none => exact hleave _
    | some payload => exact absurd rfl (hne payload)
  | _ => exact hleave _

theorem run_waits (hi : machine.Reachable life) (hr : machine.run life events = some life')
    (hj : life'.record = some job) (hw : job.Waits) :
    events = [] ∨ ∃ new, .enqueue new ∈ events := by
  induction events generalizing life with
  | nil => exact .inl rfl
  | cons event events ih =>
    obtain ⟨life₁, hstep, hr⟩ := Option.bind_eq_some_iff.mp hr
    rcases ih (hi.next hstep) hr with rfl | ⟨new, hn⟩
    · cases hr
      obtain ⟨new, rfl, -⟩ | ⟨-, -, rfl⟩ | ⟨old, ho, ha, rfl⟩ := step_cases hstep
      · exact .inr ⟨new, .head _⟩
      · cases hj
      · cases hj
        exact absurd hw (not_waits_apply (waitsOnce_of_reachable hi old ho) ha)
    · exact .inr ⟨new, .tail _ hn⟩

theorem run_signal (hr : machine.run life events = some life')
    (hne : ∀ payload, .wake (some payload) ∉ events) (hj : life'.record = some job) :
    ((∃ new, .enqueue new ∈ events) ∧ job.signal = none) ∨
      (∀ new, .enqueue new ∉ events) ∧ ∃ old, life.record = some old ∧ job.signal = old.signal := by
  induction events generalizing life with
  | nil =>
    cases hr
    exact .inr ⟨by simp, job, hj, rfl⟩
  | cons event events ih =>
    obtain ⟨life₁, hstep, hr⟩ := Option.bind_eq_some_iff.mp hr
    rcases ih hr fun payload hm => hne payload (.tail _ hm) with
      ⟨⟨new, hn⟩, hs⟩ | ⟨hnot, old₁, ho₁, hs⟩
    · exact .inl ⟨⟨new, .tail _ hn⟩, hs⟩
    · obtain ⟨new, rfl, -, hst, rfl⟩ | ⟨-, -, rfl⟩ | ⟨old, ho, ha, rfl⟩ := step_cases hstep
      · cases ho₁
        exact .inl ⟨⟨_, .head _⟩, hs.trans hst.1.2.2.1⟩
      · cases ho₁
      · cases ho₁
        refine .inr ⟨fun new hm => ?_, old, ho, ?_⟩
        · rcases List.mem_cons.mp hm with rfl | hm
          · exact ha.elim
          · exact hnot new hm
        · rw [hs, signal_apply ha]
          rintro payload rfl
          exact hne payload (.head _)

/-- Signals with one payload wake a job that waits for one, and leave the payload. -/
theorem run_delivered {payload : List UInt8} (hr : machine.run life events = some life')
    (he : events ≠ []) (hall : ∀ event ∈ events, event = .wake (some payload)) :
    (∃ old, life.record = some old ∧ old.signalWait = true) ∧
      ∃ job, life'.record = some job ∧ job.signal = some payload := by
  induction events generalizing life with
  | nil => exact absurd rfl he
  | cons event events ih =>
    obtain rfl := hall _ (.head _)
    obtain ⟨life₁, hstep, hr⟩ := Option.bind_eq_some_iff.mp hr
    obtain ⟨_, ⟨⟩, -⟩ | ⟨⟨⟩, -⟩ | ⟨old, ho, ha, rfl⟩ := step_cases hstep
    refine ⟨⟨old, ho, ha.2 rfl⟩, ?_⟩
    cases events with
    | nil =>
      cases hr
      exact ⟨_, rfl, rfl⟩
    | cons event events => exact (ih hr (by simp) fun e hm => hall e (.tail _ hm)).2

end Life

namespace Life

variable {life life' : Life} {event : JobEvent} {events : List JobEvent} {old : JobRecord}
  {queue : QueueName}

def Flagged (life : Life) (queue : QueueName) : Prop :=
  ∃ job, life.record = some job ∧ job.cancelRequested = true ∧ job.queue = queue

theorem flag_apply (ha : event.Allowed old) (hne : ∀ now, event ≠ .revive now) :
    (event.apply old).queue = old.queue ∧
      (old.cancelRequested = true → (event.apply old).cancelRequested = true) := by
  cases event with
  | enqueue | remove => exact ha.elim
  | revive now => exact absurd rfl (hne now)
  | _ => simp [JobEvent.apply]

theorem run_absent (hr : machine.run life events = some life') (h : life.record = none) :
    life'.record = none ∨ ∃ new, .enqueue new ∈ events := by
  cases events with
  | nil =>
    cases hr
    exact .inl h
  | cons event events =>
    obtain ⟨life₁, hstep, -⟩ := Option.bind_eq_some_iff.mp hr
    obtain ⟨new, rfl, -⟩ | ⟨-, hne, -⟩ | ⟨old, ho, -⟩ := step_cases hstep
    · exact .inr ⟨new, .head _⟩
    · exact absurd h hne
    · rw [h] at ho
      cases ho

theorem run_flagged (hr : machine.run life events = some life') (h : life.Flagged queue)
    (hrev : ∀ now, .revive now ∉ events) :
    life'.Flagged queue ∨ life'.record = none ∨ ∃ new, .enqueue new ∈ events := by
  induction events generalizing life with
  | nil =>
    cases hr
    exact .inl h
  | cons event events ih =>
    obtain ⟨life₁, hstep, hr⟩ := Option.bind_eq_some_iff.mp hr
    obtain ⟨new, rfl, -⟩ | ⟨-, -, rfl⟩ | ⟨old, ho, ha, rfl⟩ := step_cases hstep
    · exact .inr (.inr ⟨new, .head _⟩)
    · rcases run_absent hr rfl with hnone | ⟨new, hn⟩
      · exact .inr (.inl hnone)
      · exact .inr (.inr ⟨new, .tail _ hn⟩)
    · obtain ⟨job, hj, hflag, hq⟩ := h
      obtain rfl : old = job := Option.some.inj (ho.symm.trans hj)
      obtain ⟨hqueue, hkeep⟩ := flag_apply ha fun now he => hrev now (he ▸ .head _)
      rcases ih hr ⟨_, rfl, hkeep hflag, hqueue.trans hq⟩ fun now hm => hrev now (.tail _ hm) with
        h | h | ⟨new, hn⟩
      · exact .inl h
      · exact .inr (.inl h)
      · exact .inr (.inr ⟨new, .tail _ hn⟩)

/-- An ended job is revived or removed, or nothing happens to it. -/
theorem run_ended {job : JobRecord} (hr : machine.run life events = some life')
    (hj : life.record = some job) (he : job.status = .done ∨ job.status = .dead) :
    life' = life ∨ (∃ now, .revive now ∈ events) ∨ (∃ new, .enqueue new ∈ events) ∨
      life'.record = none := by
  cases events with
  | nil =>
    cases hr
    exact .inl rfl
  | cons event events =>
    obtain ⟨life₁, hstep, hr⟩ := Option.bind_eq_some_iff.mp hr
    obtain ⟨new, rfl, -⟩ | ⟨-, -, rfl⟩ | ⟨old, ho, ha, -⟩ := step_cases hstep
    · exact .inr (.inr (.inl ⟨new, .head _⟩))
    · rcases run_absent hr rfl with hnone | ⟨new, hn⟩
      · exact .inr (.inr (.inr hnone))
      · exact .inr (.inr (.inl ⟨new, .tail _ hn⟩))
    · obtain rfl : old = job := Option.some.inj (ho.symm.trans hj)
      cases event with
      | revive now => exact .inr (.inl ⟨now, .head _⟩)
      | claim source now =>
        obtain ⟨rfl, ha⟩ := ha
        rcases he with he | he <;> simp [he] at ha
      | _ => rcases he with he | he <;> simp [JobEvent.Allowed, he] at ha

end Life

end Taquba
