import Taquba.Retention.Sweep

/-! # The dead retention sweep

The sweep of one reaper step reads every dead record and picks those whose window ended.
After the scan it removes them one by one, each in a transaction that checks only that
the key still holds a record. Other calls commit between the read of a record and its
removal: the job can be revived, claimed and dead-lettered again under the same key.
-/

namespace Taquba

open Snapshot Transition

variable {κ β : Type}

def Call.revives : Call κ β → Option String
  | .requeueDeadJob id _ => some id
  | _ => none

def Call.sweepsDead : Call κ β → Option RecordKey
  | .sweepVictim (.dead queue id) _ => some (.dead queue id)
  | _ => none

theorem Call.takes_dead {call : Call κ β} {queue : QueueName} {id : String}
    (h : call.Takes (.dead queue id)) :
    call.revives = some id ∨ call.sweepsDead = some (.dead queue id) := by
  cases call with
  | requeueDeadJob i now => exact .inl (congrArg some h.1.symm)
  | sweepVictim key job =>
    cases h
    exact .inr rfl
  | claimBatch q keys claimIds now =>
    obtain ⟨k, -, hk⟩ := h
    cases hk
  | _ => simp [Call.Takes, RecordKey.keyStatus] at h

namespace Retention.Dead

/-- A dead record that the scan picked, and the number of commits it saw. -/
structure Victim where
  queue : QueueName
  id : String
  job : JobRecord
  readAt : ℕ

def Victim.record (v : Victim) : RecordKey := .dead v.queue v.id

/-- A sweep in progress: its time, the number of commits when it began, the records that
are left to remove, and the number of commits when its scan ended. -/
structure Sweep where
  now : ℕ
  began : ℕ
  victims : List Victim := []
  scanned : Option ℕ := none

/-- The store and the sweep of the reaper task. -/
structure State (κ β : Type) where
  queue : Queue.State κ β := {}
  sweep : Option Sweep := none

inductive Label (κ β : Type) where
  | queue (label : Queue.Label κ β)
  | begin (now : ℕ)
  | read (queue : QueueName) (id : String) (readAt : ℕ)
  | endScan
  | remove (snap : ℕ)
  | conflict
  | finish

/-- The steps of other tasks: every call but the removals of the sweep itself. -/
def isOther : Queue.Label κ β → Bool
  | .commit call _ => call.sweepsDead.isNone
  | _ => true

/-- The sweep after a step of another task. A crash ends it. -/
def Sweep.after (sweep : Option Sweep) : Queue.Label κ β → Option Sweep
  | .reopen _ _ => none
  | _ => sweep

variable [DecidableEq κ]

/-- The scan reads a record: it picks the record when its window ended. -/
def Sweep.examine (configs : QueueConfigs) (sweep : Sweep) (v : Victim) : Sweep :=
  match v.job.failedAt with
  | none => sweep
  | some terminalAt =>
    if isRetained (configs.get v.job.queue).deadRetention terminalAt sweep.now then sweep
    else { sweep with victims := sweep.victims ++ [v] }

/-- The record of a victim in the state after the first `readAt` commits. -/
def readVictim (log : History κ β) (queue : QueueName) (id : String) (readAt : ℕ) :
    Option Victim :=
  (Log.store (log.take readAt) (.record (.dead queue id))).map fun stored =>
    { queue, id, job := JobRecord.decode (.dead queue id) stored, readAt }

variable [DecidableEq β]

def step (configs : QueueConfigs) (s : State κ β) : Label κ β → Option (State κ β)
  | .queue label =>
    if isOther label then
      (Queue.step s.queue label).map fun queue => { queue, sweep := Sweep.after s.sweep label }
    else none
  | .begin now =>
    if s.sweep.isNone ∧ s.queue.todo = [] ∧ configs.iter.any (·.deadRetention.isSome) then
      some { s with sweep := some { now, began := s.queue.log.length } }
    else none
  | .read queue id readAt =>
    s.sweep.bind fun sweep =>
      if sweep.scanned = none ∧ sweep.began ≤ readAt ∧ readAt ≤ s.queue.log.length ∧
          .dead queue id ∉ sweep.victims.map Victim.record then
        (readVictim s.queue.log queue id readAt).map fun v =>
          { s with sweep := some (sweep.examine configs v) }
      else none
  | .endScan =>
    s.sweep.bind fun sweep =>
      if sweep.scanned = none then
        some { s with sweep := some { sweep with scanned := some s.queue.log.length } }
      else none
  | .remove snap =>
    s.sweep.bind fun sweep =>
      match sweep.scanned, sweep.victims with
      | some scanned, v :: victims =>
        if scanned ≤ snap then
          (Queue.step s.queue (.commit (.sweepVictim v.record v.job) snap)).map fun queue =>
            { queue, sweep := some { sweep with victims } }
        else none
      | _, _ => none
  | .conflict =>
    s.sweep.bind fun sweep =>
      match sweep.scanned, sweep.victims with
      | some _, _ :: victims => some { s with sweep := some { sweep with victims } }
      | _, _ => none
  | .finish => some { s with sweep := none }

/-- The runs of a queue and of the dead sweeps of its reaper. -/
def machine (κ β : Type) [DecidableEq κ] [DecidableEq β] (configs : QueueConfigs) :
    Machine (State κ β) (Label κ β) where
  init s := s = {}
  step := step configs

def State.store (s : State κ β) : Store (Val κ β) := s.queue.log.store

/-- The record failed longer ago than the window of its queue. -/
def WindowEnded (configs : QueueConfigs) (now : ℕ) (job : JobRecord) : Prop :=
  ∃ failedAt, job.failedAt = some failedAt ∧
    ∃ window, (configs.get job.queue).deadRetention = some window ∧ failedAt + window < now

def State.nextVictim (s : State κ β) : Option Victim :=
  s.sweep.bind fun sweep => sweep.victims.head?

/-- No call has revived the job since the scan read its record. -/
def Unrevived (log : History κ β) (v : Victim) : Prop :=
  ∀ c ∈ log.drop v.readAt, c.label.call.revives ≠ some v.id

instance (log : History κ β) (v : Victim) : Decidable (Unrevived log v) :=
  inferInstanceAs (Decidable (∀ c ∈ _, _))

/-- The victim was read in a state since the sweep began, its window had ended, and no
sweep removed it since. -/
structure Picked (configs : QueueConfigs) (log : History κ β) (now began : ℕ) (v : Victim) :
    Prop where
  began_le : began ≤ v.readAt
  readAt_le : v.readAt ≤ log.length
  found : JobAction.Found (Log.store (log.take v.readAt)) v.record v.job
  expired : ∃ failedAt, v.job.failedAt = some failedAt ∧
    isRetained (configs.get v.job.queue).deadRetention failedAt now = false
  unswept : ∀ c ∈ log.drop began, c.label.call.sweepsDead ≠ some v.record

structure SweepInv (configs : QueueConfigs) (log : History κ β) (sweep : Sweep) : Prop where
  began_le : sweep.began ≤ log.length
  distinct : (sweep.victims.map Victim.record).Nodup
  picked : ∀ v ∈ sweep.victims, Picked configs log sweep.now sweep.began v
  scanning : sweep.scanned = none → ∀ c ∈ log.drop sweep.began, c.label.call.sweepsDead = none

structure Inv (configs : QueueConfigs) (s : State κ β) : Prop where
  queue : (Queue.machine κ β).Reachable s.queue
  sweep : ∀ sweep, s.sweep = some sweep → SweepInv configs s.queue.log sweep

section Steps

variable {configs : QueueConfigs} {s s' : State κ β} {log : History κ β} {sweep : Sweep}
  {v : Victim} {c : CallCommit κ β}

omit [DecidableEq β] in
theorem Picked.commit {now began : ℕ} (h : Picked configs log now began v)
    (hb : began ≤ log.length) (hc : c.label.call.sweepsDead ≠ some v.record) :
    Picked configs (log ++ [c]) now began v where
  __ := h
  readAt_le := by
    have := h.readAt_le
    simp only [List.length_append, List.length_singleton]
    omega
  found := by
    rw [List.take_append_of_le_length h.readAt_le]
    exact h.found
  unswept := by
    rw [List.drop_append_of_le_length hb]
    simpa [or_imp, forall_and] using ⟨h.unswept, hc⟩

omit [DecidableEq β] in
theorem SweepInv.commit (h : SweepInv configs log sweep) (hc : c.label.call.sweepsDead = none) :
    SweepInv configs (log ++ [c]) sweep where
  began_le := by
    have := h.began_le
    simp only [List.length_append, List.length_singleton]
    omega
  distinct := h.distinct
  picked v hv := (h.picked v hv).commit h.began_le (by simp [hc])
  scanning hs := by
    rw [List.drop_append_of_le_length h.began_le]
    simpa [or_imp, forall_and] using ⟨h.scanning hs, hc⟩

omit [DecidableEq β] in
/-- The removal of the first victim keeps the others, which have other keys. -/
theorem SweepInv.removed {victims : List Victim} {scanned : ℕ} (h : SweepInv configs log sweep)
    (hv : sweep.victims = v :: victims) (hs : sweep.scanned = some scanned)
    (hc : c.label.call = .sweepVictim v.record v.job) :
    SweepInv configs (log ++ [c]) { sweep with victims } := by
  have hd := h.distinct
  rw [hv, List.map_cons, List.nodup_cons] at hd
  refine ⟨?_, hd.2, fun u hu => ?_, fun hn => ?_⟩
  · have := h.began_le
    simp only [List.length_append, List.length_singleton]
    omega
  · have hu' := h.picked u (hv ▸ .tail _ hu)
    refine hu'.commit h.began_le ?_
    rw [hc]
    intro he
    exact hd.1 (List.mem_map.mpr ⟨u, hu, (Option.some.inj he).symm⟩)
  · rw [hs] at hn
    cases hn

omit [DecidableEq β] in
theorem SweepInv.tail {victims : List Victim} (h : SweepInv configs log sweep)
    (hv : sweep.victims = v :: victims) : SweepInv configs log { sweep with victims } where
  __ := h
  distinct := by
    have hd := h.distinct
    rw [hv, List.map_cons, List.nodup_cons] at hd
    exact hd.2
  picked u hu := h.picked u (hv ▸ .tail _ hu)

omit [DecidableEq β] in
/-- The scan keeps the invariant when it reads a record that it has not read before. -/
theorem SweepInv.examine (h : SweepInv configs log sweep) (hs : sweep.scanned = none)
    (hb : sweep.began ≤ v.readAt) (hle : v.readAt ≤ log.length)
    (hnew : v.record ∉ sweep.victims.map Victim.record)
    (hf : JobAction.Found (Log.store (log.take v.readAt)) v.record v.job) :
    SweepInv configs log (sweep.examine configs v) := by
  unfold Sweep.examine
  split
  · exact h
  · rename_i failedAt hfailed
    split_ifs with hret
    · exact h
    · refine ⟨h.began_le, ?_, fun u hu => ?_, h.scanning⟩
      · simp only [List.map_append, List.map_cons, List.map_nil]
        rw [← List.concat_eq_append]
        exact h.distinct.concat hnew
      · rcases List.mem_append.mp hu with hu | hu
        · exact h.picked u hu
        · obtain rfl := List.mem_singleton.mp hu
          refine ⟨hb, hle, hf, ⟨failedAt, hfailed, by simpa using hret⟩, fun c hc => ?_⟩
          simp [h.scanning hs c hc]

theorem inv_queue {label : Queue.Label κ β} (hi : Inv configs s)
    (h : step configs s (.queue label) = some s') : Inv configs s' := by
  simp only [step, Option.ite_none_right_eq_some, Option.map_eq_some_iff] at h
  obtain ⟨hother, queue, hq, rfl⟩ := h
  refine ⟨hi.queue.next hq, fun sweep hsweep => ?_⟩
  cases label with
  | commit call snap =>
    obtain ⟨-, -, t, delivered, -, -, rfl⟩ := Queue.commit_eq_some hq
    exact (hi.sweep sweep hsweep).commit (by simpa [isOther] using hother)
  | requeue now =>
    obtain ⟨job, rest, t, delivered, -, -, -, -, rfl⟩ :=
      Queue.requeue_eq_some (Queue.inv_reachable hi.queue) hq
    exact (hi.sweep sweep hsweep).commit rfl
  | reopen kept todo => cases hsweep

theorem remove_eq_some {snap : ℕ} (hi : Inv configs s)
    (h : step configs s (.remove snap) = some s') :
    ∃ sweep scanned v victims t delivered, s.sweep = some sweep ∧ sweep.scanned = some scanned ∧
      sweep.victims = v :: victims ∧ s'.sweep = some { sweep with victims } ∧
      (Queue.machine κ β).Reachable s'.queue ∧
      (Call.sweepVictim v.record v.job : Call κ β).attempt
        (Log.store (s.queue.log.take snap)) = some (t, delivered) ∧
      s'.queue.log = s.queue.log ++ [⟨⟨.sweepVictim v.record v.job, snap, t.notes, t.stats,
        delivered⟩, t.writes⟩] := by
  obtain ⟨sweep, hsweep, h⟩ := Option.bind_eq_some_iff.mp h
  split at h
  · rename_i scanned v victims hs hv
    obtain ⟨-, h⟩ := Option.ite_none_right_eq_some.mp h
    obtain ⟨queue, hq, rfl⟩ := Option.map_eq_some_iff.mp h
    have hreach : (Queue.machine κ β).Reachable queue := hi.queue.next (a := .commit _ _) hq
    obtain ⟨-, -, t, delivered, ht, -, rfl⟩ := Queue.commit_eq_some hq
    exact ⟨sweep, scanned, v, victims, t, delivered, hsweep, hs, hv, rfl, hreach, ht, rfl⟩
  · cases h

theorem inv_step {l : Label κ β} (hi : Inv configs s) (h : step configs s l = some s') :
    Inv configs s' := by
  cases l with
  | queue label => exact inv_queue hi h
  | begin now =>
    simp only [step] at h
    split at h
    · cases h
      refine ⟨hi.queue, ?_⟩
      rintro _ ⟨⟩
      exact ⟨le_rfl, by simp, by simp, by simp⟩
    · cases h
  | read queue id readAt =>
    obtain ⟨sweep, hsweep, h⟩ := Option.bind_eq_some_iff.mp h
    obtain ⟨⟨hs, hb, hle, hnew⟩, h⟩ := Option.ite_none_right_eq_some.mp h
    obtain ⟨v, hv, rfl⟩ := Option.map_eq_some_iff.mp h
    obtain ⟨stored, hst, rfl⟩ := Option.map_eq_some_iff.mp hv
    refine ⟨hi.queue, ?_⟩
    rintro _ ⟨⟩
    refine (hi.sweep sweep hsweep).examine hs hb hle hnew ?_
    exact Option.map_eq_some_iff.mpr ⟨stored, hst, rfl⟩
  | endScan =>
    obtain ⟨sweep, hsweep, h⟩ := Option.bind_eq_some_iff.mp h
    split at h
    · cases h
      have hw := hi.sweep sweep hsweep
      refine ⟨hi.queue, ?_⟩
      rintro _ ⟨⟩
      exact { hw with scanning := by simp }
    · cases h
  | remove snap =>
    obtain ⟨sweep, scanned, v, victims, t, delivered, hsweep, hs, hv, hsweep', hq, -, hlog⟩ :=
      remove_eq_some hi h
    refine ⟨hq, fun w hw => ?_⟩
    rw [hsweep'] at hw
    cases hw
    rw [hlog]
    exact (hi.sweep sweep hsweep).removed hv hs rfl
  | conflict =>
    obtain ⟨sweep, hsweep, h⟩ := Option.bind_eq_some_iff.mp h
    split at h
    · rename_i hv
      cases h
      refine ⟨hi.queue, ?_⟩
      rintro _ ⟨⟩
      exact (hi.sweep sweep hsweep).tail hv
    · cases h
  | finish =>
    cases h
    exact ⟨hi.queue, by simp⟩

theorem inv_reachable (h : (machine κ β configs).Reachable s) : Inv configs s := by
  refine h.invariant ?_ fun s l s' => inv_step
  rintro _ rfl
  exact ⟨.initial rfl, by simp⟩

theorem Picked.found_now (hq : (Queue.machine κ β).Reachable s.queue) {now began : ℕ}
    (h : Picked configs s.queue.log now began v) (hu : Unrevived s.queue.log v) :
    JobAction.Found s.store v.record v.job := by
  obtain ⟨stored, hst, hdec⟩ := Option.map_eq_some_iff.mp h.found
  refine Option.map_eq_some_iff.mpr ⟨stored, ?_, hdec⟩
  refine History.record_since (Queue.spares_reachable hq) hst fun c hc htakes => ?_
  rcases Call.takes_dead htakes with hr | hr
  · exact hu c hc hr
  · refine h.unswept c ?_ hr
    exact (List.drop_subset_drop_left _ h.began_le) hc

/-- A sweep that removes the record of a job that was not revived since the scan read it
removes a record whose window ended before the time of the sweep. -/
theorem dead_retention_of_unrevived
    (hw : ∀ config ∈ configs.iter, ∀ w, config.deadRetention = some w → w < 2 ^ 64)
    (h : (machine κ β configs).Reachable s) {snap : ℕ}
    (hu : ∀ v, s.nextVictim = some v → Unrevived s.queue.log v)
    (hstep : step configs s (.remove snap) = some s') {queue : QueueName} {id : String}
    {stored : JobRecord} (hbefore : s.store (.record (.dead queue id)) = some stored)
    (hafter : s'.store (.record (.dead queue id)) = none) :
    ∃ sweep, s.sweep = some sweep ∧
      WindowEnded configs sweep.now (JobRecord.decode (.dead queue id) stored) := by
  have hi := inv_reachable h
  obtain ⟨sweep, scanned, v, victims, t, delivered, hsweep, -, hv, -, -, ht, hlog⟩ :=
    remove_eq_some hi hstep
  have hp := (hi.sweep sweep hsweep).picked v (hv ▸ .head _)
  have hnow : JobAction.Found s.store v.record v.job :=
    hp.found_now hi.queue (hu v (by simp [State.nextVictim, hsweep, hv]))
  have hkey : v.record = .dead queue id := by
    by_contra hne
    have hsame : s'.store (.record (.dead queue id)) = s.store (.record (.dead queue id)) := by
      simp only [State.store, hlog, Log.store_append_singleton]
      rcases attempt_sweepVictim ht with ⟨-, hwr⟩ | ⟨-, hwr⟩
      · simp [hwr]
      · simp only [hwr]
        rw [JobAction.remove_record, if_neg (Ne.symm hne)]
    rw [hsame, hbefore] at hafter
    cases hafter
  rw [hkey, JobAction.Found, hbefore] at hnow
  obtain ⟨failedAt, hfailed, hret⟩ := hp.expired
  obtain ⟨w, hwin, hlt⟩ := (isRetained_eq_false_iff fun w hwin =>
    hw _ (configs.get_mem_iter _) w hwin).mp hret
  refine ⟨sweep, hsweep, failedAt, ?_, w, ?_, hlt⟩
  · rw [Option.some.inj hnow, hfailed]
  · rw [Option.some.inj hnow, hwin]

end Steps

section Runs

def briefWindow : QueueConfigs where
  default := { deadRetention := some 10 }

/-- A job of `emails` fails at 100, and the sweep of time 1000 reads its record. -/
def pickFailedJob : List (Label ℕ ℕ) :=
  [.queue (.commit (.enqueue (fun _ _ => none) Queue.welcome {}) 0),
    .queue (.commit (.claimBatch Queue.emails [⟨0, 5, "a"⟩] [1] 7) 1),
    .queue (.commit (.settle (fun _ _ => some (0, 1)) (fun _ _ => none) Queue.emails "a" 1
      (.deadLetter "bad") {} 100) 2),
    .begin 1000, .read Queue.emails "a" 3, .endScan]

def failAgain : List (Label ℕ ℕ) :=
  [.queue (.commit (.requeueDeadJob "a" 1000) 3),
    .queue (.commit (.claimBatch Queue.emails [⟨0, 5, "a"⟩] [2] 1001) 4),
    .queue (.commit (.settle (fun _ _ => some (0, 2)) (fun _ _ => none) Queue.emails "a" 2
      (.deadLetter "bad") {} 1002) 5)]

/-- The sweep removes the record of the second failure, which is later than its time. -/
theorem fresh_dead_record_removed :
    ∃ s s' stored, (machine ℕ ℕ briefWindow).run {} (pickFailedJob ++ failAgain) = some s ∧
      step briefWindow s (.remove 6) = some s' ∧ s.sweep.map (·.now) = some 1000 ∧
      s.store (.record (.dead Queue.emails "a")) = some stored ∧
      s'.store (.record (.dead Queue.emails "a")) = none ∧
      ¬ WindowEnded briefWindow 1000 (JobRecord.decode (.dead Queue.emails "a") stored) := by
  obtain ⟨s, hs, hnow, hfailed, hstep⟩ :
      ∃ s, (machine ℕ ℕ briefWindow).run {} (pickFailedJob ++ failAgain) = some s ∧
      s.sweep.map (·.now) = some 1000 ∧
      (s.store (.record (.dead Queue.emails "a"))).map (·.failedAt) = some (some 1002) ∧
      (step briefWindow s (.remove 6)).any
        (fun s' => (s'.store (.record (.dead Queue.emails "a"))).isNone) = true :=
    Machine.exists_of_run_any (by decide +kernel)
  obtain ⟨stored, hst, hfailed⟩ := Option.map_eq_some_iff.mp hfailed
  cases hs' : step briefWindow s (.remove 6) with
  | none => simp [hs'] at hstep
  | some s' =>
    have hnone : s'.store (.record (.dead Queue.emails "a")) = none := by
      simpa [hs'] using hstep
    refine ⟨s, s', stored, hs, hs', hnow, hst, hnone, ?_⟩
    rintro ⟨failedAt, hf, window, -, hlt⟩
    have hdec : (JobRecord.decode (.dead Queue.emails "a") stored).failedAt = stored.failedAt := rfl
    rw [hdec, hfailed] at hf
    cases hf
    omega

theorem dead_retention_of_unrevived_failure :
    ∃ s s', (machine ℕ ℕ briefWindow).run {} pickFailedJob = some s ∧
      step briefWindow s (.remove 3) = some s' ∧
      ∃ stored sweep, s.store (.record (.dead Queue.emails "a")) = some stored ∧
        s'.store (.record (.dead Queue.emails "a")) = none ∧ s.sweep = some sweep ∧
        WindowEnded briefWindow sweep.now (JobRecord.decode (.dead Queue.emails "a") stored) := by
  obtain ⟨s, hs, hsome, hu, hstep⟩ : ∃ s, (machine ℕ ℕ briefWindow).run {} pickFailedJob = some s ∧
      (s.store (.record (.dead Queue.emails "a"))).isSome = true ∧
      (s.nextVictim.all fun v => Unrevived s.queue.log v) = true ∧
      (step briefWindow s (.remove 3)).any
        (fun s' => (s'.store (.record (.dead Queue.emails "a"))).isNone) = true :=
    Machine.exists_of_run_any (by decide +kernel)
  obtain ⟨stored, hst⟩ := Option.isSome_iff_exists.mp hsome
  cases hs' : step briefWindow s (.remove 3) with
  | none => simp [hs'] at hstep
  | some s' =>
    have hnone : s'.store (.record (.dead Queue.emails "a")) = none := by
      simpa [hs'] using hstep
    have hreach := Machine.reachable_of_run hs rfl
    have hun : ∀ v, s.nextVictim = some v → Unrevived s.queue.log v := by
      intro v hv
      simpa [hv] using hu
    obtain ⟨sweep, hsweep, hended⟩ :=
      dead_retention_of_unrevived (by decide) hreach hun hs' hst hnone
    exact ⟨s, s', hs, hs', stored, sweep, hst, hnone, hsweep, hended⟩

end Runs

end Retention.Dead

end Taquba
