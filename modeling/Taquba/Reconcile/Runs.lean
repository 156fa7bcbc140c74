import Taquba.Reconcile.Machine

/-! # No dead step is skipped

A pass that completes leaves no job named that was dead when its check read the counter, as
long as these jobs stay dead. A later check that reads the same counter finds the same dead
jobs, unless one was taken away in between and another one died.
-/

namespace Taquba.Workflow.Reconcile

open Snapshot Transition

variable {pass : Pass} {visit : Visit}

/-- Where a pass has the job of a record that was dead when its check read the counter. -/
def Visit.Holds (digests : Digests) (job : JobRecord) : Visit → Prop
  | .next => False
  | .record claimed | .owned claimed _ => ClaimedStep.parse digests job = .ok claimed
  | .commit t => ClaimedStep.parse digests job = .ok t.claimed

def Pass.Pending (digests : Digests) (pass : Pass) (job : JobRecord) : Prop :=
  (∃ cursor, pass.next = some cursor ∧ ∀ c ∈ cursor, c < job.id) ∨ job ∈ pass.jobs ∨
    pass.visit.Holds digests job

/-- What holds of a pass: every job that was dead when its check read the counter is still to
be visited or is not named by its pointer. -/
structure PassInv (digests : Digests) (queue : QueueName) (log : History KvKey Value)
    (pass : Pass) : Prop where
  readAt_le : pass.readAt ≤ log.length
  value : pass.value = statsDead (log.take pass.readAt) queue
  pending : Kept queue log pass.readAt → ∀ id job,
    JobAction.Found (Log.store (log.take pass.readAt)) (.dead queue id) job →
    pass.Pending digests job ∨ ¬ Named digests log.store job
  fits : ∀ t, pass.visit = .commit t → t.hook.Fits

/-- What holds of the last successful pass. -/
structure RememberedInv (digests : Digests) (queue : QueueName) (log : History KvKey Value)
    (r : Remembered) : Prop where
  readAt_le : r.readAt ≤ log.length
  value : r.value = statsDead (log.take r.readAt) queue
  unnamed : Kept queue log r.readAt → ∀ id job,
    JobAction.Found (Log.store (log.take r.readAt)) (.dead queue id) job →
    ¬ Named digests log.store job

def PhaseInv (digests : Digests) (queue : QueueName) (log : History KvKey Value) (loop : Loop) :
    Prop :=
  match loop.phase with
  | .idle => True
  | .skipping readAt => readAt ≤ log.length ∧ ∃ r, loop.reconciledAt = some r ∧
      r.readAt ≤ readAt ∧ r.value = statsDead (log.take readAt) queue
  | .passing pass => PassInv digests queue log pass

structure Inv (settings : Settings) (runtime : Runtime) (s : State) : Prop where
  queue : (Queue.machine KvKey Value).Reachable s.queue
  active : ∀ n runId, pointerActive (Log.store (s.queue.log.take n)) runId = true
  remembered : ∀ r, s.loop.reconciledAt = some r →
    RememberedInv settings.digests runtime.queueName s.queue.log r
  phase : PhaseInv settings.digests runtime.queueName s.queue.log s.loop

section Commits

variable {digests : Digests} {queue : QueueName} {log : History KvKey Value} {n : ℕ}
  {c : Commit (Val KvKey Value) (Entry KvKey Value)} {job : JobRecord} {id : String}

def NamesNoDead (digests : Digests) (queue : QueueName) (db db' : Db) : Prop :=
  ∀ job, JobAction.Found db' (.dead queue job.id) job → ¬ Named digests db job →
    ¬ Named digests db' job

theorem found_dead_id (hs : log.Sound)
    (hf : JobAction.Found log.store (.dead queue id) job) : job.id = id :=
  (JobRecord.id_of_storedKey (hs.storeInv.storedKey_of_found hf)).symm

theorem unnamed_commit (hs : (log ++ [c]).Sound) (hl : (log ++ [c]).Lawful History.Spares)
    (hn : NamesNoDead digests queue log.store (Log.store (log ++ [c])))
    (hle : n ≤ log.length) (hk : Kept queue (log ++ [c]) n)
    (hf : JobAction.Found (Log.store (log.take n)) (.dead queue id) job)
    (h : ¬ Named digests log.store job) : ¬ Named digests (Log.store (log ++ [c])) job := by
  have htake : (log ++ [c]).take n = log.take n := List.take_append_of_le_length hle
  rw [← htake] at hf
  have hnow := hk.found hl hf
  obtain rfl := found_dead_id hs hnow
  exact hn job hnow h

theorem PassInv.commit (h : PassInv digests queue log pass) (hs : (log ++ [c]).Sound)
    (hl : (log ++ [c]).Lawful History.Spares)
    (hn : NamesNoDead digests queue log.store (Log.store (log ++ [c]))) :
    PassInv digests queue (log ++ [c]) pass := by
  have hle := h.readAt_le
  constructor
  · rw [List.length_append]
    omega
  · rw [List.take_append_of_le_length hle]
    exact h.value
  · intro hk id job hf
    rw [List.take_append_of_le_length hle] at hf
    rcases h.pending ((kept_append hle).mp hk).1 id job hf with hp | hu
    · exact .inl hp
    · exact .inr (unnamed_commit hs hl hn hle hk hf hu)
  · exact h.fits

theorem RememberedInv.commit {r : Remembered} (h : RememberedInv digests queue log r)
    (hs : (log ++ [c]).Sound) (hl : (log ++ [c]).Lawful History.Spares)
    (hn : NamesNoDead digests queue log.store (Log.store (log ++ [c]))) :
    RememberedInv digests queue (log ++ [c]) r := by
  have hle := h.readAt_le
  constructor
  · rw [List.length_append]
    omega
  · rw [List.take_append_of_le_length hle]
    exact h.value
  · intro hk id job hf
    rw [List.take_append_of_le_length hle] at hf
    exact unnamed_commit hs hl hn hle hk hf (h.unnamed ((kept_append hle).mp hk).1 id job hf)

theorem PhaseInv.commit {loop : Loop} (h : PhaseInv digests queue log loop)
    (hs : (log ++ [c]).Sound) (hl : (log ++ [c]).Lawful History.Spares)
    (hn : NamesNoDead digests queue log.store (Log.store (log ++ [c]))) :
    PhaseInv digests queue (log ++ [c]) loop := by
  unfold PhaseInv at h ⊢
  cases hphase : loop.phase with
  | idle => trivial
  | skipping readAt =>
    rw [hphase] at h
    obtain ⟨hle, h⟩ := h
    refine ⟨?_, ?_⟩
    · rw [List.length_append]
      omega
    · rwa [List.take_append_of_le_length hle]
  | passing pass =>
    rw [hphase] at h
    exact PassInv.commit h hs hl hn

/-- The changes of the runtimes name no dead job, and leave no pointer without its record. -/
theorem namesNoDead_of_runtimeWrites {db db' : Db} {changes : List (KvKey × Option Value)}
    (hdb : ∀ k, db' (.user k) = kvAfter changes k (db (.user k)))
    (hw : runtimeWrites queue db' changes = true) : NamesNoDead digests queue db db' := by
  rintro job hf hn ⟨claimed, ref, hparse, hpointer, hid⟩
  by_cases hm : KvKey.step claimed.runId ∈ changes.map Prod.fst
  · obtain ⟨change, hchange, hkey⟩ := List.mem_map.mp hm
    have hfresh := List.all_eq_true.mp hw change hchange
    rw [hkey] at hfresh
    simp only [pointerFresh, hpointer, Bool.and_eq_true, Option.isNone_iff_eq_none] at hfresh
    rw [← hid, JobAction.Found, hfresh.2] at hf
    cases hf
  · refine hn ⟨claimed, ref, hparse, ?_, hid⟩
    rwa [hdb, kvAfter_of_not_mem hm] at hpointer

theorem pointerActive_of_runtimeWrites {db db' : Db} {changes : List (KvKey × Option Value)}
    (hdb : ∀ k, db' (.user k) = kvAfter changes k (db (.user k)))
    (hw : runtimeWrites queue db' changes = true) {runId : RunId}
    (h : pointerActive db runId = true) : pointerActive db' runId = true := by
  by_cases hm : ∃ change ∈ changes, change.1 = .step runId ∨ change.1 = .run runId
  · obtain ⟨change, hchange, hkey⟩ := hm
    have hok := List.all_eq_true.mp hw change hchange
    rcases hkey with hkey | hkey
    · rw [hkey, Bool.and_eq_true] at hok
      exact hok.1
    · rw [hkey] at hok
      exact hok
  · have hsame : ∀ k, k = .step runId ∨ k = .run runId → db' (.user k) = db (.user k) := by
      intro k hk
      rw [hdb]
      apply kvAfter_of_not_mem
      intro hmem
      obtain ⟨change, hchange, rfl⟩ := List.mem_map.mp hmem
      exact hm ⟨change, hchange, hk⟩
    unfold pointerActive at h ⊢
    rwa [hsame _ (.inl rfl), hsame _ (.inr rfl)]

end Commits

section Terminated

variable {t : Terminating} {prepared : PreparedEffects KvKey Value} {db db' : Db}

theorem terminated_own (hfits : t.hook.Fits) (hp : PreparedFrom t.effects prepared)
    {change : KvKey × Option Value} (hchange : change ∈ prepared.kvChanges) {runId : RunId}
    (hk : change.1 = .step runId ∨ change.1 = .run runId) : runId = t.claimed.runId := by
  obtain ⟨k, v⟩ := change
  have hstaged : ¬ k.IsStaged := by rcases hk with rfl | rfl <;> exact id
  rcases hp.mem_kvChanges.mp hchange with ⟨v, hv, -⟩ | ⟨hd, -⟩
  · rcases t.lookup_effects hv with hw | hw
    · cases hw with
      | run => simpa [eq_comm] using hk
      | member => simp at hk
      | marker => simp at hk
    · refine absurd (hfits.keys k (.inl ?_)) hstaged
      exact AList.lookup_isSome.mp (by rw [hw]; rfl)
  · rcases t.mem_kvDeletes_effects.mp hd with hd | rfl | ⟨owner, -, rfl⟩
    · exact absurd (hfits.keys k (.inr hd)) hstaged
    · simpa [eq_comm] using hk
    · simp at hk

theorem terminated_pointer (hp : PreparedFrom t.effects prepared)
    (hdb : ∀ k, db' (.user k) = kvAfter prepared.kvChanges k (db (.user k))) :
    db' (.user (.step t.claimed.runId)) = none := by
  rw [hdb]
  exact hp.kvAfter_deleted (t.mem_kvDeletes_effects.mpr (.inr (.inl rfl))) _

/-- The commit of a termination is one of the runtimes' commits: it deletes the pointer of
its run, and it changes no other run. -/
theorem runtimeWrites_terminating (queue : QueueName) (hfits : t.hook.Fits)
    (hp : PreparedFrom t.effects prepared)
    (hdb : ∀ k, db' (.user k) = kvAfter prepared.kvChanges k (db (.user k))) :
    runtimeWrites queue db' prepared.kvChanges = true := by
  have hown := terminated_pointer hp hdb
  refine List.all_eq_true.mpr fun change hchange => ?_
  split
  · rename_i runId hk
    obtain rfl := terminated_own hfits hp hchange (.inl hk)
    simp [pointerActive, pointerFresh, hown]
  · rename_i runId hk
    obtain rfl := terminated_own hfits hp hchange (.inr hk)
    simp [pointerActive, hown]
  · rfl

/-- So is an advance of a run with a record, whose next step is not a dead job. -/
theorem runtimeWrites_advance {digests : Digests} {queue : QueueName} {claimed : ClaimedStep}
    {payload : List UInt8} {opts : StepEnqueueOpts} {record : RunRecord}
    (hp : PreparedFrom (advance digests queue claimed payload opts) prepared)
    (hdb : ∀ k, db' (.user k) = kvAfter prepared.kvChanges k (db (.user k)))
    (hrun : db' (.user (.run claimed.runId)) = some (.run (.active record)))
    (hjob : db' (.record (.dead queue (digests.nextStepJobId claimed.job.id))) = none) :
    runtimeWrites queue db' prepared.kvChanges = true := by
  have hstep := hdb (.step claimed.runId)
  rw [hp.kvAfter_written (AList.lookup_insert _)] at hstep
  refine List.all_eq_true.mpr fun ⟨k, v⟩ hchange => ?_
  rcases hp.mem_kvChanges.mp hchange with ⟨v, hv, -⟩ | ⟨⟨⟩, -⟩
  rcases SettlementEffects.lookup_kvPut hv with ⟨rfl, -⟩ | ⟨⟨⟩⟩
  simp [pointerActive, pointerFresh, hstep, hrun, hjob]

end Terminated

section Steps

variable {settings : Settings} {runtime : Runtime} {s s' : State} {digests : Digests}
  {queue : QueueName} {log : History KvKey Value}

theorem pointerActive_take {c : Commit (Val KvKey Value) (Entry KvKey Value)}
    (h : ∀ n runId, pointerActive (Log.store (log.take n)) runId = true)
    (hc : ∀ runId, pointerActive log.store runId = true →
      pointerActive (Log.store (log ++ [c])) runId = true) (n : ℕ) (runId : RunId) :
    pointerActive (Log.store ((log ++ [c]).take n)) runId = true := by
  by_cases hn : n ≤ log.length
  · rw [List.take_append_of_le_length hn]
    exact h n runId
  · rw [List.take_of_length_le (by simp; omega)]
    refine hc runId ?_
    have hlog := h log.length runId
    rwa [List.take_length] at hlog

/-- A commit of another call that leaves no pointer without its record and names no dead job
keeps the invariant. -/
theorem Inv.commit {l : Queue.Label KvKey Value} {queue : Queue.State KvKey Value}
    (hi : Inv settings runtime s) (h : Queue.step s.queue l = some queue)
    (hl : ∀ kept todo, l ≠ .reopen kept todo)
    (hactive : ∀ runId, pointerActive s.queue.log.store runId = true →
      pointerActive queue.log.store runId = true)
    (hn : NamesNoDead settings.digests runtime.queueName s.queue.log.store queue.log.store) :
    Inv settings runtime { s with queue } := by
  have hreach := hi.queue.next h
  obtain ⟨_, hlog⟩ := Queue.log_of_step (Queue.inv_reachable hi.queue) hl h
  have hs := (Queue.inv_reachable hreach).sound
  have hspares := Queue.spares_reachable hreach
  rw [hlog] at hs hspares hn hactive
  refine ⟨hreach, ?_, fun r hr => ?_, ?_⟩
  · simp only [hlog]
    exact pointerActive_take hi.active hactive
  · simp only [hlog]
    exact (hi.remembered r hr).commit hs hspares hn
  · simp only [hlog]
    exact hi.phase.commit hs hspares hn

theorem Inv.withPass (hi : Inv settings runtime s)
    (h : PassInv settings.digests runtime.queueName s.queue.log pass) :
    Inv settings runtime (s.withPass pass) :=
  { hi with phase := h }

theorem Inv.idle (hi : Inv settings runtime s) : Inv settings runtime s.idle :=
  { hi with phase := trivial }

theorem Inv.passing (hi : Inv settings runtime s) (h : s.loop.phase = .passing pass) :
    PassInv settings.digests runtime.queueName s.queue.log pass := by
  have hphase := hi.phase
  unfold PhaseInv at hphase
  rwa [h] at hphase

theorem Inv.next {pass' : Pass} (hi : Inv settings runtime s)
    (hphase : s.loop.phase = .passing pass) (hvalue : pass'.value = pass.value)
    (hreadAt : pass'.readAt = pass.readAt)
    (hp : ∀ job, JobAction.Found s.store (.dead runtime.queueName job.id) job →
      pass.Pending settings.digests job →
      pass'.Pending settings.digests job ∨ ¬ Named settings.digests s.store job)
    (hf : ∀ t, pass'.visit = .commit t → t.hook.Fits) :
    Inv settings runtime (s.withPass pass') := by
  have h := hi.passing hphase
  refine hi.withPass ⟨hreadAt ▸ h.readAt_le, ?_, fun hk id job hf => ?_, hf⟩
  · rw [hvalue, hreadAt]
    exact h.value
  · rw [hreadAt] at hk hf
    rcases h.pending hk id job hf with hpend | hu
    · have hnow := hk.found (Queue.spares_reachable hi.queue) hf
      obtain rfl := found_dead_id (Queue.inv_reachable hi.queue).sound hnow
      exact hp job hnow hpend
    · exact .inr hu

/-- The visit of a job goes on, and the other jobs of the pass stay. -/
theorem Inv.continue {value : ℤ} {readAt : ℕ} {next : Option (Option String)}
    {jobs jobs' : List JobRecord} {visited : Option Visit} (hi : Inv settings runtime s)
    (hphase : s.loop.phase = .passing ⟨value, readAt, next, jobs, visit⟩)
    (hp : ∀ v, visited = some v → ∀ job, job ∈ jobs ∨ visit.Holds settings.digests job →
      job ∈ jobs' ∨ v.Holds settings.digests job ∨ ¬ Named settings.digests s.store job)
    (hf : ∀ t, visited = some (.commit t) → t.hook.Fits) :
    Inv settings runtime (s.continue { value, readAt, next, jobs := jobs' } visited) := by
  cases visited with
  | none => exact hi.idle
  | some v =>
    refine hi.next hphase rfl rfl (fun job _ hpend => ?_) fun t ht => hf t (by rw [← ht])
    rcases hpend with hc | hm
    · exact .inl (.inl hc)
    · rcases hp v rfl job hm with hm | hv | hu
      · exact .inl (.inr (.inl hm))
      · exact .inl (.inr (.inr hv))
      · exact .inr hu

theorem holds_of_visited {db : Db} {job : JobRecord} (h : visited settings db job = some visit) :
    (visit.Holds settings.digests job ∨ ¬ Named settings.digests db job) ∧
      ∀ t, visit ≠ .commit t := by
  unfold visited at h
  split at h
  · rename_i e hparse
    cases h
    refine ⟨.inr ?_, by simp⟩
    rintro ⟨claimed, ref, hok, -⟩
    rw [hparse] at hok
    cases hok
  · rename_i claimed hparse
    split at h
    · cases h
    · rename_i current hcurrent
      split_ifs at h with hall
      · cases h
        refine ⟨.inr ?_, by simp⟩
        rintro ⟨claimed', ref, hok, hpointer, hid⟩
        obtain rfl : claimed = claimed' := Except.ok.inj (hparse.symm.trans hok)
        simp only [currentStepIfActive, hpointer] at hcurrent
        cases hcurrent
        simp [hid] at hall
      · cases h
        exact ⟨.inl hparse, by simp⟩

theorem holds_of_recordRead {db : Db} {job : JobRecord} {claimed : ClaimedStep}
    (hparse : ClaimedStep.parse settings.digests job = .ok claimed)
    (hactive : pointerActive db claimed.runId = true) (h : recordRead db claimed = some visit) :
    visit.Holds settings.digests job ∨ ¬ Named settings.digests db job := by
  unfold recordRead at h
  split at h
  · cases h
  · rename_i hrecord
    cases h
    refine .inr ?_
    rintro ⟨claimed', ref, hok, hpointer, -⟩
    obtain rfl : claimed = claimed' := Except.ok.inj (hparse.symm.trans hok)
    obtain ⟨record, hrun⟩ := record_of_pointerActive hactive hpointer
    rw [runRecord_of_active hrun] at hrecord
    cases hrecord
  · cases h
    exact .inl hparse

theorem ownedRead_eq_some {db : Db} {claimed : ClaimedStep} {submission : Submission}
    {hook : StagedEffects} {now : ℕ}
    (h : ownedRead runtime db claimed submission hook now = some visit) :
    ∃ queues, visit =
      .commit (reconcileTermination runtime claimed submission queues hook now) := by
  unfold ownedRead at h
  split at h
  · cases h
  · cases h
    exact ⟨_, rfl⟩

/-- The commit of a termination deletes the pointer that named the job of the visit. -/
theorem inv_commit {value : ℤ} {readAt now snap : ℕ} {next : Option (Option String)}
    {jobs : List JobRecord} {t : Terminating} {preparing : Preparing}
    {prepared : Prepared KvKey Value} {queue : Queue.State KvKey Value}
    (hi : Inv settings runtime s)
    (hphase : s.loop.phase = .passing ⟨value, readAt, next, jobs, .commit t⟩)
    (hp : Caller.commitEffects.prepare settings.configs.toConfigs t.effects preparing =
      .ok prepared)
    (hq : Queue.step s.queue
      (.commit (prepared.call (fun _ _ => none) (fun _ _ => none) now) snap) = some queue) :
    Inv settings runtime ({ s with queue }.withPass { value, readAt, next, jobs }) := by
  have hfits := (hi.passing hphase).fits t rfl
  have hfrom := Effects.prepare_eq_ok hp
  obtain ⟨effects, -, rfl⟩ := Except.map_eq_ok.mp hp
  have hchanges : ∀ k, queue.log.store (.user k) =
      kvAfter effects.kvChanges k (s.queue.log.store (.user k)) :=
    Queue.user_step (Queue.inv_reachable hi.queue) hq (by simp)
  have hown := terminated_pointer hfrom hchanges
  have hw := runtimeWrites_terminating runtime.queueName hfits hfrom hchanges
  have hi' := hi.commit hq (by simp) (fun runId => pointerActive_of_runtimeWrites hchanges hw)
    (namesNoDead_of_runtimeWrites hchanges hw)
  refine hi'.next hphase rfl rfl ?_ (by simp)
  rintro job hf (hc | hm | hx)
  · exact .inl (.inl hc)
  · exact .inl (.inr (.inl hm))
  · refine .inr ?_
    rintro ⟨claimed, ref, hparse, hpointer, -⟩
    obtain rfl : t.claimed = claimed := Except.ok.inj (hx.symm.trans hparse)
    cases hown.symm.trans hpointer

theorem inv_step {l : Label} (hi : Inv settings runtime s)
    (h : step settings runtime s l = some s') : Inv settings runtime s' := by
  cases step_cases h with
  | @reopen kept todo queue hq =>
    have hreach : (Queue.machine KvKey Value).Reachable queue :=
      hi.queue.next (a := .reopen kept todo) hq
    refine ⟨hreach, fun n runId => ?_, by simp, trivial⟩
    simp only [Queue.log_of_reopen hq, List.take_take]
    exact hi.active _ runId
  | queue hlabel hq hw =>
    have huser := Queue.user_step (Queue.inv_reachable hi.queue) hq hlabel
    exact hi.commit hq hlabel (fun runId => pointerActive_of_runtimeWrites huser hw)
      (namesNoDead_of_runtimeWrites huser hw)
  | check =>
    refine { hi with phase := ?_ }
    unfold checked
    simp only
    split_ifs with hvalue
    · obtain ⟨r, hr, hv⟩ := Option.map_eq_some_iff.mp hvalue
      refine ⟨le_rfl, r, hr, (hi.remembered r hr).readAt_le, ?_⟩
      rw [List.take_length]
      exact hv
    · refine ⟨le_rfl, ?_, fun _ id job _ => .inl (.inl ⟨none, rfl, by simp⟩), by simp⟩
      rw [List.take_length]
  | idle => exact hi.idle
  | fetch hphase hpage =>
    refine hi.next hphase rfl rfl ?_ (by simp)
    rintro job hf (⟨c, ⟨⟩, hlt⟩ | hm | hv)
    · have hpos : 0 < pageSize := by decide
      rw [hpage]
      rcases mem_listDead hpos hf hlt with hm | ⟨c, hc, hlt⟩
      · exact .inl (.inr (.inl hm))
      · refine .inl (.inl ⟨some c, by simp [hc], ?_⟩)
        rintro _ ⟨⟩
        exact hlt
    · cases hm
    · exact hv.elim
  | visit hphase =>
    refine hi.continue hphase (fun v hv job hj => ?_) fun t ht =>
      absurd rfl ((holds_of_visited ht).2 t)
    rcases hj with hm | hx
    · rcases List.mem_cons.mp hm with rfl | hm
      · exact .inr (holds_of_visited hv).1
      · exact .inl hm
    · exact hx.elim
  | @readRecord _ _ _ _ claimed hphase =>
    have hactive := hi.active s.queue.log.length claimed.runId
    rw [List.take_length] at hactive
    refine hi.continue hphase (fun v hv job hj => hj.imp_right fun hx => ?_) fun t ht => ?_
    · exact holds_of_recordRead hx hactive hv
    · unfold recordRead at ht
      split at ht <;> cases ht
  | readOwned hphase hhook =>
    refine hi.continue hphase (fun v hv job hj => hj.imp_right fun hx => .inl ?_) fun t ht => ?_
    · obtain ⟨queues, rfl⟩ := ownedRead_eq_some hv
      exact hx
    · obtain ⟨queues, ⟨⟩⟩ := ownedRead_eq_some ht
      exact fits_stagedByHook hhook
  | commit hphase hp hq => exact inv_commit hi hphase hp hq
  | complete hphase =>
    have hpass := hi.passing hphase
    refine ⟨hi.queue, hi.active, ?_, trivial⟩
    rintro _ ⟨⟩
    refine ⟨hpass.readAt_le, hpass.value, fun hk id job hf => ?_⟩
    rcases hpass.pending hk id job hf with (⟨_, ⟨⟩, -⟩ | hm | hx) | hu
    · cases hm
    · exact hx.elim
    · exact hu

theorem inv_reachable (h : (machine settings runtime).Reachable s) : Inv settings runtime s := by
  refine h.invariant ?_ fun s l s' => inv_step
  rintro _ rfl
  refine ⟨.initial rfl, fun n runId => ?_, by simp, trivial⟩
  rw [List.take_nil]
  rfl

/-- At a check that read the counter after `readAt` commits, every dead job that its pointer
names has died since. -/
def SkipsNoDeath (digests : Digests) (queue : QueueName) (log : History KvKey Value)
    (readAt : ℕ) : Prop :=
  ∀ id job, JobAction.Found log.store (.dead queue id) job → Named digests log.store job →
    ∃ n, readAt ≤ n ∧ n ≤ log.length ∧
      Log.store (log.take n) (.record (.dead queue id)) = none

/-- No revival has committed since the last successful pass read the counter, and no dead
retention sweep has removed a job of the queue. Then a check that does not run a pass skips
no dead step: each one that its pointer names has died since the check read the counter. -/
theorem reconciliation_skips_no_death (h : (machine settings runtime).Reachable s) {readAt : ℕ}
    (hphase : s.loop.phase = .skipping readAt)
    (hkept : ∀ r, s.loop.reconciledAt = some r → Kept runtime.queueName s.queue.log r.readAt) :
    SkipsNoDeath settings.digests runtime.queueName s.queue.log readAt := by
  have hi := inv_reachable h
  have hp := hi.phase
  unfold PhaseInv at hp
  rw [hphase] at hp
  obtain ⟨hle, r, hr, hrle, hvalue⟩ := hp
  have hrem := hi.remembered r hr
  have hs := (Queue.inv_reachable hi.queue).sound
  have hl := Queue.spares_reachable hi.queue
  intro id job hf hnamed
  refine ⟨readAt, le_rfl, hle, ?_⟩
  by_contra hne
  obtain ⟨stored, hst⟩ := Option.ne_none_iff_exists'.mp hne
  have hat : JobAction.Found (Log.store (s.queue.log.take readAt)) (.dead runtime.queueName id) _ :=
    .of_record hst
  have hnow := ((hkept r hr).mono hrle).found hl hat
  rw [JobAction.Found] at hnow hf
  obtain rfl := Option.some.inj (hnow.symm.trans hf)
  have heq := hrem.value.symm.trans hvalue
  have hbefore := (hkept r hr).found_before hs hl hrle heq hat
  exact hrem.unnamed (hkept r hr) id _ hbefore hnamed

end Steps

/-- The number of commits that a check had seen which does not run a pass. -/
def Phase.skippedAt : Phase → Option ℕ
  | .skipping readAt => some readAt
  | _ => none

def smallSettings : Settings := ⟨plainDigests, smallConfigs⟩

def stray : PreparedJob where
  job := .newPending "a" steps.queueName [1] 1 0 5

def nightlyStep : PreparedJob where
  job := { JobRecord.newPending "b" steps.queueName [1] 1 0 20 with
    headers := stepHeaders nightly 0 [] {} }
  idOverrideUsed := true

def noLeases : Leases := fun _ _ => none

def leaseOf (id : String) (claimId : ℕ) : Leases :=
  fun _ i => if i = id then some (8, claimId) else none

def firstPass : List Label :=
  [.queue (.commit (.enqueue noLeases stray {}) 0),
    .queue (.commit (.claimBatch steps.queueName [⟨0, 5, "a"⟩] [1] 7) 1),
    .queue (.commit (.settle (leaseOf "a" 1) noLeases steps.queueName "a" 1 (.deadLetter "x") {} 8)
      2),
    .check, .fetch, .visit, .complete]

def submitNightly (n : ℕ) : List Label :=
  [.queue (.commit (.enqueue noLeases nightlyStep
      { kvWrites := [(.run nightly, .run (.active ⟨nightly, "b", 20, [1], none⟩)),
          (.step nightly, .step ⟨0, "b"⟩)] }) n),
    .queue (.commit (.claimBatch steps.queueName [⟨0, 20, "b"⟩] [2] 21) (n + 1))]

/-- The lease of the step expires, and the reaper dead-letters it. -/
def reapNightly (n : ℕ) : Label :=
  .queue (.commit (.reap (leaseOf "b" 2) steps.queueName "b" 2 30) n)

/-- After the pass the retention sweep removes the stray job, and the step of the run dies.
The next check reads the counter of the last pass. -/
def hiddenDeath : List Label :=
  firstPass ++
    [.queue (.commit (.sweepVictim (.dead steps.queueName "a")
      { stray.job with
        status := .dead, attempts := 1, failedAt := some 8, lastError := some "x" }) 3)] ++
    submitNightly 4 ++ [reapNightly 6, .check]

def nightlyDead (s : State) : Bool :=
  (s.store (.record (.dead steps.queueName "b"))).any fun stored =>
    stored.id = "b" ∧ (ClaimedStep.parse plainDigests
      (JobRecord.decode (.dead steps.queueName "b") stored)).toOption.any (·.runId = nightly) ∧
    s.store (.user (.step nightly)) = some (.step ⟨0, "b"⟩)

theorem found_of_nightlyDead {s : State} (h : nightlyDead s = true) :
    ∃ job, JobAction.Found s.store (.dead steps.queueName "b") job ∧
      Named plainDigests s.store job := by
  obtain ⟨stored, hst, hn⟩ := (Option.any_eq_true _ _).mp h
  obtain ⟨hid, hparse, hpointer⟩ := of_decide_eq_true hn
  refine ⟨_, Option.map_eq_some_iff.mpr ⟨stored, hst, rfl⟩, ?_⟩
  cases hp : ClaimedStep.parse plainDigests
      (JobRecord.decode (.dead steps.queueName "b") stored) with
  | error e =>
    rw [hp] at hparse
    cases hparse
  | ok claimed =>
    rw [hp] at hparse
    have hrun : claimed.runId = nightly := by simpa [Except.toOption] using hparse
    rw [← hrun] at hpointer
    exact ⟨claimed, ⟨0, "b"⟩, hp, hpointer, hid.symm⟩

/-- The dead counter is back at the value of the last pass, and the check skips a dead step
that its pointer names and that died before the check read the counter. -/
theorem reconciliation_skips_hidden_death :
    ∃ s, (machine smallSettings steps).run {} hiddenDeath = some s ∧
      s.loop.phase.skippedAt = some 7 ∧
      ¬ SkipsNoDeath plainDigests steps.queueName s.queue.log 7 := by
  obtain ⟨s, hs, hphase, hlen, hn⟩ :
      ∃ s, (machine smallSettings steps).run {} hiddenDeath = some s ∧
      s.loop.phase.skippedAt = some 7 ∧ s.queue.log.length = 7 ∧ nightlyDead s = true :=
    Machine.exists_of_run_any (by decide +kernel)
  refine ⟨s, hs, hphase, fun hskips => ?_⟩
  obtain ⟨job, hf, hnamed⟩ := found_of_nightlyDead hn
  obtain ⟨n, hle, hn, hnone⟩ := hskips "b" job hf hnamed
  rw [List.take_of_length_le (by omega)] at hnone
  rw [JobAction.Found, State.store, hnone] at hf
  cases hf

/-- The step of the run dies while a check that reads the counter of the last pass ends. -/
def lateDeath : List Label := firstPass ++ submitNightly 3 ++ [.check, reapNightly 5]

theorem reconciliation_skips_no_death_late :
    ∃ s, (machine smallSettings steps).run {} lateDeath = some s ∧
      (∃ job, JobAction.Found s.queue.log.store (.dead steps.queueName "b") job ∧
        Named plainDigests s.queue.log.store job) ∧
      ∃ n, 5 ≤ n ∧ n ≤ s.queue.log.length ∧
        Log.store (s.queue.log.take n) (.record (.dead steps.queueName "b")) = none := by
  obtain ⟨s, hs, hphase, hrem, hkept, hdead⟩ :
      ∃ s, (machine smallSettings steps).run {} lateDeath = some s ∧
      s.loop.phase.skippedAt = some 5 ∧ s.loop.reconciledAt.map (·.readAt) = some 3 ∧
      (∀ c ∈ s.queue.log.drop 3, c.label.call.revives = none ∧ c.label.call.sweepsDead = none) ∧
      nightlyDead s = true :=
    Machine.exists_of_run_any (by decide +kernel)
  have hreach := Machine.reachable_of_run hs rfl
  have hskipping : s.loop.phase = .skipping 5 := by
    unfold Phase.skippedAt at hphase
    split at hphase
    · rename_i readAt hp
      rw [hp, Option.some.inj hphase]
    · cases hphase
  obtain ⟨job, hf, hnamed⟩ := found_of_nightlyDead hdead
  refine ⟨s, hs, ⟨job, hf, hnamed⟩, ?_⟩
  refine reconciliation_skips_no_death hreach hskipping (fun r hr c hc => ?_) "b" job hf hnamed
  rw [hr] at hrem
  rw [show r.readAt = 3 from Option.some.inj hrem] at hc
  obtain ⟨hrev, hsweep⟩ := hkept c hc
  exact ⟨hrev, fun id => by simp [hsweep]⟩

end Taquba.Workflow.Reconcile
