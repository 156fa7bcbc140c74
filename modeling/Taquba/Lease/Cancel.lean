import Taquba.Lease.Flags

/-! # Cancels

A cancel removes a waiting job or flags a claimed one in a transaction, which it repeats
after a conflict. Then it fires the token of the lease that the job has at that time,
and returns. Other calls of the process run between these steps. The request follows
the job: the flag stays on its record, and every claim of the job has a fired token.
-/

namespace Taquba.Cancel

open Snapshot Transition
open Queue (Renewed Enqueued)

variable {κ β : Type}

/-- How far a cancel is. `point` is the number of commits after which its transaction
took effect, and `ended` that at its return. -/
inductive Phase where
  | ready
  | begun (snap : ℕ)
  | staged (staged : StagedCancel) (point : ℕ)
  | returned (outcome : CancelOutcome) (point ended : ℕ)
  | failed
  deriving DecidableEq

structure Cancelling (κ β : Type) where
  id : String
  effects : PreparedEffects κ β
  phase : Phase := .ready

structure State (κ β : Type) where
  delivery : Delivery.State κ β
  cancels : List (Cancelling κ β) := []

inductive Label (κ β : Type) where
  | call (id : String) (effects : PreparedEffects κ β)
  | begin (i : ℕ)
  | finish (i : ℕ) (leases : Leases)
  | fire (i : ℕ)
  | other (label : Delivery.Label κ β)

def State.set (s : State κ β) (i : ℕ) (c : Cancelling κ β) : State κ β :=
  { s with cancels := s.cancels.set i c }

/-- Fire the token of the lease of the cancelled job, if the job has a lease. -/
def finishCancel (s : Delivery.State κ β) : StagedCancel → Delivery.State κ β
  | .removed job | .requested job | .alreadyRequested job =>
    (Delivery.leaseStep s (.cancel job.queue job.id)).getD s
  | .notFound => s

variable [DecidableEq κ] [DecidableEq β]
variable {a : Delivery.Label κ β} {leases : Leases} {t : Txn κ β}

def finish (s : State κ β) (i : ℕ) (c : Cancelling κ β) (snap : ℕ) (leases : Leases) :
    Option (State κ β) :=
  match (Txn.begin (Log.store (s.delivery.log.take snap))).cancel leases c.id c.effects with
  | .error _ => some (s.set i { c with phase := .failed })
  | .ok (_, .abort (staged, _)) => some (s.set i { c with phase := .staged staged snap })
  | .ok (t, .commit (staged, _)) =>
    if s.delivery.log.Conflicts snap t.tracked then some (s.set i { c with phase := .ready })
    else
      (Delivery.step s.delivery (.call (.cancel leases c.id c.effects) snap)).map fun delivery =>
        { s with delivery }.set i { c with phase := .staged staged delivery.log.length }

def step (s : State κ β) : Label κ β → Option (State κ β)
  | .call id effects => some { s with cancels := s.cancels ++ [{ id, effects }] }
  | .begin i =>
    match s.cancels[i]? with
    | some c =>
      match c.phase with
      | .ready => some (s.set i { c with phase := .begun s.delivery.log.length })
      | _ => none
    | none => none
  | .finish i leases =>
    match s.cancels[i]? with
    | some c =>
      match c.phase with
      | .begun snap => finish s i c snap leases
      | _ => none
    | none => none
  | .fire i =>
    match s.cancels[i]? with
    | some c =>
      match c.phase with
      | .staged staged point =>
        some ({ s with delivery := finishCancel s.delivery staged }.set i { c with
          phase := .returned staged.outcome point s.delivery.log.length })
      | _ => none
    | none => none
  | .other label => (Delivery.step s.delivery label).map fun delivery => { s with delivery }

def machine (κ β : Type) [DecidableEq κ] [DecidableEq β] : Machine (State κ β) (Label κ β) where
  init s := ∃ delivery, (Delivery.machine κ β).init delivery ∧ s = { delivery }
  step := step

/-- Jobs are claimed by scans, and no lease comes due before its claim commits. -/
def Timely (s : State κ β) : Label κ β → Prop
  | .other label => Delivery.Timely s.delivery label
  | .call _ _ | .begin _ | .finish _ _ | .fire _ => True

section Decided

variable {log log' : History κ β} {id : String} {point m : ℕ} {staged : StagedCancel}

omit [DecidableEq β] in
def Decided (log : History κ β) (id : String) (point : ℕ) : StagedCancel → Prop
  | .requested job | .alreadyRequested job =>
    job.id = id ∧ (lifeAt (Log.store (log.take point)) id).Flagged job.queue
  | .removed _ =>
    (lifeAt (Log.store (log.take point)) id).record = none ∨ ∃ k, k + 1 = point ∧ Enqueued log k id
  | .notFound => True

omit [DecidableEq κ] [DecidableEq β] in
theorem take_of_take (h : log'.take log.length = log) (hm : m ≤ log.length) :
    log'.take m = log.take m := by
  have ht : (log'.take log.length).take m = log'.take m := by
    rw [List.take_take, Nat.min_eq_left hm]
  rw [← ht, h]

omit [DecidableEq κ] [DecidableEq β] in
theorem at_of_take {P : History κ β → CallCommit κ β → Prop}
    (h : log'.take log.length = log) (hm : log.At P m) : log'.At P m := by
  rw [← h] at hm
  exact (Log.at_take.mp hm).2

omit [DecidableEq β] in
theorem Decided.mono (hd : Decided log id point staged) (h : log'.take log.length = log)
    (hp : point ≤ log.length) : Decided log' id point staged := by
  cases staged with
  | requested job | alreadyRequested job =>
    refine ⟨hd.1, ?_⟩
    rw [take_of_take h hp]
    exact hd.2
  | removed job =>
    rcases hd with hd | ⟨k, hk, he⟩
    · exact .inl (by rwa [take_of_take h hp])
    · exact .inr ⟨k, hk, at_of_take h he⟩
  | notFound => trivial

omit [DecidableEq β] in
theorem alreadyRequested_of_stageCancel {t' : Txn κ β} {job : JobRecord}
    (h : t.stageCancel id = .ok (t', .alreadyRequested job)) :
    ∃ key, t.getIndexedJob id = some (key, job) ∧ job.cancelRequested = true := by
  unfold Txn.stageCancel at h
  split at h
  · cases h
  · rename_i key found hj
    split at h
    · cases h
    · cases h
    · split_ifs at h with hflag
      · cases h
        exact ⟨key, hj, hflag⟩
      · obtain ⟨r, -, h⟩ := Except.bind_eq_ok.mp h
        cases h
    · cases h
    · cases h

theorem decided_of_abort {snap : ℕ} {effects : PreparedEffects κ β}
    {results : Option (List EnqueueResult)} (hs : log.Sound)
    (h : (Txn.begin (Log.store (log.take snap))).cancel leases id effects =
      .ok (t, .abort (staged, results))) : Decided log id snap staged := by
  obtain ⟨⟨t₁, staged'⟩, h₁, h⟩ := Except.bind_eq_ok.mp h
  cases staged' with
  | removed job =>
    obtain ⟨r, -, h⟩ := Except.bind_eq_ok.mp h
    cases h
  | requested job => cases h
  | notFound =>
    cases h
    trivial
  | alreadyRequested job =>
    cases h
    have hi := (hs.take snap).storeInv
    obtain ⟨key, hj, hflag⟩ := alreadyRequested_of_stageCancel h₁
    obtain ⟨hkey, -, hid⟩ := Txn.getIndexedJob_spec (t := Txn.begin _) hi hj
    have hjid : job.id = id := (JobRecord.id_of_storedKey hkey).symm.trans hid
    have hlife := lifeAt_of_found hi (Txn.found_of_getIndexedJob hj).2
    rw [hjid] at hlife
    exact ⟨hjid, _, hlife, hflag, rfl⟩

/-- A cancel that commits leaves what it reports. -/
theorem decided_of_commit {snap : ℕ} {effects : PreparedEffects κ β}
    {results : Option (List EnqueueResult)} {c : CallCommit κ β} (hs : log.Sound)
    (hs' : History.Sound (log ++ [c]))
    (hf : Txn.FreshIds (Log.store (log.take snap)) effects.preparedJobs)
    (h : (Txn.begin (Log.store (log.take snap))).cancel leases id effects =
      .ok (t, .commit (staged, results))) (hc : ¬ log.Conflicts snap t.tracked)
    (hw : c.writes = t.writes) (hn : c.label.notes = t.notes) :
    Decided (log ++ [c]) id (log ++ [c]).length staged := by
  have hi := (hs.take snap).storeInv
  obtain ⟨fs, hstages, -, ⟨job, rfl⟩ | ⟨⟨job, rfl⟩, h₁⟩⟩ :=
    Txn.stages_cancel (t := Txn.begin _) hi hf h
  · obtain ⟨hnotes, hrun⟩ := Queue.run_of_stages hs hstages hc
    have hid := hrun id
    have hevents : eventsOf id ((StagedCancel.removed job).events id ++ fs) =
        .remove :: eventsOf id fs := by
      simp [eventsOf, StagedCancel.events]
    rw [hevents] at hid
    obtain ⟨life, hstep, hid⟩ := Option.bind_eq_some_iff.mp hid
    have hlife : life.record = none := by
      obtain ⟨_, ⟨⟩, -⟩ | ⟨-, -, rfl⟩ | ⟨old, -, ha, -⟩ := Life.step_cases hstep
      · rfl
      · exact ha.elim
    rcases Life.run_absent hid hlife with hnone | ⟨new, hnew⟩
    · left
      rw [List.take_length, Log.store_append_singleton, hw]
      exact hnone
    · refine .inr ⟨log.length, by simp, Log.at_append_singleton.mpr (.inr ⟨rfl, ?_⟩)⟩
      rw [hn, hnotes]
      refine List.mem_filterMap.mpr ⟨(id, .enqueue new), ?_, rfl⟩
      exact List.mem_append_right _ (mem_eventsOf.mp hnew)
  · obtain ⟨-, hcase⟩ | ⟨key, old, hj, hcase⟩ := Txn.stageCancel_eq_ok h₁
    · rcases hcase with h | ⟨_, h⟩ <;> cases h
    obtain ⟨-, h, -⟩ | ⟨hst, job', h, hm⟩ := hcase
    · cases h
    cases h
    obtain ⟨hkey, hstatus, hid⟩ := Txn.getIndexedJob_spec (t := Txn.begin _) hi hj
    have hjid : old.id = id := (JobRecord.id_of_storedKey hkey).symm.trans hid
    obtain ⟨hjob, key', hkey', -, -, hcase⟩ := Txn.moveJob_eq_ok hm
    obtain ⟨hid', hflag, hqueue, hclaimed⟩ :
        job.id = id ∧ job.cancelRequested = true ∧ job.queue = old.queue ∧
        job.status = .claimed := by
      simp [hjob, hjid, hst]
    have hsame : key = key' := by
      rw [JobRecord.storedKey, hst] at hkey
      rw [JobRecord.storedKey, hclaimed, hqueue, hid', ← hjid] at hkey'
      exact Option.some.inj (hkey.symm.trans hkey')
    obtain ⟨-, hws, -⟩ | ⟨hne, -⟩ := hcase
    · have hrecord : Log.store (log ++ [c]) (.record key') = some job.stored := by
        rw [Log.store_append_singleton, hw, hws]
        exact Store.write_self ..
      have hf : JobAction.Found (Log.store (log ++ [c])) key' _ := .of_record hrecord
      have hlife := lifeAt_of_found hs'.storeInv hf
      change (lifeAt (Log.store (log ++ [c])) job.id).record = _ at hlife
      rw [hid'] at hlife
      refine ⟨hid', (JobRecord.decode key' job.stored).bare, ?_, hflag, rfl⟩
      rw [List.take_length]
      exact hlife
    · exact absurd hsame hne

end Decided

section Invariant

variable {s s' : State κ β} {d d' : Delivery.State κ β} {c : Cancelling κ β}

/-- The claim that the job has when the cancel returns has a fired token, unless the job
was renewed before. -/
def Fires (d : Delivery.State κ β) (id : String) (point ended : ℕ) : Prop :=
  ∀ queue p, d.log.live d.opened ended queue id = some p →
    (∃ k, point ≤ k ∧ k < ended ∧ Renewed d.log k id) ∨ Delivery.Fired d (queue, id) p.2

/-- What a cancel in flight or returned knows. -/
def Answers (d : Delivery.State κ β) (c : Cancelling κ β) : Prop :=
  match c.phase with
  | .ready | .failed => True
  | .begun snap => d.opened ≤ snap ∧ snap ≤ d.log.length
  | .staged staged point =>
    d.opened ≤ point ∧ point ≤ d.log.length ∧ Decided d.log c.id point staged
  | .returned outcome point ended =>
    d.opened ≤ point ∧ point ≤ ended ∧ ended ≤ d.log.length ∧
      ∃ staged : StagedCancel, Decided d.log c.id point staged ∧ staged.outcome = outcome ∧
        (outcome = .requested → Fires d c.id point ended)

theorem Fires.step {id : String} {point ended : ℕ} (hf : Fires d id point ended)
    (hb : Delivery.Base d) (he : ended ≤ d.log.length) (h : Delivery.step d a = some d') :
    Fires d' id point ended := by
  obtain ⟨hopened, hlog⟩ := Delivery.log_step h
  intro queue p hp
  rw [hopened, History.live, take_of_take hlog he, ← History.live] at hp
  rcases hf queue p hp with ⟨k, hk, hke, hr⟩ | hfired
  · exact .inl ⟨k, hk, hke, at_of_take hlog hr⟩
  · obtain ⟨m, e, hm, -, he, hmem, -⟩ := History.Process.live_spec hp
    exact .inr (hfired.step (Delivery.tokenFrame_step h) (hb.used_of_claims hm he hmem))

theorem Answers.step (ha : Answers d c) (hb : Delivery.Base d) (h : Delivery.step d a = some d') :
    Answers d' c := by
  obtain ⟨hopened, hlog⟩ := Delivery.log_step h
  have hlen : d.log.length ≤ d'.log.length := by
    rw [← hlog, List.length_take]
    exact Nat.min_le_right ..
  unfold Answers at ha ⊢
  rw [hopened]
  split
  · trivial
  · trivial
  · simp_all
    omega
  · rename_i hphase
    rw [hphase] at ha
    obtain ⟨ho, hp, hd⟩ := ha
    exact ⟨ho, hp.trans hlen, hd.mono hlog hp⟩
  · rename_i hphase
    rw [hphase] at ha
    obtain ⟨ho, hp, he, staged, hd, hout, hf⟩ := ha
    refine ⟨ho, hp, he.trans hlen, staged, hd.mono hlog (hp.trans he), hout, fun hr => ?_⟩
    exact (hf hr).step hb he h

/-- The process keeps its invariants, and so do the cancels. -/
structure Inv (s : State κ β) : Prop where
  settled : Delivery.Settled s.delivery
  answers : ∀ c ∈ s.cancels, Answers s.delivery c

theorem Inv.set (hi : Inv s) (i : ℕ) (hc : Answers s.delivery c) : Inv (s.set i c) := by
  refine ⟨hi.settled, fun c' hc' => ?_⟩
  rcases List.mem_or_eq_of_mem_set hc' with hc' | rfl
  · exact hi.answers c' hc'
  · exact hc

theorem Inv.delivery (hi : Inv s) (ht : Delivery.Timely s.delivery a)
    (h : Delivery.step s.delivery a = some d) : Inv { s with delivery := d } :=
  ⟨Delivery.settled_step hi.settled ht h, fun c hc =>
    (hi.answers c hc).step hi.settled.inv.base h⟩

omit [DecidableEq κ] [DecidableEq β] in
theorem finishCancel_cases (d : Delivery.State κ β) (staged : StagedCancel) :
    finishCancel d staged = d ∨
      ∃ queue id, Delivery.leaseStep d (.cancel queue id) = some (finishCancel d staged) := by
  cases staged with
  | notFound => exact .inl rfl
  | removed job | requested job | alreadyRequested job =>
    cases h : Delivery.leaseStep d (.cancel job.queue job.id) with
    | none => exact .inl (by simp [finishCancel, h])
    | some d' =>
      refine .inr ⟨job.queue, job.id, h.trans ?_⟩
      simp [finishCancel, h]

theorem fires_finishCancel {id : String} {point : ℕ} {staged : StagedCancel}
    (hs : Delivery.Settled d) (ho : d.opened ≤ point) (hp : point ≤ d.log.length)
    (hd : Decided d.log id point staged) (hout : staged.outcome = .requested) :
    Fires (finishCancel d staged) id point d.log.length := by
  obtain ⟨job, hdecided, hfinish⟩ : ∃ job : JobRecord,
      (job.id = id ∧ (lifeAt (Log.store (d.log.take point)) id).Flagged job.queue) ∧
        finishCancel d staged = (Delivery.leaseStep d (.cancel job.queue job.id)).getD d := by
    cases staged with
    | requested job | alreadyRequested job => exact ⟨job, hd, rfl⟩
    | removed | notFound => cases hout
  obtain ⟨rfl, hflagged⟩ := hdecided
  intro queue p hlive
  have hb := hs.inv.base
  have hframe :
      (finishCancel d staged).log = d.log ∧ (finishCancel d staged).opened = d.opened := by
    obtain h | ⟨queue, id, h⟩ := finishCancel_cases d staged
    · rw [h]
      exact ⟨rfl, rfl⟩
    · have hframe := Delivery.leaseStep_spec h
      exact ⟨hframe.log, hframe.opened⟩
  rw [hframe.1, hframe.2] at hlive
  rw [hframe.1]
  have hlives : ∀ n c, point ≤ n → d.log[n]? = some c → Queue.Relives (d.log.take n) c :=
    fun n c hn hc => (hs.flags.follows n c (ho.trans hn) hc).1
  rcases Queue.flagged_since hlives hflagged hp le_rfl with hflag | hr
  · right
    rw [List.take_length] at hflag
    obtain ⟨stored, hstored⟩ : ∃ stored,
        d.log.store (.record (.claimed queue job.id)) = some stored := by
      have hr : Recorded queue job.id ((d.log.live d.opened d.log.length queue job.id).map Prod.fst)
        _ := hb.process.recorded
      rw [hlive] at hr
      obtain ⟨-, v, hv, -⟩ := hr
      exact ⟨v, hv⟩
    have hi := hb.process.sound.storeInv
    have hf : JobAction.Found d.log.store (.claimed queue job.id) _ := .of_record hstored
    obtain ⟨hqueue, hid, -⟩ := hi.claimed_spec hf
    have hlife := lifeAt_of_found hi hf
    rw [hid] at hlife
    obtain ⟨old, hold, -, hq⟩ := hflag
    obtain rfl := Option.some.inj (hlife.symm.trans hold)
    have hjq : job.queue = queue := hq.symm.trans hqueue
    obtain ⟨cancel, e, hheld, hgranted⟩ := hs.inv.leased.live (queue, job.id) p.1 p.2 hlive
    have htoken : d.registry.token queue job.id = some cancel := by
      obtain ⟨lease, hl, he⟩ := Option.map_eq_some_iff.mp hheld
      simp only [Prod.mk.injEq] at he
      simp [LeaseRegistry.token, hl, he.2.2]
    rw [hfinish, hjq, Delivery.leaseStep, htoken]
    exact ⟨e, cancel, hgranted, by simp⟩
  · exact .inl hr

theorem inv_finish {i snap : ℕ} (hi : Inv s) (hc : c ∈ s.cancels) (hphase : c.phase = .begun snap)
    (h : finish s i c snap leases = some s') : Inv s' := by
  have hsound := hi.settled.inv.base.process.sound
  have hbegun := hi.answers c hc
  rw [Answers, hphase] at hbegun
  unfold finish at h
  split at h
  · cases h
    exact hi.set i trivial
  · rename_i hbody
    cases h
    exact hi.set i ⟨hbegun.1, hbegun.2, decided_of_abort hsound hbody⟩
  · rename_i t staged results hbody
    split_ifs at h with hconf
    · cases h
      exact hi.set i trivial
    · obtain ⟨delivery, hstep, rfl⟩ := Option.map_eq_some_iff.mp h
      have hi' : Inv { s with delivery } :=
        hi.delivery (a := .call (.cancel leases c.id c.effects) snap) ⟨trivial, trivial⟩ hstep
      have hsound' := hi'.settled.inv.base.process.sound
      refine hi'.set i ⟨hi'.settled.inv.base.process.opened_le, le_rfl, ?_⟩
      obtain ⟨-, -, -, hgiven, log, hlog, rfl⟩ := Delivery.callStep_spec hstep
      obtain ⟨t', jobs, ht, -, rfl⟩ := commitCall_eq_some hlog
      obtain ⟨value, hv, -⟩ := Call.committing_eq_some ht
      rw [hbody] at hv
      cases hv
      exact decided_of_commit hsound hsound' hgiven hbody hconf rfl rfl

theorem inv_fire {i point : ℕ} {staged : StagedCancel} (hi : Inv s) (hc : c ∈ s.cancels)
    (hphase : c.phase = .staged staged point) :
    Inv ({ s with delivery := finishCancel s.delivery staged }.set i { c with
      phase := .returned staged.outcome point s.delivery.log.length }) := by
  have hstaged := hi.answers c hc
  rw [Answers, hphase] at hstaged
  obtain ⟨ho, hp, hd⟩ := hstaged
  have hfires := fun hout => fires_finishCancel hi.settled ho hp hd hout
  obtain hsame | ⟨queue, id, hstep⟩ := finishCancel_cases s.delivery staged
  · rw [hsame] at hfires ⊢
    exact hi.set i ⟨ho, hp, le_rfl, staged, hd, rfl, hfires⟩
  · have hi' := hi.delivery (a := .lease (.cancel queue id)) ⟨trivial, trivial⟩ hstep
    have hframe := Delivery.leaseStep_spec hstep
    refine hi'.set i ⟨hframe.opened ▸ ho, hp, ?_, staged, ?_, rfl, hfires⟩
    · simp [hframe.log]
    · simpa only [hframe.log] using hd

theorem inv_step {l : Label κ β} (hi : Inv s) (ht : Timely s l) (h : step s l = some s') :
    Inv s' := by
  cases l with
  | call id effects =>
    cases h
    refine ⟨hi.settled, fun c hc => ?_⟩
    rcases List.mem_append.mp hc with hc | hc
    · exact hi.answers c hc
    · obtain rfl := List.mem_singleton.mp hc
      trivial
  | begin i =>
    simp only [step] at h
    split at h
    · split at h
      · cases h
        exact hi.set i ⟨hi.settled.inv.base.process.opened_le, le_rfl⟩
      · cases h
    · cases h
  | finish i leases =>
    simp only [step] at h
    split at h
    · rename_i c hc
      split at h
      · rename_i snap hphase
        exact inv_finish hi (List.mem_of_getElem? hc) hphase h
      · cases h
    · cases h
  | fire i =>
    simp only [step] at h
    split at h
    · rename_i c hc
      split at h
      · rename_i staged point hphase
        cases h
        exact inv_fire hi (List.mem_of_getElem? hc) hphase
      · cases h
    · cases h
  | other a =>
    obtain ⟨delivery, hstep, rfl⟩ := Option.map_eq_some_iff.mp h
    exact hi.delivery ht hstep

theorem inv_reachable (h : (machine κ β).ReachableVia Timely s) : Inv s := by
  refine h.invariant ?_ fun s l s' hi ht hstep => inv_step hi ht hstep
  rintro _ ⟨delivery, hinit, rfl⟩
  exact ⟨Delivery.settled_init hinit, by simp⟩

end Invariant

section Runs

variable {s : State κ β} {c : Cancelling κ β} {outcome : CancelOutcome} {point ended : ℕ}

/-- The claims of a job since the return of a cancel that requested its cancellation have
fired tokens. -/
theorem Inv.fired (hi : Inv s) (ho : s.delivery.opened ≤ point) (hp : point ≤ ended)
    {queue₀ : QueueName}
    (hd : (lifeAt (Log.store (s.delivery.log.take point)) c.id).Flagged queue₀)
    (hf : Fires s.delivery c.id point ended) {m : ℕ} (hm : ended ≤ m)
    (hle : m ≤ s.delivery.log.length)
    (hnot : ∀ k, point ≤ k → k < m → ¬ Renewed s.delivery.log k c.id) {queue : QueueName}
    {p : JobRecord × ℕ} (hlive : s.delivery.log.live s.delivery.opened m queue c.id = some p) :
    Delivery.Fired s.delivery (queue, c.id) p.2 := by
  have hflags := hi.settled.flags
  obtain ⟨k, e, hk, hkm, he, hmem, href, hsince⟩ := History.Process.live_spec hlive
  rcases Nat.lt_or_ge k point with hlt | hge
  · rcases hf queue p (hsince ended (by omega) hm) with ⟨n, hn, hne, hr⟩ | hfired
    · exact absurd hr (hnot n hn (by omega))
    · exact hfired
  · have hlives : ∀ n c, point ≤ n → s.delivery.log[n]? = some c →
        Queue.Relives (s.delivery.log.take n) c :=
      fun n c hn hc => (hflags.follows n c (ho.trans hn) hc).1
    rcases Queue.flagged_since hlives hd hge (by omega) with hflag | ⟨n, hn, hnk, hr⟩
    · obtain ⟨old, hold, hsame⟩ := (hflags.follows k e hk he).2 p hmem
      obtain ⟨job, hjob, hreq, -⟩ := hflag
      rw [(Prod.mk.inj href).2, hjob] at hold
      cases hold
      rw [← href]
      exact hflags.delivered k e hk he p hmem (hsame.symm.trans hreq)
    · exact absurd hr (hnot n hn (by omega))

/-- After a cancel returned `requested`, and until the job is revived or removed, its
record keeps the flag and its claims have fired tokens, so that no renewal succeeds.
After a cancel returned `removed`, only a job enqueued anew is claimed under the id. -/
theorem cancel_follows_job (h : (machine κ β).ReachableVia Timely s) (hc : c ∈ s.cancels)
    (hphase : c.phase = .returned outcome point ended) :
    point ≤ ended ∧ ended ≤ s.delivery.log.length ∧
    (outcome = .requested → ∀ m, point ≤ m → m ≤ s.delivery.log.length →
      (∀ k, point ≤ k → k < m → ¬ Renewed s.delivery.log k c.id) →
      (∃ key job, JobAction.Found (Log.store (s.delivery.log.take m)) key job ∧ job.id = c.id ∧
        job.cancelRequested = true) ∧
      (ended ≤ m → ∀ queue job claimId,
        s.delivery.log.live s.delivery.opened m queue c.id = some (job, claimId) →
        ∃ expiresAt token, s.delivery.granted ((queue, c.id), claimId) = some (expiresAt, token) ∧
          s.delivery.fired token = true ∧ ∀ expiry mode, ∃ error, s.delivery.registry.renew queue
            c.id claimId (s.delivery.fired token) expiry mode = .error error)) ∧
    (outcome = .removed → ∀ k d, point ≤ k → s.delivery.log[k]? = some d →
      ∀ p ∈ d.label.claims, p.1.id = c.id →
        ∃ n, point ≤ n + 1 ∧ n < k ∧ Enqueued s.delivery.log n c.id) := by
  have hi := inv_reachable h
  have ha := hi.answers c hc
  rw [Answers, hphase] at ha
  obtain ⟨ho, hp, he, staged, hd, rfl, hf⟩ := ha
  have hlives : ∀ n c, point ≤ n → s.delivery.log[n]? = some c →
      Queue.Relives (s.delivery.log.take n) c :=
    fun n c hn hc => (hi.settled.flags.follows n c (ho.trans hn) hc).1
  refine ⟨hp, he, fun hout m hm hle hnot => ?_, fun hout k d hk hd' p hmem hid => ?_⟩
  · obtain ⟨queue₀, hflagged⟩ : ∃ queue₀,
        (lifeAt (Log.store (s.delivery.log.take point)) c.id).Flagged queue₀ := by
      cases staged with
      | requested job | alreadyRequested job => exact ⟨_, hd.2⟩
      | removed | notFound => cases hout
    constructor
    · rcases Queue.flagged_since hlives hflagged hm hle with
        ⟨job, hjob, hflag, -⟩ | ⟨k, hk, hkm, hr⟩
      · have hsi := (hi.settled.inv.base.process.sound.take m).storeInv
        obtain ⟨key, old, hfound, hid, rfl⟩ := found_of_lifeAt hsi hjob
        exact ⟨key, old, hfound, hid, hflag⟩
      · exact absurd hr (hnot k hk hkm)
    · intro hem queue job claimId hlive
      obtain ⟨e, token, hgranted, hfired⟩ :=
        hi.fired ho hp hflagged (hf hout) hem hle hnot hlive
      refine ⟨e, token, hgranted, hfired, fun expiry mode => ?_⟩
      rw [LeaseRegistry.renew, hfired]
      split
      · exact ⟨_, rfl⟩
      · exact ⟨_, rfl⟩
  · have hle := Nat.le_of_lt (List.getElem?_eq_some_iff.mp hd').1
    obtain ⟨old, hold, -⟩ := (hi.settled.flags.follows k d (ho.trans hk) hd').2 p hmem
    rw [hid] at hold
    cases staged with
    | requested | alreadyRequested | notFound => cases hout
    | removed job =>
      rcases hd with hnone | ⟨n, rfl, hn⟩
      · rcases Queue.absent_since hlives hnone hk hle with hnone | ⟨n, hn, hnk, hq⟩
        · rw [hnone] at hold
          cases hold
        · exact ⟨n, by omega, hnk, hq⟩
      · exact ⟨n, le_rfl, by omega, hn⟩

/-- The claim of a job is nacked and the job is claimed again while a cancel of the job,
which committed before, has still to fire the token. -/
def cancelledRetry : List (Label ℕ ℕ) :=
  Delivery.scannedClaim.map .other ++
    [.call "a" {}, .begin 0, .finish 0 fun _ _ => none] ++
    [.ending 0 (.begin (.settle (.nack "failed" fun _ => none) {}) Queue.emails "a" 1),
      .ending 0 .check,
      .ending 0 (.commit (fun _ _ => none) 0), .ending 0 .finish,
      .claim (.scan Queue.emails) .begin,
      .claim (.scan Queue.emails) (.stage [⟨0, 5, "a"⟩] 30),
      .claim (.scan Queue.emails) (.register 2),
      .claim (.scan Queue.emails) .commit].map .other ++
    [.fire 0]

theorem cancel_follows_retried_job :
    ∃ s, (machine ℕ ℕ).ReachableVia Timely s ∧ ∃ job claimId,
      s.delivery.live (Queue.emails, "a") = some (job, claimId) ∧
      ∃ expiresAt token,
        s.delivery.granted ((Queue.emails, "a"), claimId) = some (expiresAt, token) ∧
        s.delivery.fired token = true := by
  have hrun : ∃ s, (machine ℕ ℕ).run { delivery := { log := [], opened := 0 } } cancelledRetry =
      some s ∧ s.delivery.log.length = 5 ∧
      s.cancels.map (fun c => (c.id, c.phase)) = [("a", .returned .requested 3 5)] ∧
      (∀ k ∈ [3, 4], ¬ Renewed s.delivery.log k "a") ∧
      (s.delivery.live (Queue.emails, "a")).isSome = true :=
    Machine.exists_of_run_any (by decide +kernel)
  obtain ⟨s, hs, hlen, hcancels, hnot, hlive⟩ := hrun
  obtain ⟨⟨job, claimId⟩, hlive⟩ := Option.isSome_iff_exists.mp hlive
  have hreach : (machine ℕ ℕ).ReachableVia Timely s := by
    refine Machine.ReachableVia.run (.init ⟨_, Delivery.init_empty, rfl⟩) hs ?_
    simp [cancelledRetry, Delivery.scannedClaim, Timely, Delivery.Timely, Delivery.ScanOnly,
      Delivery.Undue]
  obtain ⟨c, hc, hpair⟩ : ∃ c ∈ s.cancels, (c.id, c.phase) = ("a", .returned .requested 3 5) :=
    List.mem_map.mp (hcancels ▸ List.mem_singleton_self _)
  obtain ⟨hid, hphase⟩ := Prod.mk.inj hpair
  obtain ⟨-, -, hrequested, -⟩ := cancel_follows_job hreach hc hphase
  rw [hid] at hrequested
  obtain ⟨-, hclaims⟩ := hrequested rfl 5 (by decide) (by omega) fun k hk hlt =>
    hnot k (by simp; omega)
  rw [← hlen] at hclaims
  obtain ⟨e, token, hgranted, hfired, -⟩ := hclaims (by omega) _ job claimId hlive
  exact ⟨s, hreach, job, claimId, hlive, e, token, hgranted, hfired⟩

end Runs

end Taquba.Cancel
