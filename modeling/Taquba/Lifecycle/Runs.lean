import Taquba.Lifecycle.Calls
import Taquba.Lifecycle.Invariants

/-! # What holds of the jobs of every run

The invariants of the lifecycle, for the records and the histories of a reachable
store: the fields that a record has in each state, and the signals that a job
receives.
-/

namespace Taquba

open Snapshot Transition

variable {κ β : Type} [DecidableEq κ]

theorem Call.Makes.delivers {call : Call κ β} {s : Store (Val κ β)} {id : String}
    {payload : List UInt8} (h : call.Makes s id (.wake (some payload))) :
    call.delivers s = some (id, payload) := by
  cases h.made with
  | effect h => exact h.elim
  | wake hd => exact hd
  | @ended _ claimEnd _ h =>
    match claimEnd with
    | .done true | .done false | .retry _ _ _ | .dead _ => cases h

theorem Call.Makes.of_delivers {call : Call κ β} {s : Store (Val κ β)} {id i : String}
    {payload : List UInt8} {event : JobEvent} (hd : call.delivers s = some (i, payload))
    (h : call.Makes s id event) : id = i ∧ event = .wake (some payload) := by
  cases call with
  | signal j p =>
    obtain ⟨q, hq, rfl⟩ := h
    cases hd.symm.trans hq
    exact ⟨rfl, rfl⟩
  | applySignal queue entryId appliedAt j p =>
    obtain ⟨q, hq, rfl⟩ := h
    cases hd.symm.trans hq
    exact ⟨rfl, rfl⟩
  | _ => cases hd

def Call.revived : Call κ β → Option String
  | .requeueDeadJob id _ => some id
  | _ => none

theorem Call.Lives.revived {call : Call κ β} {s : Store (Val κ β)} {id : String} {now : ℕ}
    {es : List (String × JobEvent)} (h : call.Lives s es) (hm : .revive now ∈ eventsOf id es) :
    call.revived = some id := by
  cases (h.makes _ (mem_eventsOf.mp hm)).made with
  | effect h => exact h.elim
  | revive hcall => rw [hcall, Call.revived]
  | @ended _ claimEnd _ h =>
    match claimEnd with
    | .done true | .done false | .retry _ _ _ | .dead _ => cases h

def Call.claimsScheduled (s : Store (Val κ β)) : Call κ β → Bool
  | .claimById id _ _ =>
    ((Txn.begin s).getIndexedJob id).any fun found => found.2.status = .scheduled
  | _ => false

theorem Call.Makes.claimsPending {call : Call κ β} {s : Store (Val κ β)} {id : String}
    {event : JobEvent} (h : call.Makes s id event) (hc : call.claimsScheduled s = false) :
    event.ClaimsPending := by
  cases h.made with
  | effect h =>
    cases event with
    | claim => exact h.elim
    | _ => trivial
  | claim => rintro ⟨⟩
  | claimById hcall hj =>
    intro hst
    simp [hcall, claimsScheduled, hj, hst] at hc
  | @ended _ claimEnd _ h =>
    subst h
    cases claimEnd with
    | done keep => cases keep <;> trivial
    | retry | dead => trivial
  | _ => trivial

namespace Queue

variable [DecidableEq β] {s : State κ β}

section WellFormed

def ByIdPending (s : State κ β) : Label κ β → Prop
  | .commit call snap => call.claimsScheduled (Log.store (s.log.take snap)) = false
  | .requeue _ | .reopen _ _ => True

instance (s : State κ β) : ∀ l : Label κ β, Decidable (ByIdPending s l)
  | .commit _ _ => inferInstanceAs (Decidable (_ = false))
  | .requeue _ | .reopen _ _ => inferInstanceAs (Decidable True)

/-- The commit did not claim a scheduled job by its id. -/
def ClaimedPending (log : History κ β) (c : CallCommit κ β) : Prop :=
  c.label.call.claimsScheduled (Log.store (log.take c.label.snap)) = false

theorem claimedPending_reachable (h : (machine κ β).ReachableVia ByIdPending s) :
    s.log.Lawful ClaimedPending := by
  refine lawful_reachableVia (fun s l call snap t delivered _ _ hC hlabel _ _ _ => ?_) h
  rcases hlabel with rfl | ⟨job, now, -, rfl⟩
  · exact hC
  · rfl

/-- Without claims by id of scheduled jobs, every stored record is well formed. -/
theorem records_wellFormed (h : (machine κ β).ReachableVia ByIdPending s) {key : RecordKey}
    {stored : JobRecord} (hs : s.log.store (.record key) = some stored) :
    (JobRecord.decode key stored).WellFormed := by
  have hreach : (machine κ β).Reachable s := h.mono fun _ _ _ => trivial
  have hpending := claimedPending_reachable h
  have hlife : Life.machine.ReachableVia (fun _ => JobEvent.ClaimsPending)
      (lifeAt s.log.store (JobRecord.decode key stored).id) := by
    refine reachableVia_lifeAt (relives_reachable hreach) fun n c event hn hm => ?_
    exact hm.claimsPending (hpending.get hn)
  have hf : JobAction.Found s.log.store key _ := .of_record hs
  have hrecord := lifeAt_of_found (inv_reachable hreach).sound.storeInv hf
  have hwf := Life.record_invariant (fun _ => Life.wellFormed_starts)
    (fun _ _ ho hd ha => Life.wellFormed_apply ho hd ha) hlife _ hrecord
  exact { hwf with }

def approval : PreparedJob where
  job := { JobRecord.newPending "b" emails [1] 3 0 5 with
    status := .scheduled, runAt := some 10, signalWait := true }

def earlyApproval : JobRecord :=
  { JobRecord.newPending "b" emails [1] 3 0 5 with
    status := .claimed, runAt := some 10, claimedAt := some 7, attempts := 1 }

def claimBeforeTime : List (Label ℕ ℕ) :=
  [.commit (.enqueue (fun _ _ => none) approval {}) 0, .commit (.claimById "b" 1 7) 1]

theorem claimed_record_keeps_run_at :
    ∃ s, (machine ℕ ℕ).Reachable s ∧ ∃ key stored, s.log.store (.record key) = some stored ∧
      ¬ (JobRecord.decode key stored).WellFormed := by
  obtain ⟨s, hs, hf⟩ : ∃ s, (machine ℕ ℕ).run {} claimBeforeTime = some s ∧
      JobAction.Found s.log.store (.claimed emails "b") earlyApproval :=
    Machine.exists_of_run_any (by decide +kernel)
  obtain ⟨stored, hstored, hd⟩ := Option.map_eq_some_iff.mp hf
  refine ⟨s, Machine.reachable_of_run hs rfl, _, stored, hstored, ?_⟩
  rw [hd]
  intro hw
  exact absurd (hw.runAt.mp (by decide)) (by decide)

/-- The job is enqueued for time 10, woken early, and then claimed by its id. -/
def claimAfterWake : List (Label ℕ ℕ) :=
  [.commit (.enqueue (fun _ _ => none) approval {}) 0, .commit (.wakeScheduled "b") 1,
    .commit (.claimById "b" 1 7) 2]

theorem records_wellFormed_after_wake :
    ∃ s, (machine ℕ ℕ).ReachableVia ByIdPending s ∧
      ∃ stored, s.log.store (.record (.claimed emails "b")) = some stored ∧
        (JobRecord.decode (.claimed emails "b") stored).WellFormed := by
  obtain ⟨s, hs, hf⟩ : ∃ s, (machine ℕ ℕ).runVia ByIdPending {} claimAfterWake = some s ∧
      JobAction.Found s.log.store (.claimed emails "b") { earlyApproval with runAt := none } :=
    Machine.exists_of_runVia_any (by decide +kernel)
  obtain ⟨stored, hstored, -⟩ := Option.map_eq_some_iff.mp hf
  have hreach : (machine ℕ ℕ).ReachableVia ByIdPending s :=
    Machine.ReachableVia.runVia (.init rfl) hs
  exact ⟨s, hreach, stored, hstored, records_wellFormed hreach hstored⟩

end WellFormed

section Signals

/-- The commit at the position enqueued the job. -/
def Enqueued (log : History κ β) (n : ℕ) (id : String) : Prop :=
  log.At (fun _ c => id ∈ c.label.notes.enqueued.map Prod.snd) n

/-- The call at the position reported that the job received the signal. -/
def Delivered (log : History κ β) (n : ℕ) (id : String) (payload : List UInt8) : Prop :=
  log.At (fun log c =>
    c.label.call.delivers (Log.store (log.take c.label.snap)) = some (id, payload)) n

variable {log : History κ β} {id : String}

/-- Every delivery of a signal to the job was followed by an enqueue with its id. -/
def Unsignalled (log : History κ β) (id : String) : Prop :=
  ∀ n payload, Delivered log n id payload → ∃ m, n < m ∧ Enqueued log m id

/-- The last enqueue of the job was followed by the delivery of this signal. -/
def Signalled (log : History κ β) (id : String) (payload : List UInt8) : Prop :=
  ∃ n, Delivered log n id payload ∧ ∀ m, n < m → ¬ Enqueued log m id

omit [DecidableEq κ] [DecidableEq β] in
theorem enqueue_mem_eventsOf {c : CallCommit κ β} {es : List (String × JobEvent)}
    (hn : c.label.notes.enqueued.map Prod.snd = enqueuedIds es) :
    id ∈ c.label.notes.enqueued.map Prod.snd ↔ ∃ new, .enqueue new ∈ eventsOf id es := by
  rw [hn]
  constructor
  · intro h
    obtain ⟨job, hj⟩ := mem_enqueuedIds h
    exact ⟨job, mem_eventsOf.mpr hj⟩
  · rintro ⟨new, hm⟩
    exact List.mem_filterMap.mpr ⟨_, mem_eventsOf.mp hm, rfl⟩

omit [DecidableEq β] in
theorem scheduled_since (h : log.Lawful Relives) {job : JobRecord}
    (hj : (lifeAt log.store id).record = some job) (hw : job.Waits) :
    ∃ n, Enqueued log n id ∧ ∀ m, n < m → m ≤ log.length →
      ∃ old, (lifeAt (Log.store (log.take m)) id).record = some old ∧ old.status = .scheduled := by
  induction h generalizing job with
  | nil => cases hj
  | @append log c h hc ih =>
    have hlife {log : History κ β} (h : log.Lawful Relives) :
        Life.machine.Reachable (lifeAt log.store id) :=
      reachableVia_lifeAt h fun _ _ _ _ _ => trivial
    have hst := (Life.waitsOnce_of_reachable (hlife (h.append hc)) job hj).scheduled hw
    have hnow : ∀ m, log.length < m → m ≤ (log ++ [c]).length →
        ∃ old, (lifeAt (Log.store ((log ++ [c]).take m)) id).record = some old ∧
          old.status = .scheduled := by
      intro m hm _
      rw [List.take_of_length_le (by simp; omega)]
      exact ⟨job, hj, hst⟩
    obtain ⟨es, -, hnotes, hrun⟩ := hc
    rcases Life.run_waits (hlife h) (hrun id) hj hw with hnil | henq
    · have hsame := hrun id
      rw [hnil] at hsame
      rw [← Option.some.inj hsame] at hj
      obtain ⟨n, hn, hsince⟩ := ih hj hw
      refine ⟨n, Log.at_append_singleton.mpr (.inl hn), fun m hm hle => ?_⟩
      rcases Nat.lt_or_ge log.length m with hlt | hge
      · exact hnow m hlt hle
      · rw [List.take_append_of_le_length hge]
        exact hsince m hm hge
    · refine ⟨log.length, Log.at_append_singleton.mpr (.inr ⟨rfl, ?_⟩), hnow⟩
      exact (enqueue_mem_eventsOf hnotes).mpr henq

omit [DecidableEq β] in
/-- The signal of a job's record is the one delivered since its enqueue. -/
theorem signal_of_record (h : log.Lawful Relives) {job : JobRecord}
    (hj : (lifeAt log.store id).record = some job) :
    (Unsignalled log id ∧ job.signal = none) ∨
      ∃ payload, Signalled log id payload ∧ job.signal = some payload := by
  induction h generalizing job with
  | nil => cases hj
  | @append log c h hc ih =>
    obtain ⟨es, hlives, hnotes, hrun⟩ := hc
    by_cases hd : ∃ payload,
        c.label.call.delivers (Log.store (log.take c.label.snap)) = some (id, payload)
    · obtain ⟨payload, hd⟩ := hd
      have hall : ∀ event ∈ eventsOf id es, event = .wake (some payload) := fun event he =>
        ((hlives.makes _ (mem_eventsOf.mp he)).of_delivers hd).2
      have hmem := mem_eventsOf.mpr (hlives.delivers id payload hd)
      obtain ⟨-, job', hj', hs⟩ := Life.run_delivered (hrun id) (List.ne_nil_of_mem hmem) hall
      obtain rfl : job' = job := Option.some.inj (hj'.symm.trans hj)
      refine .inr ⟨payload, ⟨log.length, Log.at_append_singleton.mpr (.inr ⟨rfl, hd⟩), ?_⟩, hs⟩
      intro m hm he
      have hlt := he.lt
      rw [List.length_append, List.length_singleton] at hlt
      omega
    · have hdelivered : ∀ {n payload}, Delivered (log ++ [c]) n id payload →
          Delivered log n id payload := fun h =>
        (Log.at_append_singleton.mp h).resolve_right fun h => hd ⟨_, h.2⟩
      have hne : ∀ payload, .wake (some payload) ∉ eventsOf id es := fun payload hm =>
        hd ⟨payload, (hlives.makes _ (mem_eventsOf.mp hm)).delivers⟩
      rcases Life.run_signal (hrun id) hne hj with ⟨henq, hs⟩ | ⟨hnot, old, ho, hs⟩
      · refine .inl ⟨fun n payload hn => ⟨log.length, (hdelivered hn).lt, ?_⟩, hs⟩
        exact Log.at_append_singleton.mpr (.inr ⟨rfl, (enqueue_mem_eventsOf hnotes).mpr henq⟩)
      · have henqueued : ∀ {m}, Enqueued (log ++ [c]) m id ↔ Enqueued log m id := fun {m} => by
          refine ⟨fun h => (Log.at_append_singleton.mp h).resolve_right fun h => ?_, fun h =>
            Log.at_append_singleton.mpr (.inl h)⟩
          obtain ⟨new, hm⟩ := (enqueue_mem_eventsOf hnotes).mp h.2
          exact hnot new hm
        rw [hs]
        rcases ih ho with ⟨hun, hnone⟩ | ⟨payload, ⟨n, hn, hlast⟩, hsome⟩
        · refine .inl ⟨fun n payload hn => ?_, hnone⟩
          obtain ⟨m, hm, he⟩ := hun n payload (hdelivered hn)
          exact ⟨m, hm, henqueued.mpr he⟩
        · refine .inr ⟨payload, ⟨n, Log.at_append_singleton.mpr (.inl hn), fun m hm he => ?_⟩,
            hsome⟩
          exact hlast m hm (henqueued.mp he)

omit [DecidableEq β] in
/-- A second delivery to one id is to a job that was enqueued after the first. -/
theorem enqueued_between (h : log.Lawful Relives) {n m : ℕ} {p q : List UInt8} (hnm : n < m)
    (hn : Delivered log n id p) (hm : Delivered log m id q) :
    ∃ k, n < k ∧ k < m ∧ Enqueued log k id := by
  obtain ⟨c, hc, hd⟩ := hm
  obtain ⟨es, hlives, -, hrun⟩ := h.get hc
  have hall : ∀ event ∈ eventsOf id es, event = .wake (some q) := fun event he =>
    ((hlives.makes _ (mem_eventsOf.mp he)).of_delivers hd).2
  have hmem := mem_eventsOf.mpr (hlives.delivers id q hd)
  obtain ⟨⟨old, ho, hwait⟩, -⟩ := Life.run_delivered (hrun id) (List.ne_nil_of_mem hmem) hall
  have hlife : Life.machine.Reachable (lifeAt (Log.store (log.take m)) id) :=
    reachableVia_lifeAt (h.take m) fun _ _ _ _ _ => trivial
  have hnone := (Life.waitsOnce_of_reachable hlife old ho).unsignalled hwait
  rcases signal_of_record (h.take m) ho with ⟨hun, -⟩ | ⟨payload, -, hs⟩
  · obtain ⟨k, hk, he⟩ := hun n p (Log.at_take.mpr ⟨hnm, hn⟩)
    exact ⟨k, hk, Log.at_take.mp he⟩
  · rw [hnone] at hs
    cases hs

/-- A job waits only until it first leaves the scheduled state, receives at most one signal
and keeps it. -/
theorem one_signal_kept (h : (machine κ β).Reachable s) :
    (∀ key job, JobAction.Found s.log.store key job → job.Waits →
      job.status = .scheduled ∧ ∃ n, Enqueued s.log n job.id ∧ ∀ m, n < m → m ≤ s.log.length →
        ∃ key old, JobAction.Found (Log.store (s.log.take m)) key old ∧ old.id = job.id ∧
          old.status = .scheduled) ∧
    (∀ id n m p q, n < m → Delivered s.log n id p → Delivered s.log m id q →
      ∃ k, n < k ∧ k < m ∧ Enqueued s.log k id) ∧
    ∀ key job, JobAction.Found s.log.store key job →
      (Unsignalled s.log job.id ∧ job.signal = none) ∨
        ∃ payload, Signalled s.log job.id payload ∧ job.signal = some payload := by
  have hrelives := relives_reachable h
  have hsound := (inv_reachable h).sound
  refine ⟨fun key job hf hw => ?_, fun id n m p q => enqueued_between hrelives,
    fun key job hf => ?_⟩
  · have hj := lifeAt_of_found hsound.storeInv hf
    have hst := (Life.waitsOnce_of_reachable (reachable_lifeAt h job.id) _ hj).scheduled hw
    obtain ⟨n, hn, hsince⟩ := scheduled_since hrelives hj hw
    refine ⟨hst, n, hn, fun m hm hle => ?_⟩
    obtain ⟨bare, hb, hst⟩ := hsince m hm hle
    obtain ⟨key, old, hf, hid, rfl⟩ := found_of_lifeAt (hsound.take m).storeInv hb
    exact ⟨key, old, hf, hid, hst⟩
  · have hsignal := signal_of_record hrelives (lifeAt_of_found hsound.storeInv hf)
    exact hsignal

/-- The job waits, receives a signal, is claimed, fails and is claimed again. -/
def signalledRetry : List (Label ℕ ℕ) :=
  [.commit (.enqueue (fun _ _ => none) approval {}) 0, .commit (.signal "b" [7]) 1,
    .commit (.claimBatch emails [⟨0, 5, "b"⟩] [1] 8) 2,
    .commit (.settle (fun _ _ => some 1) (fun _ _ => none) emails "b" 1
      (.nack "down" fun _ => none) {} 9) 3,
    .commit (.signal "b" [9]) 4]

def retriedApproval : JobRecord :=
  { JobRecord.newPending "b" emails [1] 3 0 5 with
    attempts := 1, signal := some [7], lastError := some "down" }

theorem one_signal_kept_after_retry :
    ∃ s, (machine ℕ ℕ).Reachable s ∧
      JobAction.Found s.log.store (.pending emails ⟨0, 5, "b"⟩) retriedApproval ∧
      Signalled s.log "b" [7] := by
  obtain ⟨s, hs, hf⟩ : ∃ s, (machine ℕ ℕ).run {} signalledRetry = some s ∧
      JobAction.Found s.log.store (.pending emails ⟨0, 5, "b"⟩) retriedApproval :=
    Machine.exists_of_run_any (by decide +kernel)
  have hreach := Machine.reachable_of_run hs rfl
  refine ⟨s, hreach, hf, ?_⟩
  rcases (one_signal_kept hreach).2.2 _ _ hf with ⟨-, hnone⟩ | ⟨payload, hsignalled, hsome⟩
  · cases hnone
  · cases hsome
    exact hsignalled

end Signals

section Cancellations

omit [DecidableEq β]

variable {log : History κ β} {c : CallCommit κ β} {id : String} {queue : QueueName}

def Renews (id : String) (log : History κ β) (c : CallCommit κ β) : Prop :=
  c.label.call.revived = some id ∨ id ∈ c.label.notes.enqueued.map Prod.snd ∨
    (lifeAt (Log.store (log ++ [c])) id).record = none

instance (id : String) (log : History κ β) (c : CallCommit κ β) :
    Decidable (Renews id log c) :=
  inferInstanceAs (Decidable (_ ∨ _ ∨ _))

/-- The commit at the position revived the job, or removed it. -/
def Renewed (log : History κ β) (n : ℕ) (id : String) : Prop := log.At (Renews id) n

instance (log : History κ β) (n : ℕ) (id : String) : Decidable (Renewed log n id) :=
  inferInstanceAs (Decidable (log.At (Renews id) n))

theorem Relives.flagged (hc : Relives log c) (h : (lifeAt log.store id).Flagged queue) :
    (lifeAt (Log.store (log ++ [c])) id).Flagged queue ∨ Renews id log c := by
  obtain ⟨es, hlives, hnotes, hrun⟩ := hc
  by_cases hrev : ∃ now, .revive now ∈ eventsOf id es
  · obtain ⟨now, hm⟩ := hrev
    exact .inr (.inl (hlives.revived hm))
  · rcases Life.run_flagged (hrun id) h fun now hm => hrev ⟨now, hm⟩ with h | h | h
    · exact .inl h
    · exact .inr (.inr (.inr h))
    · exact .inr (.inr (.inl ((enqueue_mem_eventsOf hnotes).mpr h)))

theorem Relives.absent (hc : Relives log c) (h : (lifeAt log.store id).record = none) :
    (lifeAt (Log.store (log ++ [c])) id).record = none ∨
      id ∈ c.label.notes.enqueued.map Prod.snd := by
  obtain ⟨es, -, hnotes, hrun⟩ := hc
  rcases Life.run_absent (hrun id) h with h | h
  · exact .inl h
  · exact .inr ((enqueue_mem_eventsOf hnotes).mpr h)

variable {point : ℕ} (hl : ∀ n c, point ≤ n → log[n]? = some c → Relives (log.take n) c)
include hl

theorem flagged_since (h : (lifeAt (Log.store (log.take point)) id).Flagged queue) {m : ℕ}
    (hm : point ≤ m) (hle : m ≤ log.length) :
    (lifeAt (Log.store (log.take m)) id).Flagged queue ∨
      ∃ k, point ≤ k ∧ k < m ∧ Renewed log k id :=
  Log.holds_or_at (Q := fun log => (lifeAt log.store id).Flagged queue)
    (fun k c hk hc => (hl k c hk hc).flagged) h hm hle

theorem absent_since (h : (lifeAt (Log.store (log.take point)) id).record = none) {m : ℕ}
    (hm : point ≤ m) (hle : m ≤ log.length) :
    (lifeAt (Log.store (log.take m)) id).record = none ∨
      ∃ k, point ≤ k ∧ k < m ∧ Enqueued log k id :=
  Log.holds_or_at (Q := fun log => (lifeAt log.store id).record = none)
    (fun k c hk hc => (hl k c hk hc).absent) h hm hle

end Cancellations

section Lives

variable {log : History κ β} {c : CallCommit κ β} {id : String} {job : JobRecord}

omit [DecidableEq β] in
theorem Relives.ended (hc : Relives log c) (hj : (lifeAt log.store id).record = some job)
    (he : job.status = .done ∨ job.status = .dead) :
    lifeAt (Log.store (log ++ [c])) id = lifeAt log.store id ∨ Renews id log c := by
  obtain ⟨es, hlives, hnotes, hrun⟩ := hc
  rcases Life.run_ended (hrun id) hj he with h | ⟨now, hm⟩ | h | h
  · exact .inl h
  · exact .inr (.inl (hlives.revived hm))
  · exact .inr (.inr (.inl ((enqueue_mem_eventsOf hnotes).mpr h)))
  · exact .inr (.inr (.inr h))

/-- The record and the history of a done or dead job stay as they are until a commit revives or
removes the job. -/
theorem ended_jobs_stay_as_they_are (h : (machine κ β).Reachable s) {n m : ℕ} (hnm : n ≤ m)
    (hm : m ≤ s.log.length) (hj : (lifeAt (Log.store (s.log.take n)) id).record = some job)
    (he : job.status = .done ∨ job.status = .dead) :
    lifeAt (Log.store (s.log.take m)) id = lifeAt (Log.store (s.log.take n)) id ∨
      ∃ k, n ≤ k ∧ k < m ∧ Renewed s.log k id := by
  refine Log.holds_or_at (Q := fun log => lifeAt log.store id =
    lifeAt (Log.store (s.log.take n)) id) (fun k c hk hc hsame => ?_) rfl hnm hm
  rw [← hsame] at hj ⊢
  exact ((relives_reachable h).get hc).ended hj he

/-- A job is completed and kept, and then another key is written. -/
def keptJob : List (Label ℕ ℕ) :=
  [.commit (.enqueue (fun _ _ => none) welcome {}) 0,
    .commit (.claimBatch emails [⟨0, 5, "a"⟩] [1] 7) 1,
    .commit (.settle (fun _ _ => some 1) (fun _ _ => none) emails "a" 1 (.ack true) {} 9) 2,
    .commit (.kvPut 0 0) 3]

theorem ended_jobs_stay_as_they_are_when_kept :
    ∃ s, (machine ℕ ℕ).run {} keptJob = some s ∧
      (lifeAt (Log.store (s.log.take 4)) "a" = lifeAt (Log.store (s.log.take 3)) "a" ∨
        ∃ k, 3 ≤ k ∧ k < 4 ∧ Renewed s.log k "a") := by
  obtain ⟨s, hs, hlen, hdone⟩ : ∃ s, (machine ℕ ℕ).run {} keptJob = some s ∧ 4 ≤ s.log.length ∧
      (lifeAt (Log.store (s.log.take 3)) "a").record.any (·.status = .done) = true :=
    Machine.exists_of_run_any (by decide +kernel)
  obtain ⟨job, hj, hst⟩ := (Option.any_eq_true _ _).mp hdone
  exact ⟨s, hs, ended_jobs_stay_as_they_are ((Machine.Reachable.initial rfl).run hs) (by decide)
    hlen hj (.inl (by simpa using hst))⟩

/-- The store refines the lifecycle: every commit takes each job through a run of the lifecycle,
which has an enqueue exactly if the commit notes one of the job. -/
theorem store_refines_lifecycle (h : (machine κ β).Reachable s) (id : String) {n : ℕ}
    (hc : s.log[n]? = some c) :
    ∃ events, Life.machine.run (lifeAt (Log.store (s.log.take n)) id) events =
        some (lifeAt (Log.store (s.log.take (n + 1))) id) ∧
      (id ∈ c.label.notes.enqueued.map Prod.snd ↔ ∃ new, .enqueue new ∈ events) := by
  obtain ⟨es, -, hnotes, hrun⟩ := (relives_reachable h).get hc
  obtain ⟨hlt, rfl⟩ := List.getElem?_eq_some_iff.mp hc
  refine ⟨eventsOf id es, ?_, enqueue_mem_eventsOf hnotes⟩
  rw [List.take_succ_eq_append_getElem hlt]
  exact hrun id

theorem store_refines_lifecycle_of_enqueue :
    ∃ s c, (machine ℕ ℕ).run {} keptJob = some s ∧ s.log[0]? = some c ∧
      ∃ events, Life.machine.run {} events = some (lifeAt (Log.store (s.log.take 1)) "a") ∧
        ("a" ∈ c.label.notes.enqueued.map Prod.snd ↔ ∃ new, .enqueue new ∈ events) := by
  obtain ⟨s, hs, hlen⟩ : ∃ s, (machine ℕ ℕ).run {} keptJob = some s ∧ 0 < s.log.length :=
    Machine.exists_of_run_any (by decide +kernel)
  have hc : s.log[0]? = some s.log[0] := List.getElem?_eq_getElem hlen
  exact ⟨s, _, hs, hc, store_refines_lifecycle ((Machine.Reachable.initial rfl).run hs) "a" hc⟩

end Lives

end Queue

end Taquba
