import Taquba.Lease.Process
import Taquba.Lease.Registry

/-! # Claims, settlements and the reaper of one process

A claim attempt takes a snapshot, stages the jobs it found, registers a lease for
each of them and commits. A settlement or a reap takes a snapshot, checks the lease
registry and commits. The registry entry goes after the commit. Attempts run
side by side, except that the scans of one queue hold its claim lock. An attempt
that conflicts, fails or is dropped leaves its registry entries behind.
-/

namespace Taquba.Delivery

open Snapshot Transition

/-- A claim that an attempt registered: the job as delivered, the claim id and the
cancellation token. -/
structure Claim where
  job : JobRecord
  claimId : ℕ
  cancel : ℕ

/-- Who claims: the holder of the claim lock of a queue, or a call that claims a job by
its id. -/
inductive Claimant where
  | scan (queue : QueueName)
  | byId (id : String) (call : ℕ)
  deriving DecidableEq

def Claimant.call {κ β : Type} (who : Claimant) (keys : List PendingKey) (claimIds : List ℕ)
    (now : ℕ) : Call κ β :=
  match who with
  | .scan queue => .claimBatch queue keys claimIds now
  | .byId id _ => .claimById id (claimIds.headD 0) now

/-- The jobs of a claim attempt: those still to register, and the registered ones. -/
structure Staged where
  keys : List PendingKey
  now : ℕ
  expiresAt : ℕ
  todo : List JobRecord
  claims : List Claim := []

structure Claiming where
  snap : ℕ
  staged : Option Staged := none

inductive EndKind (κ β : Type) where
  | settle (settlement : Settlement) (effects : PreparedEffects κ β)
  | reap

def EndKind.isReap {κ β : Type} : EndKind κ β → Bool
  | .settle _ _ => false
  | .reap => true

/-- How far the end of a claim is: it began, it found its claim in the leases, or it
committed. -/
inductive EndStage where
  | begun
  | checked (leases : Leases)
  | committed

structure Ending (κ β : Type) where
  kind : EndKind κ β
  queue : QueueName
  id : String
  claimId : ℕ
  snap : ℕ
  stage : EndStage := .begun

def Ending.call {κ β : Type} (e : Ending κ β) (leases effectLeases : Leases) (now : ℕ) :
    Call κ β :=
  match e.kind with
  | .settle settlement effects =>
    .settle leases effectLeases e.queue e.id e.claimId settlement effects now
  | .reap => .reap leases e.queue e.id e.claimId now

/-- The process: its store, its registry, the tokens that fired, the clock, the claim
ids that it drew and its calls in flight. `granted` remembers the expiry and the
token of each claim. -/
structure State (κ β : Type) where
  log : History κ β
  opened : ℕ
  registry : LeaseRegistry := {}
  fired : ℕ → Bool := fun _ => false
  tokens : ℕ := 0
  now : ℕ := 0
  used : List ℕ := []
  claiming : Claimant → Option Claiming := fun _ => none
  ending : ℕ → Option (Ending κ β) := fun _ => none
  due : List DueLease := []
  granted : (QueueName × String) × ℕ → Option (ℕ × ℕ) := fun _ => none

inductive ClaimOp where
  | begin
  | stage (keys : List PendingKey) (lease : ℕ)
  | register (claimId : ℕ)
  | commit
  | drop

inductive EndOp (κ β : Type) where
  | begin (kind : EndKind κ β) (queue : QueueName) (id : String) (claimId : ℕ)
  | check
  | commit (effectLeases : Leases) (now : ℕ)
  | dropEntry
  | finish
  | drop

inductive LeaseOp where
  | renew (queue : QueueName) (id : String) (claimId cancel expiresAt : ℕ) (mode : Renewal)
  | takeDue
  | cancel (queue : QueueName) (id : String)
  | close
  | tick (ms : ℕ)

inductive Label (κ β : Type) where
  | claim (who : Claimant) (op : ClaimOp)
  | ending (n : ℕ) (op : EndOp κ β)
  | lease (op : LeaseOp)
  | call (call : Call κ β) (snap : ℕ)

/-- A call that neither delivers a job nor ends a claim. -/
def isOther {κ β : Type} : Call κ β → Bool
  | .claimBatch _ _ _ _ | .claimById _ _ _ | .settle _ _ _ _ _ _ _ _ | .reap _ _ _ _ _
  | .requeueInterrupted _ _ => false
  | _ => true

namespace State

variable {κ β : Type}

def setClaiming (s : State κ β) (who : Claimant) (a : Option Claiming) : State κ β :=
  { s with claiming := Function.update s.claiming who a }

def setEnding (s : State κ β) (n : ℕ) (e : Option (Ending κ β)) : State κ β :=
  { s with ending := Function.update s.ending n e }

/-- Register the lease of the next job of an attempt. The token of a job whose
cancellation was requested fires at once. -/
def register (s : State κ β) (who : Claimant) (a : Claiming) (st : Staged) (job : JobRecord)
    (todo : List JobRecord) (claimId : ℕ) : State κ β :=
  { s with
    registry := s.registry.insert job.queue job.id st.expiresAt claimId s.tokens
    fired := if job.cancelRequested then Function.update s.fired s.tokens true else s.fired
    tokens := s.tokens + 1
    used := claimId :: s.used
    granted := Function.update s.granted (job.ref, claimId) (some (st.expiresAt, s.tokens))
    claiming := Function.update s.claiming who (some { a with
      staged := some { st with todo, claims := st.claims ++ [⟨job, claimId, s.tokens⟩] } }) }

/-- Remove the registry entry of the claim that ended or was never made. -/
def unregister (s : State κ β) (n : ℕ) (e : Ending κ β) : State κ β :=
  { s with
    registry := s.registry.remove e.queue e.id e.claimId
    ending := Function.update s.ending n none }

end State

variable {κ β : Type} [DecidableEq κ] [DecidableEq β]

def claimStep (s : State κ β) (who : Claimant) : ClaimOp → Option (State κ β)
  | .begin =>
    match s.claiming who with
    | none => some (s.setClaiming who (some { snap := s.log.length }))
    | some _ => none
  | .stage keys lease => do
    let a ← s.claiming who
    let call : Call κ β := who.call keys [] s.now
    match a.staged with
    | some _ => none
    | none =>
      if keys.Pairwise (· < ·) then
        let (_, todo) ← call.attempt (Log.store (s.log.take a.snap))
        some (s.setClaiming who (some { a with
          staged := some { keys, now := s.now, expiresAt := s.now + lease, todo } }))
      else none
  | .register claimId => do
    let a ← s.claiming who
    let st ← a.staged
    match st.todo with
    | job :: todo => if claimId ∈ s.used then none else some (s.register who a st job todo claimId)
    | [] => none
  | .commit => do
    let a ← s.claiming who
    let st ← a.staged
    if st.todo = [] then
      let log ← commitCall s.log (who.call st.keys (st.claims.map Claim.claimId) st.now) a.snap
      some { s.setClaiming who none with log }
    else none
  | .drop => do
    let _ ← s.claiming who
    some (s.setClaiming who none)

def endStep (s : State κ β) (n : ℕ) : EndOp κ β → Option (State κ β)
  | .begin kind queue id claimId =>
    match s.ending n with
    | none =>
      if kind.isReap = true →
          ∃ lease ∈ s.due, lease.queue = queue ∧ lease.id = id ∧ lease.claimId = claimId then
        some (s.setEnding n (some { kind, queue, id, claimId, snap := s.log.length }))
      else none
    | some _ => none
  | .check => do
    let e ← s.ending n
    match e.stage with
    | .begun =>
      if (s.registry.current e.queue e.id).any fun current => current.2 = e.claimId then
        some (s.setEnding n (some { e with stage := .checked s.registry.current }))
      else some (s.setEnding n none)
    | _ => none
  | .commit effectLeases now => do
    let e ← s.ending n
    match e.stage with
    | .checked leases =>
      let call := e.call leases effectLeases now
      if now ≤ s.now ∧ call.Given s.log e.snap then
        let log ← commitCall s.log call e.snap
        some { s.setEnding n (some { e with stage := .committed }) with log }
      else none
    | _ => none
  | .dropEntry => do
    let e ← s.ending n
    match e.kind, e.stage with
    | .reap, .checked _ =>
      match Log.store (s.log.take e.snap) (.record (.claimed e.queue e.id)) with
      | none => some (s.unregister n e)
      | some _ => none
    | _, _ => none
  | .finish => do
    let e ← s.ending n
    match e.stage with
    | .committed => some (s.unregister n e)
    | _ => none
  | .drop => do
    let _ ← s.ending n
    some (s.setEnding n none)

def leaseStep (s : State κ β) : LeaseOp → Option (State κ β)
  | .renew queue id claimId cancel expiresAt mode =>
    match s.registry.renew queue id claimId (s.fired cancel) expiresAt mode with
    | .ok (registry, changed) =>
      some { s with
        registry
        granted := if changed then
          Function.update s.granted ((queue, id), claimId)
            ((s.granted ((queue, id), claimId)).map fun g => (expiresAt, g.2))
        else s.granted }
    | .error _ => none
  | .takeDue =>
    (s.registry.takeDue s.now).map fun (registry, due) => { s with registry, due := due ++ s.due }
  | .cancel queue id =>
    (s.registry.token queue id).map fun token =>
      { s with fired := Function.update s.fired token true }
  | .close =>
    let (registry, tokens) := s.registry.close
    some { s with registry, fired := fun token => decide (token ∈ tokens) || s.fired token }
  | .tick ms => some { s with now := s.now + ms }

def callStep (s : State κ β) (call : Call κ β) (snap : ℕ) : Option (State κ β) :=
  if isOther call = true ∧ s.opened ≤ snap ∧ snap ≤ s.log.length ∧ call.Given s.log snap then
    (commitCall s.log call snap).map fun log => { s with log }
  else none

def step (s : State κ β) : Label κ β → Option (State κ β)
  | .claim who op => claimStep s who op
  | .ending n op => endStep s n op
  | .lease op => leaseStep s op
  | .call call snap => callStep s call snap

/-- The runs of a process from the open of a store whose claimed records were requeued. -/
def machine (κ β : Type) [DecidableEq κ] [DecidableEq β] : Machine (State κ β) (Label κ β) where
  init s := ∃ log : History κ β, log.Sound ∧
    (∀ queue id, log.store (.record (.claimed queue id)) = none) ∧ s = { log, opened := log.length }
  step := step

inductive ClaimStep (s : State κ β) (who : Claimant) : ClaimOp → State κ β → Prop where
  | begin (h : s.claiming who = none) :
    ClaimStep s who .begin (s.setClaiming who (some { snap := s.log.length }))
  | stage {a : Claiming} {keys : List PendingKey} {t : Txn κ β} {todo : List JobRecord}
      (lease : ℕ) (h : s.claiming who = some a) (hst : a.staged = none)
      (hkeys : keys.Pairwise (· < ·))
      (ha : (who.call keys [] s.now : Call κ β).attempt (Log.store (s.log.take a.snap)) =
        some (t, todo)) :
    ClaimStep s who (.stage keys lease) (s.setClaiming who (some { a with
      staged := some { keys, now := s.now, expiresAt := s.now + lease, todo } }))
  | register {a : Claiming} {st : Staged} {job : JobRecord} {todo : List JobRecord} {claimId : ℕ}
      (h : s.claiming who = some a) (hst : a.staged = some st) (htodo : st.todo = job :: todo)
      (hid : claimId ∉ s.used) :
    ClaimStep s who (.register claimId) (s.register who a st job todo claimId)
  | commit {a : Claiming} {st : Staged} {log : History κ β} (h : s.claiming who = some a)
      (hst : a.staged = some st) (htodo : st.todo = [])
      (hlog : commitCall s.log (who.call st.keys (st.claims.map Claim.claimId) st.now) a.snap =
        some log) :
    ClaimStep s who .commit { s.setClaiming who none with log }
  | drop {a : Claiming} (h : s.claiming who = some a) :
    ClaimStep s who .drop (s.setClaiming who none)

inductive EndStep (s : State κ β) (n : ℕ) : EndOp κ β → State κ β → Prop where
  | begin {kind : EndKind κ β} {queue : QueueName} {id : String} {claimId : ℕ}
      (h : s.ending n = none)
      (hdue : kind.isReap = true →
        ∃ lease ∈ s.due, lease.queue = queue ∧ lease.id = id ∧ lease.claimId = claimId) :
    EndStep s n (.begin kind queue id claimId)
      (s.setEnding n (some { kind, queue, id, claimId, snap := s.log.length }))
  | check {e : Ending κ β} (h : s.ending n = some e) (hst : e.stage = .begun)
      (hcurrent : (s.registry.current e.queue e.id).any (fun current => current.2 = e.claimId)) :
    EndStep s n .check (s.setEnding n (some { e with stage := .checked s.registry.current }))
  | lost {e : Ending κ β} (h : s.ending n = some e) :
    EndStep s n .check (s.setEnding n none)
  | commit {e : Ending κ β} {leases effectLeases : Leases} {now : ℕ} {log : History κ β}
      (h : s.ending n = some e) (hst : e.stage = .checked leases)
      (hgiven : (e.call leases effectLeases now).Given s.log e.snap)
      (hlog : commitCall s.log (e.call leases effectLeases now) e.snap = some log) :
    EndStep s n (.commit effectLeases now)
      { s.setEnding n (some { e with stage := .committed }) with log }
  | dropEntry {e : Ending κ β} {leases : Leases} (h : s.ending n = some e)
      (hkind : e.kind = .reap) (hst : e.stage = .checked leases)
      (hnone : Log.store (s.log.take e.snap) (.record (.claimed e.queue e.id)) = none) :
    EndStep s n .dropEntry (s.unregister n e)
  | finish {e : Ending κ β} (h : s.ending n = some e) (hst : e.stage = .committed) :
    EndStep s n .finish (s.unregister n e)
  | drop {e : Ending κ β} (h : s.ending n = some e) :
    EndStep s n .drop (s.setEnding n none)

inductive LeaseStep (s : State κ β) : LeaseOp → State κ β → Prop where
  | renew {queue id claimId cancel expiresAt mode registry changed}
      (hr : s.registry.renew queue id claimId (s.fired cancel) expiresAt mode =
        .ok (registry, changed)) :
    LeaseStep s (.renew queue id claimId cancel expiresAt mode) { s with
      registry
      granted := if changed then
        Function.update s.granted ((queue, id), claimId)
          ((s.granted ((queue, id), claimId)).map fun g => (expiresAt, g.2))
      else s.granted }
  | takeDue {registry due} (hr : s.registry.takeDue s.now = some (registry, due)) :
    LeaseStep s .takeDue { s with registry, due := due ++ s.due }
  | cancel {queue id token} (ht : s.registry.token queue id = some token) :
    LeaseStep s (.cancel queue id) { s with fired := Function.update s.fired token true }
  | close : LeaseStep s .close { s with
      registry := s.registry.close.1
      fired := fun token => decide (token ∈ s.registry.close.2) || s.fired token }
  | tick (ms : ℕ) : LeaseStep s (.tick ms) { s with now := s.now + ms }

variable {s s' : State κ β}

theorem claimStep_spec {who : Claimant} {op : ClaimOp} (h : claimStep s who op = some s') :
    ClaimStep s who op s' := by
  cases op with
  | begin =>
    simp only [claimStep] at h
    split at h
    · cases h
      exact .begin ‹_›
    · cases h
  | stage keys lease =>
    obtain ⟨a, ha, h⟩ := Option.bind_eq_some_iff.mp h
    split at h
    · cases h
    · split at h
      · obtain ⟨⟨t, todo⟩, ht, h⟩ := Option.bind_eq_some_iff.mp h
        cases h
        exact .stage lease ha ‹_› ‹_› ht
      · cases h
  | register claimId =>
    obtain ⟨a, ha, h⟩ := Option.bind_eq_some_iff.mp h
    obtain ⟨st, hst, h⟩ := Option.bind_eq_some_iff.mp h
    split at h
    · split at h
      · cases h
      · cases h
        exact .register ha hst ‹_› ‹_›
    · cases h
  | commit =>
    obtain ⟨a, ha, h⟩ := Option.bind_eq_some_iff.mp h
    obtain ⟨st, hst, h⟩ := Option.bind_eq_some_iff.mp h
    split at h
    · obtain ⟨log, hlog, h⟩ := Option.bind_eq_some_iff.mp h
      cases h
      exact .commit ha hst ‹_› hlog
    · cases h
  | drop =>
    obtain ⟨a, ha, h⟩ := Option.bind_eq_some_iff.mp h
    cases h
    exact .drop ha

theorem endStep_spec {n : ℕ} {op : EndOp κ β} (h : endStep s n op = some s') :
    EndStep s n op s' := by
  cases op with
  | begin kind queue id claimId =>
    simp only [endStep] at h
    split at h
    · split at h
      · cases h
        exact .begin ‹_› ‹_›
      · cases h
    · cases h
  | check =>
    obtain ⟨e, he, h⟩ := Option.bind_eq_some_iff.mp h
    split at h
    · split at h
      · cases h
        exact .check he ‹_› ‹_›
      · cases h
        exact .lost he
    · cases h
  | commit effectLeases now =>
    obtain ⟨e, he, h⟩ := Option.bind_eq_some_iff.mp h
    split at h
    · simp only at h
      split_ifs at h with hg
      obtain ⟨log, hlog, h⟩ := Option.bind_eq_some_iff.mp h
      cases h
      exact .commit he ‹_› hg.2 hlog
    · cases h
  | dropEntry =>
    obtain ⟨e, he, h⟩ := Option.bind_eq_some_iff.mp h
    split at h
    · split at h
      · cases h
        exact .dropEntry he ‹_› ‹_› ‹_›
      · cases h
    · cases h
  | finish =>
    obtain ⟨e, he, h⟩ := Option.bind_eq_some_iff.mp h
    split at h
    · cases h
      exact .finish he ‹_›
    · cases h
  | drop =>
    obtain ⟨e, he, h⟩ := Option.bind_eq_some_iff.mp h
    cases h
    exact .drop he

/-- The lease of a job is that of the claim, with the expiry and the token of the claim. -/
def Holds (s : State κ β) (j : QueueName × String) (claimId cancel : ℕ) : Prop :=
  ∃ e, s.registry.held j = some (e, claimId, cancel) ∧ s.granted (j, claimId) = some (e, cancel)

/-- What the steps of the registry and of the clock leave as it is: the store, the
calls in flight, the drawn claim ids and the claim of every lease. -/
structure LeaseFrame (s s' : State κ β) : Prop where
  log : s'.log = s.log
  opened : s'.opened = s.opened
  used : s'.used = s.used
  claiming : s'.claiming = s.claiming
  ending : s'.ending = s.ending
  held : ∀ j, (s'.registry.held j).map Prod.snd = (s.registry.held j).map Prod.snd
  holds : ∀ j claimId cancel, Holds s j claimId cancel → Holds s' j claimId cancel

omit [DecidableEq κ] [DecidableEq β] in
theorem LeaseFrame.held_eq (h : LeaseFrame s s') {j : QueueName × String} {held' : ℕ × ℕ × ℕ}
    (hh : s'.registry.held j = some held') :
    ∃ held, s.registry.held j = some held ∧ held.2 = held'.2 := by
  have hj := h.held j
  rw [hh, Option.map_some, eq_comm, Option.map_eq_some_iff] at hj
  exact hj

omit [DecidableEq κ] [DecidableEq β] in
/-- The step changes no other part of the state. -/
theorem LeaseFrame.eq (h : LeaseFrame s s') :
    s' = { s with
      registry := s'.registry, fired := s'.fired, tokens := s'.tokens, now := s'.now
      due := s'.due, granted := s'.granted } := by
  rw [← h.log, ← h.opened, ← h.used, ← h.claiming, ← h.ending]

omit [DecidableEq κ] [DecidableEq β] in
theorem leaseStep_cases {op : LeaseOp} (h : leaseStep s op = some s') : LeaseStep s op s' := by
  cases op with
  | renew queue id claimId cancel expiresAt mode =>
    simp only [leaseStep] at h
    split at h <;> cases h
    exact .renew ‹_›
  | takeDue =>
    obtain ⟨⟨registry, due⟩, hr, ⟨⟩⟩ := Option.map_eq_some_iff.mp h
    exact .takeDue hr
  | cancel queue id =>
    obtain ⟨token, ht, ⟨⟩⟩ := Option.map_eq_some_iff.mp h
    exact .cancel ht
  | close =>
    cases h
    exact .close
  | tick ms =>
    cases h
    exact .tick ms

omit [DecidableEq κ] [DecidableEq β] in
theorem leaseStep_spec {op : LeaseOp} (h : leaseStep s op = some s') : LeaseFrame s s' := by
  cases leaseStep_cases h with
  | @renew queue id claimId _ expiresAt _ _ changed hr =>
    obtain ⟨e, k, hold, hnew⟩ := LeaseRegistry.held_renew hr
    refine ⟨rfl, rfl, rfl, rfl, rfl, fun j => ?_, fun j c token hj => ?_⟩
    · simp only [hnew]
      by_cases hj : j = (queue, id)
      · subst hj
        simp [hold]
      · simp [hj]
    · obtain ⟨e', hheld, hgranted⟩ := hj
      simp only [Holds, hnew]
      by_cases hj : j = (queue, id)
      · subst hj
        rw [hold] at hheld
        cases hheld
        cases changed with
        | true => exact ⟨expiresAt, by simp [hgranted]⟩
        | false => exact ⟨e, by simp [hgranted]⟩
      · refine ⟨e', by simp [hj, hheld], ?_⟩
        cases changed with
        | true => simp [hj, hgranted]
        | false => simpa using hgranted
  | takeDue hr =>
    have hheld := LeaseRegistry.held_takeDue hr
    exact ⟨rfl, rfl, rfl, rfl, rfl, fun j => by simp [hheld], fun j c k hj => by
      simpa only [Holds, hheld] using hj⟩
  | _ => exact ⟨rfl, rfl, rfl, rfl, rfl, fun _ => rfl, fun _ _ _ hj => hj⟩

theorem callStep_spec {call : Call κ β} {snap : ℕ} (h : callStep s call snap = some s') :
    isOther call = true ∧ s.opened ≤ snap ∧ snap ≤ s.log.length ∧ call.Given s.log snap ∧
      ∃ log, commitCall s.log call snap = some log ∧ s' = { s with log } := by
  unfold callStep at h
  obtain ⟨hg, h⟩ := Option.ite_none_right_eq_some.mp h
  obtain ⟨log, hlog, rfl⟩ := Option.map_eq_some_iff.mp h
  exact ⟨hg.1, hg.2.1, hg.2.2.1, hg.2.2.2, log, hlog, rfl⟩

end Taquba.Delivery
