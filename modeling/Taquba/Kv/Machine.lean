import Taquba.Effects.Calls
import Taquba.Queue.Clients
import Taquba.Queue.Compares

/-! # Operations on user keys

Writes, deletes and compare operations on user keys, and calls with effects that compare
them, run between the commits of other calls. A compare operation begins a transaction,
tests the keys on its snapshot, and commits or begins again after a conflict. A plain
write is not a transaction.
-/

namespace Taquba.Kv

open Snapshot Transition

variable {κ β : Type}

/-- An operation on user keys, or a call at its transaction loop. -/
inductive Request (κ β : Type) where
  | kvPut (key : κ) (value : β)
  | kvDelete (key : κ)
  | kvCompareThen (key : κ) (expected value : Option β)
  | effects (prepared : Prepared κ β)

/-- What an operation returns. A call with effects that ends without them discards them. -/
inductive Answer (κ : Type) where
  | applied
  | unmatched (key : κ)
  | discarded
  | failed (error : Error κ)
  deriving DecidableEq

namespace Request

def kvComparePut (key : κ) (expected : Option β) (value : β) : Request κ β :=
  .kvCompareThen key expected (some value)

def kvCompareDelete (key : κ) (expected : β) : Request κ β :=
  .kvCompareThen key (some expected) none

def compares : Request κ β → List (KvCompare κ β)
  | .kvPut _ _ | .kvDelete _ => []
  | .kvCompareThen key expected _ => [⟨key, expected⟩]
  | .effects prepared => prepared.effects.kvCompares

/-- The changes of user keys that the operation makes when it applies. -/
def changes : Request κ β → List (κ × Option β)
  | .kvPut key value => [(key, some value)]
  | .kvDelete key => [(key, none)]
  | .kvCompareThen key _ value => [(key, value)]
  | .effects prepared => prepared.effects.kvChanges

def call (request : Request κ β) (leases effectLeases : Leases) (now : ℕ) : Call κ β :=
  match request with
  | .kvPut key value => .kvPut key value
  | .kvDelete key => .kvDelete key
  | .kvCompareThen key expected value => .kvCompareThen key expected value
  | .effects prepared => prepared.call leases effectLeases now

/-- The snapshot of an attempt that began after `snap` commits. A plain write has none, and
applies to the current state. -/
def snapshot (log : History κ β) (snap : ℕ) : Request κ β → ℕ
  | .kvPut _ _ | .kvDelete _ => log.length
  | .kvCompareThen _ _ _ | .effects _ => snap

variable [DecidableEq κ] [DecidableEq β]

def body (request : Request κ β) (leases effectLeases : Leases) (now : ℕ) (t : Txn κ β) :
    Except (Error κ) (Txn κ β × Attempt (Answer κ)) :=
  match request with
  | .kvPut key value => (t.kvPut key value).map fun r => (r.1, r.2.map fun _ => .applied)
  | .kvDelete key => (t.kvDelete key).map fun r => (r.1, r.2.map fun _ => .applied)
  | .kvCompareThen key expected value => (t.kvCompareThen key expected value).map fun r =>
    (r.1, r.2.map fun matched => if matched then .applied else .unmatched key)
  | .effects prepared => (prepared.body leases effectLeases now t).map fun r =>
    (r.1, r.2.map fun value => if value.results.isSome then .applied else .discarded)

end Request

def Answer.ofError : Error κ → Answer κ
  | .kvCompareFailed key => .unmatched key
  | error => .failed error

inductive Phase (κ : Type) where
  | ready
  | begun (snap : ℕ)
  | returned (answer : Answer κ) (ended : ℕ)
  deriving DecidableEq

/-- An operation, with the number of commits at its call and the places of its own. -/
structure Operation (κ β : Type) where
  request : Request κ β
  began : ℕ
  phase : Phase κ := .ready
  commits : List ℕ := []

structure State (κ β : Type) where
  queue : Queue.State κ β := {}
  operations : List (Operation κ β) := []

inductive Label (κ β : Type) where
  | call (request : Request κ β)
  | begin (i : ℕ)
  | finish (i : ℕ) (leases effectLeases : Leases) (now : ℕ)
  | other (label : Queue.Label κ β)

section Step

variable [DecidableEq κ] [DecidableEq β]

def State.set (s : State κ β) (i : ℕ) (o : Operation κ β) : State κ β :=
  { s with operations := s.operations.set i o }

/-- The end of an attempt that began after `snap` commits: the operation returns, or begins
again after a conflict. -/
def finish (s : State κ β) (i : ℕ) (o : Operation κ β) (snap : ℕ) (leases effectLeases : Leases)
    (now : ℕ) : Option (State κ β) :=
  match o.request.body leases effectLeases now (Txn.begin (Log.store (s.queue.log.take snap))) with
  | .error error =>
    some (s.set i { o with phase := .returned (.ofError error) s.queue.log.length })
  | .ok (_, .abort answer) =>
    some (s.set i { o with phase := .returned answer s.queue.log.length })
  | .ok (t, .commit answer) =>
    if s.queue.log.Conflicts snap t.tracked then some (s.set i { o with phase := .ready })
    else
      (Queue.step s.queue (.commit (o.request.call leases effectLeases now) snap)).map fun queue =>
        { s with queue }.set i { o with
          phase := .returned answer queue.log.length
          commits := o.commits ++ [s.queue.log.length] }

def step (s : State κ β) : Label κ β → Option (State κ β)
  | .call request =>
    some { s with operations := s.operations ++ [{ request, began := s.queue.log.length }] }
  | .begin i =>
    match s.operations[i]? with
    | some o =>
      if o.phase = .ready then some (s.set i { o with phase := .begun s.queue.log.length })
      else none
    | none => none
  | .finish i leases effectLeases now =>
    match s.operations[i]? with
    | some o =>
      match o.phase with
      | .begun snap => finish s i o (o.request.snapshot s.queue.log snap) leases effectLeases now
      | _ => none
    | none => none
  | .other (.reopen kept todo) =>
    (Queue.step s.queue (.reopen kept todo)).map fun queue => { queue, operations := [] }
  | .other label => (Queue.step s.queue label).map fun queue => { s with queue }

/-- The runs of a queue with operations on its user keys. -/
def machine (κ β : Type) [DecidableEq κ] [DecidableEq β] : Machine (State κ β) (Label κ β) where
  init s := s = {}
  step := step

end Step

section Body

variable [DecidableEq κ] [DecidableEq β] {s : Store (Val κ β)} {t : Txn κ β}
  {leases effectLeases : Leases} {now : ℕ}

omit [DecidableEq κ] [DecidableEq β] in
theorem error_of_map {α γ : Type} {f : α → γ} {r : Except (Error κ) α} {e : Error κ}
    (h : r.map f = .error e) : r = .error e := by
  cases r with
  | error e' =>
    cases h
    rfl
  | ok a => cases h

theorem mismatched_of_stageEffects {t : Txn κ β} {effects : PreparedEffects κ β} {key : κ}
    (hs : Txn.Adds .internal (Txn.begin s) t)
    (h : t.stageEffects effectLeases effects = .error (.kvCompareFailed key)) :
    Txn.Mismatched s effects.kvCompares key := by
  obtain ⟨c, hc, hk, hne⟩ := Txn.stageEffects_mismatched h
  rw [hs.user] at hne
  exact ⟨c, hc, hk, hne⟩

/-- A failed compare of a call with effects did not hold on its snapshot. -/
theorem prepared_mismatched {prepared : Prepared κ β} {key : κ}
    (h : prepared.body leases effectLeases now (Txn.begin s) = .error (.kvCompareFailed key)) :
    Txn.Mismatched s prepared.effects.kvCompares key := by
  cases prepared with
  | enqueue job effects =>
    rcases Except.bind_eq_error.mp (error_of_map h) with h | ⟨⟨t₁, written⟩, h₁, h⟩
    · exact (Txn.internal_stageJobWrites.of_error h).elim
    cases written with
    | error existing => cases h
    | ok id =>
      rcases Except.bind_eq_error.mp h with h | ⟨⟨t₂, results⟩, -, h⟩
      · exact mismatched_of_stageEffects (Txn.internal_stageJobWrites.of_ok h₁) h
      · cases h
  | commitEffects effects =>
    rcases Except.bind_eq_error.mp (error_of_map h) with h | ⟨⟨t₁, results⟩, -, h⟩
    · exact mismatched_of_stageEffects (.refl _) h
    · cases h
  | settle claim settlement effects =>
    rcases Except.bind_eq_error.mp (error_of_map h) with h | ⟨⟨t₁, job⟩, h₁, h⟩
    · exact (Txn.internal_takeClaim.of_error h).elim
    rcases Except.bind_eq_error.mp h with h | ⟨⟨t₂, job'⟩, h₂, h⟩
    · exact (Txn.internal_stageClaimEnd.of_error h).elim
    simp only at h
    split at h
    · rcases Except.bind_eq_error.mp h with h | ⟨⟨t₃, results⟩, -, h⟩
      · exact mismatched_of_stageEffects
          ((Txn.internal_takeClaim.of_ok h₁).trans (Txn.internal_stageClaimEnd.of_ok h₂)) h
      · cases h
    · cases h
  | cancel id effects =>
    rcases Except.bind_eq_error.mp (error_of_map h) with h | ⟨⟨t₁, staged⟩, h₁, h⟩
    · exact (Txn.internal_stageCancel.of_error h).elim
    cases staged with
    | removed job =>
      rcases Except.bind_eq_error.mp h with h | ⟨⟨t₂, results⟩, -, h⟩
      · exact mismatched_of_stageEffects (Txn.internal_stageCancel.of_ok h₁) h
      · cases h
    | requested | alreadyRequested | notFound => cases h

theorem body_error {request : Request κ β} {e : Error κ}
    (h : request.body leases effectLeases now (Txn.begin s) = .error e) :
    (∃ key, Answer.ofError e = .unmatched key ∧ Txn.Mismatched s request.compares key) ∨
      ∃ error, Answer.ofError e = .failed error := by
  cases e with
  | kvCompareFailed key =>
    refine .inl ⟨key, rfl, ?_⟩
    cases request with
    | kvPut | kvDelete => cases h
    | kvCompareThen k expected value =>
      have h := error_of_map h
      unfold Txn.kvCompareThen at h
      split at h <;> cases h
    | effects prepared => exact prepared_mismatched (error_of_map h)
  | _ => exact .inr ⟨_, rfl⟩

theorem body_abort {request : Request κ β} {answer : Answer κ}
    (h : request.body leases effectLeases now (Txn.begin s) = .ok (t, .abort answer)) :
    (∃ key, answer = .unmatched key ∧ Txn.Mismatched s request.compares key) ∨
      answer = .discarded := by
  cases request with
  | kvPut | kvDelete => cases h
  | kvCompareThen k expected value =>
    obtain ⟨matched, hr, rfl⟩ := abort_of_map h
    unfold Txn.kvCompareThen at hr
    split_ifs at hr with hne
    · cases hr
    · cases hr
      exact .inl ⟨k, rfl, _, .head _, rfl, hne⟩
  | effects prepared =>
    obtain ⟨value, hr, rfl⟩ := abort_of_map h
    have hnone := (Taquba.body_abort hr).2.results_eq_none
    simp [hnone]

/-- An attempt that commits is one of the call. When it applies the operation, the compares
hold on its snapshot and are read, and its changes are those of the operation. Otherwise it
changes no user key. -/
theorem body_commit {request : Request κ β} {answer : Answer κ} (hi : StoreInv s)
    (hp : (request.call leases effectLeases now).Pre s)
    (h : request.body leases effectLeases now (Txn.begin s) = .ok (t, .commit answer)) :
    (request.call leases effectLeases now).attempt s = some (t, []) ∧
      ((answer = .applied ∧
        (∀ c ∈ request.compares, s (.user c.key) = c.expected ∧ .user c.key ∈ t.tracked) ∧
        (request.call leases effectLeases now).kvChanges s = request.changes) ∨
      answer = .discarded ∧ (request.call leases effectLeases now).kvChanges s = []) := by
  cases request with
  | kvPut key value =>
    cases h
    exact ⟨rfl, .inl ⟨rfl, by simp [Request.compares], rfl⟩⟩
  | kvDelete key =>
    cases h
    exact ⟨rfl, .inl ⟨rfl, by simp [Request.compares], rfl⟩⟩
  | kvCompareThen key expected value =>
    obtain ⟨matched, hr, rfl⟩ := commit_of_map h
    refine ⟨by simp [Request.call, Call.attempt, Call.committing, Call.noJobs, hr], .inl ?_⟩
    obtain ⟨heq, rfl, rfl⟩ := Txn.kvCompareThen_eq_ok hr
    refine ⟨rfl, ?_, rfl⟩
    simp only [Request.compares, List.mem_singleton, forall_eq]
    refine ⟨heq, List.mem_append_right _ ?_⟩
    cases value <;> simp [Txn.put, Txn.delete, Txn.markRead]
  | effects prepared =>
    obtain ⟨value, hr, rfl⟩ := commit_of_map h
    obtain ⟨hattempt, happlied, -⟩ := Taquba.body_commit hi hp hr
    refine ⟨hattempt, ?_⟩
    have hchanges : (prepared.call leases effectLeases now).kvChanges s =
        (value.results.map fun _ => prepared.effects).elim [] PreparedEffects.kvChanges := by
      rw [← happlied]
      cases prepared <;> rfl
    cases hv : value.results with
    | some results =>
      rw [hv] at happlied hchanges
      refine .inl ⟨rfl, fun c hc => ?_, hchanges⟩
      have hcompared := Call.attempt_compared hattempt happlied c hc
      exact ⟨hcompared.1, List.mem_append_right _ hcompared.2⟩
    | none =>
      rw [hv] at hchanges
      exact .inr ⟨rfl, hchanges⟩

end Body

end Taquba.Kv
