import Taquba.Count.Runs
import Taquba.Effects.Calls
import Taquba.Queue.Clients

/-! # Effects are all or nothing

Calls with settlement effects run between the commits of other calls. A call prepares its
effects once. Then it attempts its body on the current state until an attempt gives the
transaction up, fails, or commits without a conflict. A call that returns with the results
of its effects has made one commit, of its job transition and of every effect. Any other
call has made one commit of its job transition alone, or none.
-/

namespace Taquba.Effects

open Clock Snapshot Transition

variable {κ β : Type}

/-- A call between two transactions, before the commit of the one it staged on the state
after `snap` commits, or at its end. -/
inductive Phase (κ β : Type) where
  | ready (prepared : Prepared κ β)
  | staged (prepared : Prepared κ β) (leases effectLeases : Leases) (now snap : ℕ)
      (value : Returned)
  | returned (prepared : Prepared κ β) (value : Returned)
  | refused (refusal : Refusal κ)

/-- A call, with the places of its commits in the history. -/
structure Progress (κ β : Type) where
  caller : Caller
  effects : SettlementEffects κ β
  phase : Phase κ β
  commits : List ℕ := []

structure State (κ β : Type) where
  queue : Queue.State κ β := {}
  calls : List (Progress κ β) := []

inductive Label (κ β : Type) where
  | start (caller : Caller) (effects : SettlementEffects κ β) (preparing : Preparing)
  | attempt (i : ℕ) (leases effectLeases : Leases) (now : ℕ)
  | commit (i : ℕ)
  | fail (i : ℕ)
  | other (label : Queue.Label κ β)

section Step

variable [DecidableEq κ] [DecidableEq β]

def started (configs : Configs β) (caller : Caller) (effects : SettlementEffects κ β)
    (preparing : Preparing) : Phase κ β :=
  match caller.prepare configs effects preparing with
  | .ok prepared => .ready prepared
  | .error refusal => .refused refusal

def attempted (log : History κ β) (prepared : Prepared κ β) (leases effectLeases : Leases)
    (now : ℕ) : Phase κ β :=
  match prepared.body leases effectLeases now (Txn.begin log.store) with
  | .ok (_, .commit value) => .staged prepared leases effectLeases now log.length value
  | .ok (_, .abort value) => .returned prepared value
  | .error error => .refused (.body error)

def State.setCall (s : State κ β) (i : ℕ) (c : Progress κ β) : State κ β :=
  { s with calls := s.calls.set i c }

/-- The commit of a staged transaction, or the return to the loop after a conflict. -/
def commit (s : State κ β) (i : ℕ) (c : Progress κ β) (prepared : Prepared κ β) (call : Call κ β)
    (snap : ℕ) (value : Returned) : Option (State κ β) :=
  match call.attempt (Log.store (s.queue.log.take snap)) with
  | some (t, _) =>
    if s.queue.log.Conflicts snap t.tracked then
      some (s.setCall i { c with phase := .ready prepared })
    else
      (Queue.step s.queue (.commit call snap)).map fun queue =>
        { s with queue }.setCall i { c with
          phase := .returned prepared value
          commits := c.commits ++ [s.queue.log.length] }
  | none => none

def step (configs : Configs β) (s : State κ β) : Label κ β → Option (State κ β)
  | .start caller effects preparing =>
    let phase := started configs caller effects preparing
    some { s with calls := s.calls ++ [{ caller, effects, phase }] }
  | .attempt i leases effectLeases now =>
    match s.calls[i]? with
    | some c =>
      match c.phase with
      | .ready prepared => some (s.setCall i
          { c with phase := attempted s.queue.log prepared leases effectLeases now })
      | _ => none
    | none => none
  | .commit i =>
    match s.calls[i]? with
    | some c =>
      match c.phase with
      | .staged prepared leases effectLeases now snap value =>
        commit s i c prepared (prepared.call leases effectLeases now) snap value
      | _ => none
    | none => none
  | .fail i =>
    match s.calls[i]? with
    | some c =>
      match c.phase with
      | .ready _ | .staged _ _ _ _ _ _ => some (s.setCall i { c with phase := .refused .storage })
      | _ => none
    | none => none
  | .other (.reopen kept todo) =>
    (Queue.step s.queue (.reopen kept todo)).map fun queue => { queue, calls := [] }
  | .other label => (Queue.step s.queue label).map fun queue => { s with queue }

/-- The runs of a queue with calls that take effects. -/
def machine (configs : Configs β) : Machine (State κ β) (Label κ β) where
  init s := s = {}
  step := step configs

end Step

/-- The enqueue of the request returned the id of the job that the store has for it, or
another job held its dedup key. -/
def Enqueued (s : Store (Val κ β)) (request : EnqueueRequest) : EnqueueResult → Prop
  | .new id => ∃ key job, s (.jobIndex id) = some key ∧ s (.record key) = some job ∧
      key.id = id ∧ key.queue.name = request.queue ∧ job.headers = request.options.headers ∧
      (job.payload = request.payload ∨ job.payloadRef.isSome) ∧
      ∀ supplied ∈ request.options.idOverride, id = supplied
  | .alreadyEnqueued _ => request.options.dedupKey ≠ none

structure Applied (checks : Bool) (effects : SettlementEffects κ β)
    (results : List EnqueueResult) (notes : CommitNotes) (s s' : Store (Val κ β)) [DecidableEq κ] :
    Prop where
  written : ∀ k v, effects.kvWrites.lookup k = some v → s' (.user k) = some v
  deleted : ∀ k ∈ effects.kvDeletes, s' (.user k) = none
  other : ∀ k, k ∉ effects.kvWrites → k ∉ effects.kvDeletes → s' (.user k) = s (.user k)
  counted : ∀ name, addI64 checks (activeCount s name)
    ((effects.countChanges.lookup name).getD 0) = some (activeCount s' name)
  expiry : ∀ e ∈ effects.expiryEntries, e ∈ notes.expiry
  enqueued : List.Forall₂ (Enqueued s') effects.enqueues results

section Complete

variable [DecidableEq κ]

/-- The commit at a place of the history performed the job transition of the call and then
`bs` on the state before it. -/
structure Performed (log : History κ β) (prepared : Prepared κ β) (value : Returned) (n : ℕ)
    (commit : CallCommit κ β) (as bs : List (JobAction κ β)) : Prop where
  commit : log[n]? = some commit
  transition : JobTransition prepared value as
  enabled : (jobActions κ β).AllEnabled (as ++ bs) (Log.store (log.take n))
  store : Log.store (log.take (n + 1)) =
    (Log.store (log.take n)).applyBatch ((jobActions κ β).batch (as ++ bs))

/-- What the commits of a call are when it has returned so: one commit of the transition
and the effects, none, or one of the transition alone. -/
def Complete (log : History κ β) (c : Progress κ β) (prepared : Prepared κ β)
    (value : Returned) : Prop :=
  match value.results with
  | some results => ∃ n commit as bs, c.commits = [n] ∧
      Performed log prepared value n commit as bs ∧
      EffectActions prepared.effects results commit.label.notes bs ∧
      Applied prepared.effects.overflowChecks c.effects results commit.label.notes
        (Log.store (log.take n)) (Log.store (log.take (n + 1)))
  | none => c.commits = [] ∧ value.Aborted ∨
      ∃ n commit as, c.commits = [n] ∧ Performed log prepared value n commit as []

end Complete

section Commit

variable [DecidableEq κ]

def HasJob (s : Store (Val κ β)) (inserted : JobRecord) : Prop :=
  ∃ key job, s (.jobIndex inserted.id) = some key ∧ s (.record key) = some job ∧
    key.id = inserted.id ∧ key.queue = inserted.queue ∧ job.headers = inserted.headers ∧
    job.payloadRef = inserted.payloadRef ∧
    (inserted.payloadRef = none → job.payload = inserted.payload)

variable {as : List (JobAction κ β)}

theorem record_of_insert {s : Store (Val κ β)} {new : List PreparedJob} (hi : StoreInv s)
    (he : (jobActions κ β).AllEnabled as s) (has : ∀ a ∈ as, a.IsEffect ∧ a.Carries new)
    {inserted : JobRecord} (h : inserted ∈ as.filterMap (·.inserted?)) :
    HasJob (s.applyBatch ((jobActions κ β).batch as)) inserted := by
  induction as generalizing s with
  | nil => cases h
  | cons a as ih =>
    rw [Actions.batch_cons, Store.applyBatch_append]
    have hi' := StoreInv.action a s hi he.1
    have has' : ∀ b ∈ as, b.IsEffect ∧ b.Carries new := fun b hb => has b (.tail _ hb)
    obtain ⟨b, hb, hins⟩ := List.mem_filterMap.mp h
    rcases List.mem_cons.mp hb with rfl | hb
    · cases b with
      | insert job key =>
        cases hins
        have hrecord := JobAction.insert_record s job key key
        rw [if_pos rfl] at hrecord
        have hpasses : ∀ b ∈ as, b.Passes (fun _ => True) (fun _ => False) := by
          intro b hb
          cases b with
          | remove => exact (has' _ hb).1.elim
          | _ => simp [JobAction.Passes]
        have hev := evolves_actions hi' he.2 (fun b hb => (has' b hb).2) hpasses
        obtain hgone | ⟨key', job', hj', hf, -⟩ := hev.forth key _ hrecord
        · exact hgone.elim
        have hi'' := he.2.invariant StoreInv.action hi'
        obtain ⟨-, hq, hid⟩ := JobRecord.storedKey_spec he.1.2.1
        refine ⟨key', job', ?_, hj', hf.id.trans hid, hf.queue.trans hq, hf.headers,
          hf.payloadRef, fun hr => ?_⟩
        · have := (hi''.record_index key' job' hj').1
          rwa [hf.id.trans hid] at this
        · exact (hf.payload hr).trans (payload_stored hr)
      | _ => cases hins
    · exact ih hi' he.2 has' (List.mem_filterMap.mpr ⟨b, hb, hins⟩)

omit [DecidableEq κ] in
theorem enqueued_of_hasJob {s : Store (Val κ β)} {requests : List EnqueueRequest}
    {jobs : List PreparedJob} {results : List EnqueueResult}
    (hp : List.Forall₂ Prepares requests jobs) (ha : List.Forall₂ Answers jobs results)
    (hw : ∀ p ∈ writtenJobs jobs results, HasJob s p.job.identity) :
    List.Forall₂ (Enqueued s) requests results := by
  induction hp generalizing results with
  | nil =>
    cases ha
    exact .nil
  | @cons request p requests jobs hprep _ ih =>
    cases ha with
    | @cons _ result _ results hans ha =>
      rcases hans with rfl | ⟨hd, existing, rfl⟩
      · obtain ⟨key, job, hidx, hrec, hid, hq, hh, hr, hpl⟩ := hw p (by simp [writtenJobs])
        refine .cons ⟨key, job, hidx, hrec, hid, ?_, hh.trans hprep.headers, ?_, hprep.id⟩
          (ih ha fun q hq => hw q (by simp [writtenJobs, hq]))
        · rw [hq]
          exact hprep.queue
        · cases hpr : p.job.payloadRef with
          | none =>
            refine .inl ((hpl hpr).trans ?_)
            exact hprep.payload.resolve_right (by simp [hpr])
          | some name =>
            refine .inr ?_
            rw [hr]
            simp [JobRecord.identity, hpr]
      · refine .cons (fun hn => hd (hprep.dedupKey.trans hn)) (ih ha fun q hq => hw q ?_)
        simpa [writtenJobs] using hq

variable [DecidableEq β] {log : History κ β} {snap : ℕ} {t : Txn κ β} {prepared : Prepared κ β}
  {leases effectLeases : Leases} {now : ℕ} {value : Returned}

def entry (prepared : Prepared κ β) (leases effectLeases : Leases) (now snap : ℕ) (t : Txn κ β) :
    CallCommit κ β :=
  ⟨⟨prepared.call leases effectLeases now, snap, t.notes, t.stats, []⟩, t.writes⟩

/-- A commit without conflict performs the transition and the effects of its body on the
state it commits to. -/
theorem performed_of_commit (hs : log.Sound)
    (hp : (prepared.call leases effectLeases now).Pre (Log.store (log.take snap)))
    (hb : prepared.body leases effectLeases now (Txn.begin (Log.store (log.take snap)))
      = .ok (t, .commit value))
    (hc : ¬ log.Conflicts snap t.tracked) :
    ∃ as bs, prepared.Stages value t.notes as bs ∧
      Performed (log ++ [entry prepared leases effectLeases now snap t]) prepared value log.length
        (entry prepared leases effectLeases now snap t) as bs := by
  obtain ⟨-, -, as, bs, he, hstages⟩ := body_commit (hs.take snap).storeInv hp hb
  have hrerun := extends_rerun (entry prepared leases effectLeases now snap t).label he hc
  refine ⟨as, bs, hstages, ?_, hstages.1, ?_, ?_⟩
  · simp
  · rw [List.take_left]
    exact hrerun.1
  · rw [List.take_left, List.take_of_length_le (by simp)]
    exact hrerun.2

theorem applied_of_commit (hs : log.Sound) (hl : log.Counted)
    (hp : (prepared.call leases effectLeases now).Pre (Log.store (log.take snap)))
    (hb : prepared.body leases effectLeases now (Txn.begin (Log.store (log.take snap)))
      = .ok (t, .commit value)) (hc : ¬ log.Conflicts snap t.tracked)
    {effects : SettlementEffects κ β} (hfrom : PreparedFrom effects prepared.effects)
    {results : List EnqueueResult} (hresults : value.results = some results)
    {bs : List (JobAction κ β)} (he : EffectActions prepared.effects results t.notes bs)
    (henabled : (jobActions κ β).AllEnabled (as ++ bs) log.store)
    (hstore : Log.store (log ++ [entry prepared leases effectLeases now snap t]) =
      log.store.applyBatch ((jobActions κ β).batch (as ++ bs))) :
    Applied prepared.effects.overflowChecks effects results t.notes log.store
      (Log.store (log ++ [entry prepared leases effectLeases now snap t])) := by
  obtain ⟨hattempt, happlied, -⟩ := body_commit (hs.take snap).storeInv hp hb
  rw [hresults] at happlied
  have hchanges : (prepared.call leases effectLeases now).kvChanges (Log.store (log.take snap)) =
      prepared.effects.kvChanges := by
    cases prepared <;> simpa [Call.kvChanges, Prepared.call] using
      congrArg (fun e => e.elim [] PreparedEffects.kvChanges) happlied
  have huser : ∀ k, Log.store (log ++ [entry prepared leases effectLeases now snap t]) (.user k) =
      kvAfter prepared.effects.kvChanges k (log.store (.user k)) := by
    intro k
    rw [Log.store_append_singleton, ← hchanges]
    exact Call.user_of_attempt hattempt log.store k
  constructor
  · intro k v hk
    rw [huser]
    exact hfrom.kvAfter_written hk _
  · intro k hk
    rw [huser]
    exact hfrom.kvAfter_deleted hk _
  · intro k hw hd
    rw [huser]
    exact hfrom.kvAfter_other hw hd _
  · intro name
    have hactive := (countCommit_of_attempt hs hl hp hattempt hc).active name
    rw [Log.store_append_singleton, addI64_eq_some_iff, ← hfrom.countChange_eq]
    simpa [History.countChange, Call.countChange, Call.overflowChecks, happlied, entry]
      using hactive
  · intro e hm
    exact he.expiry e (hfrom.expiry ▸ hm)
  · refine enqueued_of_hasJob hfrom.jobs he.answers fun p hpw => ?_
    obtain ⟨hea, heb⟩ := henabled.of_append
    rw [hstore, Actions.batch_append, Store.applyBatch_append]
    refine record_of_insert (hea.invariant StoreInv.action hs.storeInv) heb he.effect ?_
    rw [he.inserted]
    exact List.mem_map_of_mem hpw

theorem complete_of_commit (hs : log.Sound) (hl : log.Counted)
    (hp : (prepared.call leases effectLeases now).Pre (Log.store (log.take snap)))
    (hb : prepared.body leases effectLeases now (Txn.begin (Log.store (log.take snap)))
      = .ok (t, .commit value))
    (hc : ¬ log.Conflicts snap t.tracked) {c : Progress κ β}
    (hfrom : PreparedFrom c.effects prepared.effects) (hcommits : c.commits = [log.length]) :
    Complete (log ++ [entry prepared leases effectLeases now snap t]) c prepared value := by
  obtain ⟨as, bs, ⟨-, hstages⟩, hperformed⟩ := performed_of_commit hs hp hb hc
  have henabled := hperformed.enabled
  have hstore := hperformed.store
  rw [List.take_left] at henabled hstore
  rw [List.take_of_length_le (by simp)] at hstore
  unfold Complete
  cases hresults : value.results with
  | some results =>
    rw [hresults] at hstages
    refine ⟨log.length, _, as, bs, hcommits, hperformed, hstages, ?_⟩
    rw [List.take_left, List.take_of_length_le (by simp)]
    exact applied_of_commit hs hl hp hb hc hfrom hresults hstages henabled hstore
  | none =>
    rw [hresults] at hstages
    subst hstages
    exact .inr ⟨log.length, _, as, hcommits, hperformed⟩

omit [DecidableEq β] in
theorem Performed.append {n : ℕ} {commit d : CallCommit κ β}
    {bs : List (JobAction κ β)} (h : Performed log prepared value n commit as bs) :
    n + 1 ≤ log.length ∧ Performed (log ++ [d]) prepared value n commit as bs := by
  have hn := (List.getElem?_eq_some_iff.mp h.commit).1
  refine ⟨hn, ?_, h.transition, ?_, ?_⟩
  · rw [List.getElem?_append_left hn]
    exact h.commit
  · rw [List.take_append_of_le_length (by omega)]
    exact h.enabled
  · rw [List.take_append_of_le_length (by omega), List.take_append_of_le_length (by omega)]
    exact h.store

omit [DecidableEq β] in
theorem Complete.append {c : Progress κ β} (h : Complete log c prepared value)
    (d : CallCommit κ β) : Complete (log ++ [d]) c prepared value := by
  unfold Complete at h ⊢
  cases hresults : value.results with
  | some results =>
    rw [hresults] at h
    obtain ⟨n, commit, as, bs, hcommits, hperformed, he, ha⟩ := h
    obtain ⟨hn, hperformed'⟩ := hperformed.append (d := d)
    refine ⟨n, commit, as, bs, hcommits, hperformed', he, ?_⟩
    rwa [List.take_append_of_le_length (by omega), List.take_append_of_le_length (by omega)]
  | none =>
    rw [hresults] at h
    rcases h with h | ⟨n, commit, as, hcommits, hperformed⟩
    · exact .inl h
    · exact .inr ⟨n, commit, as, hcommits, (hperformed.append (d := d)).2⟩

end Commit

section Runs

variable [DecidableEq κ] [DecidableEq β] {configs : Configs β} {s s' : State κ β}

omit [DecidableEq β] in
theorem prepare_eq_ok {caller : Caller} {effects : SettlementEffects κ β} {preparing : Preparing}
    {prepared : Prepared κ β} (h : caller.prepare configs effects preparing = .ok prepared) :
    PreparedFrom effects prepared.effects := by
  cases caller with
  | enqueueWithEffects queue payload opts =>
    obtain ⟨job, -, h⟩ := Except.bind_eq_ok.mp h
    obtain ⟨e, he, h⟩ := Except.bind_eq_ok.mp h
    cases h
    exact prepareEffects_eq_ok he
  | commitEffects | settleClaim | cancelWith =>
    obtain ⟨e, he, rfl⟩ := Except.map_eq_ok.mp h
    exact prepareEffects_eq_ok he

/-- What refuses a call: its preparation, the body of its transaction or the store. -/
def Refuses (configs : Configs β) (c : Progress κ β) (refusal : Refusal κ) : Prop :=
  (∃ preparing, c.caller.prepare configs c.effects preparing = .error refusal) ∨
    (∃ error, refusal = .body error) ∨ refusal = .storage

/-- A call in progress has no commit, and what it staged is the result of its body. A call
that has returned is complete. -/
def CallInv (configs : Configs β) (log : History κ β) (c : Progress κ β) : Prop :=
  match c.phase with
  | .ready prepared =>
    c.commits = [] ∧ ∃ preparing, c.caller.prepare configs c.effects preparing = .ok prepared
  | .staged prepared leases effectLeases now snap value =>
    c.commits = [] ∧ (∃ preparing, c.caller.prepare configs c.effects preparing = .ok prepared) ∧
      snap ≤ log.length ∧ ∃ t,
        prepared.body leases effectLeases now (Txn.begin (Log.store (log.take snap)))
          = .ok (t, .commit value)
  | .returned prepared value =>
    (∃ preparing, c.caller.prepare configs c.effects preparing = .ok prepared) ∧
      (c.commits = [] → prepared.CanAbort) ∧ Complete log c prepared value
  | .refused refusal => c.commits = [] ∧ Refuses configs c refusal

variable {c : Progress κ β}

theorem CallInv.append {log : History κ β} (h : CallInv configs log c)
    (d : CallCommit κ β) : CallInv configs (log ++ [d]) c := by
  unfold CallInv at h ⊢
  cases hphase : c.phase with
  | ready prepared =>
    rw [hphase] at h
    exact h
  | staged prepared leases effectLeases now snap value =>
    rw [hphase] at h
    obtain ⟨hcommits, hbuilt, hsnap, hbody⟩ := h
    refine ⟨hcommits, hbuilt, ?_, ?_⟩
    · rw [List.length_append]
      omega
    · rwa [List.take_append_of_le_length hsnap]
  | returned prepared value =>
    rw [hphase] at h
    exact ⟨h.1, h.2.1, h.2.2.append d⟩
  | refused refusal =>
    rw [hphase] at h
    exact h

theorem callInv_started (log : History κ β) (caller : Caller) (effects : SettlementEffects κ β)
    (preparing : Preparing) :
    CallInv configs log ⟨caller, effects, started configs caller effects preparing, []⟩ := by
  unfold CallInv started
  cases hp : caller.prepare configs effects preparing with
  | ok prepared => exact ⟨rfl, preparing, hp⟩
  | error refusal => exact ⟨rfl, .inl ⟨preparing, hp⟩⟩

theorem callInv_attempted {log : History κ β} {prepared : Prepared κ β} (h : CallInv configs log c)
    (hphase : c.phase = .ready prepared) (leases effectLeases : Leases) (now : ℕ) :
    CallInv configs log { c with phase := attempted log prepared leases effectLeases now } := by
  unfold CallInv at h
  rw [hphase] at h
  obtain ⟨hcommits, hbuilt⟩ := h
  unfold CallInv attempted
  match hb : prepared.body leases effectLeases now (Txn.begin log.store) with
  | .ok (t, .commit value) =>
    refine ⟨hcommits, hbuilt, le_refl _, t, ?_⟩
    rwa [List.take_length]
  | .ok (t, .abort value) =>
    obtain ⟨hcan, habort⟩ := body_abort hb
    refine ⟨hbuilt, fun _ => hcan, ?_⟩
    unfold Complete
    rw [habort.results_eq_none]
    exact .inl ⟨hcommits, habort⟩
  | .error error => exact ⟨hcommits, .inr (.inl ⟨error, rfl⟩)⟩

/-- A step of a call leaves the history, or it is the commit of the call, which adds one
commit and notes its place. The other steps are those of other calls. -/
def Accounted (s : State κ β) (l : Label κ β) (s' : State κ β) : Prop :=
  Queue.Accounted Progress.commits (∃ label, l = .other label) (fun i => l = .commit i) s.queue
    s'.queue s.calls s'.calls

abbrev Inv (configs : Configs β) (s : State κ β) : Prop :=
  Queue.Serves (CallInv configs) s.queue s.calls

theorem inv_commit {i : ℕ} {prepared : Prepared κ β} {leases effectLeases : Leases}
    {now snap : ℕ} {value : Returned} (hi : Inv configs s) (hc : s.calls[i]? = some c)
    (hphase : c.phase = .staged prepared leases effectLeases now snap value)
    (h : commit s i c prepared (prepared.call leases effectLeases now) snap value = some s') :
    Inv configs s' ∧ Accounted s (.commit i) s' := by
  have hinv := hi.calls c (List.mem_of_getElem? hc)
  unfold CallInv at hinv
  rw [hphase] at hinv
  obtain ⟨hcommits, hbuilt, hsnap, t, hbody⟩ := hinv
  unfold commit at h
  split at h
  · split at h
    · cases h
      exact ⟨hi.set ⟨hcommits, hbuilt⟩, .inl rfl⟩
    · obtain ⟨queue, hstep, rfl⟩ := Option.map_eq_some_iff.mp h
      refine ⟨(hi.other CallInv.append (by simp) hstep).set ⟨hbuilt, by simp, ?_⟩,
        .of_commit rfl hc rfl hstep⟩
      have hsound := (Queue.inv_reachable hi.reachable).sound
      obtain ⟨-, hg, t', delivered, ht, hnc, rfl⟩ := Queue.commit_eq_some hstep
      have hp := hg.pre hsound
      obtain ⟨hattempt, -⟩ := body_commit (hsound.take snap).storeInv hp hbody
      obtain ⟨rfl, rfl⟩ := Prod.mk.inj (Option.some.inj (hattempt.symm.trans ht))
      obtain ⟨preparing, hprepare⟩ := hbuilt
      exact complete_of_commit hsound (Queue.counted_reachable hi.reachable) hp hbody hnc
        (prepare_eq_ok hprepare) (by simp [hcommits])
  · cases h

theorem inv_step {l : Label κ β} (hi : Inv configs s) (h : step configs s l = some s') :
    Inv configs s' ∧ Accounted s l s' := by
  cases l with
  | start caller effects preparing =>
    cases h
    exact ⟨hi.add (callInv_started _ _ _ _), .inl rfl⟩
  | attempt i leases effectLeases now =>
    simp only [step] at h
    split at h
    · rename_i c hc
      split at h
      · rename_i prepared hphase
        cases h
        have hcall := hi.calls c (List.mem_of_getElem? hc)
        exact ⟨hi.set (callInv_attempted hcall hphase leases effectLeases now), .inl rfl⟩
      · cases h
    · cases h
  | commit i =>
    simp only [step] at h
    split at h
    · rename_i c hc
      split at h
      · rename_i hphase
        exact inv_commit hi hc hphase h
      · cases h
    · cases h
  | fail i =>
    simp only [step] at h
    split at h
    · rename_i c hc
      have hcall := hi.calls c (List.mem_of_getElem? hc)
      unfold CallInv at hcall
      split at h
      · rename_i hphase
        cases h
        rw [hphase] at hcall
        exact ⟨hi.set ⟨hcall.1, .inr (.inr rfl)⟩, .inl rfl⟩
      · rename_i hphase
        cases h
        rw [hphase] at hcall
        exact ⟨hi.set ⟨hcall.1, .inr (.inr rfl)⟩, .inl rfl⟩
      · cases h
    · cases h
  | other label =>
    refine ⟨?_, .inr (.inl ⟨label, rfl⟩)⟩
    cases label with
    | reopen kept todo =>
      obtain ⟨queue, hstep, rfl⟩ := Option.map_eq_some_iff.mp h
      exact hi.reopen hstep
    | commit | requeue =>
      obtain ⟨queue, hstep, rfl⟩ := Option.map_eq_some_iff.mp h
      exact hi.other CallInv.append (by simp) hstep

theorem inv_reachable (h : (machine configs).Reachable s) : Inv configs s := by
  refine h.invariant ?_ fun s l s' hi hstep => (inv_step hi hstep).1
  rintro _ rfl
  exact ⟨.initial rfl, by simp⟩

/-- A call that has returned is complete, and any other call has made no commit. -/
def AllOrNothing (configs : Configs β) (log : History κ β) (c : Progress κ β) : Prop :=
  match c.phase with
  | .returned prepared value =>
    (∃ preparing, c.caller.prepare configs c.effects preparing = .ok prepared) ∧
      Complete log c prepared value
  | _ => c.commits = []

/-- In every run, a call that returns with the results of its effects has made one commit,
and that commit performs the job transition and applies every effect, with the returned ids.
A call that returns without them has made no commit, on the branches that abort, or one of
its job transition alone. A refused call and a call in progress have made none, and every
step of a call other than these commits leaves the store as it is. -/
theorem effects_all_or_nothing (h : (machine configs).Reachable s) :
    (∀ c ∈ s.calls, AllOrNothing configs s.queue.log c) ∧
    ∀ l s', step configs s l = some s' → Accounted s l s' := by
  have hi := inv_reachable h
  refine ⟨fun c hc => ?_, fun l s' hstep => (inv_step hi hstep).2⟩
  have hcall := hi.calls c hc
  unfold CallInv at hcall
  unfold AllOrNothing
  cases hphase : c.phase with
  | returned prepared value =>
    rw [hphase] at hcall
    exact ⟨hcall.1, hcall.2.2⟩
  | ready prepared =>
    rw [hphase] at hcall
    exact hcall.1
  | staged prepared leases effectLeases now snap value =>
    rw [hphase] at hcall
    exact hcall.1
  | refused refusal =>
    rw [hphase] at hcall
    exact hcall.1

end Runs

/-- Effects that write and delete a key, raise a count and enqueue two jobs, one of which has
the dedup key of the other. -/
def report : SettlementEffects ℕ ℕ where
  enqueues := [⟨"emails", [1], { dedupKey := some "daily" }⟩,
    ⟨"emails", [2], { dedupKey := some "daily" }⟩]
  kvWrites := AList.insert 1 7 ∅
  kvDeletes := [2]
  countChanges := AList.insert "reports" 1 ∅

/-- Two calls with the same effects stage their transactions on one state. The first commits,
and the second retries after the conflict and finds the dedup keys taken. -/
def twoReports : List (Label ℕ ℕ) :=
  let noLeases : Leases := fun _ _ => none
  let preparing (id : String) : Preparing :=
    { jobId := id, jobObject := none, generated := fun i => id ++ toString i
      names := fun _ => none, now := 5 }
  [.other (.commit (.kvPut 2 3) 0),
    .start .commitEffects report (preparing "a"), .start .commitEffects report (preparing "b"),
    .attempt 0 noLeases noLeases 5, .attempt 1 noLeases noLeases 5,
    .commit 0, .commit 1, .attempt 1 noLeases noLeases 6, .commit 1]

def Progress.summary (c : Progress κ β) : Option (Option (List EnqueueResult) × List ℕ) :=
  match c.phase with
  | .returned _ value => some (value.results, c.commits)
  | _ => none

theorem effects_all_or_nothing_after_conflict :
    ∃ s, (machine plainConfigs).run ({} : State ℕ ℕ) twoReports = some s ∧
      s.calls.map Progress.summary =
        [some (some [.new "a0", .alreadyEnqueued "a0"], [1]),
          some (some [.alreadyEnqueued "a0", .alreadyEnqueued "a0"], [2])] ∧
      ∀ c ∈ s.calls, AllOrNothing plainConfigs s.queue.log c := by
  obtain ⟨s, hs, hsummary⟩ : ∃ s, (machine plainConfigs).run ({} : State ℕ ℕ) twoReports = some s ∧
      s.calls.map Progress.summary =
        [some (some [.new "a0", .alreadyEnqueued "a0"], [1]),
          some (some [.alreadyEnqueued "a0", .alreadyEnqueued "a0"], [2])] :=
    Machine.exists_of_run_any (by decide +kernel)
  have hreach := Machine.reachable_of_run hs rfl
  exact ⟨s, hs, hsummary, (effects_all_or_nothing hreach).1⟩

end Taquba.Effects
