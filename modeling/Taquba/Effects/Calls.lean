import Taquba.Effects.Prepare
import Taquba.Recovery.Commits

/-! # The calls that take settlement effects

An enqueue, a commit of effects, the settlements of a claim and a cancel prepare their
effects and then run one body in every transaction of the retry loop. The body stages the
job transition of the call, and then the effects or nothing. It commits, except on a
dedup hit and on a cancel that finds nothing to do.
-/

namespace Taquba

open Snapshot

inductive Caller where
  | enqueueWithEffects (queue : String) (payload : List UInt8) (opts : EnqueueOptions)
  | commitEffects
  | settleClaim (claim : ClaimFence) (settlement : Settlement)
  | cancelWith (id : String)

namespace Caller

def ackWith (claim : ClaimFence) (keep : Bool) : Caller := .settleClaim claim (.ack keep)

def nackWith (claim : ClaimFence) (error : String) (backoff : ℕ → Option ℕ) : Caller :=
  .settleClaim claim (.nack error backoff)

def deadLetterWith (claim : ClaimFence) (reason : String) : Caller :=
  .settleClaim claim (.deadLetter reason)

end Caller

def Attempt.map {α γ : Type} (f : α → γ) : Attempt α → Attempt γ
  | .commit value => .commit (f value)
  | .abort value => .abort (f value)

variable {κ β : Type}

inductive Prepared (κ β : Type) where
  | enqueue (job : PreparedJob) (effects : PreparedEffects κ β)
  | commitEffects (effects : PreparedEffects κ β)
  | settle (claim : ClaimFence) (settlement : Settlement) (effects : PreparedEffects κ β)
  | cancel (id : String) (effects : PreparedEffects κ β)

/-- What a call returns. The results of the effects are missing when it discarded them. -/
inductive Returned where
  | enqueued (result : EnqueueResult) (results : Option (List EnqueueResult))
  | effects (results : List EnqueueResult)
  | settled (job : JobRecord) (claimEnd : ClaimEnd) (results : Option (List EnqueueResult))
  | cancelled (staged : StagedCancel) (results : Option (List EnqueueResult))

def Returned.results : Returned → Option (List EnqueueResult)
  | .enqueued _ results | .settled _ _ results | .cancelled _ results => results
  | .effects results => some results

/-- The branches that end without a commit. -/
def Returned.Aborted : Returned → Prop
  | .enqueued (.alreadyEnqueued _) none | .cancelled (.alreadyRequested _) none
  | .cancelled .notFound none => True
  | _ => False

theorem Returned.Aborted.results_eq_none {value : Returned} (h : value.Aborted) :
    value.results = none := by
  unfold Returned.Aborted at h
  split at h
  · rfl
  · rfl
  · rfl
  · exact h.elim

/-- The ids and the object names that a preparation uses, and its time. -/
structure Preparing where
  jobId : String
  jobObject : Option String
  generated : ℕ → String
  names : ℕ → Option String
  now : ℕ

/-- Prepare a call, before its transaction loop. -/
def Caller.prepare [DecidableEq κ] (configs : Configs β) (caller : Caller)
    (effects : SettlementEffects κ β) (preparing : Preparing) :
    Except (Refusal κ) (Prepared κ β) :=
  let prepareEffects :=
    prepareEffects configs effects preparing.generated preparing.names preparing.now
  match caller with
  | .enqueueWithEffects queue payload opts => do
    let job ← prepareJobRecord configs queue payload opts preparing.jobId preparing.now
    let effects ← prepareEffects
    return .enqueue (offloadPrepared job preparing.jobObject) effects
  | .commitEffects => prepareEffects.map .commitEffects
  | .settleClaim claim settlement => prepareEffects.map (.settle claim settlement)
  | .cancelWith id => prepareEffects.map (.cancel id)

namespace Prepared

/-- The calls with a branch that ends without a commit. -/
def CanAbort : Prepared κ β → Prop
  | .enqueue _ _ | .cancel _ _ => True
  | .commitEffects _ | .settle _ _ _ => False

def effects : Prepared κ β → PreparedEffects κ β
  | .enqueue _ effects | .commitEffects effects | .settle _ _ effects | .cancel _ effects => effects

/-- The transaction of the call, with what an attempt reads outside it. -/
def call (prepared : Prepared κ β) (leases effectLeases : Leases) (now : ℕ) : Call κ β :=
  match prepared with
  | .enqueue job effects => .enqueue effectLeases job effects
  | .commitEffects effects => .commitEffects effectLeases effects
  | .settle claim settlement effects =>
    .settle leases effectLeases claim.queue claim.id claim.claimId settlement effects now
  | .cancel id effects => .cancel effectLeases id effects

variable [DecidableEq κ] [DecidableEq β]

/-- One attempt of the call on a transaction that the retry loop began. -/
def body (prepared : Prepared κ β) (leases effectLeases : Leases) (now : ℕ) (t : Txn κ β) :
    Except (Error κ) (Txn κ β × Attempt Returned) :=
  match prepared with
  | .enqueue job effects => (t.writeJobTxn effectLeases job effects).map fun r =>
    (r.1, r.2.map fun
      | .ok (id, results) => .enqueued (.new id) (some results)
      | .error existing => .enqueued (.alreadyEnqueued existing) none)
  | .commitEffects effects => (t.commitEffects effectLeases effects).map fun r =>
    (r.1, r.2.map .effects)
  | .settle claim settlement effects =>
    (t.settleClaim leases effectLeases claim.queue claim.id claim.claimId settlement effects
      now).map fun r => (r.1, r.2.map fun v => .settled v.1 v.2.1 v.2.2)
  | .cancel id effects => (t.cancel effectLeases id effects).map fun r =>
    (r.1, r.2.map fun v => .cancelled v.1 v.2)

end Prepared

section Attempts

variable {α γ ε τ : Type} {f : α → γ} {r : Except ε (τ × Attempt α)} {t : τ} {value : γ}

theorem commit_of_map (h : r.map (fun r => (r.1, r.2.map f)) = .ok (t, .commit value)) :
    ∃ v, r = .ok (t, .commit v) ∧ f v = value := by
  match r with
  | .ok (t', .commit v) =>
    cases h
    exact ⟨v, rfl, rfl⟩
  | .ok (t', .abort v) => cases h
  | .error e => cases h

theorem abort_of_map (h : r.map (fun r => (r.1, r.2.map f)) = .ok (t, .abort value)) :
    ∃ v, r = .ok (t, .abort v) ∧ f v = value := by
  match r with
  | .ok (t', .commit v) => cases h
  | .ok (t', .abort v) =>
    cases h
    exact ⟨v, rfl, rfl⟩
  | .error e => cases h

end Attempts

/-- The job transition of a call that returned so, as the actions that perform it. -/
inductive JobTransition : Prepared κ β → Returned → List (JobAction κ β) → Prop where
  | enqueued {job : PreparedJob} {effects : PreparedEffects κ β} {results : List EnqueueResult}
      {as : List (JobAction κ β)} :
      (∀ a ∈ as, a.IsEffect ∧ a.Carries [job]) → as.filterMap (·.inserted?) = [job.job.identity] →
      JobTransition (.enqueue job effects) (.enqueued (.new job.job.id) (some results)) as
  | effects {effects : PreparedEffects κ β} {results : List EnqueueResult} :
      JobTransition (.commitEffects effects) (.effects results) []
  | completed {claim : ClaimFence} {settlement : Settlement} {effects : PreparedEffects κ β}
      {old job : JobRecord} {results : List EnqueueResult} {now : ℕ} :
      settlement.endFor old now = .done false →
      JobTransition (.settle claim settlement effects) (.settled job (.done false) (some results))
        [.remove (.claimed claim.queue claim.id) old true]
  | moved {claim : ClaimFence} {settlement : Settlement} {effects : PreparedEffects κ β}
      {old job : JobRecord} {claimEnd : ClaimEnd} {results : Option (List EnqueueResult)}
      {entry : JobAttempt} {key : RecordKey} {now : ℕ} :
      settlement.endFor old now = claimEnd → results.isSome = claimEnd.isTerminal →
      JobRecord.Same old job → job.status = claimEnd.status →
      JobTransition (.settle claim settlement effects) (.settled job claimEnd results)
        [.history claim.id entry, .move (.claimed claim.queue claim.id) old job key]
  | removed {id : String} {effects : PreparedEffects κ β} {key : RecordKey} {job : JobRecord}
      {results : List EnqueueResult} :
      key.id = id → key.keyStatus = .pending ∨ key.keyStatus = .scheduled →
      JobTransition (.cancel id effects) (.cancelled (.removed job) (some results))
        [.remove key job false]
  | requested {id : String} {effects : PreparedEffects κ β} {key : RecordKey}
      {old job : JobRecord} :
      key.id = id → key.keyStatus = .claimed → JobRecord.Same old job →
      job.cancelRequested = true →
      JobTransition (.cancel id effects) (.cancelled (.requested job) none) [.rewrite key old job]

/-- An enqueue of the effects returns the id of its job, or the holder of its dedup key. -/
def Answers (prepared : PreparedJob) (result : EnqueueResult) : Prop :=
  result = .new prepared.job.id ∨
    prepared.job.dedupKey ≠ none ∧ ∃ existing, result = .alreadyEnqueued existing

structure EffectActions (effects : PreparedEffects κ β) (results : List EnqueueResult)
    (notes : CommitNotes) (as : List (JobAction κ β)) : Prop where
  effect : ∀ a ∈ as, a.IsEffect ∧ a.Carries (writtenJobs effects.preparedJobs results)
  inserted : as.filterMap (·.inserted?) =
    (writtenJobs effects.preparedJobs results).map (·.job.identity)
  answers : List.Forall₂ Answers effects.preparedJobs results
  expiry : ∀ e ∈ effects.expiryEntries, e ∈ notes.expiry

namespace Txn

variable [DecidableEq κ] {t t' : Txn κ β}

theorem stageJobWrites_eq_ok {prepared : PreparedJob} {r : Except String String}
    (h : t.stageJobWrites prepared = .ok (t', r)) :
    r = .ok prepared.job.id ∨ prepared.job.dedupKey ≠ none ∧ ∃ existing, r = .error existing := by
  simp only [stageJobWrites] at h
  split at h
  · rename_i existing hd
    cases h
    refine .inr ⟨?_, existing, rfl⟩
    intro hk
    simp [dedupHolder, hk] at hd
  · split at h
    · cases h
    · obtain ⟨_, -, h⟩ := Except.bind_eq_ok.mp h
      obtain ⟨_, -, h⟩ := Except.bind_eq_ok.mp h
      cases h
      exact .inl rfl

theorem stageJobs_answers {jobs : List PreparedJob} {results : List EnqueueResult}
    (h : t.stageJobs jobs = .ok (t', results)) : List.Forall₂ Answers jobs results := by
  induction jobs generalizing t results with
  | nil =>
    cases h
    exact .nil
  | cons p jobs ih =>
    obtain ⟨⟨t₁, w⟩, h₁, h⟩ := Except.bind_eq_ok.mp h
    obtain ⟨⟨t₂, rs⟩, h₂, h⟩ := Except.bind_eq_ok.mp h
    cases h
    refine .cons ?_ (ih h₂)
    rcases stageJobWrites_eq_ok h₁ with rfl | ⟨hd, existing, rfl⟩
    · exact .inl rfl
    · exact .inr ⟨hd, existing, rfl⟩

omit [DecidableEq κ] in
theorem mem_expiry_foldl (entries : List (ExpiryIndex × ℕ)) {e : ExpiryIndex × ℕ} (t : Txn κ β)
    (h : e ∈ entries ∨ e ∈ t.notes.expiry) :
    e ∈ (entries.foldl (fun t e => t.noteExpiryEntry e.1 e.2) t).notes.expiry := by
  induction entries generalizing t with
  | nil => simpa using h
  | cons d entries ih =>
    apply ih
    rcases h with h | h
    · rcases List.mem_cons.mp h with rfl | h
      · exact .inr (List.mem_append_right _ (.head _))
      · exact .inl h
    · exact .inr (List.mem_append_left _ h)

theorem stageEffects_eq_ok [DecidableEq β] (hi : StoreInv t.view) {leases : Leases}
    {effects : PreparedEffects κ β} (hf : FreshIds t.view effects.preparedJobs)
    {results : List EnqueueResult} (h : t.stageEffects leases effects = .ok (t', results)) :
    ∃ as, Extends t t' as ∧ EffectActions effects results t'.notes as := by
  obtain ⟨as, he, has, hnoted⟩ := extends_stageEffects hi hf h
  obtain ⟨t₁, -, h⟩ := Except.bind_eq_ok.mp h
  obtain ⟨t₂, -, h⟩ := Except.bind_eq_ok.mp h
  obtain ⟨t₃, -, h⟩ := Except.bind_eq_ok.mp h
  obtain ⟨⟨t₄, rs⟩, h₄, h⟩ := Except.bind_eq_ok.mp h
  cases h
  exact ⟨as, he, has, hnoted, stageJobs_answers h₄, fun e hm => mem_expiry_foldl _ _ (.inl hm)⟩

end Txn

/-- The actions of an attempt that commits: the transition, and then the effects unless the
call discards them. -/
def Prepared.Stages (prepared : Prepared κ β) (value : Returned) (notes : CommitNotes)
    (as bs : List (JobAction κ β)) : Prop :=
  JobTransition prepared value as ∧
    match value.results with
    | some results => EffectActions prepared.effects results notes bs
    | none => bs = []

section Body

variable [DecidableEq κ] [DecidableEq β] {s : Store (Val κ β)} {t : Txn κ β}
  {leases effectLeases : Leases} {now : ℕ} {value : Returned}

theorem enqueue_commit (hi : StoreInv s) {job : PreparedJob} {effects : PreparedEffects κ β}
    (hf : Txn.FreshIds s (job :: effects.preparedJobs))
    (h : (Prepared.enqueue job effects).body leases effectLeases now (Txn.begin s)
      = .ok (t, .commit value)) :
    ∃ as bs, Txn.Extends (Txn.begin s) t (as ++ bs) ∧
      (Prepared.enqueue job effects).Stages value t.notes as bs ∧ value.results.isSome = true := by
  change StoreInv (Txn.begin s).view at hi
  change Txn.FreshIds (Txn.begin s).view _ at hf
  obtain ⟨v, hr, rfl⟩ := commit_of_map h
  obtain ⟨t₁, id, results, h₁, h₂, rfl⟩ := Txn.writeJobTxn_eq_ok hr
  obtain rfl : id = job.job.id := by simpa using Txn.stageJobWrites_eq_ok h₁
  obtain ⟨as, he, has, hins, hnoted⟩ := Txn.extends_stageJobWrites (hf.1 job (.head _)) h₁
  obtain ⟨bs, he', hbs⟩ := Txn.stageEffects_eq_ok (he.inv hi) (hf.tail hi he hins) h₂
  exact ⟨as, bs, he.trans he', ⟨.enqueued has hnoted, hbs⟩, rfl⟩

theorem commitEffects_commit (hi : StoreInv s) {effects : PreparedEffects κ β}
    (hf : Txn.FreshIds s effects.preparedJobs)
    (h : (Prepared.commitEffects effects).body leases effectLeases now (Txn.begin s)
      = .ok (t, .commit value)) :
    ∃ as bs, Txn.Extends (Txn.begin s) t (as ++ bs) ∧
      (Prepared.commitEffects effects).Stages value t.notes as bs ∧
      value.results.isSome = true := by
  obtain ⟨v, hr, rfl⟩ := commit_of_map h
  obtain ⟨bs, he, hbs⟩ :=
    Txn.stageEffects_eq_ok (t := Txn.begin s) hi hf (Txn.commitEffects_eq_ok hr)
  exact ⟨[], bs, he, ⟨.effects, hbs⟩, rfl⟩

theorem settle_commit (hi : StoreInv s) {claim : ClaimFence} {settlement : Settlement}
    {effects : PreparedEffects κ β} (hf : Txn.FreshIds s effects.preparedJobs)
    (h : (Prepared.settle claim settlement effects).body leases effectLeases now (Txn.begin s)
      = .ok (t, .commit value)) :
    ∃ as bs, Txn.Extends (Txn.begin s) t (as ++ bs) ∧
      (Prepared.settle claim settlement effects).Stages value t.notes as bs ∧
      ∃ old, JobAction.Found s (.claimed claim.queue claim.id) old ∧
        value.results.isSome = (settlement.endFor old now).isTerminal := by
  change StoreInv (Txn.begin s).view at hi
  change Txn.FreshIds (Txn.begin s).view _ at hf
  obtain ⟨⟨job, claimEnd, results⟩, hr, rfl⟩ := commit_of_map h
  obtain ⟨t₁, t₂, old, h₁, h₂, rfl, hcase⟩ := Txn.settleClaim_eq_commit hr
  obtain ⟨hq, hid, ⟨hfound, hsame⟩, as, ha, hcarries, he⟩ :=
    Txn.extends_takeClaim_stageClaimEnd hi h₁ h₂
  rw [← hq, ← hid] at hfound
  have htransition : ∀ results : Option (List EnqueueResult),
      results.isSome = (settlement.endFor old now).isTerminal →
      JobTransition (.settle claim settlement effects)
        (.settled job (settlement.endFor old now) results) as := by
    intro results hresults
    cases ha with
    | remove hdone =>
      rw [hdone] at hresults ⊢
      obtain ⟨results, rfl⟩ := Option.isSome_iff_exists.mp hresults
      rw [← hq, ← hid]
      exact .completed hdone
    | move _ _ _ _ hs _ =>
      obtain ⟨rfl, -⟩ := hcarries.moves _ _ _ _ (.tail _ (.head _))
      rw [← hq, ← hid]
      exact .moved rfl hresults hsame hs
  obtain ⟨hterminal, results, h₃, rfl⟩ | ⟨hterminal, rfl, rfl⟩ := hcase
  · obtain ⟨bs, he', hbs⟩ :=
      Txn.stageEffects_eq_ok (he.inv hi) (hf.extends hi he ha.inserts (by simp)) h₃
    exact ⟨as, bs, he.trans he', ⟨htransition _ hterminal.symm, hbs⟩, old, hfound,
      hterminal.symm⟩
  · exact ⟨as, [], by simpa using he, ⟨htransition _ hterminal.symm, rfl⟩, old, hfound,
      hterminal.symm⟩

theorem cancel_commit (hi : StoreInv s) {id : String} {effects : PreparedEffects κ β}
    (hf : Txn.FreshIds s effects.preparedJobs)
    (h : (Prepared.cancel id effects).body leases effectLeases now (Txn.begin s)
      = .ok (t, .commit value)) :
    ∃ as bs, Txn.Extends (Txn.begin s) t (as ++ bs) ∧
      (Prepared.cancel id effects).Stages value t.notes as bs ∧
      ∃ key job, (Txn.begin s).getIndexedJob id = some (key, job) ∧
        (value.results.isSome = true ↔ job.status = .pending ∨ job.status = .scheduled) := by
  change StoreInv (Txn.begin s).view at hi
  change Txn.FreshIds (Txn.begin s).view _ at hf
  obtain ⟨v, hr, rfl⟩ := commit_of_map h
  obtain ⟨key, job, hj, hcase⟩ := Txn.cancel_eq_ok hr
  obtain ⟨hkey, hstatus, hid⟩ := Txn.getIndexedJob_spec hi hj
  have hfound := (Txn.found_of_getIndexedJob hj).2
  obtain ⟨hw, -, results, h₂, rfl⟩ | ⟨hst, job', -, hm, rfl⟩ := hcase
  · have hdone : (decide (job.status = .done)) = false := by
      rcases hw with hw | hw <;> simp [hw]
    have he := Txn.extends_stageRemove hfound rfl rfl rfl
    rw [hdone] at he
    have hins : Txn.Inserts [(.remove key job false : JobAction κ β)] [] := by simp [Txn.Inserts]
    obtain ⟨bs, he', hbs⟩ := Txn.stageEffects_eq_ok (he.inv hi)
      (hf.extends hi he hins (by simp)) h₂
    refine ⟨_, bs, he.trans he', ⟨.removed hid ?_, hbs⟩, key, job, hj,
      by simpa [Returned.results] using hw⟩
    rwa [hstatus]
  · have hsame : JobRecord.Same job job' := by
      obtain ⟨rfl, -⟩ := Txn.moveJob_eq_ok hm
      refine JobRecord.Same.trans ?_ (Txn.same_leaveWaits _)
      exact ⟨rfl, rfl, rfl, rfl, rfl, rfl, rfl, rfl⟩
    have hflag : job'.cancelRequested = true := by
      obtain ⟨rfl, -⟩ := Txn.moveJob_eq_ok hm
      simp [Txn.leaveWaits, hst]
    refine ⟨_, [], by simpa using Txn.extends_flag hkey hfound hst hm,
      ⟨.requested hid ?_ hsame hflag, rfl⟩, key, job, hj,
      by simp [Returned.results, hst]⟩
    rw [hstatus, hst]

/-- An attempt of the body that commits is one of the call, which applies its effects when
it has results for them. -/
theorem body_commit {prepared : Prepared κ β} (hi : StoreInv s)
    (hp : (prepared.call leases effectLeases now).Pre s)
    (h : prepared.body leases effectLeases now (Txn.begin s) = .ok (t, .commit value)) :
    (prepared.call leases effectLeases now).attempt s = some (t, []) ∧
      (prepared.call leases effectLeases now).appliedEffects s =
        value.results.map (fun _ => prepared.effects) ∧
      ∃ as bs, Txn.Extends (Txn.begin s) t (as ++ bs) ∧ prepared.Stages value t.notes as bs := by
  cases prepared with
  | enqueue job effects =>
    obtain ⟨as, bs, he, hs, hsome⟩ := enqueue_commit hi hp h
    obtain ⟨results, hresults⟩ := Option.isSome_iff_exists.mp hsome
    obtain ⟨v, hr, -⟩ := commit_of_map h
    exact ⟨by simp [Prepared.call, Call.attempt, Call.committing, Call.noJobs, hr],
      by simp [Prepared.call, Call.appliedEffects, Prepared.effects, hresults], as, bs, he, hs⟩
  | commitEffects effects =>
    obtain ⟨as, bs, he, hs, hsome⟩ := commitEffects_commit hi hp h
    obtain ⟨results, hresults⟩ := Option.isSome_iff_exists.mp hsome
    obtain ⟨v, hr, -⟩ := commit_of_map h
    exact ⟨by simp [Prepared.call, Call.attempt, Call.committing, Call.noJobs, hr],
      by simp [Prepared.call, Call.appliedEffects, Prepared.effects, hresults], as, bs, he, hs⟩
  | settle claim settlement effects =>
    obtain ⟨as, bs, he, hs, old, hfound, hresults⟩ := settle_commit hi hp h
    obtain ⟨stored, hst, rfl⟩ := Option.map_eq_some_iff.mp hfound
    obtain ⟨v, hr, -⟩ := commit_of_map h
    refine ⟨by simp [Prepared.call, Call.attempt, Call.committing, Call.noJobs, hr], ?_, as, bs,
      he, hs⟩
    simp only [Prepared.call, Call.appliedEffects, Prepared.effects, hst, Option.bind_some,
      ← hresults]
    cases value.results <;> simp
  | cancel id effects =>
    obtain ⟨as, bs, he, hs, key, job, hj, hresults⟩ := cancel_commit hi hp h
    obtain ⟨v, hr, -⟩ := commit_of_map h
    refine ⟨by simp [Prepared.call, Call.attempt, Call.committing, Call.noJobs, hr], ?_, as, bs,
      he, hs⟩
    simp only [Prepared.call, Call.appliedEffects, Prepared.effects, hj, Option.bind_some,
      ← hresults]
    cases value.results <;> simp

/-- An attempt without a commit found a holder of the dedup key or nothing to cancel. -/
theorem body_abort {prepared : Prepared κ β}
    (h : prepared.body leases effectLeases now (Txn.begin s) = .ok (t, .abort value)) :
    prepared.CanAbort ∧ value.Aborted := by
  cases prepared with
  | enqueue job effects =>
    obtain ⟨v, hr, rfl⟩ := abort_of_map h
    obtain ⟨⟨t₁, written⟩, h₁, hr⟩ := Except.bind_eq_ok.mp hr
    cases written with
    | error existing =>
      cases hr
      exact ⟨trivial, trivial⟩
    | ok id =>
      obtain ⟨⟨t₂, results⟩, -, hr⟩ := Except.bind_eq_ok.mp hr
      cases hr
  | commitEffects effects =>
    obtain ⟨v, hr, rfl⟩ := abort_of_map h
    obtain ⟨⟨t₁, results⟩, -, hr⟩ := Except.bind_eq_ok.mp hr
    cases hr
  | settle claim settlement effects =>
    obtain ⟨v, hr, rfl⟩ := abort_of_map h
    obtain ⟨⟨t₁, old⟩, -, hr⟩ := Except.bind_eq_ok.mp hr
    obtain ⟨⟨t₂, job⟩, -, hr⟩ := Except.bind_eq_ok.mp hr
    simp only at hr
    split at hr
    · obtain ⟨⟨t₃, results⟩, -, hr⟩ := Except.bind_eq_ok.mp hr
      cases hr
    · cases hr
  | cancel id effects =>
    obtain ⟨v, hr, rfl⟩ := abort_of_map h
    obtain ⟨⟨t₁, staged⟩, -, hr⟩ := Except.bind_eq_ok.mp hr
    cases staged with
    | removed job =>
      obtain ⟨⟨t₂, results⟩, -, hr⟩ := Except.bind_eq_ok.mp hr
      cases hr
    | requested job => cases hr
    | alreadyRequested job =>
      cases hr
      exact ⟨trivial, trivial⟩
    | notFound =>
      cases hr
      exact ⟨trivial, trivial⟩

end Body

end Taquba
