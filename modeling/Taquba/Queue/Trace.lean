import Mathlib.Algebra.BigOperators.Group.List.Basic
import Mathlib.Data.List.Nodup
import Taquba.Queue.Commits
import Taquba.Txn.ClaimEnds

/-! # The actions of each call

Every call that commits stages job actions that are enabled on its snapshot: the
claims of the jobs it delivers, the end of the claim it is made for, the removal of
the job it cancels, and otherwise new and woken jobs.
-/

namespace Taquba

open Snapshot

variable {κ β : Type}
variable {old job : JobRecord} {claimEnd : ClaimEnd} {key source : RecordKey}

namespace JobAction

structure IsNeutral (a : JobAction κ β) : Prop where
  claim : a.claim? = none
  ended : a.end? = none
  cancelled : a.cancel? = none
  done : ∀ q, a.delta q .done = 0

theorem isNeutral_move (hs : source.keyStatus ≠ .claimed) (hk : key.keyStatus ≠ .claimed)
    (hd : job.status ≠ .done) : (move source old job key : JobAction κ β).IsNeutral where
  claim := by
    cases key with
    | claimed queue id => exact absurd rfl hk
    | _ => rfl
  ended := by
    cases source with
    | claimed queue id => exact absurd rfl hs
    | _ => rfl
  cancelled := rfl
  done q := by
    simp only [delta, countDelta, Option.some.injEq, hd, and_false, if_false, ne_eq,
      not_true_eq_false, sub_self, ite_self]

theorem isNeutral_plain (write : Σ k : Key κ, Write (Val κ β k)) :
    (plain write : JobAction κ β).IsNeutral :=
  ⟨rfl, rfl, rfl, fun _ => rfl⟩

theorem IsWake.isNeutral {a : JobAction κ β} (h : a.IsWake) : a.IsNeutral := by
  cases a with
  | move source old job key =>
    obtain ⟨hs, hst, hk⟩ := h
    exact isNeutral_move (by simp [hs]) (by simp [hk]) (by simp [hst])
  | plain write => exact isNeutral_plain write
  | _ => cases h

theorem IsEffect.isNeutral {a : JobAction κ β} (h : a.IsEffect) : a.IsNeutral := by
  cases a with
  | insert job key =>
    refine ⟨rfl, rfl, rfl, fun q => ?_⟩
    rcases h with h | h <;> simp [delta, countDelta, h]
  | _ => exact IsWake.isNeutral h

theorem isNeutral_history (id : String) (entry : JobAttempt) :
    (history id entry : JobAction κ β).IsNeutral :=
  ⟨rfl, rfl, rfl, fun _ => rfl⟩

/-- The action takes away or changes no record but at such a key, and what it writes are
records of the jobs it found and of the new jobs. -/
structure Within (p : RecordKey → Prop) (new : List PreparedJob) (a : JobAction κ β) : Prop where
  takes : ∀ key ∈ a.source?, p key
  carries : a.Carries new

section Within

variable {p q : RecordKey → Prop} {new new' : List PreparedJob} {a : JobAction κ β}

theorem Within.mono (h : a.Within p new) (hpq : ∀ key, p key → q key) (hsub : new ⊆ new') :
    a.Within q new' :=
  ⟨fun key hk => hpq key (h.takes key hk), h.carries.mono hsub⟩

theorem within_move (h : p source) (hsame : JobRecord.Same old job) :
    (move source old job key : JobAction κ β).Within p new where
  takes := by
    rintro _ ⟨⟩
    exact h
  carries := hsame

theorem within_remove {completed : Bool} (h : p key) :
    (remove key old completed : JobAction κ β).Within p new where
  takes := by
    rintro _ ⟨⟩
    exact h
  carries := trivial

theorem within_plain (write : Σ k : Key κ, Write (Val κ β k)) :
    (plain write : JobAction κ β).Within p new :=
  ⟨by rintro _ ⟨⟩, trivial⟩

theorem within_history (id : String) (entry : JobAttempt) :
    (history id entry : JobAction κ β).Within p new :=
  ⟨by rintro _ ⟨⟩, trivial⟩

theorem IsEffect.within (h : a.IsEffect) (hc : a.Carries new) :
    a.Within (·.keyStatus = .scheduled) new := by
  cases a with
  | insert job key => exact ⟨by rintro _ ⟨⟩, hc⟩
  | move source old job key => exact within_move h.1 hc
  | plain write => exact within_plain write
  | rewrite | remove | history => cases h

theorem IsNeutral.remove?_eq_none (h : a.IsNeutral) (hw : a.Within p new)
    (hp : ∀ key, p key → key.keyStatus ≠ .done ∧ key.keyStatus ≠ .dead) : a.remove? = none := by
  cases a with
  | remove key old completed =>
    obtain ⟨hdone, hdead⟩ := hp key (hw.takes key rfl)
    cases key with
    | pending | scheduled => cases h.cancelled
    | claimed => cases h.ended
    | done => exact absurd rfl hdone
    | dead => exact absurd rfl hdead
  | _ => rfl

end Within

end JobAction

/-- What a call does to the claims and the completions of jobs. -/
structure Shape (as : List (JobAction κ β)) (claims : List JobRecord)
    (ended : Option (QueueName × String)) (acked : Option QueueName) (cancels : Option String) :
    Prop where
  alone : claims = [] ∨ ended = none
  claims : as.filterMap (·.claim?) = claims
  ended : as.filterMap (·.end?) = ended.toList
  done : ∀ q, (as.map (·.delta q .done)).sum = if acked = some q then 1 else 0
  cancelled : ∀ a ∈ as, ∀ id, a.cancel? = some id → cancels = some id

namespace Shape

variable {as bs : List (JobAction κ β)} {claims : List JobRecord}
  {ended : Option (QueueName × String)} {acked : Option QueueName} {cancels : Option String}

theorem append (h : Shape as claims ended acked cancels) (hb : ∀ b ∈ bs, b.IsNeutral) :
    Shape (as ++ bs) claims ended acked cancels where
  alone := h.alone
  claims := by
    rw [List.filterMap_append, h.claims, List.filterMap_eq_nil_iff.mpr fun b hm => (hb b hm).claim,
      List.append_nil]
  ended := by
    rw [List.filterMap_append, h.ended, List.filterMap_eq_nil_iff.mpr fun b hm => (hb b hm).ended,
      List.append_nil]
  done q := by
    have hz : (bs.map (·.delta q .done)).sum = 0 := by
      refine List.sum_eq_zero fun x hx => ?_
      obtain ⟨b, hm, rfl⟩ := List.mem_map.mp hx
      exact (hb b hm).done q
    rw [List.map_append, List.sum_append, h.done, hz, add_zero]
  cancelled a ha id hid := by
    rcases List.mem_append.mp ha with ha | ha
    · exact h.cancelled a ha id hid
    · rw [(hb a ha).cancelled] at hid
      cases hid

theorem nil : Shape ([] : List (JobAction κ β)) [] none none cancels :=
  ⟨.inl rfl, rfl, rfl, fun _ => rfl, fun _ h => by cases h⟩

theorem neutral (h : ∀ a ∈ as, a.IsNeutral) : Shape as [] none none cancels :=
  nil.append h

theorem remove?_eq_none (h : Shape as claims ended acked none) {p : RecordKey → Prop}
    {new : List PreparedJob} (hw : ∀ a ∈ as, a.Within p new)
    (hp : ∀ key, p key → key.keyStatus = .pending ∨ key.keyStatus = .scheduled) :
    ∀ a ∈ as, a.remove? = none := by
  intro a ha
  cases a with
  | remove key old completed =>
    have hkey := hp key ((hw _ ha).takes key rfl)
    cases key with
    | pending | scheduled => cases h.cancelled _ ha _ rfl
    | claimed | done | dead => rcases hkey with hkey | hkey <;> cases hkey
  | _ => rfl

end Shape

def InsertsLast (as : List (JobAction κ β)) : Prop :=
  ∃ head tail, as = head ++ tail ∧ (∀ a ∈ head, a.insert? = none) ∧ ∀ a ∈ tail, a.remove? = none

theorem insertsLast_of_remove? {as : List (JobAction κ β)} (h : ∀ a ∈ as, a.remove? = none) :
    InsertsLast as :=
  ⟨[], as, rfl, by simp, h⟩

theorem insertsLast_of_insert? {as : List (JobAction κ β)} (h : ∀ a ∈ as, a.insert? = none) :
    InsertsLast as :=
  ⟨as, [], by simp, h, by simp⟩

theorem JobAction.Within.insert?_eq_none {p : RecordKey → Prop} {a : JobAction κ β}
    (h : a.Within p []) : a.insert? = none := by
  cases a with
  | insert job key =>
    obtain ⟨p, hp, -⟩ := h.carries
    cases hp
  | _ => rfl

namespace Call

def ended : Call κ β → Option (QueueName × String)
  | .settle _ _ queue id _ _ _ _ | .reap _ queue id _ _ => some (queue, id)
  | .requeueInterrupted job _ => some (job.queue, job.id)
  | _ => none

def acked : Call κ β → Option QueueName
  | .settle _ _ queue _ _ (.ack _) _ _ => some queue
  | _ => none

def cancels : Call κ β → Option String
  | .cancel _ id _ | .applyCancel _ _ _ id => some id
  | _ => none

/-- The records that the call may take away or change. Its effects wake scheduled jobs. -/
def Takes : Call κ β → RecordKey → Prop
  | .enqueue _ _ _, key | .commitEffects _ _, key | .wakeScheduled _, key | .signal _ _, key
  | .applyEnqueue _ _ _ _, key | .applySignal _ _ _ _ _, key => key.keyStatus = .scheduled
  | .claimBatch queue keys _ _, key => ∃ k ∈ keys, key = .pending queue k
  | .claimById id _ _, key =>
    key.id = id ∧ (key.keyStatus = .pending ∨ key.keyStatus = .scheduled)
  | .settle _ _ queue id _ _ _ _, key => key = .claimed queue id ∨ key.keyStatus = .scheduled
  | .reap _ queue id _ _, key => key = .claimed queue id
  | .requeueInterrupted job _, key => key = .claimed job.queue job.id
  | .promote runAt queue id, key => key = .scheduled runAt queue id
  | .cancel _ id _, key =>
    key.id = id ∧ key.keyStatus ≠ .done ∧ key.keyStatus ≠ .dead ∨ key.keyStatus = .scheduled
  | .applyCancel _ _ _ id, key => key.id = id ∧ key.keyStatus ≠ .done ∧ key.keyStatus ≠ .dead
  | .requeueDeadJob id _, key => key.id = id ∧ key.keyStatus = .dead
  | .sweepVictim victim _, key => key = victim
  | .commitRejection _ _ _ _, _ | .sweepInboxRecords _, _ | .kvCompareThen _ _ _, _
  | .kvPut _ _, _ | .kvDelete _, _ => False

/-- The prepared jobs that the call writes when it commits on the snapshot. The others
have a dedup key that another job holds, or the call discards its effects. -/
def written [DecidableEq κ] [DecidableEq β] (s : Store (Val κ β)) : Call κ β → List PreparedJob
  | .enqueue leases prepared effects =>
    match (Txn.begin s).writeJobTxn leases prepared effects with
    | .ok (_, .commit (.ok (_, results))) => prepared :: writtenJobs effects.preparedJobs results
    | _ => []
  | .commitEffects leases effects =>
    match (Txn.begin s).commitEffects leases effects with
    | .ok (_, .commit results) => writtenJobs effects.preparedJobs results
    | _ => []
  | .settle leases effectLeases queue id claimId settlement effects now =>
    match (Txn.begin s).settleClaim leases effectLeases queue id claimId settlement effects now with
    | .ok (_, .commit (_, _, results)) => writtenJobs effects.preparedJobs (results.getD [])
    | _ => []
  | .cancel leases id effects =>
    match (Txn.begin s).cancel leases id effects with
    | .ok (_, .commit (_, results)) => writtenJobs effects.preparedJobs (results.getD [])
    | _ => []
  | .applyEnqueue queue entryId appliedAt prepared =>
    match (Txn.begin s).applyEnqueue queue entryId appliedAt prepared with
    | .ok (_, .commit (.enqueue result)) => writtenJobs [prepared] [result]
    | _ => []
  | _ => []

/-- The job that the call removes, whose payload object is deleted afterwards. A sweep
takes the record that its scan read. -/
def removed [DecidableEq κ] [DecidableEq β] (s : Store (Val κ β)) : Call κ β → Option JobRecord
  | .settle leases effectLeases queue id claimId settlement effects now =>
    match (Txn.begin s).settleClaim leases effectLeases queue id claimId settlement effects now with
    | .ok (_, .commit (job, .done false, _)) => some job
    | _ => none
  | .cancel leases id effects =>
    match (Txn.begin s).cancel leases id effects with
    | .ok (_, .commit (.removed job, _)) => some job
    | _ => none
  | .applyCancel queue entryId appliedAt jobId =>
    match (Txn.begin s).applyCancel queue entryId appliedAt jobId with
    | .ok (_, .commit (_, some (.removed job))) => some job
    | _ => none
  | .sweepVictim key job =>
    match (Txn.begin s).sweepVictim key job with
    | .ok (_, .commit true) => some job
    | _ => none
  | _ => none

/-- What holds of the arguments of a call on its snapshot: generated ids are new, a
scan yields each key once, and a record read outside the transaction is what the
caller says. -/
def Pre [DecidableEq κ] (s : Store (Val κ β)) : Call κ β → Prop
  | .enqueue _ prepared effects => Txn.FreshIds s (prepared :: effects.preparedJobs)
  | .commitEffects _ effects | .settle _ _ _ _ _ _ effects _ | .cancel _ _ effects =>
    Txn.FreshIds s effects.preparedJobs
  | .applyEnqueue _ _ _ prepared => Txn.FreshIds s [prepared]
  | .claimBatch _ keys _ _ => keys.Nodup
  | .requeueInterrupted job _ => JobAction.Found s (.claimed job.queue job.id) job
  | .sweepVictim key job =>
    (key.keyStatus = .done ∨ key.keyStatus = .dead) ∧ job.storedKey = some key ∧
      job.dedupKey = none
  | _ => True

end Call

namespace Txn

variable [DecidableEq κ] {t t' : Txn κ β}

/-- The transaction goes on with neutral actions, which take records at such keys only. -/
def Neutrally (p : RecordKey → Prop) (new : List PreparedJob) (t t' : Txn κ β) : Prop :=
  ∃ as, Extends t t' as ∧ ∀ a ∈ as, a.IsNeutral ∧ a.Within p new

section NewJobs

variable [DecidableEq β] {leases : Leases} {prepared : PreparedJob} {effects : PreparedEffects κ β}

theorem trace_stageEffects (hi : StoreInv t.view) (hf : FreshIds t.view effects.preparedJobs)
    {rs : List EnqueueResult} (h : t.stageEffects leases effects = .ok (t', rs)) :
    Neutrally (·.keyStatus = .scheduled) (writtenJobs effects.preparedJobs rs) t t' := by
  obtain ⟨as, he, has, -⟩ := extends_stageEffects hi hf h
  exact ⟨as, he, fun a ha => ⟨(has a ha).1.isNeutral, (has a ha).1.within (has a ha).2⟩⟩

theorem trace_writeJobTxn (hi : StoreInv t.view)
    (hf : FreshIds t.view (prepared :: effects.preparedJobs))
    {r : Except String (String × List EnqueueResult)}
    (h : t.writeJobTxn leases prepared effects = .ok (t', .commit r)) :
    ∃ id results, r = .ok (id, results) ∧ ∃ as, Extends t t' as ∧ ∀ a ∈ as, a.IsNeutral ∧
      a.Within (·.keyStatus = .scheduled)
        (prepared :: writtenJobs effects.preparedJobs results) := by
  obtain ⟨t₁, id, results, h₁, h₂, rfl⟩ := writeJobTxn_eq_ok h
  obtain ⟨as, he, has, hins, -⟩ := extends_stageJobWrites (hf.1 prepared (.head _)) h₁
  obtain ⟨bs, he', hbs⟩ := trace_stageEffects (he.inv hi) (hf.tail hi he hins) h₂
  refine ⟨id, results, rfl, _, he.trans he',
    List.forall_mem_append.mpr ⟨fun a ha => ?_, fun b hb => ?_⟩⟩
  · have hw := (has a ha).1.within (has a ha).2
    exact ⟨(has a ha).1.isNeutral, hw.mono (fun _ h => h) (by simp [writtenJob])⟩
  · exact ⟨(hbs b hb).1, (hbs b hb).2.mono (fun _ h => h) (List.subset_cons_self _ _)⟩

end NewJobs

section Claims

variable {now : ℕ}

omit [DecidableEq κ] in
theorem shape_claimAction (old : JobRecord) (hs : source.keyStatus ≠ .claimed)
    (hst : job.status = .claimed) :
    Shape [(claimAction source old job : JobAction κ β)] [job] none none none where
  alone := .inr rfl
  claims := rfl
  ended := by
    cases source with
    | claimed queue id => exact absurd rfl hs
    | _ => rfl
  done q := by
    simp [claimAction, JobAction.delta, countDelta, hst]
  cancelled a ha id h := by
    rw [List.mem_singleton.mp ha] at h
    cases h

theorem view_claimAction (he : Extends t t' [claimAction source old job])
    (hk : key.keyStatus = .pending) :
    t'.view (.record key) = if key = source then none else t.view (.record key) := by
  have hne : key ≠ .claimed old.queue old.id := by
    rintro rfl
    cases hk
  rw [he.view_eq]
  simp only [Actions.batch_cons, Actions.batch_nil, List.append_nil, claimAction, jobActions]
  rw [JobAction.move_record, if_neg hne]

/-- The first claim of a scan leaves the records of the others as they are. -/
theorem stageClaims_cons {key : RecordKey} {stored : JobRecord} {cs : List (RecordKey × JobRecord)}
    {jobs : List JobRecord}
    (hf : ∀ c ∈ (key, stored) :: cs,
      t.view (.record c.1) = some c.2 ∧ c.1.keyStatus = .pending)
    (hn : (((key, stored) :: cs).map Prod.fst).Nodup)
    (h : t.stageClaims now ((key, stored) :: cs) = .ok (t', jobs)) :
    ∃ t₁ job jobs', key.keyStatus = .pending ∧
      JobAction.Found t.view key (JobRecord.decode key stored) ∧
      t.stageClaim key (JobRecord.decode key stored) now = .ok (t₁, job) ∧ jobs = job :: jobs' ∧
      (∀ c ∈ cs, t₁.view (.record c.1) = some c.2 ∧ c.1.keyStatus = .pending) ∧
      (cs.map Prod.fst).Nodup ∧ t₁.stageClaims now cs = .ok (t', jobs') := by
  obtain ⟨⟨t₁, job⟩, h₁, h⟩ := Except.bind_eq_ok.mp h
  obtain ⟨⟨t₂, jobs'⟩, h₂, h⟩ := Except.bind_eq_ok.mp h
  cases h
  obtain ⟨hv, hp⟩ := hf _ (.head _)
  have hfound : JobAction.Found t.view key _ := .of_record hv
  obtain ⟨-, -, -, he⟩ := extends_stageClaim hfound (by simp [hp]) h₁
  obtain ⟨hnot, hn⟩ := List.nodup_cons.mp hn
  refine ⟨t₁, job, jobs', hp, hfound, h₁, rfl, fun c hc => ?_, hn, h₂⟩
  obtain ⟨hcv, hcp⟩ := hf c (.tail _ hc)
  refine ⟨?_, hcp⟩
  rw [view_claimAction he hcp, if_neg, hcv]
  intro hk
  exact hnot (List.mem_map.mpr ⟨c, hc, hk⟩)

/-- The claims of a scan: each takes the record that the snapshot has, since the
others write different records. -/
theorem trace_stageClaims {cs : List (RecordKey × JobRecord)} {jobs : List JobRecord}
    (hf : ∀ c ∈ cs, t.view (.record c.1) = some c.2 ∧ c.1.keyStatus = .pending)
    (hn : (cs.map Prod.fst).Nodup) (h : t.stageClaims now cs = .ok (t', jobs)) :
    (∃ as, Extends t t' as ∧ Shape as jobs none none none ∧
        ∀ a ∈ as, a.Within (· ∈ cs.map Prod.fst) []) ∧
      ∀ key, key.keyStatus = .pending → t'.view (.record key) =
        if key ∈ cs.map Prod.fst then none else t.view (.record key) := by
  induction cs generalizing t jobs with
  | nil =>
    cases h
    exact ⟨⟨[], .refl _, .nil, by simp⟩, fun key _ => by simp⟩
  | cons c cs ih =>
    obtain ⟨key, stored⟩ := c
    obtain ⟨t₁, job, jobs', hp, hfound, h₁, rfl, hf', hn', h₂⟩ := stageClaims_cons hf hn h
    have hne : key.keyStatus ≠ .claimed := by simp [hp]
    obtain ⟨hsame, hst, -, he⟩ := extends_stageClaim hfound hne h₁
    obtain ⟨⟨bs, he', hbs, hwithin⟩, hview⟩ := ih hf' hn' h₂
    have hc := shape_claimAction (κ := κ) (β := β) (JobRecord.decode key stored) hne hst
    refine ⟨⟨_, he.trans he', ⟨.inr rfl, ?_, ?_, ?_, ?_⟩, ?_⟩, fun j hj => ?_⟩
    · rw [List.filterMap_append, hc.claims, hbs.claims]
      rfl
    · rw [List.filterMap_append, hc.ended, hbs.ended]
      rfl
    · intro q
      rw [List.map_append, List.sum_append, hc.done, hbs.done]
      rfl
    · intro a ha id hr
      rcases List.mem_append.mp ha with ha | ha
      · exact hc.cancelled a ha id hr
      · exact hbs.cancelled a ha id hr
    · refine List.forall_mem_append.mpr ⟨?_, fun a ha =>
        (hwithin a ha).mono (fun _ => .tail _) (List.Subset.refl _)⟩
      simp only [List.mem_singleton, forall_eq]
      exact JobAction.within_move (.head _) hsame
    · rw [hview j hj, view_claimAction he hj]
      by_cases hjk : j = key <;> simp only [hjk, List.map_cons, List.mem_cons, true_or, false_or,
        if_true, if_false, ite_self]

theorem candidates_spec (t : Txn κ β) (queue : QueueName) {keys : List PendingKey}
    (hn : keys.Nodup) :
    (∀ c ∈ t.candidates queue keys,
      t.view (.record c.1) = some c.2 ∧ c.1.keyStatus = .pending) ∧
      ((t.candidates queue keys).map Prod.fst).Nodup := by
  constructor
  · intro c hc
    obtain ⟨key, -, hc⟩ := List.mem_filterMap.mp hc
    obtain ⟨stored, hg, rfl⟩ := Option.map_eq_some_iff.mp hc
    exact ⟨hg, rfl⟩
  · rw [candidates, List.map_filterMap]
    refine List.Nodup.filterMap (fun k k' key hk hk' => ?_) hn
    simp only [Option.map_map, Option.mem_def, Option.map_eq_some_iff,
      Function.comp_apply] at hk hk'
    obtain ⟨-, -, rfl⟩ := hk
    obtain ⟨-, -, hk'⟩ := hk'
    exact ((RecordKey.pending.injEq ..).mp hk').2.symm

theorem trace_claimBatch {queue : QueueName} {keys : List PendingKey} {jobs : List JobRecord}
    (hn : keys.Nodup) (h : t.claimBatch queue keys now = .ok (t', .commit jobs)) :
    (∃ as, Extends t t' as ∧ Shape as jobs none none none ∧
        ∀ a ∈ as, a.Within (fun key => ∃ k ∈ keys, key = .pending queue k) []) ∧
      ∀ key ∈ keys, t'.view (.record (.pending queue key)) = none := by
  obtain ⟨hf, hnd⟩ := t.candidates_spec queue hn
  obtain ⟨⟨as, he, hs, hwithin⟩, hview⟩ := trace_stageClaims hf hnd (claimBatch_eq_ok h)
  refine ⟨⟨as, he, hs, fun a ha => (hwithin a ha).mono ?_ (List.Subset.refl _)⟩,
    fun key hk => ?_⟩
  · rintro _ hm
    obtain ⟨c, hc, rfl⟩ := List.mem_map.mp hm
    obtain ⟨k, hk, hc⟩ := List.mem_filterMap.mp hc
    obtain ⟨stored, -, rfl⟩ := Option.map_eq_some_iff.mp hc
    exact ⟨k, hk, rfl⟩
  rw [hview _ rfl]
  cases hv : t.view (.record (.pending queue key)) with
  | none => simp
  | some stored =>
    have hmem : (.pending queue key, stored) ∈ t.candidates queue keys :=
      List.mem_filterMap.mpr ⟨key, hk, by simp [get, hv]⟩
    rw [if_pos (List.mem_map_of_mem hmem)]

theorem trace_claimById (hi : StoreInv t.view) {id : String} {r : Except ClaimOutcome JobRecord}
    (h : t.claimById id now = .ok (t', .commit r)) :
    ∃ as, Extends t t' as ∧ Shape as r.toOption.toList none none none ∧
      ∀ a ∈ as, a.Within (fun key =>
        key.id = id ∧ (key.keyStatus = .pending ∨ key.keyStatus = .scheduled)) [] := by
  obtain ⟨key, job, claimed, hj, hw, h₁, rfl⟩ := claimById_eq_ok h
  obtain ⟨-, hstatus, hid⟩ := getIndexedJob_spec hi hj
  have hne : key.keyStatus ≠ .claimed := by
    rw [hstatus]
    rcases hw with hw | hw <;> simp [hw]
  obtain ⟨hsame, hst, -, he⟩ := extends_stageClaim (found_of_getIndexedJob hj).2 hne h₁
  refine ⟨_, he, shape_claimAction job hne hst, ?_⟩
  simp only [List.mem_singleton, forall_eq]
  exact JobAction.within_move ⟨hid, hstatus ▸ hw⟩ hsame

end Claims

section Ends

variable {queue : QueueName} {id : String} {claimId now : ℕ} {leases : Leases}

omit [DecidableEq κ] in
theorem EndActions.shape {as : List (JobAction κ β)} (ha : EndActions old claimEnd as) :
    Shape as [] (some (old.queue, old.id))
      (if claimEnd.status = .done then some old.queue else none) none := by
  cases ha with
  | remove h =>
    subst h
    refine ⟨.inl rfl, rfl, rfl, fun q => ?_, fun a ha id h => ?_⟩
    · by_cases hq : q = old.queue <;>
        simp [JobAction.delta, countDelta, ClaimEnd.status, RecordKey.keyStatus, hq, eq_comm]
    · rw [List.mem_singleton.mp ha] at h
      cases h
  | @move entry job key hkey hid hq hd hs =>
    have hk : key.keyStatus = claimEnd.status := by rw [JobRecord.keyStatus_of_storedKey hkey, hs]
    refine ⟨.inl rfl, ?_, rfl, fun q => ?_, ?_⟩
    · cases key with
      | claimed queue id => exact absurd hk.symm claimEnd.status_ne_claimed
      | _ => rfl
    · have hne : (some JobStatus.claimed = some claimEnd.status) = False := by
        simpa using claimEnd.status_ne_claimed.symm
      by_cases hdone : claimEnd.status = .done
      · by_cases hqq : q = old.queue <;>
          simp [JobAction.delta, countDelta, RecordKey.keyStatus, hs, hdone, hq, hqq, eq_comm]
      · simp [JobAction.delta, countDelta, RecordKey.keyStatus, hs, hne, hdone]
    · intro a ha id h
      simp only [List.mem_cons, List.not_mem_nil, or_false] at ha
      rcases ha with rfl | rfl <;> cases h

omit [DecidableEq κ] in
theorem EndActions.within {as : List (JobAction κ β)} (ha : EndActions old claimEnd as)
    {written : JobRecord} (hc : EndCarries old claimEnd written as) :
    ∀ a ∈ as, a.Within (· = .claimed old.queue old.id) [] := by
  refine fun a hm => ⟨fun key hk => ?_, hc.carries a hm⟩
  cases ha with
  | remove h =>
    rw [List.mem_singleton.mp hm] at hk
    cases hk
    rfl
  | move =>
    simp only [List.mem_cons, List.not_mem_nil, or_false] at hm
    rcases hm with rfl | rfl
    · cases hk
    · cases hk
      rfl

omit [DecidableEq κ] in
theorem EndActions.inserts {as : List (JobAction κ β)} (ha : EndActions old claimEnd as) :
    Inserts as [] := by
  intro job key hm
  cases ha <;> simp at hm

omit [DecidableEq κ] in
theorem EndActions.remove? {as : List (JobAction κ β)} (ha : EndActions old claimEnd as) :
    ∀ a ∈ as, ∀ i, a.remove? = some i → claimEnd = .done false ∧ i = old.id := by
  intro a hm i hi
  cases ha with
  | remove h =>
    rw [List.mem_singleton.mp hm] at hi
    exact ⟨h, (Option.some.inj hi).symm⟩
  | move =>
    simp only [List.mem_cons, List.not_mem_nil, or_false] at hm
    rcases hm with rfl | rfl <;> cases hi

theorem acked_endFor (settlement : Settlement) (job : JobRecord) :
    (settlement.endFor job now).status = .done ↔ ∃ keep, settlement = .ack keep := by
  cases settlement with
  | ack keep => simp [Settlement.endFor, ClaimEnd.status]
  | nack error backoff =>
    simp only [Settlement.endFor, reduceCtorEq, exists_false, iff_false]
    split
    · simp [ClaimEnd.status]
    · cases backoff job.attempts <;> simp [ClaimEnd.status]
  | deadLetter reason => simp [Settlement.endFor, ClaimEnd.status]

theorem status_unsettledClaimEnd (job : JobRecord) (outcome : AttemptOutcome) (error : String) :
    (unsettledClaimEnd job outcome error).status ≠ .done := by
  unfold unsettledClaimEnd
  split <;> simp [ClaimEnd.status]

theorem extends_takeClaim_stageClaimEnd (hi : StoreInv t.view) {t₁ : Txn κ β} {job' : JobRecord}
    (h₁ : t.takeClaim leases queue id claimId = .ok (t₁, job))
    (h₂ : t₁.stageClaimEnd job claimEnd now = .ok (t', job')) :
    queue = job.queue ∧ id = job.id ∧
      (JobAction.Found t.view (.claimed job.queue job.id) job ∧ JobRecord.Same job job') ∧
      ∃ as, EndActions job claimEnd as ∧ EndCarries job claimEnd job' as ∧ Extends t t' as := by
  obtain ⟨⟨t₀, job₀⟩, h₀, h₁⟩ := Except.bind_eq_ok.mp h₁
  cases h₁
  obtain ⟨rfl, -, hfound⟩ := extends_readClaim h₀
  obtain ⟨rfl, rfl, hd⟩ := hi.claimed_spec hfound
  have hm := t.extends_markRead (.record (.claimed job.queue job.id))
  obtain ⟨hsame, as, ha, hcarries, he⟩ :=
    extends_delete_stageClaimEnd (t := t.markRead _) hfound hd h₂
  exact ⟨rfl, rfl, ⟨hfound, hsame⟩, as, ha, hcarries, hm.trans he⟩

/-- A settlement that commits ends the claim of the record it found, and then its effects
are staged when it is terminal. -/
theorem settleClaim_eq_ok [DecidableEq β] (hi : StoreInv t.view) {effectLeases : Leases}
    {settlement : Settlement}
    {effects : PreparedEffects κ β} (hf : FreshIds t.view effects.preparedJobs)
    {r : JobRecord × ClaimEnd × Option (List EnqueueResult)}
    (h : t.settleClaim leases effectLeases queue id claimId settlement effects now
      = .ok (t', .commit r)) :
    ∃ old as bs, JobAction.Found t.view (.claimed queue id) old ∧ queue = old.queue ∧
      id = old.id ∧ JobRecord.Same old r.1 ∧ r.2.1 = settlement.endFor old now ∧
      EndActions old (settlement.endFor old now) as ∧
      EndCarries old (settlement.endFor old now) r.1 as ∧ Extends t t' (as ++ bs) ∧
      ∀ b ∈ bs, b.IsEffect ∧ b.Carries (writtenJobs effects.preparedJobs (r.2.2.getD [])) := by
  obtain ⟨t₁, t₂, job, h₁, h₂, hend, hcase⟩ := settleClaim_eq_commit h
  obtain ⟨rfl, rfl, ⟨hfound, hsame⟩, as, ha, hcarries, he⟩ :=
    extends_takeClaim_stageClaimEnd hi h₁ h₂
  obtain ⟨-, results, h₃, hr⟩ | ⟨-, rfl, -⟩ := hcase
  · obtain ⟨bs, he', hbs, -⟩ :=
      extends_stageEffects (he.inv hi) (hf.extends hi he ha.inserts (by simp)) h₃
    refine ⟨job, as, bs, hfound, rfl, rfl, hsame, hend, ha, hcarries, he.trans he', ?_⟩
    rwa [hr]
  · exact ⟨job, as, [], hfound, rfl, rfl, hsame, hend, ha, hcarries, by simpa using he, by simp⟩

theorem trace_settleClaim [DecidableEq β] (hi : StoreInv t.view) {effectLeases : Leases}
    {settlement : Settlement}
    {effects : PreparedEffects κ β} (hf : FreshIds t.view effects.preparedJobs)
    {r : JobRecord × ClaimEnd × Option (List EnqueueResult)}
    (h : t.settleClaim leases effectLeases queue id claimId settlement effects now
      = .ok (t', .commit r)) :
    ∃ as, Extends t t' as ∧
      Shape as [] (some (queue, id))
        (Call.acked (.settle leases effectLeases queue id claimId settlement effects now)) none ∧
      (∀ a ∈ as, a.Within (fun key => key = .claimed queue id ∨ key.keyStatus = .scheduled)
        (writtenJobs effects.preparedJobs (r.2.2.getD []))) ∧
      (r.2.1 = .done false → ∃ key old, .remove key old true ∈ as ∧ JobRecord.Same old r.1 ∧
        JobAction.Found t.view key old) ∧
      (∀ a ∈ as, ∀ i, a.remove? = some i → r.2.1 = .done false ∧ i = r.1.id) ∧
      InsertsLast as := by
  obtain ⟨job, as, bs, hfound, rfl, rfl, hsame, hend, ha, hcarries, he, hbs⟩ :=
    settleClaim_eq_ok hi hf h
  have hack : (if (settlement.endFor job now).status = .done then some job.queue else none) =
      Call.acked (.settle leases effectLeases job.queue job.id claimId settlement effects now) := by
    cases settlement with
    | ack keep => rfl
    | nack error backoff => exact if_neg fun hc => by simpa using (acked_endFor _ _).mp hc
    | deadLetter reason => exact if_neg fun hc => by simpa using (acked_endFor _ _).mp hc
  have hshape := ha.shape
  rw [hack] at hshape
  have hremove : ∀ b ∈ bs, b.remove? = none := fun b hb =>
    (hbs b hb).1.isNeutral.remove?_eq_none ((hbs b hb).1.within (hbs b hb).2) (by simp +contextual)
  refine ⟨_, he, hshape.append fun b hb => (hbs b hb).1.isNeutral,
    List.forall_mem_append.mpr ⟨fun a hm => ?_, fun b hb => ?_⟩, fun hd => ?_,
    List.forall_mem_append.mpr ⟨fun a hm i hi => ?_, fun b hb i hi => ?_⟩,
    as, bs, rfl, fun a hm => (ha.within hcarries a hm).insert?_eq_none, hremove⟩
  · exact (ha.within hcarries a hm).mono (fun _ => .inl) (List.nil_subset _)
  · exact ((hbs b hb).1.within (hbs b hb).2).mono (fun _ => .inr) (List.Subset.refl _)
  · rw [hend] at hd
    exact ⟨_, _, List.mem_append_left _ (hcarries.removes hd), hsame, hfound⟩
  · rw [hend, hsame.id]
    exact ha.remove? a hm i hi
  · rw [hremove b hb] at hi
    cases hi

theorem trace_unsettled (hi : StoreInv t.view) {job' : JobRecord} {outcome : AttemptOutcome}
    {error : String} (hf : JobAction.Found t.view (.claimed queue id) job)
    (h : t.stageClaimEnd job (unsettledClaimEnd job outcome error) now = .ok (t', job')) :
    ∃ as, Extends t t' as ∧ Shape as [] (some (queue, id)) none none ∧
      ∀ a ∈ as, a.Within (· = .claimed queue id) [] ∧ a.remove? = none := by
  obtain ⟨rfl, rfl, hd⟩ := hi.claimed_spec hf
  obtain ⟨-, as, ha, hcarries, he⟩ := extends_stageClaimEnd hf hd h
  have hshape := ha.shape
  rw [if_neg (status_unsettledClaimEnd _ _ _)] at hshape
  refine ⟨as, he, hshape, fun a hm => ⟨ha.within hcarries a hm, ?_⟩⟩
  refine Option.eq_none_iff_forall_ne_some.mpr fun i hi => ?_
  exact status_unsettledClaimEnd _ _ _ (by rw [(ha.remove? a hm i hi).1]; rfl)

theorem trace_reapJob (hi : StoreInv t.view) {r : Option (JobRecord × ClaimEnd)}
    (h : t.reapJob leases queue id claimId now = .ok (t', .commit r)) :
    ∃ as, Extends t t' as ∧ Shape as [] (some (queue, id)) none none ∧
      ∀ a ∈ as, a.Within (· = .claimed queue id) [] ∧ a.remove? = none := by
  unfold reapJob at h
  split at h
  · split at h
    · cases h
    · rename_i stored hg
      obtain ⟨⟨t₁, job'⟩, h₁, h⟩ := Except.bind_eq_ok.mp h
      cases h
      refine trace_unsettled hi ?_ h₁
      exact .of_record hg
  · cases h

theorem trace_requeueInterrupted (hi : StoreInv t.view) {r : Unit}
    (hf : JobAction.Found t.view (.claimed job.queue job.id) job)
    (h : t.requeueInterrupted job now = .ok (t', .commit r)) :
    ∃ as, Extends t t' as ∧ Shape as [] (some (job.queue, job.id)) none none ∧
      ∀ a ∈ as, a.Within (· = .claimed job.queue job.id) [] ∧ a.remove? = none := by
  obtain ⟨⟨t₁, job'⟩, h₁, h⟩ := Except.bind_eq_ok.mp h
  cases h
  exact trace_unsettled hi hf h₁

end Ends

section Control

variable {id : String} {queue : QueueName} {entryId : String} {appliedAt now : ℕ}

theorem trace_promoteJob {runAt : ℕ} {r : Option JobRecord}
    (h : t.promoteJob runAt queue id = .ok (t', .commit r)) :
    Neutrally (· = .scheduled runAt queue id) [] t t' := by
  obtain ⟨stored, job, hg, h₁⟩ := promoteJob_eq_ok h
  have hf : JobAction.Found t.view (.scheduled runAt queue id) _ := .of_record hg
  obtain ⟨key, hkey, hst, -, -, -, he⟩ :=
    extends_stageToPending hf (by simp [RecordKey.keyStatus]) rfl rfl rfl h₁
  refine ⟨_, he, ?_⟩
  simp only [List.mem_singleton, forall_eq]
  refine ⟨JobAction.isNeutral_move (by simp [RecordKey.keyStatus]) ?_ (by simp [hst]),
    JobAction.within_move rfl (same_of_stageToPending
      ⟨rfl, rfl, rfl, rfl, rfl, rfl, rfl, rfl⟩ h₁)⟩
  rw [JobRecord.keyStatus_of_storedKey hkey, hst]
  decide

theorem trace_stageWake (hi : StoreInv t.view) {wake : Wake} {r : Except NotWoken QueueName}
    (h : t.stageWake id wake = .ok (t', r)) :
    Neutrally (·.keyStatus = .scheduled) [] t t' := by
  obtain ⟨as, he, has⟩ := extends_stageWake hi h
  exact ⟨as, he, fun a ha =>
    ⟨(has a ha).1.isNeutral, (has a ha).1.isEffect.within (has a ha).2⟩⟩

theorem trace_stageSignal (hi : StoreInv t.view) {payload : List UInt8} {r : SignalOutcome}
    (h : t.stageSignal id payload = .ok (t', r)) :
    Neutrally (·.keyStatus = .scheduled) [] t t' := by
  obtain ⟨⟨t₁, woken⟩, h₁, h⟩ := Except.bind_eq_ok.mp h
  cases h
  exact trace_stageWake hi h₁

theorem trace_stageCancel (hi : StoreInv t.view) {staged : StagedCancel}
    (h : t.stageCancel id = .ok (t', staged)) :
    ∃ as, Extends t t' as ∧ Inserts as [] ∧ Shape as [] none none (some id) ∧
      (∀ a ∈ as, a.Within (fun key =>
        key.id = id ∧ key.keyStatus ≠ .done ∧ key.keyStatus ≠ .dead) []) ∧
      (∀ job, staged = .removed job → ∃ key completed, .remove key job completed ∈ as ∧
        JobAction.Found t.view key job) ∧
      ∀ a ∈ as, ∀ i, a.remove? = some i → ∃ job, staged = .removed job ∧ i = job.id := by
  obtain ⟨rfl, hnone⟩ | ⟨key, job, hj, hcase⟩ := stageCancel_eq_ok h
  · refine ⟨[], .refl _, by simp [Inserts], .nil, by simp, ?_, by simp⟩
    rintro job rfl
    rcases hnone with hnone | ⟨_, hnone⟩ <;> cases hnone
  obtain ⟨hkey, hstatus, hid⟩ := getIndexedJob_spec hi hj
  have hf := (found_of_getIndexedJob hj).2
  obtain ⟨hw, rfl, rfl⟩ | ⟨hst, job', rfl, hm⟩ := hcase
  · have hnd : job.status ≠ .done := by rcases hw with hw | hw <;> simp [hw]
    refine ⟨_, extends_stageRemove hf rfl rfl rfl, by simp [Inserts],
      ⟨.inl rfl, rfl, ?_, ?_, ?_⟩, ?_, ?_, ?_⟩
    · cases key with
      | claimed q i =>
        rw [← hstatus] at hw
        rcases hw with hw | hw <;> cases hw
      | _ => rfl
    · intro q
      simp [JobAction.delta, countDelta, hnd]
    · intro a ha i h
      rw [List.mem_singleton.mp ha] at h
      rw [← hid, JobRecord.id_of_storedKey hkey]
      cases key <;> simp_all [JobAction.cancel?]
    · simp only [List.mem_singleton, forall_eq]
      refine JobAction.within_remove ⟨hid, ?_, ?_⟩
      · rw [hstatus]
        exact hnd
      · rw [hstatus]
        rcases hw with hw | hw <;> simp [hw]
    · rintro _ ⟨⟩
      exact ⟨_, _, List.mem_singleton.mpr rfl, hf⟩
    · intro a ha i hi
      rw [List.mem_singleton.mp ha] at hi
      exact ⟨job, rfl, (Option.some.inj hi).symm⟩
  · refine ⟨_, extends_flag hkey hf hst hm, by simp [Inserts],
      ⟨.inl rfl, rfl, rfl, fun _ => rfl, ?_⟩, ?_, by rintro _ ⟨⟩, by simp [JobAction.remove?]⟩
    · intro a ha i h
      rw [List.mem_singleton.mp ha] at h
      rw [← hid, JobRecord.id_of_storedKey hkey]
      exact h
    · simp only [List.mem_singleton, forall_eq]
      constructor
      · rintro _ ⟨⟩
        simp [hid, hstatus, hst]
      · obtain ⟨rfl, -⟩ := moveJob_eq_ok hm
        refine JobRecord.Same.trans ?_ (same_leaveWaits _)
        exact ⟨rfl, rfl, rfl, rfl, rfl, rfl, rfl, rfl⟩

theorem trace_cancel [DecidableEq β] (hi : StoreInv t.view) {leases : Leases}
    {effects : PreparedEffects κ β} (hf : FreshIds t.view effects.preparedJobs)
    {r : StagedCancel × Option (List EnqueueResult)}
    (h : t.cancel leases id effects = .ok (t', .commit r)) :
    ∃ as, Extends t t' as ∧ Shape as [] none none (some id) ∧
      (∀ a ∈ as, a.Within (fun key => key.id = id ∧ key.keyStatus ≠ .done ∧ key.keyStatus ≠ .dead ∨
        key.keyStatus = .scheduled) (writtenJobs effects.preparedJobs (r.2.getD []))) ∧
      (∀ job, r.1 = .removed job → ∃ key completed, .remove key job completed ∈ as ∧
        JobAction.Found t.view key job) ∧
      (∀ a ∈ as, ∀ i, a.remove? = some i → ∃ job, r.1 = .removed job ∧ i = job.id) ∧
      InsertsLast as := by
  obtain ⟨key, job, -, ⟨-, h₁, results, h₂, rfl⟩ | ⟨-, job', h₁, -, rfl⟩⟩ := cancel_eq_ok h
  · obtain ⟨as, he, hins, hs, hwithin, hremoves, hremoved⟩ := trace_stageCancel hi h₁
    obtain ⟨bs, he', hbs⟩ :=
      trace_stageEffects (he.inv hi) (hf.extends hi he hins (by simp)) h₂
    refine ⟨_, he.trans he', hs.append fun b hb => (hbs b hb).1,
      List.forall_mem_append.mpr ⟨fun a ha => ?_, fun b hb => ?_⟩,
      fun job' hj => ?_, List.forall_mem_append.mpr ⟨hremoved, fun b hb i hi => ?_⟩, as, bs, rfl,
      fun a ha => (hwithin a ha).insert?_eq_none, fun b hb => ?_⟩
    · exact (hwithin a ha).mono (fun _ => .inl) (List.nil_subset _)
    · exact (hbs b hb).2.mono (fun _ => .inr) (List.Subset.refl _)
    · obtain ⟨key, completed, hm, hfound⟩ := hremoves job' hj
      exact ⟨key, completed, List.mem_append_left _ hm, hfound⟩
    · rw [(hbs b hb).1.remove?_eq_none (hbs b hb).2 (by simp +contextual)] at hi
      cases hi
    · exact (hbs b hb).1.remove?_eq_none (hbs b hb).2 (by simp +contextual)
  · obtain ⟨as, he, -, hs, hwithin, hremoves, hremoved⟩ := trace_stageCancel hi h₁
    exact ⟨_, he, hs, fun a ha => (hwithin a ha).mono (fun _ => .inl) (List.nil_subset _),
      hremoves, hremoved, insertsLast_of_insert? fun a ha => (hwithin a ha).insert?_eq_none⟩

theorem trace_requeueDeadJob (hi : StoreInv t.view) {r : JobRecord}
    (h : t.requeueDeadJob id now = .ok (t', .commit r)) :
    ∃ as, Extends t t' as ∧
      ∀ a ∈ as, (a.IsNeutral ∧ a.Within (fun key => key.id = id ∧ key.keyStatus = .dead) []) ∧
        a.remove? = none := by
  obtain ⟨key, job, t₁, hj, hdead, h₁, rfl⟩ := requeueDeadJob_eq_ok h
  obtain ⟨-, hstatus, hid⟩ := getIndexedJob_spec hi hj
  rw [hdead] at hstatus
  obtain ⟨key', hkey', hst, -, -, -, he⟩ := extends_stageToPending
    (found_of_getIndexedJob hj).2 (by simp [hstatus]) (by rfl) (by rfl) (by rfl) h₁
  have hsame : JobRecord.Same job r := by
    refine same_of_stageToPending ?_ h₁
    exact ⟨rfl, rfl, rfl, rfl, rfl, rfl, rfl, rfl⟩
  refine ⟨_, he.trans (t₁.extends_appendAttempt _ _), ?_⟩
  simp only [List.singleton_append, List.mem_cons, List.not_mem_nil, or_false,
    forall_eq_or_imp, forall_eq]
  refine ⟨⟨⟨JobAction.isNeutral_move (by simp [hstatus]) ?_ (by simp [hst]),
    JobAction.within_move ⟨hid, hstatus⟩ hsame⟩, rfl⟩,
    ⟨JobAction.isNeutral_history _ _, JobAction.within_history _ _⟩, rfl⟩
  rw [JobRecord.keyStatus_of_storedKey hkey', hst]
  decide

end Control

section Other

variable {id jobId entryId : String} {queue : QueueName} {appliedAt : ℕ}

theorem trace_stageInboxRecord (t : Txn κ β) (queue : QueueName) (id : String)
    (record : InboxRecord) (p : RecordKey → Prop) (new : List PreparedJob) :
    Neutrally p new t (t.stageInboxRecord queue id record) := by
  refine ⟨_, t.extends_stageInboxRecord queue id record, ?_⟩
  simp [JobAction.isNeutral_plain, JobAction.within_plain]

theorem trace_applyEnqueue {prepared : PreparedJob} (hf : FreshIds t.view [prepared])
    {r : InboxOutcome} (h : t.applyEnqueue queue entryId appliedAt prepared = .ok (t', .commit r)) :
    ∃ result, r = .enqueue result ∧
      Neutrally (·.keyStatus = .scheduled) (writtenJobs [prepared] [result]) t t' := by
  obtain ⟨⟨t₁, written⟩, h₁, h⟩ := Except.bind_eq_ok.mp h
  cases h
  obtain ⟨as, he, has, -⟩ := extends_stageJobWrites (hf.1 prepared (.head _)) h₁
  obtain ⟨bs, he', hbs⟩ := t₁.trace_stageInboxRecord queue entryId _ _ _
  refine ⟨_, rfl, _, he.trans he', List.forall_mem_append.mpr ⟨fun a ha => ?_, hbs⟩⟩
  refine ⟨(has a ha).1.isNeutral, (has a ha).1.within ((has a ha).2.mono ?_)⟩
  cases written <;> simp [writtenJob, writtenJobs]

theorem trace_applyCancel (hi : StoreInv t.view) {r : InboxOutcome × Option StagedCancel}
    (h : t.applyCancel queue entryId appliedAt jobId = .ok (t', .commit r)) :
    ∃ as, Extends t t' as ∧ Shape as [] none none (some jobId) ∧
      (∀ a ∈ as, a.Within (fun key =>
        key.id = jobId ∧ key.keyStatus ≠ .done ∧ key.keyStatus ≠ .dead) []) ∧
      (∀ job, r.2 = some (.removed job) → ∃ key completed, .remove key job completed ∈ as ∧
        JobAction.Found t.view key job) ∧
      ∀ a ∈ as, ∀ i, a.remove? = some i → ∃ job, r.2 = some (.removed job) ∧ i = job.id := by
  unfold applyCancel at h
  split at h
  · cases h
    obtain ⟨as, he, has⟩ := t.trace_stageInboxRecord queue entryId _ _ _
    refine ⟨as, he, .neutral fun a ha => (has a ha).1, fun a ha => (has a ha).2, by rintro _ ⟨⟩,
      fun a ha i hi => ?_⟩
    rw [(has a ha).1.remove?_eq_none (has a ha).2 fun _ h => h.2] at hi
    cases hi
  · obtain ⟨⟨t₁, staged⟩, h₁, h⟩ := Except.bind_eq_ok.mp h
    cases h
    obtain ⟨as, he, -, hs, hwithin, hremoves, hremoved⟩ := trace_stageCancel hi h₁
    obtain ⟨bs, he', hbs⟩ := t₁.trace_stageInboxRecord queue entryId _ _ _
    refine ⟨_, he.trans he', hs.append fun b hb => (hbs b hb).1,
      List.forall_mem_append.mpr ⟨hwithin, fun b hb => (hbs b hb).2⟩, fun job hj => ?_,
      List.forall_mem_append.mpr ⟨fun a ha i hi => ?_, fun b hb i hi => ?_⟩⟩
    · obtain ⟨key, completed, hm, hfound⟩ := hremoves job (Option.some.inj hj)
      exact ⟨key, completed, List.mem_append_left _ hm, hfound⟩
    · obtain ⟨job, rfl, hid⟩ := hremoved a ha i hi
      exact ⟨job, rfl, hid⟩
    · rw [(hbs b hb).1.remove?_eq_none (hbs b hb).2 fun _ h => h.2] at hi
      cases hi

theorem trace_applySignal (hi : StoreInv t.view) {payload : List UInt8} {r : InboxOutcome}
    (h : t.applySignal queue entryId appliedAt jobId payload = .ok (t', .commit r)) :
    Neutrally (·.keyStatus = .scheduled) [] t t' := by
  unfold applySignal at h
  split at h
  · cases h
    exact t.trace_stageInboxRecord queue entryId _ _ _
  · obtain ⟨⟨t₁, outcome⟩, h₁, h⟩ := Except.bind_eq_ok.mp h
    cases h
    obtain ⟨as, he, has⟩ := trace_stageSignal hi h₁
    obtain ⟨bs, he', hbs⟩ := t₁.trace_stageInboxRecord queue entryId _ _ _
    exact ⟨_, he.trans he', List.forall_mem_append.mpr ⟨has, hbs⟩⟩

/-- The sweep removes what the key holds now, a record of the same job. -/
theorem extends_sweepVictim (hi : StoreInv t.view)
    (hs : key.keyStatus = .done ∨ key.keyStatus = .dead) (hkey : job.storedKey = some key)
    (hd : job.dedupKey = none) {r : Bool} (h : t.sweepVictim key job = .ok (t', .commit r)) :
    (r = false ∧ t' = t) ∨ r = true ∧ ∃ old, old.id = key.id ∧ old.id = job.id ∧
      Extends t t' [.remove key old (job.status = .done)] := by
  unfold sweepVictim at h
  split_ifs at h with hsome
  · cases h
    obtain ⟨stored, hv⟩ := Option.isSome_iff_exists.mp hsome
    have hf : JobAction.Found t.view key _ := .of_record hv
    obtain ⟨-, hq, hid⟩ := JobRecord.storedKey_spec hkey
    obtain ⟨-, hq', hid'⟩ := JobRecord.storedKey_spec (hi.storedKey_of_found hf)
    have hd' := hi.dedupKey_eq_none hf (by rcases hs with h | h <;> simp [h])
      (by rcases hs with h | h <;> simp [h])
    exact .inr ⟨rfl, _, hid'.symm, hid'.symm.trans hid, extends_stageRemove hf
      (hid.symm.trans hid') (hq.symm.trans hq') (hd.trans hd'.symm)⟩
  · cases h
    exact .inl ⟨rfl, rfl⟩

theorem trace_sweepVictim (hi : StoreInv t.view)
    (hs : key.keyStatus = .done ∨ key.keyStatus = .dead) (hkey : job.storedKey = some key)
    (hd : job.dedupKey = none) {r : Bool} (h : t.sweepVictim key job = .ok (t', .commit r)) :
    ∃ as, Extends t t' as ∧
      (∀ a ∈ as, a.IsNeutral ∧ a.Within (· = key) [] ∧ ∃ old completed,
        a = .remove key old completed) ∧
      (r = true → ∃ old completed, .remove key old completed ∈ as ∧ old.id = job.id) ∧
      ∀ a ∈ as, ∀ i, a.remove? = some i → r = true ∧ i = job.id := by
  obtain ⟨rfl, rfl⟩ | ⟨rfl, old, -, hid, he⟩ := extends_sweepVictim hi hs hkey hd h
  · exact ⟨[], .refl _, by simp, by simp, by simp⟩
  have hst := (JobRecord.storedKey_spec hkey).1
  refine ⟨_, he, ?_, fun _ => ⟨_, _, List.mem_singleton.mpr rfl, hid⟩, fun a ha i hi => ?_⟩
  · simp only [List.mem_singleton, forall_eq]
    refine ⟨⟨rfl, ?_, ?_, fun q => ?_⟩, JobAction.within_remove rfl, _, _, rfl⟩
    · rcases hs with h | h <;> cases key <;> first | rfl | cases h
    · rcases hs with h | h <;> cases key <;> first | rfl | cases h
    · rcases hs with h | h <;> simp [JobAction.delta, countDelta, h, ← hst]
  · rw [List.mem_singleton.mp ha] at hi
    exact ⟨rfl, (Option.some.inj hi).symm.trans hid⟩

theorem trace_sweepInboxRecords {entries : List (ℕ × QueueName × String)} {r : Unit}
    (h : t.sweepInboxRecords entries = .ok (t', .commit r)) :
    Neutrally (fun _ => False) [] t t' := by
  cases h
  refine extends_foldl (fun t e => ⟨_, (t.extends_delete rfl).trans (Txn.extends_delete _ rfl), ?_⟩)
    t entries
  simp [JobAction.isNeutral_plain, JobAction.within_plain]

theorem trace_put (t : Txn κ β) (key : κ) (value : β) :
    Neutrally (fun _ => False) [] t (t.put (.user key) value) :=
  ⟨_, t.extends_put (k := .user key) value rfl trivial,
    by simp [JobAction.isNeutral_plain, JobAction.within_plain]⟩

theorem trace_delete (t : Txn κ β) (key : κ) :
    Neutrally (fun _ => False) [] t (t.delete (.user key)) :=
  ⟨_, t.extends_delete (k := .user key) rfl,
    by simp [JobAction.isNeutral_plain, JobAction.within_plain]⟩

theorem trace_kvCompareThen [DecidableEq β] {key : κ} {expected value : Option β} {r : Bool}
    (h : t.kvCompareThen key expected value = .ok (t', .commit r)) :
    Neutrally (fun _ => False) [] t t' := by
  obtain ⟨-, -, rfl⟩ := kvCompareThen_eq_ok h
  have hm := t.extends_markRead (.user key)
  cases value with
  | some v =>
    obtain ⟨as, he, has⟩ := (t.markRead (.user key)).trace_put key v
    exact ⟨_, hm.trans he, has⟩
  | none =>
    obtain ⟨as, he, has⟩ := (t.markRead (.user key)).trace_delete key
    exact ⟨_, hm.trans he, has⟩

end Other

end Txn

namespace Call

variable [DecidableEq κ] [DecidableEq β] {s : Store (Val κ β)} {t : Txn κ β}
  {call : Call κ β} {delivered : List JobRecord}

structure Traces (call : Call κ β) (s : Store (Val κ β)) (delivered : List JobRecord)
    (as : List (JobAction κ β)) : Prop where
  shape : Shape as delivered call.ended call.acked call.cancels
  within : ∀ a ∈ as, a.Within call.Takes (call.written s)
  removes : ∀ job, call.removed s = some job →
    ∃ key old completed, .remove key old completed ∈ as ∧ old.id = job.id ∧
      (old.payloadRef = job.payloadRef ∧ JobAction.Found s key old ∨ call = .sweepVictim key job)
  removed : ∀ a ∈ as, ∀ id, a.remove? = some id → ∃ job, call.removed s = some job ∧ id = job.id
  insertsLast : InsertsLast as

theorem traces_of_kept {as : List (JobAction κ β)}
    (hshape : Shape as delivered call.ended call.acked call.cancels)
    (hwithin : ∀ a ∈ as, a.Within call.Takes (call.written s)) (hremoved : call.removed s = none)
    (hnone : ∀ a ∈ as, a.remove? = none) : call.Traces s delivered as where
  shape := hshape
  within := hwithin
  removes := by simp [hremoved]
  removed a ha id hid := by
    rw [hnone a ha] at hid
    cases hid
  insertsLast := insertsLast_of_remove? hnone

theorem traces_of_neutral (hended : call.ended = none)
    (hacked : call.acked = none) (hremoved : call.removed s = none)
    (htakes : ∀ key, call.Takes key → key.keyStatus ≠ .done ∧ key.keyStatus ≠ .dead)
    (h : Txn.Neutrally call.Takes (call.written s) (Txn.begin s) t) :
    ∃ as, Txn.Extends (Txn.begin s) t as ∧ call.Traces s [] as := by
  obtain ⟨as, he, has⟩ := h
  refine ⟨as, he, traces_of_kept ?_ (fun a ha => (has a ha).2) hremoved fun a ha =>
    (has a ha).1.remove?_eq_none (has a ha).2 htakes⟩
  rw [hended, hacked]
  exact .neutral fun a ha => (has a ha).1

theorem takes_scheduled (key : RecordKey) (h : key.keyStatus = .scheduled) :
    key.keyStatus ≠ .done ∧ key.keyStatus ≠ .dead := by
  simp [h]

/-- Every call that commits is a sequence of actions enabled on its snapshot. -/
theorem attempt_trace (hi : StoreInv s) (hp : call.Pre s)
    (h : call.attempt s = some (t, delivered)) :
    ∃ as, Txn.Extends (Txn.begin s) t as ∧ call.Traces s delivered as := by
  change StoreInv (Txn.begin s).view at hi
  change call.Pre (Txn.begin s).view at hp
  cases committed_of_attempt h with
  | enqueue hr =>
    obtain ⟨id, results, rfl, htrace⟩ := Txn.trace_writeJobTxn hi hp hr
    refine traces_of_neutral rfl rfl rfl takes_scheduled ?_
    simp only [written, hr]
    exact htrace
  | commitEffects hr =>
    refine traces_of_neutral rfl rfl rfl takes_scheduled ?_
    simp only [written, hr]
    exact Txn.trace_stageEffects hi hp (Txn.commitEffects_eq_ok hr)
  | claimBatch hr =>
    obtain ⟨as, he, hshape, hwithin⟩ := (Txn.trace_claimBatch hp hr).1
    refine ⟨as, he, traces_of_kept hshape hwithin rfl (hshape.remove?_eq_none hwithin ?_)⟩
    rintro _ ⟨k, -, rfl⟩
    exact .inl rfl
  | claimById hr =>
    obtain ⟨as, he, hshape, hwithin⟩ := Txn.trace_claimById hi hr
    exact ⟨as, he, traces_of_kept hshape hwithin rfl
      (hshape.remove?_eq_none hwithin fun _ h => h.2)⟩
  | @settle leases effectLeases queue id claimId settlement effects now _ value hr =>
    obtain ⟨as, he, hshape, hwithin, hremoves, hremoved, hlast⟩ := Txn.trace_settleClaim hi hp hr
    obtain ⟨job, claimEnd, results⟩ := value
    refine ⟨as, he, hshape, ?_, fun job' hjob => ?_, fun a ha i hi => ?_, hlast⟩
    · simp only [written, hr]
      exact hwithin
    · obtain ⟨rfl, rfl⟩ : claimEnd = .done false ∧ job = job' := by
        rcases claimEnd with (_ | _) | _ | _ <;> simp_all [removed]
      obtain ⟨key, old, hm, hsame, hfound⟩ := hremoves rfl
      exact ⟨key, old, true, hm, hsame.id.symm, .inl ⟨hsame.payloadRef.symm, hfound⟩⟩
    · obtain ⟨rfl, rfl⟩ := hremoved a ha i hi
      exact ⟨job, by simp only [removed, hr], rfl⟩
  | reap hr =>
    obtain ⟨as, he, hshape, has⟩ := Txn.trace_reapJob hi hr
    exact ⟨as, he, traces_of_kept hshape (fun a ha => (has a ha).1) rfl fun a ha => (has a ha).2⟩
  | requeueInterrupted hr =>
    obtain ⟨as, he, hshape, has⟩ := Txn.trace_requeueInterrupted hi hp hr
    exact ⟨as, he, traces_of_kept hshape (fun a ha => (has a ha).1) rfl fun a ha => (has a ha).2⟩
  | @promote runAt queue id _ _ hr =>
    refine traces_of_neutral rfl rfl rfl (fun key h => ?_) (Txn.trace_promoteJob hr)
    obtain rfl : key = .scheduled runAt queue id := h
    exact takes_scheduled _ rfl
  | wakeScheduled hr =>
    obtain ⟨woken, h₁⟩ := Txn.wakeScheduled_eq_ok hr
    exact traces_of_neutral rfl rfl rfl takes_scheduled (Txn.trace_stageWake hi h₁)
  | signal hr =>
    exact traces_of_neutral rfl rfl rfl takes_scheduled
      (Txn.trace_stageSignal hi (Txn.signal_eq_ok hr))
  | @cancel leases id effects _ value hr =>
    obtain ⟨as, he, hshape, hwithin, hremoves, hremoved, hlast⟩ := Txn.trace_cancel hi hp hr
    obtain ⟨staged, results⟩ := value
    refine ⟨as, he, hshape, ?_, fun job hjob => ?_, fun a ha i hi => ?_, hlast⟩
    · simp only [written, hr]
      exact hwithin
    · obtain rfl : staged = .removed job := by cases staged <;> simp_all [removed]
      obtain ⟨key, completed, hm, hfound⟩ := hremoves _ rfl
      exact ⟨key, _, completed, hm, rfl, .inl ⟨rfl, hfound⟩⟩
    · obtain ⟨job, rfl, rfl⟩ := hremoved a ha i hi
      exact ⟨job, by simp only [removed, hr], rfl⟩
  | requeueDeadJob hr =>
    obtain ⟨as, he, has⟩ := Txn.trace_requeueDeadJob hi hr
    exact ⟨as, he, traces_of_kept (.neutral fun a ha => (has a ha).1.1)
      (fun a ha => (has a ha).1.2) rfl fun a ha => (has a ha).2⟩
  | applyEnqueue hr =>
    obtain ⟨result, rfl, htrace⟩ := Txn.trace_applyEnqueue hp hr
    refine traces_of_neutral rfl rfl rfl takes_scheduled ?_
    simp only [written, hr]
    exact htrace
  | @applyCancel queue entryId appliedAt jobId _ value hr =>
    obtain ⟨as, he, hshape, hwithin, hremoves, hremoved⟩ := Txn.trace_applyCancel hi hr
    obtain ⟨outcome, staged⟩ := value
    refine ⟨as, he, hshape, hwithin, fun job hjob => ?_, fun a ha i hi => ?_,
      insertsLast_of_insert? fun a ha => (hwithin a ha).insert?_eq_none⟩
    · obtain rfl : staged = some (.removed job) := by
        rcases staged with _ | _ | _ | _ | _ <;> simp_all [removed]
      obtain ⟨key, completed, hm, hfound⟩ := hremoves _ rfl
      exact ⟨key, _, completed, hm, rfl, .inl ⟨rfl, hfound⟩⟩
    · obtain ⟨job, rfl, rfl⟩ := hremoved a ha i hi
      exact ⟨job, by simp only [removed, hr], rfl⟩
  | applySignal hr =>
    exact traces_of_neutral rfl rfl rfl takes_scheduled (Txn.trace_applySignal hi hr)
  | commitRejection =>
    exact traces_of_neutral rfl rfl rfl (fun _ h => h.elim)
      (Txn.trace_stageInboxRecord _ _ _ _ _ _)
  | @sweepVictim key job _ value hr =>
    obtain ⟨as, he, has, hremoves, hremoved⟩ :=
      Txn.trace_sweepVictim hi hp.1 hp.2.1 hp.2.2 hr
    refine ⟨as, he, .neutral fun a ha => (has a ha).1, fun a ha => (has a ha).2.1,
      fun victim hv => ?_, fun a ha i hi => ?_,
      insertsLast_of_insert? fun a ha => (has a ha).2.1.insert?_eq_none⟩
    · obtain ⟨rfl, rfl⟩ : value = true ∧ job = victim := by cases value <;> simp_all [removed]
      obtain ⟨old, completed, hm, hid⟩ := hremoves rfl
      exact ⟨key, old, completed, hm, hid, .inr rfl⟩
    · obtain ⟨rfl, rfl⟩ := hremoved a ha i hi
      exact ⟨job, by simp only [removed, hr], rfl⟩
  | sweepInboxRecords hr =>
    exact traces_of_neutral rfl rfl rfl (fun _ h => h.elim) (Txn.trace_sweepInboxRecords hr)
  | kvCompareThen hr =>
    exact traces_of_neutral rfl rfl rfl (fun _ h => h.elim) (Txn.trace_kvCompareThen hr)
  | kvPut => exact traces_of_neutral rfl rfl rfl (fun _ h => h.elim) (Txn.trace_put _ _ _)
  | kvDelete => exact traces_of_neutral rfl rfl rfl (fun _ h => h.elim) (Txn.trace_delete _ _)

end Call

end Taquba
