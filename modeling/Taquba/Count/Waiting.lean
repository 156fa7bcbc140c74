import Taquba.Count.Calls

/-! # The waiting jobs of a call

A call that applies effects keeps the waiting jobs, apart from one that it cancels:
they stay scheduled as they are or become pending. The only jobs that begin to wait are
the new ones. A new job is refused because of a count only while its recorded job waits.
-/

namespace Taquba

open Snapshot

variable {κ β : Type}
variable {as : List (JobAction κ β)} {name waiter : String}

/-- Pending jobs stay and scheduled ones stay as they are or become pending, apart from
the job `gone`. -/
structure Keeps (gone : Option String) (s s' : Store (Val κ β)) : Prop where
  pending : ∀ key, key.keyStatus = .pending → gone ≠ some key.id →
    s (.record key) ≠ none → s' (.record key) ≠ none
  scheduled : ∀ key job, key.keyStatus = .scheduled → gone ≠ some key.id →
    s (.record key) = some job → s' (.record key) = some job ∨
      ∃ key', key'.keyStatus = .pending ∧ key'.id = key.id ∧ key'.queue = key.queue ∧
        s' (.record key') ≠ none

namespace Keeps

variable {gone : Option String} {s s' s'' : Store (Val κ β)}

theorem refl (gone : Option String) (s : Store (Val κ β)) : Keeps gone s s :=
  ⟨fun _ _ _ h => h, fun _ _ _ _ h => .inl h⟩

theorem trans (h : Keeps gone s s') (h' : Keeps gone s' s'') : Keeps gone s s'' where
  pending key hk hg hs := h'.pending key hk hg (h.pending key hk hg hs)
  scheduled key job hk hg hs := by
    rcases h.scheduled key job hk hg hs with hs | ⟨key', hp, hid, hq, hs⟩
    · exact h'.scheduled key job hk hg hs
    · exact .inr ⟨key', hp, hid, hq, h'.pending key' hp (hid ▸ hg) hs⟩

theorem of_eq (h : ∀ key, key.keyStatus = .pending ∨ key.keyStatus = .scheduled →
    gone ≠ some key.id → s (.record key) ≠ none → s' (.record key) = s (.record key)) :
    Keeps gone s s' where
  pending key hk hg hs := by
    rw [h key (.inl hk) hg hs]
    exact hs
  scheduled key job hk hg hs := by
    refine .inl ?_
    rw [h key (.inr hk) hg (by simp [hs]), hs]

end Keeps

namespace JobAction

/-- The action takes no waiting job away but `gone`. -/
def KeepsWaiting (gone : Option String) : JobAction κ β → Prop
  | .move source _ job _ =>
    source.keyStatus ≠ .pending ∧ (source.keyStatus = .scheduled → job.status = .pending)
  | .rewrite key _ _ => key.keyStatus = .claimed
  | .remove key old _ => key.keyStatus = .claimed ∨ gone = some old.id
  | _ => True

theorem IsEffect.keepsWaiting {a : JobAction κ β} (h : a.IsEffect) (gone : Option String) :
    a.KeepsWaiting gone := by
  cases a with
  | move source old job key =>
    obtain ⟨hs, hst, -⟩ := h
    exact ⟨by simp [hs], fun _ => hst⟩
  | insert | plain | history => trivial
  | rewrite | remove => cases h

end JobAction

section Actions

variable [DecidableEq κ] {s : Store (Val κ β)} {gone : Option String}

theorem StoreInv.keeps_action (hi : StoreInv s) {a : JobAction κ β} (he : a.Enabled s)
    (hk : a.KeepsWaiting gone) : Keeps gone s (s.applyBatch a.writes) := by
  cases a with
  | insert job key =>
    obtain ⟨hidx, hkey, -⟩ := he
    refine .of_eq fun j _ _ hs => ?_
    rw [JobAction.insert_record, if_neg]
    rintro rfl
    obtain ⟨v, hv⟩ := Option.ne_none_iff_exists'.mp hs
    have := (hi.record_index j v hv).1
    rw [JobRecord.id_of_storedKey hkey, hidx] at this
    cases this
  | move source old job key =>
    obtain ⟨hf, hne, hkey, hid, hq, -⟩ := he
    obtain ⟨hks, hkq, hkid⟩ := JobRecord.storedKey_spec hkey
    obtain ⟨-, hsq, hsid⟩ := JobRecord.storedKey_spec (hi.storedKey_of_found hf)
    obtain ⟨v, hv, -⟩ := Option.map_eq_some_iff.mp hf
    constructor
    · intro j hj _ hs
      rw [JobAction.move_record]
      split
      · simp
      · rw [if_neg]
        · exact hs
        · rintro rfl
          exact hk.1 hj
    · intro j v' hj _ hs
      rw [JobAction.move_record]
      by_cases hjs : j = source
      · subst hjs
        refine .inr ⟨key, by rw [hks, hk.2 hj], by rw [hkid, hid, hsid], by rw [hkq, hq, hsq], ?_⟩
        rw [JobAction.move_record, if_pos rfl]
        simp
      · refine .inl ?_
        rw [if_neg, if_neg hjs, hs]
        rintro rfl
        exact hjs (hi.unique hs hv (by rw [hkid, hid, hsid]))
  | rewrite key old job =>
    refine .of_eq fun j hj _ _ => ?_
    rw [JobAction.rewrite_record, if_neg]
    rintro rfl
    rw [show j.keyStatus = .claimed from hk] at hj
    rcases hj with hj | hj <;> cases hj
  | remove key old completed =>
    have hid := JobRecord.id_of_storedKey (hi.storedKey_of_found he)
    refine .of_eq fun j hj hg _ => ?_
    rw [JobAction.remove_record, if_neg]
    rintro rfl
    rcases hk with hk | hk
    · rw [hk] at hj
      rcases hj with hj | hj <;> cases hj
    · exact hg (hid ▸ hk)
  | history id entry =>
    exact .of_eq fun j _ _ _ => JobAction.history_of_not_isPlain _ _ rfl
  | plain w => exact .of_eq fun j _ _ _ => JobAction.plain_of_not_isPlain _ he rfl

theorem StoreInv.keeps_actions (hi : StoreInv s) (he : (jobActions κ β).AllEnabled as s)
    (hk : ∀ a ∈ as, a.KeepsWaiting gone) :
    Keeps gone s (s.applyBatch ((jobActions κ β).batch as)) := by
  induction as generalizing s with
  | nil => exact .refl gone s
  | cons a as ih =>
    obtain ⟨ha, hk⟩ := List.forall_mem_cons.mp hk
    rw [Actions.batch_cons, Store.applyBatch_append]
    exact (hi.keeps_action he.1 ha).trans (ih (hi.action a s he.1) he.2 hk)

theorem waits_of_isEffect {ids : List String} (he : (jobActions κ β).AllEnabled as s)
    (has : ∀ a ∈ as, a.IsEffect) (hins : Txn.Inserts as ids) {key : RecordKey}
    (h : Waits (s.applyBatch ((jobActions κ β).batch as)) key name) :
    Waits s key name ∨ key.id ∈ ids := by
  induction as generalizing s with
  | nil => exact .inl h
  | cons a as ih =>
    obtain ⟨ha, has⟩ := List.forall_mem_cons.mp has
    rw [Actions.batch_cons, Store.applyBatch_append] at h
    rcases ih he.2 has (fun job key hm => hins job key (.tail _ hm)) h with h | h
    · obtain ⟨hk, v, hv, hc⟩ := h
      have hen := he.1
      cases a with
      | insert job k =>
        rw [show (jobActions κ β).writes (.insert job k) =
          JobAction.writes (.insert job k) from rfl,
          JobAction.insert_record] at hv
        split_ifs at hv with hkk
        · refine .inr ?_
          rw [hkk, JobRecord.id_of_storedKey hen.2.1]
          exact hins job k (.head _)
        · exact .inl ⟨hk, v, hv, hc⟩
      | move source old job k =>
        rw [show (jobActions κ β).writes (.move source old job k)
          = JobAction.writes (.move source old job k) from rfl, JobAction.move_record] at hv
        split at hv
        · rename_i hkk
          rw [hkk, ha.2.2] at hk
          cases hk
        · obtain ⟨-, hv⟩ := Option.ite_none_left_eq_some.mp hv
          exact .inl ⟨hk, v, hv, hc⟩
      | plain w =>
        rw [show (jobActions κ β).writes (.plain w) = JobAction.writes (.plain w) from rfl,
          JobAction.plain_of_not_isPlain _ hen rfl] at hv
        exact .inl ⟨hk, v, hv, hc⟩
      | rewrite | remove | history => cases ha
    · exact .inr h

end Actions

namespace Txn

variable [DecidableEq κ] [DecidableEq β] {t t' : Txn κ β} {leases : Leases}
  {effects : PreparedEffects κ β}

omit [DecidableEq κ] [DecidableEq β] in
theorem EndActions.keepsWaiting {old : JobRecord} {claimEnd : ClaimEnd}
    (h : EndActions old claimEnd as) : ∀ a ∈ as, a.KeepsWaiting none := by
  intro a ha
  cases h with
  | remove =>
    rw [List.mem_singleton.mp ha]
    exact .inl rfl
  | move =>
    simp only [List.mem_cons, List.not_mem_nil, or_false] at ha
    rcases ha with rfl | rfl
    · trivial
    · exact ⟨by simp [RecordKey.keyStatus], by simp [RecordKey.keyStatus]⟩

omit [DecidableEq β] in
theorem Extends.keeps {gone : Option String} (he : Extends t t' as) (hi : StoreInv t.view)
    (hk : ∀ a ∈ as, a.KeepsWaiting gone) : Keeps gone t.view t'.view := by
  rw [he.view_eq]
  exact hi.keeps_actions he.enabled hk

theorem keeps_stageEffects (hi : StoreInv t.view) (hf : FreshIds t.view effects.preparedJobs)
    {rs : List EnqueueResult} (h : t.stageEffects leases effects = .ok (t', rs))
    (gone : Option String) : Keeps gone t.view t'.view := by
  obtain ⟨as, he, has, -⟩ := extends_stageEffects hi hf h
  exact he.keeps hi fun a ha => (has a ha).1.keepsWaiting gone

end Txn

namespace Call

variable [DecidableEq κ] [DecidableEq β] {s : Store (Val κ β)} {t : Txn κ β} {call : Call κ β}
  {delivered : List JobRecord}

/-- A call that applies effects takes no waiting job away but the one it cancels. -/
theorem attempt_keeps (hi : StoreInv s) (hp : call.Pre s)
    (h : call.attempt s = some (t, delivered)) (ha : call.appliedEffects s ≠ none) :
    Keeps call.cancels s t.view := by
  change StoreInv (Txn.begin s).view at hi
  change call.Pre (Txn.begin s).view at hp
  change Keeps call.cancels (Txn.begin s).view t.view
  cases committed_of_attempt h with
  | enqueue hr =>
    obtain ⟨t₁, id, results, h₁, h₂, -⟩ := Txn.writeJobTxn_eq_ok hr
    obtain ⟨as, he, has, hins, -⟩ := Txn.extends_stageJobWrites (hp.1 _ (.head _)) h₁
    exact (he.keeps hi fun a ha => (has a ha).1.keepsWaiting _).trans
      (Txn.keeps_stageEffects (he.inv hi) (hp.tail hi he hins) h₂ _)
  | commitEffects hr => exact Txn.keeps_stageEffects hi hp (Txn.commitEffects_eq_ok hr) _
  | settle hr =>
    obtain ⟨t₁, t₂, job, h₁, h₂, -, hcase⟩ := Txn.settleClaim_eq_commit hr
    obtain ⟨-, -, -, as, hend, -, he⟩ := Txn.extends_takeClaim_stageClaimEnd hi h₁ h₂
    have hk := he.keeps hi hend.keepsWaiting
    obtain ⟨-, results, h₃, -⟩ | ⟨-, rfl, -⟩ := hcase
    · exact hk.trans (Txn.keeps_stageEffects (he.inv hi)
        (Txn.FreshIds.extends hp hi he hend.inserts (by simp)) h₃ _)
    · exact hk
  | @cancel leases id effects _ _ hr =>
    obtain ⟨key, job, hj, ⟨hst, h₁, results, h₂, -⟩ | ⟨hst, job', h₁, -⟩⟩ := Txn.cancel_eq_ok hr
    · obtain ⟨as, he, hins, -⟩ := Txn.trace_stageCancel hi h₁
      obtain ⟨hkey, -, hid⟩ := Txn.getIndexedJob_spec hi hj
      have hrem := Txn.extends_stageRemove (Txn.found_of_getIndexedJob hj).2 rfl rfl rfl
      have hgone : some id = some job.id := by rw [← JobRecord.id_of_storedKey hkey, hid]
      refine (hrem.keeps hi ?_).trans (Txn.keeps_stageEffects (he.inv hi)
        (Txn.FreshIds.extends hp hi he hins (by simp)) h₂ _)
      simp only [List.mem_singleton, forall_eq]
      exact .inr hgone
    · refine absurd ?_ ha
      simp [appliedEffects, hj, hst]
  | _ => exact absurd rfl ha

end Call

section Refusals

namespace Txn

variable [DecidableEq κ]

/-- A stage that compares or fails otherwise, and refuses no job. -/
abbrev Unrefused {α : Type} (txn : α → Txn κ β) : Txn κ β → Except (Error κ) α → Prop :=
  Staged ⟨True, True, True⟩ ⟨True, False⟩ txn

theorem waits_of_stageJobWrites {t : Txn κ β} (hi : StoreInv t.view) {prepared : PreparedJob}
    (h : t.stageJobWrites prepared = .error (.countWaiterExists name waiter)) :
    ∃ key, key.id = waiter ∧ Waits t.view key name := by
  unfold stageJobWrites at h
  dsimp only at h
  split at h
  · cases h
  split at h
  · cases h
  rcases Except.bind_eq_error.mp h with h | ⟨⟨t₁, written⟩, -, h⟩
  · unfold stageCountWait at h
    split at h
    · cases h
    dsimp only at h
    split at h
    · cases h
    split at h
    · split_ifs at h with hs
      cases h
      unfold stillWaiting at hs
      split at hs
      · rename_i key job hj
        obtain ⟨-, hst, hid⟩ := getIndexedJob_spec hi hj
        obtain ⟨v, hv, hdec⟩ := Option.map_eq_some_iff.mp (found_of_getIndexedJob hj).2
        simp only [Bool.and_eq_true, decide_eq_true_eq] at hs
        refine ⟨key, hid, hst.trans hs.1, v, hv, ?_⟩
        rw [← hs.2, ← hdec]
        rfl
      · cases hs
    · cases h
  · rcases Except.bind_eq_error.mp h with h | ⟨t₂, -, h⟩
    · exact (Staged.of_error (staged_insertJob _ (.inl trivial) : Unrefused id t₁ _) h).elim
    · cases h

/-- A new job of a list may also be refused because an earlier one waits. -/
theorem waits_of_stageJobs {t : Txn κ β} {jobs : List PreparedJob} (hi : StoreInv t.view)
    (hf : FreshIds t.view jobs) (h : t.stageJobs jobs = .error (.countWaiterExists name waiter)) :
    (∃ key, key.id = waiter ∧ Waits t.view key name) ∨ waiter ∈ jobs.map (·.job.id) := by
  induction jobs generalizing t with
  | nil => cases h
  | cons p jobs ih =>
    rcases Except.bind_eq_error.mp h with h | ⟨⟨t₁, written⟩, h₁, h⟩
    · exact .inl (waits_of_stageJobWrites hi h)
    rcases Except.bind_eq_error.mp h with h | ⟨⟨t₂, results⟩, -, h⟩
    · obtain ⟨as, he, has, hins, -⟩ := extends_stageJobWrites (hf.1 p (.head _)) h₁
      rcases ih (he.inv hi) (hf.tail hi he hins) h with ⟨key, hid, hw⟩ | hm
      · rw [he.view_eq] at hw
        rcases waits_of_isEffect he.enabled (fun a ha => (has a ha).1) hins hw with hw | hm
        · exact .inl ⟨key, hid, hw⟩
        · exact .inr (by simp [← hid, List.mem_singleton.mp hm])
      · exact .inr (.tail _ hm)
    · cases h

theorem waits_of_stageEffects [DecidableEq β] {t : Txn κ β} {leases : Leases}
    {effects : PreparedEffects κ β} (hi : StoreInv t.view)
    (hf : FreshIds t.view effects.preparedJobs)
    (h : t.stageEffects leases effects = .error (.countWaiterExists name waiter)) :
    (∃ key, key.id = waiter ∧ Waits t.view key name) ∨
      waiter ∈ effects.preparedJobs.map (·.job.id) := by
  rcases Except.bind_eq_error.mp h with h | ⟨t₁, h₁, h⟩
  · exact (Staged.of_error (staged_stageFence .. : Unrefused id t _) h).elim
  rcases Except.bind_eq_error.mp h with h | ⟨t₂, h₂, h⟩
  · exact (Staged.of_error (staged_stageCompares _ trivial _ : Unrefused id t₁ _) h).elim
  rcases Except.bind_eq_error.mp h with h | ⟨t₃, h₃, h⟩
  · exact (Staged.of_error (staged_stageCountChanges _ trivial _ _ : Unrefused id t₂ _) h).elim
  rcases Except.bind_eq_error.mp h with h | ⟨⟨t₄, results⟩, -, h⟩
  · have he₂ : Extends t t₂ [] := (extends_stageFence h₁).trans (extends_stageCompares h₂)
    obtain ⟨as, he₃, has⟩ := extends_stageCountChanges (he₂.inv hi) h₃
    have he := he₂.trans he₃
    have hf₃ := hf.extends hi he (inserts_of_isWake has) (by simp)
    rcases waits_of_stageJobs (he.inv hi) hf₃ h with ⟨key, hid, hw⟩ | hm
    · rw [he.view_eq] at hw
      rcases waits_of_isEffect he.enabled (fun a ha => (has a ha).1.isEffect)
        (inserts_of_isWake has) hw with hw | hm
      · exact .inl ⟨key, hid, hw⟩
      · cases hm
    · exact .inr hm
  · cases h

end Txn

namespace Call

def error? {α : Type} : Except (Error κ) α → Option (Error κ)
  | .error e => some e
  | .ok _ => none

theorem error?_eq_some {α : Type} {r : Except (Error κ) α} {e : Error κ}
    (h : error? r = some e) : r = .error e := by
  cases r with
  | error e' =>
    cases h
    rfl
  | ok a => cases h

variable [DecidableEq κ] [DecidableEq β]

def refusal (s : Store (Val κ β)) : Call κ β → Option (Error κ)
  | .enqueue leases prepared effects =>
    error? ((Txn.begin s).writeJobTxn leases prepared effects)
  | .commitEffects leases effects => error? ((Txn.begin s).commitEffects leases effects)
  | .settle leases effectLeases queue id claimId settlement effects now =>
    error? ((Txn.begin s).settleClaim leases effectLeases queue id claimId settlement effects now)
  | .cancel leases id effects => error? ((Txn.begin s).cancel leases id effects)
  | .applyEnqueue queue entryId appliedAt prepared =>
    error? ((Txn.begin s).applyEnqueue queue entryId appliedAt prepared)
  | _ => none

def newIds : Call κ β → List String
  | .enqueue _ prepared effects => prepared.job.id :: effects.preparedJobs.map (·.job.id)
  | .commitEffects _ effects | .settle _ _ _ _ _ _ effects _ | .cancel _ _ effects =>
    effects.preparedJobs.map (·.job.id)
  | .applyEnqueue _ _ _ prepared => [prepared.job.id]
  | _ => []

/-- An enqueue is refused because of a count only while another job waits for it, in the
snapshot or among the jobs of the call. -/
theorem waits_of_refusal {s : Store (Val κ β)} {call : Call κ β} (hi : StoreInv s) (hc : CountInv s)
    (hp : call.Pre s) (h : call.refusal s = some (.countWaiterExists name waiter)) :
    (∃ key, key.id = waiter ∧ Waits s key name) ∨ waiter ∈ call.newIds := by
  change StoreInv (Txn.begin s).view at hi
  change CountInv (Txn.begin s).view at hc
  change call.Pre (Txn.begin s).view at hp
  cases call with
  | enqueue leases prepared effects =>
    rcases Except.bind_eq_error.mp (error?_eq_some h) with h | ⟨⟨t₁, written⟩, h₁, h⟩
    · exact .inl (Txn.waits_of_stageJobWrites hi h)
    cases written with
    | error existing => cases h
    | ok id =>
      rcases Except.bind_eq_error.mp h with h | ⟨⟨t₂, results⟩, -, h⟩
      · obtain ⟨as, he, has, hins, -⟩ := Txn.extends_stageJobWrites (hp.1 prepared (.head _)) h₁
        rcases Txn.waits_of_stageEffects (he.inv hi) (hp.tail hi he hins) h with ⟨key, hid, hw⟩ | hm
        · rw [he.view_eq] at hw
          rcases waits_of_isEffect he.enabled (fun a ha => (has a ha).1) hins hw with hw | hm
          · exact .inl ⟨key, hid, hw⟩
          · exact .inr (by simp [newIds, ← hid, List.mem_singleton.mp hm])
        · exact .inr (.tail _ hm)
      · cases h
  | commitEffects leases effects =>
    rcases Except.bind_eq_error.mp (error?_eq_some h) with h | ⟨⟨t₁, results⟩, -, h⟩
    · exact Txn.waits_of_stageEffects hi hp h
    · cases h
  | settle leases effectLeases queue id claimId settlement effects now =>
    rcases Except.bind_eq_error.mp (error?_eq_some h) with h | ⟨⟨t₁, job⟩, h₁, h⟩
    · exact (Txn.Staged.of_error (Txn.staged_takeClaim .. : Txn.Unrefused Prod.fst _ _) h).elim
    rcases Except.bind_eq_error.mp h with h | ⟨⟨t₂, job'⟩, h₂, h⟩
    · exact (Txn.Staged.of_error (Txn.staged_stageClaimEnd _ _ _ (.inl trivial) :
        Txn.Unrefused Prod.fst _ _) h).elim
    dsimp only at h
    split at h
    · rcases Except.bind_eq_error.mp h with h | ⟨⟨t₃, results⟩, -, h⟩
      · obtain ⟨-, -, -, as, ha, -, he⟩ := Txn.extends_takeClaim_stageClaimEnd hi h₁ h₂
        obtain ⟨hq₁, hfound⟩ := Txn.quietly_takeClaim h₁
        have hq := hq₁.trans ((Txn.staged_stageClaimEnd _ _ _
          (.inr (Txn.countWait_of_found hc hfound))).quietly h₂)
        rcases Txn.waits_of_stageEffects (he.inv hi)
          (Txn.FreshIds.extends hp hi he ha.inserts (by simp)) h with ⟨key, hid, hw⟩ | hm
        · exact .inl ⟨key, hid, hq.waits hw⟩
        · exact .inr hm
      · cases h
    · cases h
  | cancel leases id effects =>
    rcases Except.bind_eq_error.mp (error?_eq_some h) with h | ⟨⟨t₁, staged⟩, h₁, h⟩
    · exact (Txn.Staged.of_error (Txn.staged_stageCancel .. : Txn.Unrefused Prod.fst _ _) h).elim
    obtain ⟨as, he, hins, -⟩ := Txn.trace_stageCancel hi h₁
    cases staged with
    | removed job =>
      rcases Except.bind_eq_error.mp h with h | ⟨⟨t₂, results⟩, -, h⟩
      · rcases Txn.waits_of_stageEffects (he.inv hi)
          (Txn.FreshIds.extends hp hi he hins (by simp)) h with ⟨key, hid, hw⟩ | hm
        · exact .inl ⟨key, hid, ((Txn.staged_stageCancel ..).quietly h₁).waits hw⟩
        · exact .inr hm
      · cases h
    | requested job | alreadyRequested job => cases h
    | notFound => cases h
  | applyEnqueue queue entryId appliedAt prepared =>
    rcases Except.bind_eq_error.mp (error?_eq_some h) with h | ⟨⟨t₁, written⟩, -, h⟩
    · exact .inl (Txn.waits_of_stageJobWrites hi h)
    · cases h
  | _ => cases h

end Call

end Refusals

end Taquba
