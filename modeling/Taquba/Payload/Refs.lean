import Taquba.Queue.Machine

/-! # The payload references of the records

A record with an offloaded payload refers to its object by name. A transition keeps the
reference of the job it found, so after a commit a record refers to an object that a
record of the same job referred to before, or that the call wrote for a new job. A
removal of the job leaves no record that refers to its object.
-/

namespace Taquba

open Snapshot

variable {κ β : Type}

def payloadRefs (jobs : List PreparedJob) : List String := jobs.filterMap (·.job.payloadRef)

@[simp] theorem payloadRefs_nil : payloadRefs [] = [] := rfl

@[simp] theorem payloadRefs_append (jobs jobs' : List PreparedJob) :
    payloadRefs (jobs ++ jobs') = payloadRefs jobs ++ payloadRefs jobs' :=
  List.filterMap_append

theorem mem_payloadRefs {jobs : List PreparedJob} {r : String} :
    r ∈ payloadRefs jobs ↔ ∃ p ∈ jobs, p.job.payloadRef = some r :=
  List.mem_filterMap

theorem id_eq_of_nodup_payloadRefs {jobs : List PreparedJob} (h : (payloadRefs jobs).Nodup)
    {p q : PreparedJob} (hp : p ∈ jobs) (hq : q ∈ jobs) {r : String}
    (hpr : p.job.payloadRef = some r) (hqr : q.job.payloadRef = some r) :
    p.job.id = q.job.id := by
  induction jobs with
  | nil => cases hp
  | cons j jobs ih =>
    cases hj : j.job.payloadRef with
    | none =>
      have hne : ∀ u : PreparedJob, u.job.payloadRef = some r → u ∈ j :: jobs → u ∈ jobs := by
        rintro u hu (_ | ⟨_, hm⟩)
        · rw [hj] at hu
          cases hu
        · exact hm
      have hrest : (payloadRefs jobs).Nodup := by simpa [payloadRefs, hj] using h
      exact ih hrest (hne p hpr hp) (hne q hqr hq)
    | some name =>
      have hcons : payloadRefs (j :: jobs) = name :: payloadRefs jobs := by
        simp [payloadRefs, hj]
      rw [hcons, List.nodup_cons] at h
      have hhead : ∀ u ∈ jobs, u.job.payloadRef = some r → j.job.payloadRef ≠ some r := by
        intro u hu hur hjr
        rw [hj] at hjr
        cases hjr
        exact h.1 (mem_payloadRefs.mpr ⟨u, hu, hur⟩)
      rcases List.mem_cons.mp hp with rfl | hp'
      · rcases List.mem_cons.mp hq with rfl | hq'
        · rfl
        · exact absurd hpr (hhead q hq' hqr)
      · rcases List.mem_cons.mp hq with rfl | hq'
        · exact absurd hqr (hhead p hp' hpr)
        · exact ih h.2 hp' hq'

def discardedJobs : List PreparedJob → List EnqueueResult → List PreparedJob
  | p :: jobs, .alreadyEnqueued _ :: results => p :: discardedJobs jobs results
  | _ :: jobs, .new _ :: results => discardedJobs jobs results
  | _, _ => []

theorem subperm_written_discarded (jobs : List PreparedJob) (results : List EnqueueResult) :
    (writtenJobs jobs results ++ discardedJobs jobs results).Subperm jobs := by
  induction jobs generalizing results with
  | nil => cases results <;> exact List.nil_subperm
  | cons p jobs ih =>
    cases results with
    | nil => exact List.nil_subperm
    | cons result results =>
      cases result with
      | new id => exact (List.subperm_cons p).mpr (ih results)
      | alreadyEnqueued id =>
        exact List.perm_middle.subperm.trans ((List.subperm_cons p).mpr (ih results))

def Refers (s : Store (Val κ β)) (r id : String) : Prop :=
  ∃ key job, s (.record key) = some job ∧ job.payloadRef = some r ∧ key.id = id

section Actions

variable [DecidableEq κ] {s : Store (Val κ β)} {r id : String} {new : List PreparedJob}
  {a : JobAction κ β} {as : List (JobAction κ β)}

/-- The references that an action adds are those of the new jobs. -/
theorem refers_action (hi : StoreInv s) (he : a.Enabled s) (hc : a.Carries new)
    (h : Refers (s.applyBatch a.writes) r id) :
    Refers s r id ∨ ∃ p ∈ new, p.job.payloadRef = some r ∧ p.job.id = id := by
  obtain ⟨j, stored, hst, hr, hid⟩ := h
  cases a with
  | insert job key =>
    obtain ⟨p, hp, hsame, -⟩ := hc
    rw [JobAction.insert_record] at hst
    split_ifs at hst with hj
    · cases hst
      refine .inr ⟨p, hp, hsame.payloadRef.symm.trans hr, ?_⟩
      rw [← hid, hj, JobRecord.id_of_storedKey he.2.1, hsame.id]
    · exact .inl ⟨j, stored, hst, hr, hid⟩
  | move source old job key =>
    obtain ⟨hf, -, hkey, -⟩ := he
    obtain ⟨v, hv, rfl⟩ := Option.map_eq_some_iff.mp hf
    rw [JobAction.move_record] at hst
    split at hst
    · rename_i hj
      cases hst
      refine .inl ⟨source, v, hv, hc.payloadRef.symm.trans hr, ?_⟩
      · rw [← hid, hj, JobRecord.id_of_storedKey hkey, hc.id,
          JobRecord.id_of_storedKey (hi.storedKey_of_found hf)]
    · obtain ⟨-, hst⟩ := Option.ite_none_left_eq_some.mp hst
      exact .inl ⟨j, stored, hst, hr, hid⟩
  | rewrite key old job =>
    obtain ⟨v, hv, rfl⟩ := Option.map_eq_some_iff.mp he.1
    rw [JobAction.rewrite_record] at hst
    split_ifs at hst with hj
    · cases hst
      exact .inl ⟨key, v, hv, hc.payloadRef.symm.trans hr, hj ▸ hid⟩
    · exact .inl ⟨j, stored, hst, hr, hid⟩
  | remove key old completed =>
    rw [JobAction.remove_record] at hst
    obtain ⟨-, hst⟩ := Option.ite_none_left_eq_some.mp hst
    exact .inl ⟨j, stored, hst, hr, hid⟩
  | history i entry =>
    rw [JobAction.history_of_not_isPlain s i rfl] at hst
    exact .inl ⟨j, stored, hst, hr, hid⟩
  | plain write =>
    rw [JobAction.plain_of_not_isPlain s he rfl] at hst
    exact .inl ⟨j, stored, hst, hr, hid⟩

theorem refers_actions (hi : StoreInv s) (he : (jobActions κ β).AllEnabled as s)
    (hc : ∀ a ∈ as, a.Carries new)
    (h : Refers (s.applyBatch ((jobActions κ β).batch as)) r id) :
    Refers s r id ∨ ∃ p ∈ new, p.job.payloadRef = some r ∧ p.job.id = id := by
  induction as generalizing s with
  | nil => exact .inl h
  | cons a as ih =>
    rw [Actions.batch_cons, Store.applyBatch_append] at h
    rcases ih (StoreInv.action a s hi he.1) he.2 (fun b hb => hc b (.tail _ hb)) h with h | h
    · exact refers_action hi he.1 (hc a (.head _)) h
    · exact .inr h

theorem not_refers_of_remove {key : RecordKey} {old : JobRecord} {completed : Bool}
    (hi : StoreInv s) (he : (jobActions κ β).AllEnabled as s) (hc : ∀ a ∈ as, a.Carries new)
    (hm : .remove key old completed ∈ as) (honly : ∀ i, Refers s r i → i = old.id)
    (hnew : r ∉ payloadRefs new) :
    ¬ Refers (s.applyBatch ((jobActions κ β).batch as)) r id := by
  have hno : ∀ {i : String}, ¬ ∃ p ∈ new, p.job.payloadRef = some r ∧ p.job.id = i := by
    rintro i ⟨p, hp, hpr, -⟩
    exact hnew (mem_payloadRefs.mpr ⟨p, hp, hpr⟩)
  induction as generalizing s with
  | nil => cases hm
  | cons a as ih =>
    rw [Actions.batch_cons, Store.applyBatch_append]
    have hi' := StoreInv.action a s hi he.1
    have hc' : ∀ b ∈ as, b.Carries new := fun b hb => hc b (.tail _ hb)
    rcases List.mem_cons.mp hm with rfl | hm
    · intro h
      obtain ⟨j, stored, hst, hr, hid⟩ := (refers_actions hi' he.2 hc' h).resolve_right hno
      change s.applyBatch (JobAction.writes (.remove key old completed)) _ = _ at hst
      rw [JobAction.remove_record] at hst
      obtain ⟨hne, hst⟩ := Option.ite_none_left_eq_some.mp hst
      obtain ⟨v, hv, -⟩ := Option.map_eq_some_iff.mp he.1
      refine hne (hi.unique hst hv ?_)
      rw [honly j.id ⟨j, stored, hst, hr, rfl⟩,
        JobRecord.id_of_storedKey (hi.storedKey_of_found he.1)]
    · refine ih hi' he.2 hc' hm fun i h => honly i ?_
      exact (refers_action hi he.1 (hc a (.head _)) h).resolve_right hno

end Actions

section Commits

variable [DecidableEq κ] [DecidableEq β] {log : History κ β}
  {c : CallCommit κ β} {as : List (JobAction κ β)} {call : Call κ β}
  {s : Store (Val κ β)} {delivered : List JobRecord} {r id : String}

theorem Performs.refers (hp : Performs log c as) (hi : StoreInv log.store)
    (ht : call.Traces s delivered as) (h : Refers (Log.store (log ++ [c])) r id) :
    Refers log.store r id ∨ ∃ p ∈ call.written s, p.job.payloadRef = some r ∧ p.job.id = id := by
  rw [hp.store_eq] at h
  exact refers_actions hi hp.enabled (fun a ha => (ht.within a ha).carries) h

/-- After the removal of a job no record refers to its object. -/
theorem Performs.not_refers_of_removed (hp : Performs log c as) (hi : StoreInv log.store)
    (ht : call.Traces s delivered as) {job : JobRecord} (hremoved : call.removed s = some job)
    (honly : ∀ i, Refers log.store r i → i = job.id) (hnew : r ∉ payloadRefs (call.written s)) :
    ¬ Refers (Log.store (log ++ [c])) r id := by
  obtain ⟨key, old, completed, hm, hid, -⟩ := ht.removes job hremoved
  rw [hp.store_eq]
  exact not_refers_of_remove hi hp.enabled (fun a ha => (ht.within a ha).carries) hm
    (fun i h => (honly i h).trans hid.symm) hnew

end Commits

end Taquba
