import Taquba.Count.Calls
import Taquba.Queue.Machine

/-! # The user and inbox keys of a commit

The user keys are written by settlement effects and by the key-value calls, and the
inbox keys by the application of an entry and by the sweep of the records. What a
commit does to these keys is read off its call: the writes of the effects that it
applies, in order, and then their deletes. Every other call leaves them.
-/

namespace Taquba

open Snapshot

variable {κ β : Type}
variable {effects : PreparedEffects κ β} {leases : Leases}

def userChange? : (Σ k : Key κ, Write (Val κ β k)) → Option (κ × Option β)
  | ⟨.user k, .put v⟩ | ⟨.user k, .merge v⟩ => some (k, some v)
  | ⟨.user k, .delete⟩ => some (k, none)
  | _ => none

def userChanges (ws : Batch (Val κ β)) : List (κ × Option β) := ws.filterMap userChange?

def kvAfter [DecidableEq κ] (changes : List (κ × Option β)) (k : κ) (old : Option β) : Option β :=
  changes.foldl (fun v c => if c.1 = k then c.2 else v) old

/-- The changes of user keys by effects: the writes, and then the deletes. -/
def PreparedEffects.kvChanges (effects : PreparedEffects κ β) : List (κ × Option β) :=
  effects.kvWrites.map (fun w => (w.1, some w.2)) ++ effects.kvDeletes.map fun k => (k, none)

def PreparedEffects.kvBatch (effects : PreparedEffects κ β) : Batch (Val κ β) :=
  effects.kvWrites.map (fun w => ⟨.user w.1, .put w.2⟩) ++
    effects.kvDeletes.map fun k => ⟨.user k, .delete⟩

/-- The user and inbox keys, which no job action writes. -/
def Key.isExternal : Key κ → Bool
  | .user _ | .inboxRecord _ _ | .inboxExpiry _ _ _ => true
  | _ => false

/-- The scope of the writes of jobs and counts. -/
def Scope.internal : Scope := ⟨True, True, False⟩

theorem Scope.internal_admits {w : Σ k : Key κ, Write (Val κ β k)}
    (h : Scope.internal.Admits w) : w.1.isExternal = false := by
  obtain ⟨k, w⟩ := w
  cases k with
  | user | inboxRecord | inboxExpiry => exact h.elim
  | _ => rfl

def externalWrites (ws : Batch (Val κ β)) : Batch (Val κ β) := ws.filter fun w => w.1.isExternal

def InboxRecord.writes (record : InboxRecord) (queue : QueueName) (id : String) :
    Batch (Val κ β) :=
  [⟨.inboxRecord queue id, .put record⟩, ⟨.inboxExpiry record.appliedAtMs queue id, .put ()⟩]

def inboxDeletes (entry : ℕ × QueueName × String) : Batch (Val κ β) :=
  [⟨.inboxExpiry entry.1 entry.2.1 entry.2.2, .delete⟩, ⟨.inboxRecord entry.2.1 entry.2.2, .delete⟩]

/-- The external writes of an attempt on the snapshot that commits. -/
def Call.External [DecidableEq κ] (s : Store (Val κ β)) (external : Batch (Val κ β)) :
    Call κ β → Prop
  | .kvPut key value | .kvCompareThen key _ (some value) => external = [⟨.user key, .put value⟩]
  | .kvDelete key | .kvCompareThen key _ none => external = [⟨.user key, .delete⟩]
  | .applyEnqueue queue id appliedAt _ | .applyCancel queue id appliedAt _
  | .applySignal queue id appliedAt _ _ | .commitRejection queue id appliedAt _ =>
    ∃ outcome, external = InboxRecord.writes ⟨appliedAt, outcome⟩ queue id
  | .sweepInboxRecords entries => external = entries.flatMap inboxDeletes
  | call => external = (call.appliedEffects s).elim [] PreparedEffects.kvBatch

/-- The changes of user keys by an attempt on the snapshot that commits. -/
def Call.kvChanges [DecidableEq κ] (s : Store (Val κ β)) : Call κ β → List (κ × Option β)
  | .kvPut key value => [(key, some value)]
  | .kvDelete key => [(key, none)]
  | .kvCompareThen key _ value => [(key, value)]
  | call => (call.appliedEffects s).elim [] PreparedEffects.kvChanges

section Changes

theorem userChange?_eq_none {w : Σ k : Key κ, Write (Val κ β k)} (h : w.1.isExternal = false) :
    userChange? w = none := by
  obtain ⟨j, w⟩ := w
  cases j with
  | user j => cases h
  | _ => rfl

theorem userChanges_externalWrites {ws : Batch (Val κ β)} :
    userChanges (externalWrites ws) = userChanges ws := by
  rw [userChanges, externalWrites, List.filterMap_filter]
  refine List.filterMap_congr fun w _ => ?_
  cases h : w.1.isExternal with
  | true => rfl
  | false => exact (userChange?_eq_none h).symm

theorem userChanges_kvBatch (effects : PreparedEffects κ β) :
    userChanges effects.kvBatch = effects.kvChanges := by
  simp [userChanges, PreparedEffects.kvBatch, PreparedEffects.kvChanges, List.filterMap_append,
    List.filterMap_map, Function.comp_def, userChange?, List.filterMap_eq_map']

end Changes

section After

variable [DecidableEq κ] {changes changes' : List (κ × Option β)} {k : κ} {old : Option β}

@[simp] theorem kvAfter_nil : kvAfter [] k old = old := rfl

theorem kvAfter_append :
    kvAfter (changes ++ changes') k old = kvAfter changes' k (kvAfter changes k old) :=
  List.foldl_append

theorem kvAfter_of_not_mem (h : k ∉ changes.map Prod.fst) : kvAfter changes k old = old := by
  induction changes generalizing old with
  | nil => rfl
  | cons c changes ih =>
    simp only [List.map_cons, List.mem_cons, not_or] at h
    rw [kvAfter, List.foldl_cons, if_neg (Ne.symm h.1)]
    exact ih h.2

theorem kvAfter_of_mem (h : k ∈ changes.map Prod.fst) :
    ∃ v, (k, v) ∈ changes ∧ ∀ old, kvAfter changes k old = v := by
  induction changes with
  | nil => cases h
  | cons c changes ih =>
    by_cases hk : k ∈ changes.map Prod.fst
    · obtain ⟨v, hv, hafter⟩ := ih hk
      exact ⟨v, .tail _ hv, fun old => hafter _⟩
    · have hc : c.1 = k := by
        rcases List.mem_cons.mp h with h | h
        · exact h.symm
        · exact absurd h hk
      refine ⟨c.2, ?_, fun old => ?_⟩
      · rw [← hc]
        exact .head _
      · rw [kvAfter, List.foldl_cons, if_pos hc]
        exact kvAfter_of_not_mem hk

theorem kvAfter_eq_of_forall {v : Option β} (h : k ∈ changes.map Prod.fst)
    (hv : ∀ c ∈ changes, c.1 = k → c.2 = v) : kvAfter changes k old = v := by
  obtain ⟨v', hv', hafter⟩ := kvAfter_of_mem h
  rw [hafter]
  exact hv _ hv' rfl

theorem write_user (s : Store (Val κ β)) (w : Σ k : Key κ, Write (Val κ β k)) :
    s.write w (.user k) = kvAfter (userChange? w).toList k (s (.user k)) := by
  obtain ⟨j, w⟩ := w
  cases j with
  | user j =>
    by_cases hj : j = k
    · subst hj
      rw [Store.write_self]
      cases w <;> simp [userChange?, kvAfter, Write.apply, MergeOperator.merge]
    · have hne : Key.user k ≠ (Key.user j : Key κ) := fun h => hj (Key.user.inj h).symm
      rw [Store.write_of_ne hne]
      cases w <;> simp [userChange?, kvAfter, hj]
  | _ =>
    rw [Store.write_of_ne (by simp)]
    rfl

theorem applyBatch_user (s : Store (Val κ β)) (ws : Batch (Val κ β)) :
    s.applyBatch ws (.user k) = kvAfter (userChanges ws) k (s (.user k)) := by
  induction ws generalizing s with
  | nil => rfl
  | cons w ws ih =>
    rw [Store.applyBatch_cons, ih, write_user, ← kvAfter_append, userChanges, userChanges,
      List.filterMap_cons]
    cases userChange? w <;> rfl

end After

namespace Txn

/-- `t'` is `t` with writes added, which change the user keys so. -/
def ChangesUser (t t' : Txn κ β) (changes : List (κ × Option β)) : Prop :=
  ∃ ws, t'.writes = t.writes ++ ws ∧ userChanges ws = changes

def StagesExternal (t t' : Txn κ β) (external : Batch (Val κ β)) : Prop :=
  ∃ ws, t'.writes = t.writes ++ ws ∧ externalWrites ws = external

theorem StagesExternal.changesUser {t t' : Txn κ β} {external : Batch (Val κ β)}
    (h : StagesExternal t t' external) : ChangesUser t t' (userChanges external) := by
  obtain ⟨ws, hw, rfl⟩ := h
  exact ⟨ws, hw, userChanges_externalWrites.symm⟩

section Primitive

variable {t t' t'' : Txn κ β} {external external' : Batch (Val κ β)}

theorem StagesExternal.trans (h : StagesExternal t t' external)
    (h' : StagesExternal t' t'' external') :
    StagesExternal t t'' (external ++ external') := by
  obtain ⟨ws, hw, rfl⟩ := h
  obtain ⟨ws', hw', rfl⟩ := h'
  exact ⟨ws ++ ws', by rw [hw', hw, List.append_assoc], List.filter_append ..⟩

theorem StagesExternal.of_eq (h : t'.writes = t.writes) : StagesExternal t t' [] :=
  ⟨[], by simp [h], rfl⟩

theorem StagesExternal.refl (t : Txn κ β) : StagesExternal t t [] :=
  .of_eq rfl

theorem Adds.stagesExternal (h : Adds .internal t t') : StagesExternal t t' [] := by
  obtain ⟨-, -, ws, hw, hA⟩ := h
  refine ⟨ws, hw, List.filter_eq_nil_iff.mpr fun w hm => ?_⟩
  simp [Scope.internal_admits (hA w hm)]

theorem Staged.stagesExternal {α : Type} {txn : α → Txn κ β} {r : Except (Error κ) α} {a : α}
    (h : Staged .internal .any txn t r) (hr : r = .ok a) : StagesExternal t (txn a) [] :=
  (h.of_ok hr).stagesExternal

theorem stagesExternal_foldl {γ : Type} {f : Txn κ β → γ → Txn κ β} {g : γ → Batch (Val κ β)}
    (hf : ∀ t c, StagesExternal t (f t c) (g c)) (t : Txn κ β) (cs : List γ) :
    StagesExternal t (cs.foldl f t) (cs.flatMap g) := by
  induction cs generalizing t with
  | nil => exact .refl t
  | cons c cs ih => exact (hf t c).trans (ih (f t c))

theorem stagesExternal_put (t : Txn κ β) (k : κ) (v : β) :
    StagesExternal t (t.put (.user k) v) [⟨.user k, .put v⟩] :=
  ⟨_, rfl, rfl⟩

theorem stagesExternal_delete (t : Txn κ β) (k : κ) :
    StagesExternal t (t.delete (.user k)) [⟨.user k, .delete⟩] :=
  ⟨_, rfl, rfl⟩

theorem stagesExternal_stageInboxRecord (t : Txn κ β) (queue : QueueName) (id : String)
    (record : InboxRecord) :
    StagesExternal t (t.stageInboxRecord queue id record) (record.writes queue id) := by
  refine ⟨record.writes queue id, ?_, rfl⟩
  simp [stageInboxRecord, put, InboxRecord.writes]

end Primitive

section Effects

variable [DecidableEq κ] {t t' : Txn κ β}

omit [DecidableEq κ] in
theorem stagesExternal_stageKv (t : Txn κ β) (kvWrites : List (κ × β)) (kvDeletes : List κ) :
    StagesExternal t (t.stageKv kvWrites kvDeletes)
      (kvWrites.map (fun w => ⟨.user w.1, .put w.2⟩) ++
      kvDeletes.map fun k => ⟨.user k, .delete⟩) := by
  have hput :=
    stagesExternal_foldl (fun (t : Txn κ β) (w : κ × β) => t.stagesExternal_put w.1 w.2) t
    kvWrites
  have hdelete := stagesExternal_foldl (fun (t : Txn κ β) (k : κ) => t.stagesExternal_delete k)
    (kvWrites.foldl (fun t w => t.put (.user w.1) w.2) t) kvDeletes
  rw [← List.map_eq_flatMap] at hput hdelete
  exact hput.trans hdelete

variable [DecidableEq β]

theorem stagesExternal_stageEffects {rs : List EnqueueResult}
    (h : t.stageEffects leases effects = .ok (t', rs)) : StagesExternal t t' effects.kvBatch := by
  obtain ⟨t₁, t₂, t₃, t₄, h₁, h₂, h₃, h₄, rfl⟩ := stageEffects_parts h
  have hjobs : Adds .internal t t₄ :=
    ((staged_stageFence (F := .any) ..).of_ok h₁).trans <|
      ((staged_stageCompares (F := .any) _ trivial _).of_ok h₂).trans <|
      ((staged_stageCountChanges (F := .any) _ trivial _ _).of_ok h₃).trans
        ((staged_stageJobs (F := .any) _ ⟨trivial, trivial⟩ trivial _).of_ok h₄)
  have hnotes := (adds_noteExpiryEntries (t₄.stageKv effects.kvWrites effects.kvDeletes)
    effects.expiryEntries).stagesExternal
  have hkv := (t₄.stagesExternal_stageKv effects.kvWrites effects.kvDeletes).trans hnotes
  rw [List.append_nil] at hkv
  exact hjobs.stagesExternal.trans hkv

end Effects

end Txn

namespace Call

variable [DecidableEq κ] [DecidableEq β] {s : Store (Val κ β)} {t : Txn κ β} {call : Call κ β}
  {delivered : List JobRecord}

theorem stagesExternal_settle {effectLeases : Leases} {queue : QueueName} {id : String}
    {claimId now : ℕ} {settlement : Settlement}
    {r : JobRecord × ClaimEnd × Option (List EnqueueResult)}
    (h : (Txn.begin s).settleClaim leases effectLeases queue id claimId settlement effects now
      = .ok (t, .commit r)) :
    ∃ external, Txn.StagesExternal (Txn.begin s) t external ∧
      (Call.settle leases effectLeases queue id claimId settlement effects now).External s
        external := by
  obtain ⟨t₁, t₂, job, h₁, h₂, -, hcase⟩ := Txn.settleClaim_eq_commit h
  have hend := ((Txn.staged_takeClaim ..).stagesExternal h₁).trans
    ((Txn.staged_stageClaimEnd _ _ _ (.inl trivial)).stagesExternal h₂)
  obtain ⟨stored, hst, hdec⟩ := Option.map_eq_some_iff.mp (Txn.quietly_takeClaim h₁).2
  have hst' : s (.record (.claimed queue id)) = some stored := hst
  obtain ⟨hterm, results, h₃, -⟩ | ⟨hterm, rfl, -⟩ := hcase
  · refine ⟨_, hend.trans (Txn.stagesExternal_stageEffects h₃), ?_⟩
    simp only [External, appliedEffects, hst', Option.bind_some, hdec, hterm, if_true,
      Option.elim_some]
    rfl
  · refine ⟨_, hend, ?_⟩
    simp only [External, appliedEffects, hst', Option.bind_some, hdec, hterm]
    rfl

theorem stagesExternal_cancel {id : String} {r : StagedCancel × Option (List EnqueueResult)}
    (h : (Txn.begin s).cancel leases id effects = .ok (t, .commit r)) :
    ∃ external, Txn.StagesExternal (Txn.begin s) t external ∧
      (Call.cancel leases id effects).External s external := by
  obtain ⟨key, job, hj, ⟨hst, h₁, results, h₂, -⟩ | ⟨hst, job', h₁, -⟩⟩ := Txn.cancel_eq_ok h
  · refine ⟨_, ((Txn.staged_stageCancel ..).stagesExternal h₁).trans
      (Txn.stagesExternal_stageEffects h₂), ?_⟩
    simp only [External, appliedEffects, hj, Option.bind_some, hst, if_true, Option.elim_some]
    rfl
  · refine ⟨_, (Txn.staged_stageCancel ..).stagesExternal h₁, ?_⟩
    simp only [External, appliedEffects, hj, Option.bind_some, hst]
    rfl

theorem Application.external (a : Application)
    (h : (a.call : Call κ β).attempt s = some (t, delivered)) :
    ∃ external, Txn.StagesExternal (Txn.begin s) t external ∧
      ∃ outcome, external = InboxRecord.writes ⟨a.appliedAt, outcome⟩ a.queue a.id := by
  obtain ⟨t₁, outcome, h₁, rfl⟩ := a.attempt_eq_some h
  have he := (InboxEffect.staged_stage _ _ _ (.inl ⟨trivial, trivial, trivial⟩)).stagesExternal h₁
  exact ⟨_, he.trans (t₁.stagesExternal_stageInboxRecord a.queue a.id _), outcome, rfl⟩

/-- The external writes of an attempt that commits are those of its call. -/
theorem attempt_external (h : call.attempt s = some (t, delivered)) :
    ∃ external, Txn.StagesExternal (Txn.begin s) t external ∧ call.External s external := by
  cases committed_of_attempt h with
  | enqueue hr =>
    obtain ⟨t₁, id, results, h₁, h₂, -⟩ := Txn.writeJobTxn_eq_ok hr
    exact ⟨_, ((Txn.staged_stageJobWrites _ ⟨trivial, trivial⟩ trivial _).stagesExternal h₁).trans
      (Txn.stagesExternal_stageEffects h₂), rfl⟩
  | commitEffects hr => exact ⟨_, Txn.stagesExternal_stageEffects (Txn.commitEffects_eq_ok hr), rfl⟩
  | settle hr => exact stagesExternal_settle hr
  | cancel hr => exact stagesExternal_cancel hr
  | @applyEnqueue queue entryId appliedAt prepared =>
    exact Application.external ⟨queue, entryId, appliedAt, .enqueue prepared⟩ h
  | @applyCancel queue entryId appliedAt jobId =>
    exact Application.external ⟨queue, entryId, appliedAt, .cancel jobId⟩ h
  | @applySignal queue entryId appliedAt jobId payload =>
    exact Application.external ⟨queue, entryId, appliedAt, .signal jobId payload⟩ h
  | @commitRejection queue entryId appliedAt rejection =>
    exact Application.external ⟨queue, entryId, appliedAt, .reject rejection⟩ h
  | claimBatch hr => exact ⟨_, (Txn.staged_claimBatch ..).stagesExternal hr, rfl⟩
  | claimById hr => exact ⟨_, (Txn.staged_claimById ..).stagesExternal hr, rfl⟩
  | reap hr => exact ⟨_, (Txn.staged_reapJob _ _ _ _ _ _ (.inl trivial)).stagesExternal hr, rfl⟩
  | requeueInterrupted hr =>
    exact ⟨_, (Txn.staged_requeueInterrupted _ _ (.inl trivial)).stagesExternal hr, rfl⟩
  | promote hr => exact ⟨_, (Txn.staged_promoteJob ..).stagesExternal hr, rfl⟩
  | wakeScheduled hr => exact ⟨_, (Txn.staged_wakeScheduled ..).stagesExternal hr, rfl⟩
  | signal hr => exact ⟨_, (Txn.staged_signal ..).stagesExternal hr, rfl⟩
  | requeueDeadJob hr => exact ⟨_, (Txn.staged_requeueDeadJob ..).stagesExternal hr, rfl⟩
  | sweepVictim hr => exact ⟨_, (Txn.staged_sweepVictim ..).stagesExternal hr, rfl⟩
  | @sweepInboxRecords entries _ _ hr =>
    cases hr
    have hdelete : ∀ (t : Txn κ β) (e : ℕ × QueueName × String), Txn.StagesExternal t
        ((t.delete (.inboxExpiry e.1 e.2.1 e.2.2)).delete (.inboxRecord e.2.1 e.2.2))
        (inboxDeletes e) :=
      fun t e => ⟨inboxDeletes e, by simp [Txn.delete, inboxDeletes], rfl⟩
    exact ⟨_, Txn.stagesExternal_foldl hdelete (Txn.begin s) entries, rfl⟩
  | @kvCompareThen key _ value _ _ hr =>
    obtain ⟨-, -, rfl⟩ := Txn.kvCompareThen_eq_ok hr
    cases value with
    | some v => exact ⟨_, Txn.stagesExternal_put ((Txn.begin s).markRead _) key v, rfl⟩
    | none => exact ⟨_, Txn.stagesExternal_delete ((Txn.begin s).markRead _) key, rfl⟩
  | kvPut => exact ⟨_, Txn.stagesExternal_put _ _ _, rfl⟩
  | kvDelete => exact ⟨_, Txn.stagesExternal_delete _ _, rfl⟩

omit [DecidableEq β] in
theorem External.userChanges_eq {external : Batch (Val κ β)} (h : call.External s external) :
    userChanges external = call.kvChanges s := by
  have heffects : ∀ effects : Option (PreparedEffects κ β),
      userChanges (effects.elim [] PreparedEffects.kvBatch) =
        effects.elim [] PreparedEffects.kvChanges
    | none => rfl
    | some effects => userChanges_kvBatch effects
  cases call with
  | kvPut key value =>
    obtain rfl : external = _ := h
    rfl
  | kvDelete key =>
    obtain rfl : external = _ := h
    rfl
  | kvCompareThen key expected value =>
    cases value with
    | none =>
      obtain rfl : external = _ := h
      rfl
    | some value =>
      obtain rfl : external = _ := h
      rfl
  | applyEnqueue | applyCancel | applySignal | commitRejection =>
    obtain ⟨outcome, rfl⟩ := h
    rfl
  | sweepInboxRecords entries =>
    obtain rfl : external = entries.flatMap inboxDeletes := h
    induction entries with
    | nil => rfl
    | cons e entries ih => exact ih
  | _ =>
    obtain rfl : external = _ := h
    exact heffects _

theorem attempt_user (h : call.attempt s = some (t, delivered)) :
    Txn.ChangesUser (Txn.begin s) t (call.kvChanges s) := by
  obtain ⟨external, hstages, hexternal⟩ := attempt_external h
  rw [← hexternal.userChanges_eq]
  exact hstages.changesUser

/-- What the commit of an attempt does to the user keys of any store. -/
theorem user_of_attempt (h : call.attempt s = some (t, delivered)) (s' : Store (Val κ β)) (k : κ) :
    s'.applyBatch t.writes (.user k) = kvAfter (call.kvChanges s) k (s' (.user k)) := by
  obtain ⟨ws, hw, hc⟩ := attempt_user h
  rw [hw, applyBatch_user, ← hc]
  rfl

end Call

namespace Queue

variable [DecidableEq κ] [DecidableEq β]

def Label.kvChanges (log : History κ β) : Label κ β → List (κ × Option β)
  | .commit call snap => call.kvChanges (Log.store (log.take snap))
  | _ => []

theorem user_step {s s' : State κ β} {l : Label κ β} (hi : Inv s) (h : step s l = some s')
    (hl : ∀ kept todo, l ≠ .reopen kept todo) (k : κ) :
    s'.log.store (.user k) = kvAfter (l.kvChanges s.log) k (s.log.store (.user k)) := by
  obtain ⟨call, snap, t, delivered, hcall, -, ht, -, hlog⟩ | ⟨kept, todo, hr, -⟩ := step_cases hi h
  · rw [hlog, Log.store_append_singleton]
    refine (Call.user_of_attempt ht s.log.store k).trans ?_
    rcases hcall with rfl | ⟨job, now, rfl, rfl, -⟩
    · rfl
    · rfl
  · exact absurd hr (hl kept todo)

end Queue

end Taquba
