import Taquba.Effects.Runs
import Taquba.Workflow.Effects

/-! # Staged effects in a terminating settlement

A step whose outcome terminates its run is acknowledged with the effects of the
termination, what the hook staged and what the step staged. The two handles check their
calls apart. With the keys of the two handles apart, valid enqueues and a terminal record
that fits, the settlement is prepared, and its commit has every staged write and delete.
-/

namespace Taquba.Workflow

open Snapshot Transition

variable {k : KvKey} {staged : StagedEffects}

def KvKey.IsStaged : KvKey → Prop
  | .caller _ | .runEntry _ _ => True
  | _ => False

/-- What holds of the effects of a handle: the keys are those of callers and run KV
entries, and the values fit. -/
structure StagedEffects.Fits (staged : StagedEffects) : Prop where
  keys : ∀ k, staged.Stages k → k.IsStaged
  sizes : ∀ k v, staged.writes.lookup k = some v →
    ∃ bytes, v = .bytes bytes ∧ bytes.length ≤ maxKvValueSize

section Handles

variable {state state' : EffectsState}

theorem fits_stageWrite {key : KvKey} {value : List UInt8} (hf : state.staged.Fits)
    (h : state.stageWrite key value = .ok state') (hk : key.IsStaged) : state'.staged.Fits := by
  unfold EffectsState.stageWrite at h
  split at h
  · cases h
  · rename_i hsize
    split at h
    · cases h
    · cases h
      constructor
      · rintro k (hw | hd)
        · rcases (AList.mem_insert _).mp hw with rfl | hw
          · exact hk
          · exact hf.keys k (.inl hw)
        · exact hf.keys k (.inr hd)
      · intro k v hv
        by_cases he : k = key
        · subst he
          rw [AList.lookup_insert] at hv
          cases hv
          exact ⟨value, rfl, Nat.not_lt.mp hsize⟩
        · rw [AList.lookup_insert_ne he] at hv
          exact hf.sizes k v hv

theorem fits_stageDelete {key : KvKey} (hf : state.staged.Fits)
    (h : state.stageDelete key = .ok state') (hk : key.IsStaged) : state'.staged.Fits := by
  unfold EffectsState.stageDelete at h
  split at h
  · cases h
  · cases h
    refine ⟨?_, hf.sizes⟩
    rintro k (hw | hd)
    · exact hf.keys k (.inl hw)
    · rcases List.mem_insert_iff.mp hd with rfl | hd
      · exact hk
      · exact hf.keys k (.inr hd)

theorem fits_terminalCall {call : TerminalCall} (hf : state.staged.Fits)
    (h : call.stage state = .ok state') : state'.staged.Fits := by
  cases call with
  | put key value =>
    obtain ⟨_, -, h⟩ := Except.bind_eq_ok.mp h
    obtain ⟨_, -, h⟩ := Except.bind_eq_ok.mp h
    exact fits_stageWrite hf h trivial
  | delete key =>
    obtain ⟨_, -, h⟩ := Except.bind_eq_ok.mp h
    obtain ⟨_, -, h⟩ := Except.bind_eq_ok.mp h
    exact fits_stageDelete hf h trivial
  | enqueue request =>
    obtain ⟨_, -, h⟩ := Except.bind_eq_ok.mp h
    obtain ⟨_, -, h⟩ := Except.bind_eq_ok.mp h
    cases h
    exact ⟨hf.keys, hf.sizes⟩

theorem fits_calls {α : Type} {stage : EffectsState → α → Except HandleError EffectsState}
    (hstage : ∀ state call state', state.staged.Fits → stage state call = .ok state' →
      state'.staged.Fits) {calls : List α} (hf : state.staged.Fits)
    (h : (calls.foldlM stage state).map (fun state => state.sealAndTake.1) = .ok staged) :
    staged.Fits := by
  induction calls generalizing state with
  | nil =>
    cases h
    exact hf
  | cons call calls ih =>
    rw [List.foldlM_cons] at h
    cases hc : stage state call with
    | error e =>
      rw [hc] at h
      cases h
    | ok next =>
      rw [hc] at h
      exact ih (hstage _ _ _ hf hc) h

theorem fits_forDelivery (queue : String) : (EffectsState.forDelivery queue).staged.Fits := by
  constructor
  · rintro k (hw | hd)
    · exact absurd hw (AList.notMem_empty k)
    · cases hd
  · rintro k v ⟨⟩

theorem fits_stagedByHook {queue : String} {calls : List TerminalCall}
    (h : stagedByHook queue calls = .ok staged) : staged.Fits :=
  fits_calls (fun _ _ _ => fits_terminalCall) (fits_forDelivery queue) h

end Handles

namespace Terminating

variable (t : Terminating)

inductive Writes : KvKey → Value → Prop
  | run : Writes (.run t.claimed.runId) (.run (.terminated t.record))
  | member {m : Membership} (hm : t.claimed.membership = some m) :
    Writes (.member m.groupId m.key) (.member ⟨t.claimed.runId, some t.record⟩)
  | marker : Writes (.terminal t.now t.claimed.runId) (.bytes [])

theorem kvWrites_ownedEffects (effects : RunEffects) :
    (t.ownedEffects effects).kvWrites = effects.kvWrites := by
  unfold ownedEffects
  split
  · rfl
  · rfl

theorem kvWrites_effects :
    t.effects.kvWrites = (t.markEffects (t.memberEffects t.runEffects)).kvWrites := by
  unfold effects markEffects
  split
  · exact congrArg (AList.insert _ _) (t.kvWrites_ownedEffects _)
  · exact t.kvWrites_ownedEffects _

theorem lookup_runEffects (hk : k ≠ .run t.claimed.runId) :
    t.runEffects.kvWrites.lookup k = t.hook.writes.lookup k := by
  rw [runEffects, SettlementEffects.kvPut, AList.lookup_insert_ne hk]
  by_cases hw : k ∈ t.hook.writes
  · exact AList.lookup_union_left hw
  · rw [AList.lookup_eq_none.mpr hw]
    exact AList.lookup_union_right hw

/-- A termination writes the terminal record, the member record and the marker over what
the hook wrote. -/
theorem lookup_effects {v : Value} (h : t.effects.kvWrites.lookup k = some v) :
    t.Writes k v ∨ t.hook.writes.lookup k = some v := by
  have hrun : t.runEffects.kvWrites.lookup k = some v →
      t.Writes k v ∨ t.hook.writes.lookup k = some v := by
    intro h
    by_cases hk : k = .run t.claimed.runId
    · subst hk
      cases (AList.lookup_insert _).symm.trans h
      exact .inl .run
    · rw [t.lookup_runEffects hk] at h
      exact .inr h
  have hmember : (t.memberEffects t.runEffects).kvWrites.lookup k = some v →
      t.Writes k v ∨ t.hook.writes.lookup k = some v := by
    intro h
    unfold memberEffects at h
    split at h
    · rename_i m hm
      rcases SettlementEffects.lookup_kvPut h with ⟨rfl, rfl⟩ | h
      · exact .inl (.member hm)
      · exact hrun h
    · exact hrun h
  rw [kvWrites_effects, markEffects] at h
  split at h
  · rcases SettlementEffects.lookup_kvPut h with ⟨rfl, rfl⟩ | h
    · exact .inl .marker
    · exact hmember h
  · exact hmember h

theorem lookup_effects_eq (hmember : ∀ groupId key, k ≠ .member groupId key)
    (hmarker : ∀ atMs runId, k ≠ .terminal atMs runId) :
    t.effects.kvWrites.lookup k = t.runEffects.kvWrites.lookup k := by
  have h : (t.memberEffects t.runEffects).kvWrites.lookup k = t.runEffects.kvWrites.lookup k := by
    unfold memberEffects
    split
    · exact AList.lookup_insert_ne (hmember _ _)
    · rfl
  rw [kvWrites_effects, markEffects]
  split
  · exact (AList.lookup_insert_ne (hmarker _ _)).trans h
  · exact h

theorem lookup_effects_run :
    t.effects.kvWrites.lookup (.run t.claimed.runId) = some (.run (.terminated t.record)) := by
  rw [t.lookup_effects_eq (by simp) (by simp)]
  exact AList.lookup_insert _

theorem lookup_effects_of_isStaged (hk : k.IsStaged) :
    t.effects.kvWrites.lookup k = t.hook.writes.lookup k := by
  cases k with
  | caller | runEntry => rw [t.lookup_effects_eq (by simp) (by simp), t.lookup_runEffects (by simp)]
  | _ => exact hk.elim

theorem mem_kvDeletes_effects :
    k ∈ t.effects.kvDeletes ↔ k ∈ t.hook.deletes ∨ k = .step t.claimed.runId ∨
      ∃ owner ∈ t.claimed.owner, k = .owned owner t.runtime.queueName t.claimed.runId := by
  have hmark : t.effects.kvDeletes =
      (t.ownedEffects (t.memberEffects t.runEffects)).kvDeletes := by
    unfold effects markEffects
    split
    · rfl
    · rfl
  have hmember : (t.memberEffects t.runEffects).kvDeletes =
      t.hook.deletes ++ [.step t.claimed.runId] := by
    unfold memberEffects
    split
    · rfl
    · rfl
  rw [hmark, ownedEffects]
  split
  · rename_i owner ho
    simp [SettlementEffects.kvDelete, hmember, ho]
  · rename_i ho
    simp [hmember, ho]

theorem enqueues_effects : t.effects.enqueues =
    t.hook.enqueues ++ t.owned.queues.map (ownedCancelRequest t.owned.owner) := by
  have howned : (t.ownedEffects (t.memberEffects t.runEffects)).enqueues = t.hook.enqueues := by
    unfold ownedEffects memberEffects
    split
    · split
      · rfl
      · rfl
    · split
      · rfl
      · rfl
  unfold effects markEffects
  split
  · exact congrArg (· ++ _) howned
  · exact congrArg (· ++ _) howned

end Terminating

theorem ownedCancelRequest_valid (owner : OwnerRef) (queue : QueueName) :
    (ownedCancelRequest owner queue).Valid where
  queue := queue.valid
  id := by simp [ownedCancelRequest]
  signal := by simp [ownedCancelRequest]
  count := by simp [ownedCancelRequest]

/-- What the handle staged is in effect. -/
structure StagedEffects.InEffect (staged : StagedEffects) (kv : KvKey → Option Value) : Prop where
  written : ∀ k v, staged.writes.lookup k = some v → kv k = some v
  deleted : ∀ k ∈ staged.deletes, kv k = none

def Terminating.settlement (t : Terminating) (outcome : StepOutcome) (step : StagedEffects) :
    RunEffects :=
  addCallerEffects (.ok outcome) none step t.effects

/-- What both handles staged is in effect, and the run has terminated with the outcome. -/
structure Terminated (t : Terminating) (outcome : StepOutcome) (step : StagedEffects)
    (kv : KvKey → Option Value) : Prop where
  step : step.InEffect kv
  hook : t.hook.InEffect kv
  run : ∃ groupHasMember ending result,
    settleOutcome t.claimed (.ok outcome) none groupHasMember t.now = .terminate ending result ∧
    kv (.run t.claimed.runId) =
      some (.run (.terminated (termination t.claimed ending result t.submission t.now)))

/-- What the two handles do not check: they agree on the keys that both stage, the enqueues are
valid for the queue, and the terminal record and the member record fit. -/
structure Compatible (configs : RunConfigs) (t : Terminating) (step : StagedEffects) : Prop where
  writes : ∀ k v w, step.writes.lookup k = some v → t.hook.writes.lookup k = some w → v = w
  hookDeletes : ∀ k ∈ t.hook.deletes, k ∉ step.writes
  stepDeletes : ∀ k ∈ step.deletes, k ∉ t.hook.writes
  enqueues : ∀ request ∈ t.hook.enqueues ++ step.enqueues, request.Valid
  sizes : ∀ k v, t.Writes k v → configs.valueSize v ≤ maxKvValueSize

section Settles

variable {configs : RunConfigs} {t : Terminating} {outcome : StepOutcome} {step : StagedEffects}

theorem Terminating.settlement_eq : t.settlement outcome step = step.addTo t.effects := by
  cases outcome with
  | cancel | «continue» | succeed | fail => rfl

theorem lookup_settlement_step {v : Value} (h : step.writes.lookup k = some v) :
    (t.settlement outcome step).kvWrites.lookup k = some v := by
  rw [Terminating.settlement_eq]
  exact AList.lookup_union_eq_some.mpr (.inl h)

theorem lookup_settlement_of_not_mem (h : k ∉ step.writes) :
    (t.settlement outcome step).kvWrites.lookup k = t.effects.kvWrites.lookup k := by
  rw [Terminating.settlement_eq]
  exact AList.lookup_union_right h

theorem lookup_settlement_runtime (hstep : step.Fits) {v : Value} (hk : ¬ k.IsStaged)
    (h : t.effects.kvWrites.lookup k = some v) :
    (t.settlement outcome step).kvWrites.lookup k = some v := by
  rw [lookup_settlement_of_not_mem fun hw => hk (hstep.keys k (.inl hw))]
  exact h

theorem Compatible.disjoint (hstep : step.Fits) (hhook : t.hook.Fits)
    (h : Compatible configs t step) :
    ∀ k ∈ (t.settlement outcome step).kvDeletes, k ∉ (t.settlement outcome step).kvWrites := by
  intro k hd hw
  rw [Terminating.settlement_eq] at hd hw
  have hruntime : ¬ k.IsStaged → k ∈ t.effects.kvWrites → ∃ v, t.Writes k v := by
    intro hk hm
    obtain ⟨v, hv⟩ := Option.isSome_iff_exists.mp (AList.lookup_isSome.mpr hm)
    rcases t.lookup_effects hv with hv | hv
    · exact ⟨v, hv⟩
    · refine absurd (hhook.keys k (.inl ?_)) hk
      exact AList.lookup_isSome.mp (by rw [hv]; rfl)
  have hstaged : k.IsStaged → k ∈ t.effects.kvWrites → k ∈ t.hook.writes := by
    intro hk hm
    rw [← AList.lookup_isSome, t.lookup_effects_of_isStaged hk] at hm
    exact AList.lookup_isSome.mp hm
  rcases List.mem_append.mp hd with hd | hd
  · rcases t.mem_kvDeletes_effects.mp hd with hd | rfl | ⟨owner, -, rfl⟩
    · have hk := hhook.keys k (.inr hd)
      rcases AList.mem_union.mp hw with hw | hw
      · exact h.hookDeletes k hd hw
      · exact t.hook.disjoint k hd (hstaged hk hw)
    · rcases AList.mem_union.mp hw with hw | hw
      · exact hstep.keys _ (.inl hw)
      · obtain ⟨v, hv⟩ := hruntime id hw
        cases hv
    · rcases AList.mem_union.mp hw with hw | hw
      · exact hstep.keys _ (.inl hw)
      · obtain ⟨v, hv⟩ := hruntime id hw
        cases hv
  · have hk := hstep.keys k (.inr hd)
    rcases AList.mem_union.mp hw with hw | hw
    · exact step.disjoint k hd hw
    · exact h.stepDeletes k hd (hstaged hk hw)

theorem Compatible.prepares (h : Compatible configs t step)
    (outcome : StepOutcome) (hstep : step.Fits) (hhook : t.hook.Fits)
    (claim : ClaimFence) (keep : Bool) (preparing : Preparing) :
    ∃ prepared, (Caller.ackWith claim keep).prepare configs.toConfigs
      (t.settlement outcome step) preparing = .ok (.settle claim (.ack keep) prepared) := by
  have hbytes : ∀ {staged : StagedEffects} {k : KvKey} {v : Value}, staged.Fits →
      staged.writes.lookup k = some v → configs.valueSize v ≤ maxKvValueSize := by
    intro staged k v hf hv
    obtain ⟨bytes, rfl, hb⟩ := hf.sizes k v hv
    rwa [configs.valueSize_bytes]
  have hsizes : ∀ k v, (t.settlement outcome step).kvWrites.lookup k = some v →
      configs.valueSize v ≤ maxKvValueSize := by
    intro k v hv
    rw [Terminating.settlement_eq] at hv
    rcases AList.lookup_union_eq_some.mp hv with hv | ⟨-, hv⟩
    · exact hbytes hstep hv
    · rcases t.lookup_effects hv with hv | hv
      · exact h.sizes k v hv
      · exact hbytes hhook hv
  have hrequests : ∀ request ∈ (t.settlement outcome step).enqueues, request.Valid := by
    intro request hr
    rw [Terminating.settlement_eq, StagedEffects.addTo, Terminating.enqueues_effects] at hr
    simp only [List.append_assoc, List.mem_append, List.mem_map] at hr
    rcases hr with hr | ⟨queue, -, rfl⟩ | hr
    · exact h.enqueues request (List.mem_append_left _ hr)
    · exact ownedCancelRequest_valid _ _
    · exact h.enqueues request (List.mem_append_right _ hr)
  obtain ⟨prepared, hp⟩ := (prepareEffects_ok_iff configs.toConfigs preparing.generated
    preparing.names preparing.now).mpr ⟨hsizes, h.disjoint hstep hhook, hrequests⟩
  exact ⟨prepared, Except.map_eq_ok.mpr ⟨prepared, hp, rfl⟩⟩

/-- Where the settlement is in effect, so is what both handles staged, and the run has
terminated. -/
theorem Compatible.terminated (hstep : step.Fits) (hhook : t.hook.Fits)
    (h : Compatible configs t step) {groupHasMember : Bool}
    (hout : settleOutcome t.claimed (.ok outcome) none groupHasMember t.now =
      .terminate t.ending t.result) {kv : KvKey → Option Value}
    (hw : ∀ k v, (t.settlement outcome step).kvWrites.lookup k = some v → kv k = some v)
    (hd : ∀ k ∈ (t.settlement outcome step).kvDeletes, kv k = none) :
    Terminated t outcome step kv := by
  have hdeletes : (t.settlement outcome step).kvDeletes = t.effects.kvDeletes ++ step.deletes := by
    rw [Terminating.settlement_eq]
    rfl
  refine ⟨⟨?_, ?_⟩, ⟨?_, ?_⟩, groupHasMember, t.ending, t.result, hout, ?_⟩
  · intro k v hv
    exact hw k v (lookup_settlement_step hv)
  · intro k hk
    exact hd k (hdeletes ▸ List.mem_append_right _ hk)
  · intro k v hv
    have hk : k ∈ t.hook.writes := AList.lookup_isSome.mp (by rw [hv]; rfl)
    by_cases hs : k ∈ step.writes
    · obtain ⟨w, hw'⟩ := Option.isSome_iff_exists.mp (AList.lookup_isSome.mpr hs)
      rw [← h.writes k w v hw' hv]
      exact hw k w (lookup_settlement_step hw')
    · refine hw k v ?_
      rw [lookup_settlement_of_not_mem hs, t.lookup_effects_of_isStaged (hhook.keys k (.inl hk))]
      exact hv
  · intro k hk
    refine hd k (hdeletes ▸ List.mem_append_left _ ?_)
    exact t.mem_kvDeletes_effects.mpr (.inl hk)
  · exact hw _ _ (lookup_settlement_runtime hstep id t.lookup_effects_run)

end Settles

/-- The settings of a queue with one attempt, and records that take one byte. -/
def smallConfigs : RunConfigs where
  queues := { default := { maxAttempts := 1, defaultPriority := 0 } }
  valueSize
    | .bytes bytes => bytes.length
    | _ => 1
  overflowChecks := false
  valueSize_bytes _ := rfl

def steps : Runtime := ⟨⟨"steps", by decide +kernel⟩, false⟩

def nightly : RunId := ⟨"nightly", by decide +kernel⟩

end Taquba.Workflow
