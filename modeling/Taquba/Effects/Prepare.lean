import Mathlib.Data.List.AList
import Taquba.Job.Config
import Taquba.Payload.Machine
import Taquba.Queue.Jobs

/-! # Settlement effects and their preparation

The effects of a settlement as a caller builds them, and what is done with them once,
before the transaction loop: the sizes and the keys of the writes are checked, the
records of the enqueues are built with their ids, and large payloads are offloaded. A
hash map is an association list with one entry for each key.
-/

namespace Taquba

/-- The failures of a call with effects: the refusals of its preparation, those of the
body of its transaction, and a failure of the store. -/
inductive Refusal (κ : Type) where
  | invalidQueueName (queue : String) (reason : FormError)
  | invalidId (id : String) (reason : FormError)
  | signalWaitWithoutRunAt
  | countWaitWithoutRunAt
  | kvValueTooLarge (size max : ℕ)
  | conflictingKvEffect (key : κ)
  | body (error : Error κ)
  | storage
  deriving DecidableEq, Repr

structure EnqueueOptions where
  headers : List (String × String) := []
  runAt : Option ℕ := none
  priority : Option ℕ := none
  maxAttempts : Option ℕ := none
  dedupKey : Option String := none
  idOverride : Option String := none
  signalWait : Bool := false
  countWait : Option String := none
  deriving DecidableEq

structure EnqueueRequest where
  queue : String
  payload : List UInt8
  options : EnqueueOptions := {}
  deriving DecidableEq

@[ext] structure SettlementEffects (κ β : Type) where
  kvCompares : List (KvCompare κ β) := []
  claimFence : Option ClaimFence := none
  enqueues : List EnqueueRequest := []
  kvWrites : AList (fun _ : κ => β) := ∅
  kvDeletes : List κ := []
  expiryEntries : List (ExpiryIndex × ℕ) := []
  countChanges : AList (fun _ : String => Int64) := ∅

theorem SettlementEffects.eq_iff_entries {κ β : Type} {a b : SettlementEffects κ β} :
    (a.kvCompares = b.kvCompares ∧ a.claimFence = b.claimFence ∧ a.enqueues = b.enqueues ∧
      a.kvWrites.entries = b.kvWrites.entries ∧ a.kvDeletes = b.kvDeletes ∧
      a.expiryEntries = b.expiryEntries ∧ a.countChanges.entries = b.countChanges.entries) ↔
      a = b := by
  rw [SettlementEffects.ext_iff, AList.ext_iff, AList.ext_iff]

instance {κ β : Type} [DecidableEq κ] [DecidableEq β] : DecidableEq (SettlementEffects κ β) :=
  fun _ _ => decidable_of_iff _ SettlementEffects.eq_iff_entries

namespace SettlementEffects

variable {κ β : Type} (effects : SettlementEffects κ β)

def kvCompare (compare : KvCompare κ β) : SettlementEffects κ β :=
  { effects with kvCompares := effects.kvCompares ++ [compare] }

def withClaimFence (fence : ClaimFence) : SettlementEffects κ β :=
  { effects with claimFence := some fence }

/-- Change a count. The changes of one count add up. -/
def changeCount (name : String) (change : Int64) : SettlementEffects κ β :=
  { effects with
    countChanges := effects.countChanges.insert name
      ((effects.countChanges.lookup name).getD 0 + change) }

def countUp (name : String) : SettlementEffects κ β := effects.changeCount name 1

def countDown (name : String) : SettlementEffects κ β := effects.changeCount name (-1)

def enqueue (request : EnqueueRequest) : SettlementEffects κ β :=
  { effects with enqueues := effects.enqueues ++ [request] }

def kvPut [DecidableEq κ] (key : κ) (value : β) : SettlementEffects κ β :=
  { effects with kvWrites := effects.kvWrites.insert key value }

def kvDelete (key : κ) : SettlementEffects κ β :=
  { effects with kvDeletes := effects.kvDeletes ++ [key] }

def expiryEntry [DecidableEq κ] (index : ExpiryIndex) (atMs : ℕ) (key : κ) (empty : β) :
    SettlementEffects κ β :=
  { effects.kvPut key empty with expiryEntries := effects.expiryEntries ++ [(index, atMs)] }

variable {effects}

theorem lookup_kvPut [DecidableEq κ] {key k : κ} {value v : β}
    (h : (effects.kvPut key value).kvWrites.lookup k = some v) :
    k = key ∧ v = value ∨ effects.kvWrites.lookup k = some v := by
  by_cases he : k = key
  · subst he
    rw [kvPut, AList.lookup_insert] at h
    cases h
    exact .inl ⟨rfl, rfl⟩
  · rw [kvPut, AList.lookup_insert_ne he] at h
    exact .inr h

end SettlementEffects

/-- What the preparation takes from the store: the configurations of the queues, the size
of an encoded value, and whether the build checks for overflow. -/
structure Configs (β : Type) where
  queues : QueueConfigs
  valueSize : β → ℕ
  overflowChecks : Bool

/-- One attempt for every queue, values of one byte and no overflow checks. -/
def plainConfigs : Configs ℕ where
  queues := { default := { maxAttempts := 1, defaultPriority := 0 } }
  valueSize _ := 1
  overflowChecks := false

def maxKvValueSize : ℕ := 256 * 1024

def maxIdOverrideLen : ℕ := 128

section Prepare

variable {κ β : Type} (configs : Configs β)

def validateKvValueSize (value : β) : Except (Refusal κ) Unit :=
  if maxKvValueSize < configs.valueSize value then
    .error (.kvValueTooLarge (configs.valueSize value) maxKvValueSize)
  else .ok ()

def validateQueueName (queue : String) : Except (Refusal κ) QueueName :=
  match QueueName.new queue with
  | .ok queue => .ok queue
  | .error reason => .error (.invalidQueueName queue reason)

def validateIdOverride (id : String) : Except (Refusal κ) Unit :=
  match (Form.id maxIdOverrideLen).check id with
  | .ok () => .ok ()
  | .error reason => .error (.invalidId id reason)

def jobId (idOverride : Option String) (generated : String) : Except (Refusal κ) String :=
  match idOverride with
  | some supplied => do
    validateIdOverride supplied
    return supplied
  | none => .ok generated

/-- The record of a new job on a validated queue. A `runAt` that is not after `now` is an
immediate enqueue, which waits for nothing. -/
def newJob (queue : QueueName) (payload : List UInt8) (opts : EnqueueOptions) (id : String)
    (now : ℕ) : PreparedJob where
  job :=
    { id, queue, payload
      headers := opts.headers
      status := if (opts.runAt.filter (now < ·)).isSome then .scheduled else .pending
      maxAttempts := opts.maxAttempts.getD (configs.queues.get queue).maxAttempts
      priority := opts.priority.getD (configs.queues.get queue).defaultPriority
      enqueuedAt := now
      runAt := opts.runAt.filter (now < ·)
      signalWait := opts.signalWait && (opts.runAt.filter (now < ·)).isSome
      countWait := opts.countWait.filter fun _ => (opts.runAt.filter (now < ·)).isSome
      dedupKey := opts.dedupKey }
  idOverrideUsed := opts.idOverride.isSome
  status_eq := rfl
  isNew := by
    refine ⟨rfl, rfl, rfl, rfl, rfl, rfl, rfl, fun h => ?_⟩
    simp only at h
    simp [h]

/-- Resolve the options of an enqueue and build its record. `generated` is the id of a job
without an override. -/
def prepareJobRecord (queue : String) (payload : List UInt8) (opts : EnqueueOptions)
    (generated : String) (now : ℕ) : Except (Refusal κ) PreparedJob := do
  let queue ← validateQueueName queue
  let id ← jobId opts.idOverride generated
  if opts.signalWait ∧ opts.runAt = none then .error .signalWaitWithoutRunAt
  else if opts.countWait.isSome ∧ opts.runAt = none then .error .countWaitWithoutRunAt
  else return newJob configs queue payload opts id now

/-- The records of the enqueues, in order, with the generated ids from the `i`-th on. -/
def prepareJobRecords (generated : ℕ → String) (now : ℕ) :
    ℕ → List EnqueueRequest → Except (Refusal κ) (List PreparedJob)
  | _, [] => .ok []
  | i, request :: rest => do
    let prepared ←
      prepareJobRecord configs request.queue request.payload request.options (generated i) now
    let jobs ← prepareJobRecords generated now (i + 1) rest
    return prepared :: jobs

def offloadPrepared (prepared : PreparedJob) (name : Option String) : PreparedJob :=
  name.elim prepared (Payload.offloaded prepared)

/-- Validate effects and prepare them for staging. `names` are the objects of the
offloaded payloads. -/
def prepareEffects [DecidableEq κ] (effects : SettlementEffects κ β) (generated : ℕ → String)
    (names : ℕ → Option String) (now : ℕ) : Except (Refusal κ) (PreparedEffects κ β) := do
  effects.kvWrites.entries.forM fun entry => validateKvValueSize configs entry.2
  match effects.kvDeletes.find? (· ∈ effects.kvWrites) with
  | some key => .error (.conflictingKvEffect key)
  | none =>
    let jobs ← prepareJobRecords configs generated now 0 effects.enqueues
    return {
      kvCompares := effects.kvCompares
      claimFence := effects.claimFence
      preparedJobs := jobs.mapIdx fun i p => offloadPrepared p (names i)
      kvWrites := effects.kvWrites.entries.map fun entry => (entry.1, entry.2)
      kvDeletes := effects.kvDeletes
      expiryEntries := effects.expiryEntries
      countChanges := effects.countChanges.entries.map fun entry => (entry.1, entry.2)
      overflowChecks := configs.overflowChecks }

end Prepare

structure Prepares (request : EnqueueRequest) (prepared : PreparedJob) : Prop where
  queue : prepared.job.queue.name = request.queue
  headers : prepared.job.headers = request.options.headers
  dedupKey : prepared.job.dedupKey = request.options.dedupKey
  id : ∀ id ∈ request.options.idOverride, prepared.job.id = id
  payload : prepared.job.payload = request.payload ∨ prepared.job.payloadRef.isSome

section Prepared

variable {κ β : Type} {configs : Configs β}

variable {prepared : PreparedJob} {now : ℕ}

theorem prepareJobRecord_eq_ok {queue : String} {payload : List UInt8} {opts : EnqueueOptions}
    {generated : String}
    (h : prepareJobRecord (κ := κ) configs queue payload opts generated now = .ok prepared) :
    Prepares ⟨queue, payload, opts⟩ prepared := by
  obtain ⟨name, hname, h⟩ := Except.bind_eq_ok.mp h
  obtain ⟨id, hid, h⟩ := Except.bind_eq_ok.mp h
  have hqueue : name.name = queue := by
    unfold validateQueueName at hname
    split at hname
    · rename_i hn
      cases hname
      exact QueueName.new_eq_ok hn
    · cases hname
  have hover : ∀ i ∈ opts.idOverride, id = i := by
    rintro i hi
    rw [Option.mem_def.mp hi] at hid
    obtain ⟨_, -, hid⟩ := Except.bind_eq_ok.mp hid
    cases hid
    rfl
  split at h
  · cases h
  · split at h
    · cases h
    · cases h
      exact ⟨hqueue, rfl, rfl, hover, .inl rfl⟩

theorem exists_newJob {queue : String} {payload : List UInt8} {opts : EnqueueOptions}
    {generated : String}
    (h : prepareJobRecord (κ := κ) configs queue payload opts generated now = .ok prepared) :
    ∃ name id, prepared = newJob configs name payload opts id now := by
  obtain ⟨name, -, h⟩ := Except.bind_eq_ok.mp h
  obtain ⟨id, -, h⟩ := Except.bind_eq_ok.mp h
  split at h
  · cases h
  · split at h
    · cases h
    · cases h
      exact ⟨name, id, rfl⟩

theorem prepareJobRecords_eq_ok {generated : ℕ → String} {i : ℕ} {requests : List EnqueueRequest}
    {jobs : List PreparedJob}
    (h : prepareJobRecords (κ := κ) configs generated now i requests = .ok jobs) :
    List.Forall₂ Prepares requests jobs := by
  induction requests generalizing i jobs with
  | nil =>
    cases h
    exact .nil
  | cons request rest ih =>
    obtain ⟨prepared, hp, h⟩ := Except.bind_eq_ok.mp h
    obtain ⟨rest', hr, h⟩ := Except.bind_eq_ok.mp h
    cases h
    exact .cons (prepareJobRecord_eq_ok hp) (ih hr)

theorem Prepares.offload {request : EnqueueRequest} (h : Prepares request prepared)
    (name : Option String) : Prepares request (offloadPrepared prepared name) := by
  cases name with
  | none => exact h
  | some name => exact { h with payload := .inr rfl }

theorem prepares_mapIdx {requests : List EnqueueRequest} {jobs : List PreparedJob}
    (h : List.Forall₂ Prepares requests jobs) (names : ℕ → Option String) :
    List.Forall₂ Prepares requests (jobs.mapIdx fun i p => offloadPrepared p (names i)) := by
  induction h generalizing names with
  | nil => exact .nil
  | cons hp _ ih =>
    rw [List.mapIdx_cons]
    exact .cons (hp.offload _) (ih fun i => names (i + 1))

/-- The prepared effects are those of the caller, and no written key is deleted. -/
structure PreparedFrom (effects : SettlementEffects κ β) (prepared : PreparedEffects κ β) :
    Prop where
  writes : prepared.kvWrites = effects.kvWrites.entries.map fun entry => (entry.1, entry.2)
  deletes : prepared.kvDeletes = effects.kvDeletes
  counts : prepared.countChanges =
    effects.countChanges.entries.map fun entry => (entry.1, entry.2)
  expiry : prepared.expiryEntries = effects.expiryEntries
  jobs : List.Forall₂ Prepares effects.enqueues prepared.preparedJobs
  disjoint : ∀ key ∈ effects.kvDeletes, key ∉ effects.kvWrites

theorem prepareEffects_eq_ok [DecidableEq κ] {effects : SettlementEffects κ β}
    {generated : ℕ → String} {names : ℕ → Option String} {prepared : PreparedEffects κ β}
    (h : prepareEffects configs effects generated names now = .ok prepared) :
    PreparedFrom effects prepared := by
  obtain ⟨_, -, h⟩ := Except.bind_eq_ok.mp h
  split at h
  · cases h
  · rename_i hfind
    obtain ⟨jobs, hj, h⟩ := Except.bind_eq_ok.mp h
    cases h
    refine ⟨rfl, rfl, rfl, rfl, prepares_mapIdx (prepareJobRecords_eq_ok hj) names, ?_⟩
    simpa using hfind

end Prepared

structure EnqueueRequest.Valid (request : EnqueueRequest) : Prop where
  queue : queueNameForm.check request.queue = .ok ()
  id : ∀ id ∈ request.options.idOverride, (Form.id maxIdOverrideLen).check id = .ok ()
  signal : request.options.signalWait = true → request.options.runAt ≠ none
  count : request.options.countWait ≠ none → request.options.runAt ≠ none

section Valid

variable {κ β : Type} (configs : Configs β)

theorem EnqueueRequest.Valid.prepares {request : EnqueueRequest} (h : request.Valid)
    (generated : String) (now : ℕ) : ∃ prepared, prepareJobRecord (κ := κ) configs request.queue
      request.payload request.options generated now = .ok prepared := by
  have hid : ∃ id, jobId (κ := κ) request.options.idOverride generated = .ok id := by
    cases ho : request.options.idOverride with
    | none => exact ⟨generated, rfl⟩
    | some id =>
      refine ⟨id, ?_⟩
      simp [jobId, validateIdOverride, h.id id ho, bind, Except.bind, pure, Except.pure]
  obtain ⟨id, hid⟩ := hid
  refine ⟨newJob configs ⟨_, h.queue⟩ request.payload request.options id now, ?_⟩
  refine Except.bind_eq_ok.mpr ⟨⟨_, h.queue⟩, ?_, Except.bind_eq_ok.mpr ⟨id, hid, ?_⟩⟩
  · rw [validateQueueName, QueueName.new_of_check h.queue]
  · rw [if_neg fun hn => h.signal hn.1 hn.2,
      if_neg fun hn => h.count (Option.isSome_iff_ne_none.mp hn.1) hn.2]
    rfl

theorem valid_of_prepareJobRecord {request : EnqueueRequest} {generated : String} {now : ℕ}
    {prepared : PreparedJob} (h : prepareJobRecord (κ := κ) configs request.queue request.payload
      request.options generated now = .ok prepared) : request.Valid := by
  have hqueue := (prepareJobRecord_eq_ok h).queue
  obtain ⟨name, -, h⟩ := Except.bind_eq_ok.mp h
  obtain ⟨id, hid, h⟩ := Except.bind_eq_ok.mp h
  refine ⟨hqueue ▸ prepared.job.queue.valid, ?_, ?_, ?_⟩
  · intro supplied hs
    rw [Option.mem_def.mp hs] at hid
    obtain ⟨_, hcheck, -⟩ := Except.bind_eq_ok.mp hid
    unfold validateIdOverride at hcheck
    cases hc : (Form.id maxIdOverrideLen).check supplied with
    | ok => rfl
    | error reason =>
      rw [hc] at hcheck
      cases hcheck
  · intro hs hn
    rw [if_pos ⟨hs, hn⟩] at h
    cases h
  · intro hc hn
    have hcount := And.intro (Option.isSome_iff_ne_none.mpr hc) hn
    by_cases hs : request.options.signalWait = true ∧ request.options.runAt = none
    · rw [if_pos hs] at h
      cases h
    · rw [if_neg hs, if_pos hcount] at h
      cases h

theorem prepareJobRecords_ok_iff {requests : List EnqueueRequest} (generated : ℕ → String)
    (now i : ℕ) :
    (∃ jobs, prepareJobRecords (κ := κ) configs generated now i requests = .ok jobs) ↔
      ∀ request ∈ requests, request.Valid := by
  induction requests generalizing i with
  | nil => exact iff_of_true ⟨[], rfl⟩ (by simp)
  | cons request rest ih =>
    rw [List.forall_mem_cons, ← ih (i + 1)]
    constructor
    · rintro ⟨_, h⟩
      obtain ⟨prepared, hp, h⟩ := Except.bind_eq_ok.mp h
      obtain ⟨jobs, hj, -⟩ := Except.bind_eq_ok.mp h
      exact ⟨valid_of_prepareJobRecord configs hp, jobs, hj⟩
    · rintro ⟨hv, jobs, hj⟩
      obtain ⟨prepared, hp⟩ := hv.prepares (κ := κ) configs (generated i) now
      exact ⟨prepared :: jobs, Except.bind_eq_ok.mpr ⟨prepared, hp,
        Except.bind_eq_ok.mpr ⟨jobs, hj, rfl⟩⟩⟩

theorem forM_validateKvValueSize_iff {entries : List (Σ _ : κ, β)} :
    entries.forM (fun entry => validateKvValueSize (κ := κ) configs entry.2) = .ok () ↔
      ∀ entry ∈ entries, configs.valueSize entry.2 ≤ maxKvValueSize := by
  induction entries with
  | nil => exact iff_of_true rfl (by simp)
  | cons entry entries ih =>
    rw [List.forall_mem_cons, ← ih]
    constructor
    · intro h
      obtain ⟨_, hs, h⟩ := Except.bind_eq_ok.mp h
      refine ⟨Nat.not_lt.mp fun hlt => ?_, h⟩
      cases (if_pos hlt).symm.trans hs
    · rintro ⟨hs, h⟩
      exact Except.bind_eq_ok.mpr ⟨(), if_neg (Nat.not_lt.mpr hs), h⟩

/-- Effects are prepared exactly when their values fit, their keys do not conflict and their
enqueues are valid. -/
theorem prepareEffects_ok_iff [DecidableEq κ] {effects : SettlementEffects κ β}
    (generated : ℕ → String) (names : ℕ → Option String) (now : ℕ) :
    (∃ prepared, prepareEffects configs effects generated names now = .ok prepared) ↔
      (∀ k v, effects.kvWrites.lookup k = some v → configs.valueSize v ≤ maxKvValueSize) ∧
      (∀ k ∈ effects.kvDeletes, k ∉ effects.kvWrites) ∧
      ∀ request ∈ effects.enqueues, request.Valid := by
  have hsizes : (∀ k v, effects.kvWrites.lookup k = some v → configs.valueSize v ≤ maxKvValueSize)
      ↔ ∀ entry ∈ effects.kvWrites.entries, configs.valueSize entry.2 ≤ maxKvValueSize :=
    ⟨fun h entry he => h entry.1 entry.2 (AList.mem_lookup_iff.mpr he),
      fun h k v hv => h ⟨k, v⟩ (AList.mem_lookup_iff.mp hv)⟩
  rw [hsizes, ← forM_validateKvValueSize_iff (κ := κ) configs,
    ← prepareJobRecords_ok_iff (κ := κ) configs generated now 0]
  constructor
  · rintro ⟨prepared, h⟩
    have hdisjoint := (prepareEffects_eq_ok h).disjoint
    obtain ⟨_, hs, h⟩ := Except.bind_eq_ok.mp h
    refine ⟨hs, hdisjoint, ?_⟩
    have hfind : effects.kvDeletes.find? (· ∈ effects.kvWrites) = none := by simpa using hdisjoint
    rw [hfind] at h
    obtain ⟨jobs, hj, -⟩ := Except.bind_eq_ok.mp h
    exact ⟨jobs, hj⟩
  · rintro ⟨hs, hkeys, jobs, hj⟩
    have hfind : effects.kvDeletes.find? (· ∈ effects.kvWrites) = none := by simpa using hkeys
    rw [prepareEffects, hs, hfind, hj]
    exact ⟨_, rfl⟩

end Valid

section After

variable {κ β : Type} [DecidableEq κ] {effects : SettlementEffects κ β}
  {prepared : PreparedEffects κ β}

variable {k : κ}

theorem PreparedFrom.mem_kvChanges (h : PreparedFrom effects prepared) {c : Option β} :
    (k, c) ∈ prepared.kvChanges ↔
      (∃ v, effects.kvWrites.lookup k = some v ∧ c = some v) ∨
        k ∈ effects.kvDeletes ∧ c = none := by
  have hlookup : ∀ v, effects.kvWrites.lookup k = some v ↔
      (⟨k, v⟩ : Σ _ : κ, β) ∈ effects.kvWrites.entries := fun v => AList.mem_lookup_iff
  simp only [PreparedEffects.kvChanges, h.writes, h.deletes, List.mem_append, List.mem_map,
    List.map_map, Function.comp_apply, Prod.mk.injEq, hlookup]
  constructor
  · rintro (⟨⟨_, v⟩, he, rfl, rfl⟩ | ⟨_, hd, rfl, rfl⟩)
    · exact .inl ⟨v, he, rfl⟩
    · exact .inr ⟨hd, rfl⟩
  · rintro (⟨v, he, rfl⟩ | ⟨hd, rfl⟩)
    · exact .inl ⟨⟨k, v⟩, he, rfl, rfl⟩
    · exact .inr ⟨k, hd, rfl, rfl⟩

theorem PreparedFrom.kvAfter_written (h : PreparedFrom effects prepared) {v : β}
    (hk : effects.kvWrites.lookup k = some v) (old : Option β) :
    kvAfter prepared.kvChanges k old = some v := by
  apply kvAfter_eq_of_forall
  · exact List.mem_map.mpr ⟨(k, some v), h.mem_kvChanges.mpr (.inl ⟨v, hk, rfl⟩), rfl⟩
  · rintro ⟨_, c⟩ hc rfl
    rcases h.mem_kvChanges.mp hc with ⟨w, hw, rfl⟩ | ⟨hd, -⟩
    · exact hw.symm.trans hk
    · refine absurd (AList.lookup_isSome.mp ?_) (h.disjoint _ hd)
      rw [hk]
      rfl

theorem PreparedFrom.kvAfter_deleted (h : PreparedFrom effects prepared)
    (hk : k ∈ effects.kvDeletes) (old : Option β) : kvAfter prepared.kvChanges k old = none := by
  apply kvAfter_eq_of_forall
  · exact List.mem_map.mpr ⟨(k, none), h.mem_kvChanges.mpr (.inr ⟨hk, rfl⟩), rfl⟩
  · rintro ⟨_, c⟩ hc rfl
    rcases h.mem_kvChanges.mp hc with ⟨w, hw, rfl⟩ | ⟨-, rfl⟩
    · refine absurd (AList.lookup_isSome.mp ?_) (h.disjoint _ hk)
      rw [hw]
      rfl
    · rfl

theorem PreparedFrom.kvAfter_other (h : PreparedFrom effects prepared) (hw : k ∉ effects.kvWrites)
    (hd : k ∉ effects.kvDeletes) (old : Option β) : kvAfter prepared.kvChanges k old = old := by
  apply kvAfter_of_not_mem
  intro hm
  obtain ⟨⟨_, c⟩, hc, rfl⟩ := List.mem_map.mp hm
  rcases h.mem_kvChanges.mp hc with ⟨v, hv, -⟩ | ⟨hk, -⟩
  · rw [AList.lookup_eq_none.mpr hw] at hv
    cases hv
  · exact hd hk

theorem sum_changeOf {entries : List (Σ _ : String, Int64)} (hn : entries.NodupKeys)
    (name : String) : (entries.map fun e => Txn.changeOf e.1 e.2 name).sum =
      ((entries.dlookup name).getD 0).toInt := by
  induction entries with
  | nil => rfl
  | cons e entries ih =>
    obtain ⟨hnot, hn⟩ := List.nodupKeys_cons.mp hn
    rw [List.map_cons, List.sum_cons, ih hn]
    by_cases he : name = e.1
    · subst he
      rw [List.dlookup_eq_none.mpr hnot, List.dlookup_cons_eq]
      simp [Txn.changeOf]
    · rw [List.dlookup_cons_ne _ _ he]
      simp [Txn.changeOf, he]

omit [DecidableEq κ] in
theorem PreparedFrom.countChange_eq (h : PreparedFrom effects prepared) (name : String) :
    prepared.countChange name = ((effects.countChanges.lookup name).getD 0).toInt := by
  rw [PreparedEffects.countChange, h.counts, List.map_map]
  exact sum_changeOf effects.countChanges.nodupKeys name

end After

end Taquba
