import Mathlib.Data.List.Sort
import Taquba.Effects.Runs
import Taquba.Queue.Counters
import Taquba.Retention.Dead
import Taquba.Workflow.Staged

/-! # The reconciliation of dead steps

The reconciliation loop of a runtime reads the dead counter of its queue and compares it
with the value that its last successful pass read. With the same value it does nothing.
Otherwise it pages through the dead jobs, and terminates the run of each one that the
pointer of its run names. Queue calls commit between any two reads of the loop.
-/

namespace Taquba.Workflow.Reconcile

open Snapshot Transition

def statsDead (log : History KvKey Value) (queue : QueueName) : ℤ :=
  countFor (some (mergeCounters none (log.counterOperands queue .dead)))

def deadId? (log : History KvKey Value) (queue : QueueName) : Key KvKey → Option String
  | .record (.dead q id) =>
    if q = queue ∧ (log.store (.record (.dead q id))).isSome then some id else none
  | _ => none

def deadIds (log : History KvKey Value) (queue : QueueName) : List String :=
  (log.keys.filterMap (deadId? log queue)).insertionSort (· ≤ ·)

structure JobPage where
  jobs : List JobRecord
  nextCursor : Option String

def listDead (log : History KvKey Value) (queue : QueueName) (cursor : Option String)
    (limit : ℕ) : JobPage :=
  let ids := (deadIds log queue).filter fun id => cursor.all (· < id)
  let page := ids.take limit
  { jobs := page.filterMap fun id =>
      (log.store (.record (.dead queue id))).map (JobRecord.decode (.dead queue id))
    nextCursor := if limit < ids.length then page.getLast? else none }

def pageSize : ℕ := 256

/-- Where a pass is with a dead job: it takes the next one, it has read that the pointer
names the job, it has read the run record, or it has built the effects. -/
inductive Visit where
  | next
  | record (claimed : ClaimedStep)
  | owned (claimed : ClaimedStep) (submission : Submission)
  | commit (terminating : Terminating)

/-- A pass: the counter as its check read it, after `readAt` commits, the cursor of the next
page unless the listing is exhausted, and the jobs of the page that it has still to visit. -/
structure Pass where
  value : ℤ
  readAt : ℕ
  next : Option (Option String) := some none
  jobs : List JobRecord := []
  visit : Visit := .next

/-- The counter of the last successful pass, and the number of commits when it was read. -/
structure Remembered where
  value : ℤ
  readAt : ℕ

inductive Phase where
  | idle
  | skipping (readAt : ℕ)
  | passing (pass : Pass)

structure Loop where
  reconciledAt : Option Remembered := none
  phase : Phase := .idle

structure State where
  queue : Queue.State KvKey Value := {}
  loop : Loop := {}

inductive Label where
  | queue (label : Queue.Label KvKey Value)
  | check
  | finishSkip
  | fetch
  | visit
  | readRecord
  | readOwned (hookCalls : List TerminalCall) (now : ℕ)
  | commit (preparing : Preparing) (now snap : ℕ)
  | fail
  | complete

def pointerActive (db : Db) (runId : RunId) : Bool :=
  match db (.user (.step runId)), db (.user (.run runId)) with
  | none, _ | some (.step _), some (.run (.active _)) => true
  | _, _ => false

def pointerFresh (queue : QueueName) (db : Db) (runId : RunId) : Bool :=
  match db (.user (.step runId)) with
  | some (.step ref) => (db (.record (.dead queue ref.jobId))).isNone
  | _ => true

/-- The changes of a commit of the runtimes, with the state they give: a pointer is written
with the job that it names, and a run record stays with its pointer. -/
def runtimeWrites (queue : QueueName) (db : Db) (changes : List (KvKey × Option Value)) : Bool :=
  changes.all fun change =>
    match change.1 with
    | .step runId => pointerActive db runId && pointerFresh queue db runId
    | .run runId => pointerActive db runId
    | _ => true

theorem record_of_pointerActive {db : Db} {runId : RunId} {ref : StepRef}
    (h : pointerActive db runId = true) (hp : db (.user (.step runId)) = some (.step ref)) :
    ∃ record, db (.user (.run runId)) = some (.run (.active record)) := by
  unfold pointerActive at h
  split at h
  · rename_i hnone
    rw [hp] at hnone
    cases hnone
  · rename_i record _ hrun
    exact ⟨record, hrun⟩
  · cases h

section Step

variable (settings : Settings) (runtime : Runtime)

def State.store (s : State) : Db := s.queue.log.store

def State.withPass (s : State) (pass : Pass) : State :=
  { s with loop := { s.loop with phase := .passing pass } }

def State.idle (s : State) : State := { s with loop := { s.loop with phase := .idle } }

/-- Read the counter: nothing to do, or a new pass. -/
def checked (s : State) : Phase :=
  let value := statsDead s.queue.log runtime.queueName
  if s.loop.reconciledAt.map (·.value) = some value then .skipping s.queue.log.length
  else .passing { value, readAt := s.queue.log.length }

/-- Parse a dead job and read the pointer of its run. `none` fails the pass. -/
def visited (db : Db) (job : JobRecord) : Option Visit :=
  match ClaimedStep.parse settings.digests job with
  | .error _ => some .next
  | .ok claimed =>
    match currentStepIfActive db claimed.runId with
    | .error _ => none
    | .ok current =>
      if current.all (·.jobId ≠ job.id) then some .next else some (.record claimed)

/-- Read the run record of a dead step that the pointer named. -/
def recordRead (db : Db) (claimed : ClaimedStep) : Option Visit :=
  match runRecord db claimed.runId with
  | .error _ => none
  | .ok none => some .next
  | .ok (some record) => some (.owned claimed record.submission)

/-- The termination of a run whose step was dead-lettered outside the worker. -/
def reconcileTermination (claimed : ClaimedStep) (submission : Submission)
    (queues : List QueueName) (hook : StagedEffects) (now : ℕ) : Terminating where
  runtime := runtime
  claimed := claimed
  ending := .failed (claimed.job.lastError.getD "step dead-lettered outside the worker") none
  result := none
  submission := submission
  owned := ⟨submission.owner claimed.runId, queues⟩
  hook := hook
  now := now

/-- Read the queues with owned runs and build the effects. `none` fails the pass. -/
def ownedRead (db : Db) (claimed : ClaimedStep) (submission : Submission) (hook : StagedEffects)
    (now : ℕ) : Option Visit :=
  match ownedQueues db (submission.owner claimed.runId) with
  | .error _ => none
  | .ok queues => some (.commit (reconcileTermination runtime claimed submission queues hook now))

def State.continue (s : State) (pass : Pass) : Option Visit → State
  | some visit => s.withPass { pass with visit }
  | none => s.idle

def step (s : State) : Label → Option State
  | .queue (.reopen kept todo) =>
    (Queue.step s.queue (.reopen kept todo)).map fun queue => { queue }
  | .queue label =>
    (Queue.step s.queue label).bind fun queue =>
      if runtimeWrites runtime.queueName queue.log.store (label.kvChanges s.queue.log) then
        some { s with queue }
      else none
  | .check =>
    match s.loop.phase with
    | .idle => some { s with loop := { s.loop with phase := checked runtime s } }
    | _ => none
  | .finishSkip =>
    match s.loop.phase with
    | .skipping _ => some s.idle
    | _ => none
  | .fetch =>
    match s.loop.phase with
    | .passing ⟨value, readAt, some cursor, [], .next⟩ =>
      let page := listDead s.queue.log runtime.queueName cursor pageSize
      some (s.withPass { value, readAt, next := page.nextCursor.map some, jobs := page.jobs })
    | _ => none
  | .visit =>
    match s.loop.phase with
    | .passing ⟨value, readAt, next, job :: jobs, .next⟩ =>
      some (s.continue { value, readAt, next, jobs } (visited settings s.store job))
    | _ => none
  | .readRecord =>
    match s.loop.phase with
    | .passing ⟨value, readAt, next, jobs, .record claimed⟩ =>
      some (s.continue { value, readAt, next, jobs } (recordRead s.store claimed))
    | _ => none
  | .readOwned hookCalls now =>
    match s.loop.phase, stagedByHook runtime.queueName.name hookCalls with
    | .passing ⟨value, readAt, next, jobs, .owned claimed submission⟩, .ok hook =>
      some (s.continue { value, readAt, next, jobs }
        (ownedRead runtime s.store claimed submission hook now))
    | _, _ => none
  | .commit preparing now snap =>
    match s.loop.phase with
    | .passing ⟨value, readAt, next, jobs, .commit t⟩ =>
      match Caller.commitEffects.prepare settings.configs.toConfigs t.effects preparing with
      | .error _ => some s.idle
      | .ok prepared =>
        let noLeases : Leases := fun _ _ => none
        (Queue.step s.queue (.commit (prepared.call noLeases noLeases now) snap)).map fun queue =>
          { s with queue }.withPass { value, readAt, next, jobs }
    | _ => none
  | .fail =>
    match s.loop.phase with
    | .passing _ => some s.idle
    | _ => none
  | .complete =>
    match s.loop.phase with
    | .passing ⟨value, readAt, none, [], .next⟩ =>
      some { s with loop := { reconciledAt := some ⟨value, readAt⟩ } }
    | _ => none

/-- The steps, each with what it finds. -/
inductive Step (s : State) : Label → State → Prop
  | reopen {kept todo queue} (hq : Queue.step s.queue (.reopen kept todo) = some queue) :
      Step s (.queue (.reopen kept todo)) { queue }
  | queue {label queue} (hlabel : ∀ kept todo, label ≠ .reopen kept todo)
      (hq : Queue.step s.queue label = some queue)
      (hw : runtimeWrites runtime.queueName queue.log.store (label.kvChanges s.queue.log) = true) :
      Step s (.queue label) { s with queue }
  | check (hphase : s.loop.phase = .idle) :
      Step s .check { s with loop := { s.loop with phase := checked runtime s } }
  | idle {label} : Step s label s.idle
  | fetch {value readAt cursor page}
      (hphase : s.loop.phase = .passing ⟨value, readAt, some cursor, [], .next⟩)
      (hpage : page = listDead s.queue.log runtime.queueName cursor pageSize) :
      Step s .fetch
        (s.withPass { value, readAt, next := page.nextCursor.map some, jobs := page.jobs })
  | visit {value readAt next job jobs}
      (hphase : s.loop.phase = .passing ⟨value, readAt, next, job :: jobs, .next⟩) :
      Step s .visit (s.continue { value, readAt, next, jobs } (visited settings s.store job))
  | readRecord {value readAt next jobs claimed}
      (hphase : s.loop.phase = .passing ⟨value, readAt, next, jobs, .record claimed⟩) :
      Step s .readRecord (s.continue { value, readAt, next, jobs } (recordRead s.store claimed))
  | readOwned {value readAt next jobs claimed submission hookCalls hook now}
      (hphase : s.loop.phase = .passing ⟨value, readAt, next, jobs, .owned claimed submission⟩)
      (hhook : stagedByHook runtime.queueName.name hookCalls = .ok hook) :
      Step s (.readOwned hookCalls now) (s.continue { value, readAt, next, jobs }
        (ownedRead runtime s.store claimed submission hook now))
  | commit {value readAt next jobs t preparing prepared now snap queue}
      (hphase : s.loop.phase = .passing ⟨value, readAt, next, jobs, .commit t⟩)
      (hp : Caller.commitEffects.prepare settings.configs.toConfigs t.effects preparing =
        .ok prepared)
      (hq : Queue.step s.queue (.commit
        (prepared.call (fun _ _ => none) (fun _ _ => none) now) snap) = some queue) :
      Step s (.commit preparing now snap) ({ s with queue }.withPass { value, readAt, next, jobs })
  | complete {value readAt} (hphase : s.loop.phase = .passing ⟨value, readAt, none, [], .next⟩) :
      Step s .complete { s with loop := { reconciledAt := some ⟨value, readAt⟩ } }

/-- The runs of the reconciliation loop of a runtime, with the calls of all runtimes. -/
def machine : Machine State Label where
  init s := s = {}
  step := step settings runtime

variable {settings runtime}

theorem step_cases {s s' : State} {l : Label} (h : step settings runtime s l = some s') :
    Step settings runtime s l s' := by
  unfold step at h
  split at h
  · obtain ⟨queue, hq, rfl⟩ := Option.map_eq_some_iff.mp h
    exact .reopen hq
  · rename_i hlabel
    obtain ⟨queue, hq, h⟩ := Option.bind_eq_some_iff.mp h
    obtain ⟨hw, ⟨⟩⟩ := Option.ite_none_right_eq_some.mp h
    exact .queue hlabel hq hw
  all_goals
    split at h
    on_goal 2 => cases h
  · rename_i hphase
    cases h
    exact .check hphase
  · cases h
    exact .idle
  · rename_i hphase
    cases h
    exact .fetch hphase rfl
  · rename_i hphase
    cases h
    exact .visit hphase
  · rename_i hphase
    cases h
    exact .readRecord hphase
  · rename_i hphase hhook
    cases h
    exact .readOwned hphase hhook
  · rename_i hphase
    split at h
    · cases h
      exact .idle
    · rename_i hp
      obtain ⟨queue, hq, rfl⟩ := Option.map_eq_some_iff.mp h
      exact .commit hphase hp hq
  · cases h
    exact .idle
  · rename_i hphase
    cases h
    exact .complete hphase

end Step

section Listing

variable {log : History KvKey Value} {queue : QueueName} {id : String}

theorem mem_deadIds : id ∈ deadIds log queue ↔
    (log.store (.record (.dead queue id))).isSome = true := by
  simp only [deadIds, List.mem_insertionSort, List.mem_filterMap]
  constructor
  · rintro ⟨k, -, hk⟩
    unfold deadId? at hk
    split at hk
    · split_ifs at hk with h
      cases hk
      exact h.1 ▸ h.2
    · cases hk
  · intro h
    refine ⟨.record (.dead queue id), History.mem_keys_of_store ?_, by simp [deadId?, h]⟩
    exact Option.isSome_iff_ne_none.mp h

theorem deadId?_eq_some {k : Key KvKey} (h : deadId? log queue k = some id) :
    k = .record (.dead queue id) := by
  unfold deadId? at h
  split at h
  · split_ifs at h with hq
    cases h
    rw [hq.1]
  · cases h

theorem pairwise_deadIds : (deadIds log queue).Pairwise (· < ·) := by
  have hnodup : (deadIds log queue).Nodup := by
    refine (List.perm_insertionSort _ _).nodup_iff.mpr ?_
    refine List.Nodup.filterMap (fun k k' id h h' => ?_) (List.nodup_dedup _)
    rw [deadId?_eq_some h, deadId?_eq_some h']
  refine ((List.pairwise_insertionSort _ _).and hnodup).imp ?_
  rintro a b ⟨hle, hne⟩
  exact lt_of_le_of_ne hle hne

/-- A dead job after the cursor is on the page, or after the cursor of the next page. -/
theorem mem_listDead {job : JobRecord} {cursor : Option String} {limit : ℕ} (hlimit : 0 < limit)
    (hf : JobAction.Found log.store (.dead queue id) job) (hc : ∀ c ∈ cursor, c < id) :
    job ∈ (listDead log queue cursor limit).jobs ∨
      ∃ c, (listDead log queue cursor limit).nextCursor = some c ∧ c < id := by
  have hmem : id ∈ (deadIds log queue).filter fun id => cursor.all (· < id) := by
    refine List.mem_filter.mpr ⟨mem_deadIds.mpr ?_, ?_⟩
    · obtain ⟨stored, hst, -⟩ := Option.map_eq_some_iff.mp hf
      rw [hst]
      rfl
    · cases cursor with
      | none => rfl
      | some c => simpa using hc c rfl
  have hsorted : ((deadIds log queue).filter fun id => cursor.all (· < id)).Pairwise (· < ·) :=
    pairwise_deadIds.filter _
  unfold listDead
  generalize (deadIds log queue).filter (fun id => cursor.all (· < id)) = ids at hmem hsorted
  rw [← List.take_append_drop limit ids] at hmem hsorted
  rcases List.mem_append.mp hmem with hm | hm
  · exact .inl (List.mem_filterMap.mpr ⟨id, hm, hf⟩)
  · have hlen : limit < ids.length := by
      by_contra hge
      rw [List.drop_eq_nil_of_le (Nat.le_of_not_lt hge)] at hm
      cases hm
    have hne : ids.take limit ≠ [] := by
      intro hnil
      have := congrArg List.length hnil
      simp only [List.length_take, List.length_nil] at this
      omega
    refine .inr ⟨(ids.take limit).getLast hne, ?_, ?_⟩
    · exact (if_pos hlen).trans (List.getLast?_eq_some_getLast hne)
    · exact (List.pairwise_append.mp hsorted).2.2 _ (List.getLast_mem hne) id hm

end Listing

/-- The call takes no dead job of the queue away: it does not revive a job, and is not a
removal by the dead retention sweep. -/
def KeepsDead (queue : QueueName) (call : Call KvKey Value) : Prop :=
  call.revives = none ∧ ∀ id, call.sweepsDead ≠ some (.dead queue id)

/-- No call since `n` commits took a dead job of the queue away. -/
def Kept (queue : QueueName) (log : History KvKey Value) (n : ℕ) : Prop :=
  ∀ c ∈ log.drop n, KeepsDead queue c.label.call

def Named (digests : Digests) (db : Db) (job : JobRecord) : Prop :=
  ∃ claimed ref, ClaimedStep.parse digests job = .ok claimed ∧
    db (.user (.step claimed.runId)) = some (.step ref) ∧ ref.jobId = job.id

section Kept

variable {queue : QueueName} {log : History KvKey Value} {n m : ℕ}

theorem Kept.mono (h : Kept queue log n) (hnm : n ≤ m) : Kept queue log m :=
  fun c hc => h c (List.drop_subset_drop_left _ hnm hc)

theorem Kept.take (h : Kept queue log n) (m : ℕ) : Kept queue (log.take m) n := by
  intro c hc
  rw [List.drop_take] at hc
  exact h c (List.mem_of_mem_take hc)

theorem kept_append {c : Commit (Val KvKey Value) (Entry KvKey Value)} (hn : n ≤ log.length) :
    Kept queue (log ++ [c]) n ↔ Kept queue log n ∧ KeepsDead queue c.label.call := by
  simp [Kept, List.drop_append_of_le_length hn, or_imp, forall_and]

theorem Kept.found (h : Kept queue log n) (hs : log.Lawful History.Spares) {id : String}
    {job : JobRecord} (hf : JobAction.Found (Log.store (log.take n)) (.dead queue id) job) :
    JobAction.Found log.store (.dead queue id) job := by
  obtain ⟨stored, hst, hdec⟩ := Option.map_eq_some_iff.mp hf
  refine Option.map_eq_some_iff.mpr ⟨stored, ?_, hdec⟩
  refine History.record_since hs hst fun c hc htakes => ?_
  obtain ⟨hr, hsw⟩ := h c hc
  rcases Call.takes_dead htakes with ht | ht
  · rw [hr] at ht
    cases ht
  · exact hsw id ht

theorem statsDead_eq (log : History KvKey Value) (queue : QueueName) :
    statsDead log queue = (log.map fun c => c.label.stats queue .dead).sum := by
  rw [statsDead, countFor, Option.getD_some, mergeCounters_eq, History.counterOperands,
    sum_filter_ne_zero]
  simp

/-- With the same counter at two points, and no dead job taken away in between, the dead
jobs are the same. -/
theorem Kept.found_before (h : Kept queue log n) (hq : log.Sound) (hs : log.Lawful History.Spares)
    (hnm : n ≤ m) (heq : statsDead (log.take n) queue = statsDead (log.take m) queue) {id : String}
    {job : JobRecord} (hf : JobAction.Found (Log.store (log.take m)) (.dead queue id) job) :
    JobAction.Found (Log.store (log.take n)) (.dead queue id) job := by
  have hsince : ∀ {id job}, JobAction.Found (Log.store (log.take n)) (.dead queue id) job →
      JobAction.Found (Log.store (log.take m)) (.dead queue id) job := by
    intro id job hf
    refine (h.take m).found (hs.take m) ?_
    rwa [List.take_take, Nat.min_eq_left hnm]
  have hsub : records (Log.store (log.take n)) queue .dead ⊆
      records (Log.store (log.take m)) queue .dead := by
    rintro key ⟨hkq, hks, hsome⟩
    refine ⟨hkq, hks, ?_⟩
    cases key with
    | dead q id =>
      obtain rfl : q = queue := hkq
      obtain ⟨stored, hst⟩ := Option.isSome_iff_exists.mp hsome
      have hfound := hsince (Option.map_eq_some_iff.mpr ⟨stored, hst, rfl⟩)
      obtain ⟨stored', hst', -⟩ := Option.map_eq_some_iff.mp hfound
      rw [hst']
      rfl
    | _ => cases hks
  have hdead : JobStatus.dead ≠ .done := by simp
  obtain ⟨-, hcardn⟩ := (hq.take n).ncard_records queue hdead
  obtain ⟨hfin, hcardm⟩ := (hq.take m).ncard_records queue hdead
  rw [statsDead_eq, statsDead_eq, ← hcardn, ← hcardm] at heq
  have hsets := Set.eq_of_subset_of_ncard_le hsub (by omega) hfin
  obtain ⟨stored, hst, -⟩ := Option.map_eq_some_iff.mp hf
  have hmem : RecordKey.dead queue id ∈ records (Log.store (log.take m)) queue .dead :=
    ⟨rfl, rfl, by rw [hst]; rfl⟩
  rw [← hsets] at hmem
  obtain ⟨stored', hst'⟩ := Option.isSome_iff_exists.mp hmem.2.2
  have hfound : JobAction.Found (Log.store (log.take n)) (.dead queue id)
      (JobRecord.decode (.dead queue id) stored') :=
    Option.map_eq_some_iff.mpr ⟨stored', hst', rfl⟩
  have hnow := hsince hfound
  rw [JobAction.Found] at hnow hf
  rw [hf] at hnow
  cases hnow
  exact hfound

end Kept

end Taquba.Workflow.Reconcile
