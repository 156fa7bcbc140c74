import Taquba.Retention.Sweep

/-! # The done retention sweep

The sweep of one reaper step reads the done records from the done bound in the order of
completion, stops at the first that the largest window keeps, and removes those whose
own window ended, each in a transaction. The bound it leaves is the earliest completion
it did not remove. Completions and sweeps follow each other; a completion lowers the
bound.
-/

namespace Taquba.Retention

open Snapshot Transition

variable {κ β : Type}

structure DoneKey where
  completedAt : ℕ
  queue : QueueName
  id : String
  deriving DecidableEq

def DoneKey.record (key : DoneKey) : RecordKey := .done key.completedAt key.queue key.id

/-- The records that the scan reads: the earliest time that it leaves, and the records to
remove. -/
def examine (configs : QueueConfigs) (now retention : ℕ) :
    List (DoneKey × JobRecord) → TimeBound.Bound × List (DoneKey × JobRecord)
  | [] => (⊤, [])
  | (key, stored) :: rest =>
    if TimeBound.isDue key.completedAt now retention then
      let (retained, victims) := examine configs now retention rest
      let job := JobRecord.decode key.record stored
      match job.completedAt with
      | none => (retained, victims)
      | some terminalAt =>
        if isRetained (configs.get job.queue).keepDoneJobs terminalAt now then
          (min key.completedAt retained, victims)
        else (retained, (key, job) :: victims)
    else (key.completedAt, [])

inductive Removal where
  | committed
  | conflict
  | failed
  deriving DecidableEq, Repr

/-- How the rest of a sweep went: the scan failed, or it removed its records, and then
flushed the store when it had payload objects to delete. -/
inductive SweepEnd where
  | scanFailed
  | removals (outcomes : List Removal) (flushed : Bool)
  deriving DecidableEq, Repr

def SweepEnd.Clean : SweepEnd → Prop
  | .scanFailed => False
  | .removals outcomes flushed => (∀ outcome ∈ outcomes, outcome = .committed) ∧ flushed = true

structure State (κ β : Type) where
  queue : Queue.State κ β := {}
  doneBound : TimeBound.Bound := 0

inductive Label (κ β : Type) where
  | queue (label : Queue.Label κ β)
  | sweep (now : ℕ) (entries : List (DoneKey × JobRecord)) (ending : SweepEnd)

variable [DecidableEq κ]

def State.store (s : State κ β) : Store (Val κ β) := s.queue.log.store

def IsRead (log : History κ β) (start : TimeBound.Bound) (entries : List (DoneKey × JobRecord)) :
    Key κ → Prop
  | .record (.done completedAt queue id) =>
    (log.store (.record (.done completedAt queue id))).isSome → start ≤ completedAt →
      ⟨completedAt, queue, id⟩ ∈ entries.map Prod.fst
  | _ => True

instance (log : History κ β) (start : TimeBound.Bound) (entries : List (DoneKey × JobRecord)) :
    ∀ key, Decidable (IsRead log start entries key)
  | .record (.done _ _ _) => inferInstanceAs (Decidable (_ → _ → _))
  | .record (.pending _ _) | .record (.claimed _ _) | .record (.scheduled _ _ _)
  | .record (.dead _ _) | .jobIndex _ | .dedup _ _ | .attemptHistory _ | .inboxRecord _ _
  | .inboxExpiry _ _ _ | .count _ | .user _ => isTrue trivial

def IsScan (log : History κ β) (start : TimeBound.Bound) (entries : List (DoneKey × JobRecord)) :
    Prop :=
  entries.Pairwise (·.1.completedAt ≤ ·.1.completedAt) ∧ (entries.map Prod.fst).Nodup ∧
  (∀ e ∈ entries, log.store (.record e.1.record) = some e.2 ∧ start ≤ e.1.completedAt) ∧
  ∀ key ∈ log.keys, IsRead log start entries key

instance (log : History κ β) (start : TimeBound.Bound) (entries : List (DoneKey × JobRecord)) :
    Decidable (IsScan log start entries) :=
  inferInstanceAs (Decidable (_ ∧ _ ∧ _ ∧ _))

variable [DecidableEq β]

/-- Remove the records in order, each in a transaction of its own. The result is the
store, the earliest time that was left, and whether all went through. -/
def removeVictims (queue : Queue.State κ β) (retained : TimeBound.Bound) :
    List (DoneKey × JobRecord) → List Removal → Option (Queue.State κ β × TimeBound.Bound × Bool)
  | [], [] => some (queue, retained, true)
  | (key, job) :: victims, .committed :: outcomes =>
    (Queue.step queue (.commit (.sweepVictim key.record job) queue.log.length)).bind fun queue =>
      removeVictims queue retained victims outcomes
  | (key, _) :: victims, .conflict :: outcomes =>
    removeVictims queue (min retained key.completedAt) victims outcomes
  | _ :: _, [.failed] => some (queue, retained, false)
  | _, _ => none

def sweepDone (configs : QueueConfigs) (s : State κ β) (now : ℕ)
    (entries : List (DoneKey × JobRecord)) (ending : SweepEnd) : Option (State κ β) :=
  match configs.maxKeepDone with
  | none => some s
  | some maxRetention =>
    if TimeBound.isDue s.doneBound now (toU64 maxRetention) then
      if IsScan s.queue.log s.doneBound entries then
        match ending with
        | .scanFailed => some s
        | .removals outcomes flushed =>
          let (retained, victims) := examine configs now (toU64 maxRetention) entries
          (removeVictims s.queue retained victims outcomes).map fun (queue, left, completed) =>
            { queue, doneBound := if completed && flushed then left else s.doneBound }
      else none
    else some s

/-- The bound after a commit that noted the earliest completion it wrote. -/
def lowerDone (bound : TimeBound.Bound) (log : History κ β) : TimeBound.Bound :=
  match log.getLast?.bind fun c => c.label.notes.done with
  | some completedAt => min bound completedAt
  | none => bound

def step (configs : QueueConfigs) (s : State κ β) : Label κ β → Option (State κ β)
  | .queue label =>
    (Queue.step s.queue label).map fun queue =>
      match label with
      | .reopen _ _ => { queue }
      | _ => { queue, doneBound := lowerDone s.doneBound queue.log }
  | .sweep now entries ending => sweepDone configs s now entries ending

/-- The runs of a store with its done sweeps, from an empty store. -/
def machine (κ β : Type) [DecidableEq κ] [DecidableEq β] (configs : QueueConfigs) :
    Machine (State κ β) (Label κ β) where
  init s := s = {}
  step := step configs

section Examine

variable {configs : QueueConfigs} {now retention : ℕ} {entries : List (DoneKey × JobRecord)}
  {key : DoneKey} {stored job : JobRecord}

/-- The stored value is that of a job of the key's queue, completed at the time of the
key. -/
def DoneKey.Holds (key : DoneKey) (stored : JobRecord) : Prop :=
  stored.completedAt = some key.completedAt ∧ stored.queue = key.queue

/-- The window of the record at the key ended. -/
def Expired (configs : QueueConfigs) (now : ℕ) (key : DoneKey) : Prop :=
  isRetained (configs.get key.queue).keepDoneJobs key.completedAt now = false

theorem examine_cons (h : key.Holds stored) :
    examine configs now retention ((key, stored) :: entries) =
      if TimeBound.isDue key.completedAt now retention then
        if isRetained (configs.get key.queue).keepDoneJobs key.completedAt now then
          (min (key.completedAt : TimeBound.Bound) (examine configs now retention entries).1,
            (examine configs now retention entries).2)
        else
          ((examine configs now retention entries).1,
            (key, JobRecord.decode key.record stored) :: (examine configs now retention entries).2)
      else ((key.completedAt : TimeBound.Bound), []) := by
  obtain ⟨hat, hq⟩ := h
  have hat' : (JobRecord.decode key.record stored).completedAt = some key.completedAt := hat
  conv_lhs => unfold examine
  simp only [hat', JobRecord.decode_queue, hq]

theorem of_mem_victims (hh : ∀ e ∈ entries, e.1.Holds e.2)
    (h : (key, job) ∈ (examine configs now retention entries).2) :
    Expired configs now key ∧
      ∃ stored, (key, stored) ∈ entries ∧ job = JobRecord.decode key.record stored := by
  induction entries with
  | nil => cases h
  | cons e entries ih =>
    obtain ⟨k, stored⟩ := e
    obtain ⟨hk, hh⟩ := List.forall_mem_cons.mp hh
    rw [examine_cons hk] at h
    have hrest (h : (key, job) ∈ (examine configs now retention entries).2) :
        Expired configs now key ∧ ∃ stored', (key, stored') ∈ (k, stored) :: entries ∧
          job = JobRecord.decode key.record stored' := by
      obtain ⟨hx, v, hm, hv⟩ := ih hh h
      exact ⟨hx, v, .tail _ hm, hv⟩
    split at h
    · split_ifs at h with hr
      · exact hrest h
      · rcases List.mem_cons.mp h with h | h
        · cases h
          exact ⟨by simpa [Expired] using hr, stored, .head _, rfl⟩
        · exact hrest h
    · cases h

theorem isDue_mono {a b : ℕ} (hab : a ≤ b) (h : TimeBound.isDue b now retention) :
    TimeBound.isDue a now retention :=
  le_trans (add_le_add_left (WithTop.coe_le_coe.mpr hab) _) h

/-- Every record that is due and whose window ended is removed: the records before it are
due as well, so the scan gets to it. -/
theorem mem_victims (hh : ∀ e ∈ entries, e.1.Holds e.2)
    (hs : entries.Pairwise (·.1.completedAt ≤ ·.1.completedAt)) (hm : (key, stored) ∈ entries)
    (hd : TimeBound.isDue key.completedAt now retention) (hx : Expired configs now key) :
    key ∈ (examine configs now retention entries).2.map Prod.fst := by
  induction entries with
  | nil => cases hm
  | cons e entries ih =>
    obtain ⟨k, v⟩ := e
    obtain ⟨hk, hh⟩ := List.forall_mem_cons.mp hh
    obtain ⟨hle, hs⟩ := List.pairwise_cons.mp hs
    rw [examine_cons hk]
    rcases List.mem_cons.mp hm with hm | hm
    · cases hm
      rw [if_pos hd, if_neg (by simpa [Expired] using hx)]
      exact .head _
    · rw [if_pos (isDue_mono (hle _ hm) hd)]
      split
      · exact ih hh hs hm
      · exact .tail _ (ih hh hs hm)

theorem retained_le (hh : ∀ e ∈ entries, e.1.Holds e.2)
    (hs : entries.Pairwise (·.1.completedAt ≤ ·.1.completedAt)) (hm : (key, stored) ∈ entries)
    (hv : key ∉ (examine configs now retention entries).2.map Prod.fst) :
    (examine configs now retention entries).1 ≤ key.completedAt := by
  induction entries with
  | nil => cases hm
  | cons e entries ih =>
    obtain ⟨k, v⟩ := e
    obtain ⟨hk, hh⟩ := List.forall_mem_cons.mp hh
    obtain ⟨hle, hs⟩ := List.pairwise_cons.mp hs
    rw [examine_cons hk] at hv ⊢
    split at hv
    · split at hv
      · rename_i hd hr
        rw [if_pos hd, if_pos hr]
        rcases List.mem_cons.mp hm with hm | hm
        · cases hm
          exact min_le_left _ _
        · exact (min_le_right _ _).trans (ih hh hs hm hv)
      · rename_i hd hr
        rw [if_pos hd, if_neg hr]
        simp only [List.map_cons, List.mem_cons, not_or] at hv
        rcases List.mem_cons.mp hm with hm | hm
        · cases hm
          exact absurd rfl hv.1
        · exact ih hh hs hm hv.2
    · rename_i hd
      rw [if_neg hd]
      rcases List.mem_cons.mp hm with hm | hm
      · cases hm
        exact le_rfl
      · exact WithTop.coe_le_coe.mpr (hle _ hm)

end Examine

section Runs

variable {queue queue' : Queue.State κ β} {retained left : TimeBound.Bound} {completed : Bool}
  {victims : List (DoneKey × JobRecord)} {outcomes : List Removal}

/-- The removals keep the invariant of the store and the records of other keys. A record
of a victim that stays holds the bound back, unless the sweep failed. -/
theorem removeVictims_spec (hi : Queue.Inv queue)
    (h : removeVictims queue retained victims outcomes = some (queue', left, completed)) :
    Queue.Inv queue' ∧ left ≤ retained ∧
    (∀ j, queue'.log.store (.record j) = queue.log.store (.record j) ∨
      queue'.log.store (.record j) = none ∧ j ∈ victims.map (·.1.record)) ∧
    (completed = true → ∀ v ∈ victims, queue'.log.store (.record v.1.record) = none ∨
      left ≤ v.1.completedAt) := by
  induction victims generalizing queue retained outcomes with
  | nil =>
    cases outcomes with
    | nil =>
      cases h
      exact ⟨hi, le_rfl, fun j => .inl rfl, by simp⟩
    | cons outcome outcomes => cases h
  | cons v victims ih =>
    obtain ⟨key, job⟩ := v
    cases outcomes with
    | nil => cases h
    | cons outcome outcomes =>
      cases outcome with
      | committed =>
        obtain ⟨queue₁, h₁, h⟩ := Option.bind_eq_some_iff.mp h
        have hst := store_sweepVictim h₁
        obtain ⟨hi', hle, hrec, hgone⟩ := ih (Queue.inv_step hi h₁) h
        refine ⟨hi', hle, fun j => ?_, fun hc v hv => ?_⟩
        · rcases hrec j with hj | ⟨hj, hm⟩
          · rw [hst] at hj
            split at hj
            · subst_vars
              exact .inr ⟨hj, .head _⟩
            · exact .inl hj
          · exact .inr ⟨hj, .tail _ hm⟩
        · rcases List.mem_cons.mp hv with rfl | hv
          · rcases hrec key.record with hj | ⟨hj, -⟩
            · rw [hst, if_pos rfl] at hj
              exact .inl hj
            · exact .inl hj
          · exact hgone hc v hv
      | conflict =>
        obtain ⟨hi', hle, hrec, hgone⟩ := ih hi h
        refine ⟨hi', hle.trans (min_le_left _ _), fun j => ?_, fun hc v hv => ?_⟩
        · rcases hrec j with hj | ⟨hj, hm⟩
          · exact .inl hj
          · exact .inr ⟨hj, .tail _ hm⟩
        · rcases List.mem_cons.mp hv with rfl | hv
          · exact .inr (hle.trans (min_le_right _ _))
          · exact hgone hc v hv
      | failed =>
        cases outcomes with
        | nil =>
          cases h
          exact ⟨hi, le_rfl, fun j => .inl rfl, by simp⟩
        | cons => cases h

theorem removeVictims_clean (hi : Queue.Inv queue) (hc : ∀ outcome ∈ outcomes, outcome = .committed)
    (h : removeVictims queue retained victims outcomes = some (queue', left, completed)) :
    ∀ v ∈ victims, queue'.log.store (.record v.1.record) = none := by
  induction victims generalizing queue outcomes with
  | nil => simp
  | cons v victims ih =>
    obtain ⟨key, job⟩ := v
    cases outcomes with
    | nil => cases h
    | cons outcome outcomes =>
      obtain ⟨rfl, hrest⟩ := List.forall_mem_cons.mp hc
      obtain ⟨queue₁, h₁, h⟩ := Option.bind_eq_some_iff.mp h
      have hi₁ := Queue.inv_step hi h₁
      obtain ⟨-, -, hrec, -⟩ := removeVictims_spec hi₁ h
      intro v hv
      rcases List.mem_cons.mp hv with rfl | hv
      · rcases hrec key.record with hj | ⟨hj, -⟩
        · rw [hj, store_sweepVictim h₁, if_pos rfl]
        · exact hj
      · exact ih hi₁ hrest h v hv

structure Inv (s : State κ β) : Prop where
  queue : Queue.Inv s.queue
  bound : ∀ key : DoneKey, s.store (.record key.record) ≠ none → s.doneBound ≤ key.completedAt

variable {configs : QueueConfigs} {s s' : State κ β}

omit [DecidableEq β] in
theorem holds_of_store {log : History κ β} (hi : StoreInv log.store) {key : DoneKey}
    {stored : JobRecord} (h : log.store (.record key.record) = some stored) : key.Holds stored := by
  have hk := (hi.record_index _ stored h).2
  simp only [DoneKey.record, JobRecord.storedKey, JobRecord.decode, RecordKey.keyStatus,
    Option.map_eq_some_iff, RecordKey.done.injEq] at hk
  obtain ⟨completedAt, hat, rfl, hq, -⟩ := hk
  exact ⟨hat, hq⟩

omit [DecidableEq β] in
theorem IsScan.mem {log : History κ β} {start : TimeBound.Bound}
    {entries : List (DoneKey × JobRecord)} (h : IsScan log start entries) {key : DoneKey}
    (hk : log.store (.record key.record) ≠ none) (hs : start ≤ key.completedAt) :
    ∃ stored, (key, stored) ∈ entries := by
  have := h.2.2.2 _ (History.mem_keys_of_store hk) (Option.isSome_iff_ne_none.mpr hk) hs
  obtain ⟨⟨k, stored⟩, hm, hkk⟩ := List.mem_map.mp this
  cases hkk
  exact ⟨stored, hm⟩

theorem sweepDone_cases {now : ℕ} {entries : List (DoneKey × JobRecord)} {ending : SweepEnd}
    (h : sweepDone configs s now entries ending = some s') :
    (s' = s ∧ (ending = .scanFailed ∨ ∀ w, configs.maxKeepDone = some w →
      ¬ TimeBound.isDue s.doneBound now (toU64 w))) ∨
    ∃ w outcomes flushed left completed, configs.maxKeepDone = some w ∧
      IsScan s.queue.log s.doneBound entries ∧ ending = .removals outcomes flushed ∧
      removeVictims s.queue (examine configs now (toU64 w) entries).1
        (examine configs now (toU64 w) entries).2 outcomes = some (s'.queue, left, completed) ∧
      s'.doneBound = if completed && flushed then left else s.doneBound := by
  unfold sweepDone at h
  split at h
  · rename_i hnone
    cases h
    exact .inl ⟨rfl, .inr (by simp [hnone])⟩
  · rename_i w hmax
    split at h
    · obtain ⟨hscan, h⟩ := Option.ite_none_right_eq_some.mp h
      cases ending with
      | scanFailed =>
        cases h
        exact .inl ⟨rfl, .inl rfl⟩
      | removals outcomes flushed =>
        obtain ⟨⟨queue, left, completed⟩, hr, rfl⟩ := Option.map_eq_some_iff.mp h
        exact .inr ⟨w, outcomes, flushed, left, completed, hmax, hscan, rfl, hr, rfl⟩
    · rename_i hdue
      cases h
      refine .inl ⟨rfl, .inr fun w' hw' => ?_⟩
      rw [hmax] at hw'
      cases hw'
      exact hdue

theorem inv_sweep {now : ℕ} {entries : List (DoneKey × JobRecord)} {ending : SweepEnd}
    (hi : Inv s) (h : sweepDone configs s now entries ending = some s') : Inv s' := by
  obtain ⟨rfl, -⟩ | ⟨w, outcomes, flushed, left, completed, -, hscan, -, hr, hb⟩ :=
    sweepDone_cases h
  · exact hi
  obtain ⟨hi', hle, hrec, hgone⟩ := removeVictims_spec hi.queue hr
  refine ⟨hi', fun key hk => ?_⟩
  have hstay : s'.store (.record key.record) = s.store (.record key.record) :=
    (hrec key.record).resolve_right fun hn => hk hn.1
  have hk₀ : s.store (.record key.record) ≠ none := hstay ▸ hk
  have hold := hi.bound key hk₀
  rw [hb]
  split_ifs with hc
  · simp only [Bool.and_eq_true] at hc
    obtain ⟨stored, hm⟩ := hscan.mem hk₀ hold
    have hh : ∀ e ∈ entries, e.1.Holds e.2 := fun e he =>
      holds_of_store hi.queue.sound.storeInv (hscan.2.2.1 e he).1
    by_cases hv : key ∈ (examine configs now (toU64 w) entries).2.map Prod.fst
    · obtain ⟨v, hvm, rfl⟩ := List.mem_map.mp hv
      exact (hgone hc.1 v hvm).resolve_left hk
    · exact hle.trans (retained_le hh hscan.1 hm hv)
  · exact hold

theorem inv_queue {l : Queue.Label κ β} (hi : Inv s)
    (h : step configs s (.queue l) = some s') : Inv s' := by
  obtain ⟨queue, hq, rfl⟩ := Option.map_eq_some_iff.mp h
  have hi' := Queue.inv_step hi.queue hq
  have hcommit : ∀ c as, Performs s.queue.log c as → queue.log = s.queue.log ++ [c] →
      Inv { queue, doneBound := lowerDone s.doneBound queue.log } := by
    intro c as hp hlog
    refine ⟨hi', fun key hk => ?_⟩
    have hlow : lowerDone s.doneBound queue.log ≤ s.doneBound := by
      unfold lowerDone
      split
      · exact min_le_left _ _
      · exact le_rfl
    change queue.log.store (.record key.record) ≠ none at hk
    change lowerDone s.doneBound queue.log ≤ _
    rw [hlog] at hk
    by_cases hm : (.record key.record : Key κ) ∈ Batch.keys c.writes
    · obtain ⟨b, hb, hle⟩ := hp.coversKey hm hk
      simp only [lowerDone, hlog, List.getLast?_append, List.getLast?_singleton, Option.some_or,
        Option.bind_some, hb]
      exact (min_le_right _ _).trans (WithTop.coe_le_coe.mpr hle)
    · rw [Log.store_append_singleton, Store.applyBatch_of_not_mem hm] at hk
      exact hlow.trans (hi.bound key hk)
  cases l with
  | commit | requeue =>
    obtain ⟨-, -, c, as, -, hlog, -, hp, -⟩ := Queue.step_traces hi.queue hq (by simp)
    exact hcommit c as hp hlog
  | reopen kept todo => exact ⟨hi', fun key _ => WithTop.coe_le_coe.mpr (Nat.zero_le _)⟩

theorem inv_reachable (h : (machine κ β configs).Reachable s) : Inv s := by
  refine h.invariant ?_ fun s l s' hi hs => ?_
  · rintro _ rfl
    exact ⟨Queue.inv_reachable (.initial (T := Queue.machine κ β) rfl), fun key hk => absurd rfl hk⟩
  · cases l with
    | queue l => exact inv_queue hi (show step configs s (.queue l) = some s' from hs)
    | sweep now entries ending => exact inv_sweep hi hs

/-- With one window for all the queues that keep their done jobs, a sweep without an
error or a conflict leaves no record whose window ended, and removes no other. -/
theorem done_retention_exact {window : ℕ} (hw : window < 2 ^ 64)
    (hone : ∀ config ∈ configs.iter, config.keepDoneJobs = none ∨
      config.keepDoneJobs = some window)
    (h : (machine κ β configs).Reachable s) {now : ℕ} {entries : List (DoneKey × JobRecord)}
    {ending : SweepEnd} (hs : step configs s (.sweep now entries ending) = some s')
    (hc : ending.Clean) :
    (∀ completedAt queue id w, s'.store (.record (.done completedAt queue id)) ≠ none →
      (configs.get queue).keepDoneJobs = some w → now ≤ completedAt + w) ∧
    (∀ key, s.store (.record key) ≠ none → s'.store (.record key) = none →
      ∃ completedAt queue id w, key = .done completedAt queue id ∧
        (configs.get queue).keepDoneJobs = some w ∧ completedAt + w < now) := by
  have hi := inv_reachable h
  have hget : ∀ queue w, (configs.get queue).keepDoneJobs = some w → w = window := by
    intro queue w hq
    rcases hone _ (configs.get_mem_iter queue) with hn | hn
    · rw [hn] at hq
      cases hq
    · rw [hn] at hq
      exact (Option.some.inj hq).symm
  have hexp : ∀ key : DoneKey, Expired configs now key ↔
      ∃ w, (configs.get key.queue).keepDoneJobs = some w ∧ key.completedAt + w < now := fun key =>
    isRetained_eq_false_iff fun w hq => (hget _ w hq) ▸ hw
  have hdue : ∀ (key : DoneKey) m, Expired configs now key → configs.maxKeepDone = some m →
      TimeBound.isDue key.completedAt now (toU64 m) := by
    intro key m hx hm
    obtain ⟨w, hq, hlt⟩ := (hexp key).mp hx
    obtain rfl := hget _ w hq
    rw [configs.maxKeepDone_eq hone hm, toU64_eq hw]
    exact WithTop.coe_le_coe.mpr hlt.le
  obtain ⟨rfl, hnot⟩ | ⟨m, outcomes, flushed, left, completed, hm, hscan, rfl, hr, -⟩ :=
    sweepDone_cases hs
  · refine ⟨fun completedAt queue id w hk hq => ?_, fun key hk hn => absurd hn hk⟩
    by_contra hlt
    have hx : Expired configs now ⟨completedAt, queue, id⟩ :=
      (hexp _).mpr ⟨w, hq, Nat.lt_of_not_le hlt⟩
    rcases hnot with rfl | hnot
    · exact hc
    · obtain ⟨m, hm⟩ := configs.exists_maxKeepDone hq
      refine hnot m hm (le_trans (add_le_add_left ?_ _) (hdue _ m hx hm))
      exact hi.bound ⟨completedAt, queue, id⟩ hk
  · obtain ⟨-, -, hrec, -⟩ := removeVictims_spec hi.queue hr
    have hgone := removeVictims_clean hi.queue hc.1 hr
    have hh : ∀ e ∈ entries, e.1.Holds e.2 := fun e he =>
      holds_of_store hi.queue.sound.storeInv (hscan.2.2.1 e he).1
    constructor
    · intro completedAt queue id w hk hq
      by_contra hlt
      have hx : Expired configs now ⟨completedAt, queue, id⟩ :=
        (hexp _).mpr ⟨w, hq, Nat.lt_of_not_le hlt⟩
      have hk₀ : s.store (.record (.done completedAt queue id)) ≠ none := by
        rcases hrec (.done completedAt queue id) with hstay | ⟨hn, -⟩
        · exact fun hn => hk (hstay.trans hn)
        · exact absurd hn hk
      have hb := hi.bound ⟨completedAt, queue, id⟩ hk₀
      change s.queue.log.store (.record (DoneKey.record ⟨completedAt, queue, id⟩)) ≠ none at hk₀
      obtain ⟨stored, hmem⟩ := hscan.mem hk₀ hb
      have hv := mem_victims hh hscan.1 hmem (hdue _ m hx hm) hx
      obtain ⟨v, hvm, hvk⟩ := List.mem_map.mp hv
      refine hk ?_
      have := hgone v hvm
      rwa [hvk] at this
    · intro key hk hn
      rcases hrec key with hstay | ⟨-, hmem⟩
      · exact absurd (hstay.symm.trans hn) hk
      · obtain ⟨⟨k, job⟩, hvm, rfl⟩ := List.mem_map.mp hmem
        obtain ⟨w, hq, hlt⟩ := (hexp k).mp (of_mem_victims hh hvm).1
        exact ⟨k.completedAt, k.queue, k.id, w, rfl, hq, hlt⟩

/-- Done jobs of `emails` are kept for ten milliseconds; `others` is the window of the
queue `reports`. -/
def twoWindows (others : Option ℕ) : QueueConfigs where
  default := {}
  perQueue := [("emails", { keepDoneJobs := some 10 }), ("reports", { keepDoneJobs := others })]
  distinct := by simp

def completeJob : List (Label ℕ ℕ) :=
  [.queue (.commit (.enqueue (fun _ _ => none) Queue.welcome {}) 0),
    .queue (.commit (.claimBatch Queue.emails [⟨0, 5, "a"⟩] [1] 7) 1),
    .queue (.commit (.settle (fun _ _ => some (0, 1)) (fun _ _ => none) Queue.emails "a" 1
      (.ack true) {} 100) 2)]

def completedJob : DoneKey × JobRecord :=
  (⟨100, Queue.emails, "a"⟩,
    { Queue.welcome.job with attempts := 1, claimedAt := some 7, completedAt := some 100 })

/-- A record stays past its window: the scan ends at the longer window of another queue. -/
theorem expired_record_kept_by_longer_window :
    ∃ s s', (machine ℕ ℕ (twoWindows (some 1000))).run {} completeJob = some s ∧
      step (twoWindows (some 1000)) s (.sweep 1050 [completedJob] (.removals [] true)) = some s' ∧
      SweepEnd.Clean (.removals [] true) ∧
      ((twoWindows (some 1000)).get Queue.emails).keepDoneJobs = some 10 ∧ 100 + 10 < 1050 ∧
      s'.store (.record (.done 100 Queue.emails "a")) ≠ none := by
  obtain ⟨s, hs, hstep⟩ : ∃ s, (machine ℕ ℕ (twoWindows (some 1000))).run {} completeJob = some s ∧
      (step (twoWindows (some 1000)) s (.sweep 1050 [completedJob] (.removals [] true))).any
        (fun s' => (s'.store (.record (.done 100 Queue.emails "a"))).isSome) = true :=
    Machine.exists_of_run_any (by decide +kernel)
  cases hs' : step (twoWindows (some 1000)) s (.sweep 1050 [completedJob] (.removals [] true)) with
  | none => simp [hs'] at hstep
  | some s' =>
    have hsome : (s'.store (.record (.done 100 Queue.emails "a"))).isSome := by
      simpa [hs'] using hstep
    exact ⟨s, s', hs, hs', ⟨by simp, rfl⟩, by decide, by decide,
      Option.isSome_iff_ne_none.mp hsome⟩

theorem done_retention_exact_of_one_window :
    ∃ s s', (machine ℕ ℕ (twoWindows none)).run {} completeJob = some s ∧
      step (twoWindows none) s (.sweep 1050 [completedJob] (.removals [.committed] true))
        = some s' ∧
      s'.store (.record (.done 100 Queue.emails "a")) = none := by
  obtain ⟨s, hs, hstep⟩ : ∃ s, (machine ℕ ℕ (twoWindows none)).run {} completeJob = some s ∧
      (step (twoWindows none) s
        (.sweep 1050 [completedJob] (.removals [.committed] true))).isSome = true :=
    Machine.exists_of_run_any (by decide +kernel)
  obtain ⟨s', hs'⟩ := Option.isSome_iff_exists.mp hstep
  have hreach := Machine.reachable_of_run hs rfl
  have hexact := done_retention_exact (show 10 < 2 ^ 64 by decide) (by decide) hreach hs'
    ⟨by simp, rfl⟩
  refine ⟨s, s', hs, hs', ?_⟩
  by_contra hk
  exact absurd (hexact.1 100 Queue.emails "a" 10 hk (by decide)) (by decide)

end Runs

end Taquba.Retention
