import Mathlib.Data.List.MinMax
import Taquba.Clock.Duration
import Taquba.Job.Record

/-! # The configuration of the queues

What a queue gives to its jobs: attempts, a priority, a backoff, and the windows, in
milliseconds, for which it keeps them once they are done or dead.
-/

namespace Taquba

open Clock

structure QueueConfig where
  maxAttempts : ℕ := 3
  defaultPriority : ℕ := 1000
  retryBackoffBase : Duration := .fromMillis 1000
  retryBackoffMax : Duration := .fromMillis 300000
  keepDoneJobs : Option ℕ := none
  deadRetention : Option ℕ := some (7 * 24 * 60 * 60 * 1000)

/-- A default configuration and the overrides of named queues. -/
structure QueueConfigs where
  default : QueueConfig
  perQueue : List (String × QueueConfig) := []
  distinct : (perQueue.map Prod.fst).Nodup := by exact List.nodup_nil

namespace QueueConfigs

def get (configs : QueueConfigs) (queue : QueueName) : QueueConfig :=
  (configs.perQueue.lookup queue.name).getD configs.default

def iter (configs : QueueConfigs) : List QueueConfig :=
  configs.default :: configs.perQueue.map Prod.snd

def maxKeepDone (configs : QueueConfigs) : Option ℕ :=
  (configs.iter.filterMap (·.keepDoneJobs)).max?

theorem get_mem_iter (configs : QueueConfigs) (queue : QueueName) :
    configs.get queue ∈ configs.iter := by
  unfold get iter
  cases h : configs.perQueue.lookup queue.name with
  | none => simp
  | some config =>
    obtain ⟨l₁, l₂, hl, -⟩ := List.lookup_eq_some_iff.mp h
    simp [hl]

theorem exists_maxKeepDone (configs : QueueConfigs) {queue : QueueName} {window : ℕ}
    (h : (configs.get queue).keepDoneJobs = some window) : ∃ w, configs.maxKeepDone = some w := by
  have hm : window ∈ configs.iter.filterMap (·.keepDoneJobs) :=
    List.mem_filterMap.mpr ⟨_, configs.get_mem_iter queue, h⟩
  rw [← Option.ne_none_iff_exists', maxKeepDone, ne_eq, List.max?_eq_none_iff]
  exact List.ne_nil_of_mem hm

theorem maxKeepDone_eq (configs : QueueConfigs) {window w : ℕ}
    (hone : ∀ config ∈ configs.iter, config.keepDoneJobs = none ∨
      config.keepDoneJobs = some window)
    (h : configs.maxKeepDone = some w) : w = window := by
  obtain ⟨config, hc, hw⟩ := List.mem_filterMap.mp (List.max?_mem h)
  rcases hone config hc with hn | hn
  · rw [hn] at hw
    cases hw
  · rw [hn] at hw
    exact (Option.some.inj hw).symm

end QueueConfigs

end Taquba
