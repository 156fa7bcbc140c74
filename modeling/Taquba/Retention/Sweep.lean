import Taquba.Bounds.TimeBound
import Taquba.Job.Config
import Taquba.Queue.Machine

/-! # Retention windows and what a sweep does with a record

A queue may keep its done jobs for one window and its dead jobs for another. A sweep
reads the records of one state and picks those whose window ended. The done scan is in
the order of completion, and one window, the largest of any queue, ends it.
-/

namespace Taquba.Retention

open Snapshot

/-- A duration as an unsigned number of 64 bits, by truncation. -/
def asU64 (millis : ℕ) : ℕ := millis % 2 ^ 64

/-- A duration as an unsigned number of 64 bits, at most the largest one. -/
def toU64 (millis : ℕ) : ℕ := if millis < 2 ^ 64 then millis else 2 ^ 64 - 1

theorem asU64_eq {millis : ℕ} (h : millis < 2 ^ 64) : asU64 millis = millis :=
  Nat.mod_eq_of_lt h

theorem toU64_eq {millis : ℕ} (h : millis < 2 ^ 64) : toU64 millis = millis :=
  if_pos h

/-- A record that became terminal at `terminalAt` is kept. -/
def isRetained (window : Option ℕ) (terminalAt now : ℕ) : Bool :=
  match window with
  | some retention => now - asU64 retention ≤ terminalAt
  | none => true

theorem isRetained_eq_false_iff {window : Option ℕ} {terminalAt now : ℕ}
    (hw : ∀ w, window = some w → w < 2 ^ 64) :
    isRetained window terminalAt now = false ↔ ∃ w, window = some w ∧ terminalAt + w < now := by
  cases window with
  | none => simp [isRetained]
  | some w =>
    simp only [isRetained, asU64_eq (hw w rfl), decide_eq_false_iff_not, Option.some.injEq,
      exists_eq_left']
    omega

section Victim

variable {κ β : Type} [DecidableEq κ] [DecidableEq β] {key : RecordKey} {job : JobRecord}

/-- The removal of a record writes nothing when the record is gone, and otherwise removes
whatever its key holds. -/
theorem attempt_sweepVictim {s : Store (Val κ β)} {t : Txn κ β} {delivered : List JobRecord}
    (h : (Call.sweepVictim key job).attempt s = some (t, delivered)) :
    (s (.record key) = none ∧ t.writes = []) ∨
      (s (.record key) ≠ none ∧ t.writes = JobAction.writes (.remove key job false)) := by
  obtain ⟨value, hr, -⟩ := Call.committing_eq_some h
  simp only [Txn.sweepVictim] at hr
  split at hr
  · rename_i hsome
    cases hr
    refine .inr ⟨Option.isSome_iff_ne_none.mp hsome, ?_⟩
    rw [Txn.stageRemove_writes rfl rfl rfl false]
    rfl
  · rename_i hnone
    cases hr
    exact .inl ⟨Option.not_isSome_iff_eq_none.mp hnone, rfl⟩

theorem store_sweepVictim {queue queue' : Queue.State κ β}
    (h : Queue.step queue (.commit (.sweepVictim key job) queue.log.length) = some queue')
    (j : RecordKey) :
    queue'.log.store (.record j) = if j = key then none else queue.log.store (.record j) := by
  obtain ⟨-, -, t, delivered, ht, -, rfl⟩ := Queue.commit_eq_some h
  rw [List.take_length] at ht
  rw [Log.store_append_singleton]
  rcases attempt_sweepVictim ht with ⟨hnone, hw⟩ | ⟨-, hw⟩
  · simp only [hw, Store.applyBatch_nil]
    split
    · subst_vars
      exact hnone
    · rfl
  · simp only [hw]
    exact JobAction.remove_record _ _ _ _ _

end Victim

end Taquba.Retention
