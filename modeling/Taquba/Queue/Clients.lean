import Taquba.Queue.Machine

/-! # Calls in progress on a queue

A process runs calls beside the commits of others. What holds of a call and the history
still holds after a commit of another call. A step of a call leaves the history or adds the
one commit that it notes as its own.
-/

namespace Taquba.Queue

open Snapshot Transition

variable {κ β C : Type} [DecidableEq κ] [DecidableEq β]

/-- The queue is reachable, and `P` holds of the history and each call in progress. -/
structure Serves (P : History κ β → C → Prop) (queue : State κ β) (calls : List C) : Prop where
  reachable : (machine κ β).Reachable queue
  calls : ∀ c ∈ calls, P queue.log c

/-- A step leaves the history, is one of `other` calls, or adds a commit of its own call,
which notes its place. -/
def Accounted (commits : C → List ℕ) (other : Prop) (own : ℕ → Prop) (queue queue' : State κ β)
    (calls calls' : List C) : Prop :=
  queue' = queue ∨ other ∨
    ∃ (i : ℕ) (c c' : C) (d : CallCommit κ β), own i ∧ calls[i]? = some c ∧
      calls'[i]? = some c' ∧ queue'.log = queue.log ++ [d] ∧
      commits c' = commits c ++ [queue.log.length]

variable {P : History κ β → C → Prop} {queue queue' : State κ β} {calls : List C} {c c' : C}
  {i : ℕ}

namespace Serves

theorem add (h : Serves P queue calls) (hc : P queue.log c) : Serves P queue (calls ++ [c]) := by
  refine ⟨h.reachable, fun d hd => ?_⟩
  rcases List.mem_append.mp hd with hd | hd
  · exact h.calls d hd
  · rw [List.mem_singleton.mp hd]
    exact hc

theorem set (h : Serves P queue calls) (hc : P queue.log c) :
    Serves P queue (calls.set i c) := by
  refine ⟨h.reachable, fun d hd => ?_⟩
  rcases List.mem_or_eq_of_mem_set hd with hd | rfl
  · exact h.calls d hd
  · exact hc

theorem other {l : Label κ β} (hP : ∀ {log c}, P log c → ∀ d, P (log ++ [d]) c)
    (h : Serves P queue calls) (hl : ∀ kept todo, l ≠ .reopen kept todo)
    (hstep : step queue l = some queue') : Serves P queue' calls := by
  obtain ⟨d, hlog⟩ := log_of_step (inv_reachable h.reachable) hl hstep
  refine ⟨h.reachable.next hstep, fun c hc => ?_⟩
  rw [hlog]
  exact hP (h.calls c hc) d

theorem reopen {kept : ℕ} {todo : List JobRecord} (h : Serves P queue calls)
    (hstep : step queue (.reopen kept todo) = some queue') : Serves P queue' [] :=
  ⟨h.reachable.next (a := .reopen kept todo) hstep, by simp⟩

end Serves

theorem Accounted.of_commit {commits : C → List ℕ} {other : Prop} {own : ℕ → Prop} {call : Call κ β}
    {snap : ℕ} (hown : own i) (hc : calls[i]? = some c)
    (hcommits : commits c' = commits c ++ [queue.log.length])
    (hstep : step queue (.commit call snap) = some queue') :
    Accounted commits other own queue queue' calls (calls.set i c') := by
  obtain ⟨-, -, t, delivered, -, -, rfl⟩ := commit_eq_some hstep
  have hget := List.getElem?_set_self (a := c') (List.getElem?_eq_some_iff.mp hc).1
  exact .inr (.inr ⟨i, c, c', _, hown, hc, hget, rfl, hcommits⟩)

end Taquba.Queue
