import Taquba.Queue.Writes

/-! # Transactions that leave the counts alone

A count is changed by settlement effects, and its waiting job is recorded by an
enqueue. Every other transition writes no count, and it leaves no job waiting for
one: a job that is moved keeps a wait only in the scheduled state, and a claimed
job, which a retry may schedule, has none.
-/

namespace Taquba

open Snapshot

variable {κ β : Type}

def Quiet : (Σ k : Key κ, Write (Val κ β k)) → Prop
  | ⟨.count _, _⟩ => False
  | ⟨.record key, .put job⟩ => key.keyStatus ≠ .pending → job.countWait = none
  | ⟨.record _, .merge _⟩ => False
  | _ => True

def Scope.quiet : Scope := ⟨False, False, True⟩

theorem Scope.quiet_admits {w : Σ k : Key κ, Write (Val κ β k)} (h : Scope.quiet.Admits w) :
    Quiet w := by
  obtain ⟨k, w⟩ := w
  cases k with
  | record key =>
    cases w with
    | put job => exact h.resolve_left id
    | delete => trivial
    | merge job => exact h
  | count name => exact h
  | _ => trivial

def Waits (s : Store (Val κ β)) (key : RecordKey) (name : String) : Prop :=
  key.keyStatus = .scheduled ∧ ∃ job, s (.record key) = some job ∧ job.countWait = some name

def activeCount (s : Store (Val κ β)) (name : String) : Int64 :=
  ((s (.count name)).getD {}).active

/-- A count with a record is not zero, a waiting job is the recorded one of a count
with a record, and a claimed job waits for none. -/
structure CountInv (s : Store (Val κ β)) : Prop where
  active : ∀ name record, s (.count name) = some record → record.active ≠ 0
  waiter : ∀ key name, Waits s key name →
    ∃ record, s (.count name) = some record ∧ record.waiter = some key.id
  claimed : ∀ queue id job, s (.record (.claimed queue id)) = some job → job.countWait = none

theorem countInv_empty : CountInv (fun _ => none : Store (Val κ β)) where
  active _ _ h := by cases h
  waiter _ _ h := by
    obtain ⟨-, job, hj, -⟩ := h
    cases hj
  claimed _ _ _ h := by cases h

section Writes

variable [DecidableEq κ] {s : Store (Val κ β)} {w : Σ k : Key κ, Write (Val κ β k)}
  {ws : Batch (Val κ β)}

theorem Quiet.count_eq (hw : Quiet w) (name : String) :
    s.write w (.count name) = s (.count name) := by
  obtain ⟨k, w⟩ := w
  apply Store.write_of_ne
  rintro rfl
  exact hw

/-- A quiet write of a record outside the pending key space leaves the record, removes
it, or leaves one without a wait. -/
theorem Quiet.record (hw : Quiet w) {key : RecordKey} {job : JobRecord}
    (hk : key.keyStatus ≠ .pending) (h : s.write w (.record key) = some job) :
    s (.record key) = some job ∨ job.countWait = none := by
  by_cases hne : Key.record key = w.1
  · obtain ⟨k, w⟩ := w
    cases hne
    rw [Store.write_self] at h
    cases w with
    | put v =>
      cases h
      exact .inr (hw hk)
    | delete => cases h
    | merge v => cases hw
  · rw [Store.write_of_ne hne] at h
    exact .inl h

theorem quiet_batch (hws : ∀ w ∈ ws, Quiet w) :
    (∀ name, s.applyBatch ws (.count name) = s (.count name)) ∧
      ∀ key job, key.keyStatus ≠ .pending → s.applyBatch ws (.record key) = some job →
        s (.record key) = some job ∨ job.countWait = none := by
  induction ws generalizing s with
  | nil => exact ⟨fun _ => rfl, fun _ _ _ h => .inl h⟩
  | cons w ws ih =>
    obtain ⟨hw, hws⟩ := List.forall_mem_cons.mp hws
    obtain ⟨hcount, hrecord⟩ := ih (s := s.write w) hws
    rw [Store.applyBatch_cons]
    refine ⟨fun name => (hcount name).trans (hw.count_eq name), fun key job hk h => ?_⟩
    rcases hrecord key job hk h with h | hn
    · exact hw.record hk h
    · exact .inr hn

theorem waits_of_quiet (hws : ∀ w ∈ ws, Quiet w) {key : RecordKey} {name : String}
    (h : Waits (s.applyBatch ws) key name) : Waits s key name := by
  obtain ⟨hk, job, hj, hc⟩ := h
  rcases (quiet_batch hws).2 key job (by simp [hk]) hj with hj | hn
  · exact ⟨hk, job, hj, hc⟩
  · rw [hn] at hc
    cases hc

theorem claimed_of_quiet (hws : ∀ w ∈ ws, Quiet w)
    (hi : ∀ queue id job, s (.record (.claimed queue id)) = some job → job.countWait = none)
    {queue : QueueName} {id : String} {job : JobRecord}
    (h : s.applyBatch ws (.record (.claimed queue id)) = some job) : job.countWait = none := by
  rcases (quiet_batch hws).2 _ job (by simp [RecordKey.keyStatus]) h with h | hn
  · exact hi queue id job h
  · exact hn

theorem CountInv.quiet (hi : CountInv s) (hws : ∀ w ∈ ws, Quiet w) :
    CountInv (s.applyBatch ws) where
  active name record h := by
    rw [(quiet_batch hws).1] at h
    exact hi.active name record h
  waiter key name h := by
    rw [(quiet_batch hws).1]
    exact hi.waiter key name (waits_of_quiet hws h)
  claimed _ _ _ h := claimed_of_quiet hws hi.claimed h

end Writes

namespace Txn

structure Quietly (t t' : Txn κ β) : Prop where
  base : t'.base = t.base
  writes : ∃ ws, t'.writes = t.writes ++ ws ∧ ∀ w ∈ ws, Quiet w

section Primitive

variable {t t' t'' : Txn κ β}

theorem Quietly.of_eq (hb : t'.base = t.base) (hw : t'.writes = t.writes) : Quietly t t' :=
  ⟨hb, [], by simp [hw], by simp⟩

theorem Quietly.refl (t : Txn κ β) : Quietly t t :=
  .of_eq rfl rfl

theorem Quietly.trans (h : Quietly t t') (h' : Quietly t' t'') : Quietly t t'' := by
  obtain ⟨hb, ws, hw, hq⟩ := h
  obtain ⟨hb', ws', hw', hq'⟩ := h'
  exact ⟨hb'.trans hb, ws ++ ws', by rw [hw', hw, List.append_assoc],
    List.forall_mem_append.mpr ⟨hq, hq'⟩⟩

theorem Quietly.write {w : Σ k : Key κ, Write (Val κ β k)} (hb : t'.base = t.base)
    (hw : t'.writes = t.writes ++ [w]) (hq : Quiet w) : Quietly t t' :=
  ⟨hb, [w], hw, by simpa using hq⟩

theorem Adds.quietly (h : Adds .quiet t t') : Quietly t t' := by
  obtain ⟨hb, -, ws, hw, hA⟩ := h
  exact ⟨hb, ws, hw, fun w hm => Scope.quiet_admits (hA w hm)⟩

theorem Staged.quietly {α : Type} {txn : α → Txn κ β} {r : Except (Error κ) α} {a : α}
    (h : Staged .quiet .any txn t r) (hr : r = .ok a) : Quietly t (txn a) :=
  (h.of_ok hr).quietly

theorem Quietly.keys (h : Quietly t t') : Batch.keys t.writes ⊆ Batch.keys t'.writes := by
  obtain ⟨-, ws, hw, -⟩ := h
  simp [hw]

theorem Quietly.view_eq [DecidableEq κ] (h : Quietly t t') :
    ∃ ws, (∀ w ∈ ws, Quiet w) ∧ t'.view = t.view.applyBatch ws := by
  obtain ⟨hb, ws, hw, hq⟩ := h
  exact ⟨ws, hq, by rw [view, view, hb, hw, Store.applyBatch_append]⟩

theorem Quietly.waits [DecidableEq κ] (h : Quietly t t') {key : RecordKey} {name : String}
    (hw : Waits t'.view key name) : Waits t.view key name := by
  obtain ⟨ws, hq, hview⟩ := h.view_eq
  rw [hview] at hw
  exact waits_of_quiet hq hw

end Primitive

end Txn

end Taquba
