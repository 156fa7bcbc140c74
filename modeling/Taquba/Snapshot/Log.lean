import Mathlib.Logic.Function.Basic
import Mathlib.Data.List.Basic

/-! # Stores, write batches and a commit log

A store maps keys to values whose type depends on the key. A batch of writes is
applied in order. The log holds the batches committed so far; a transaction that
began after the first `snap` of them reads the store those give, and its commit
is refused when a later one wrote a key it tracks.
-/

namespace Snapshot

variable {K : Type*} {V : K → Type*}

abbrev Store (V : K → Type*) := ∀ k, Option (V k)

/-- How a key's value absorbs a merge operand. -/
class MergeOperator (V : K → Type*) where
  merge : ∀ k, Option (V k) → V k → V k

inductive Write (α : Type*) where
  | put (value : α)
  | delete
  | merge (operand : α)

/-- The writes of a transaction, in the order they were staged. -/
abbrev Batch (V : K → Type*) := List (Σ k, Write (V k))

def Write.apply [MergeOperator V] {k : K} : Write (V k) → Option (V k) → Option (V k)
  | .put v, _ => some v
  | .delete, _ => none
  | .merge v, old => some (MergeOperator.merge k old v)

def Batch.keys (ws : Batch V) : List K := ws.map Sigma.fst

@[simp] theorem Batch.keys_nil : Batch.keys ([] : Batch V) = [] := rfl

@[simp] theorem Batch.keys_append (ws ws' : Batch V) :
    Batch.keys (ws ++ ws') = Batch.keys ws ++ Batch.keys ws' := List.map_append

@[simp] theorem Batch.keys_cons (w : Σ k, Write (V k)) (ws : Batch V) :
    Batch.keys (w :: ws) = w.1 :: Batch.keys ws := rfl

section Apply

variable [DecidableEq K] [MergeOperator V]

def Store.write (s : Store V) (w : Σ k, Write (V k)) : Store V :=
  Function.update s w.1 (w.2.apply (s w.1))

def Store.applyBatch (s : Store V) (ws : Batch V) : Store V := ws.foldl Store.write s

variable {s t : Store V} {k : K} {ws : Batch V}

@[simp] theorem Store.write_self (s : Store V) (k : K) (w : Write (V k)) :
    s.write ⟨k, w⟩ k = w.apply (s k) := by
  simp [Store.write]

theorem Store.write_of_ne {w : Σ k, Write (V k)} (h : k ≠ w.1) : s.write w k = s k := by
  simp [Store.write, h]

@[simp] theorem Store.applyBatch_nil (s : Store V) : s.applyBatch [] = s := rfl

@[simp] theorem Store.applyBatch_cons (s : Store V) (w : Σ k, Write (V k)) (ws : Batch V) :
    s.applyBatch (w :: ws) = (s.write w).applyBatch ws := rfl

@[simp] theorem Store.applyBatch_append (s : Store V) (ws ws' : Batch V) :
    s.applyBatch (ws ++ ws') = (s.applyBatch ws).applyBatch ws' := List.foldl_append

theorem Store.applyBatch_of_not_mem (h : k ∉ Batch.keys ws) : s.applyBatch ws k = s k := by
  induction ws generalizing s with
  | nil => rfl
  | cons w ws ih =>
    simp only [Batch.keys_cons, List.mem_cons, not_or] at h
    rw [Store.applyBatch_cons, ih h.2, Store.write_of_ne h.1]

theorem Store.write_congr {w : Σ k, Write (V k)} (h : s k = t k) : s.write w k = t.write w k := by
  obtain ⟨j, w⟩ := w
  by_cases hk : k = j
  · subst hk
    rw [Store.write_self, Store.write_self, h]
  · rw [Store.write_of_ne hk, Store.write_of_ne hk, h]

/-- The value of a key after a batch depends on its value before, and on nothing else. -/
theorem Store.applyBatch_congr (h : s k = t k) : s.applyBatch ws k = t.applyBatch ws k := by
  induction ws generalizing s t with
  | nil => exact h
  | cons w ws ih => exact ih (Store.write_congr h)

theorem Store.exists_write_of_ne_none (hk : k ∈ Batch.keys ws) (h : s.applyBatch ws k ≠ none) :
    ∃ w : Write (V k), ⟨k, w⟩ ∈ ws ∧ w ≠ .delete := by
  induction ws generalizing s with
  | nil => cases hk
  | cons w ws ih =>
    by_cases hks : k ∈ Batch.keys ws
    · obtain ⟨w', hw', hne⟩ := ih hks h
      exact ⟨w', .tail _ hw', hne⟩
    · obtain ⟨j, w⟩ := w
      obtain rfl : k = j := (List.mem_cons.mp hk).resolve_right hks
      rw [Store.applyBatch_cons, Store.applyBatch_of_not_mem hks, Store.write_self] at h
      refine ⟨w, .head _, ?_⟩
      rintro rfl
      exact h rfl

end Apply

/-- A committed batch with what is known about the call that made it. -/
structure Commit (V : K → Type*) (Λ : Type*) where
  label : Λ
  writes : Batch V

/-- The commits so far, oldest first. -/
abbrev Log (V : K → Type*) (Λ : Type*) := List (Commit V Λ)

namespace Log

variable {Λ : Type*}

/-- A commit after the first `snap` wrote one of the keys. -/
def Conflicts (log : Log V Λ) (snap : ℕ) (keys : List K) : Prop :=
  ∃ c ∈ log.drop snap, ∃ k ∈ keys, k ∈ Batch.keys c.writes

instance [DecidableEq K] (log : Log V Λ) (snap : ℕ) (keys : List K) :
    Decidable (log.Conflicts snap keys) :=
  inferInstanceAs (Decidable (∃ c ∈ log.drop snap, ∃ k ∈ keys, k ∈ Batch.keys c.writes))

variable {log : Log V Λ} {snap : ℕ}

theorem Conflicts.mono {keys keys' : List K} (h : log.Conflicts snap keys) (hk : keys ⊆ keys') :
    log.Conflicts snap keys' := by
  obtain ⟨c, hc, k, hmem, hw⟩ := h
  exact ⟨c, hc, k, hk hmem, hw⟩

theorem conflicts_append_iff (h : snap ≤ log.length) (c : Commit V Λ) (keys : List K) :
    Conflicts (log ++ [c]) snap keys ↔
      log.Conflicts snap keys ∨ ∃ k ∈ keys, k ∈ Batch.keys c.writes := by
  simp only [Conflicts, List.drop_append_of_le_length h, List.mem_append, List.mem_singleton]
  constructor
  · rintro ⟨d, hd | rfl, hw⟩
    · exact .inl ⟨d, hd, hw⟩
    · exact .inr hw
  · rintro (⟨d, hd, hw⟩ | hw)
    · exact ⟨d, .inl hd, hw⟩
    · exact ⟨c, .inr rfl, hw⟩

section LastWriter

variable [DecidableEq K]

def lastWriter (log : Log V Λ) (k : K) : Option (Commit V Λ) :=
  log.reverse.find? fun c => k ∈ Batch.keys c.writes

@[simp] theorem lastWriter_append_singleton (log : Log V Λ) (c : Commit V Λ) (k : K) :
    lastWriter (log ++ [c]) k =
      if k ∈ Batch.keys c.writes then some c else lastWriter log k := by
  by_cases h : k ∈ Batch.keys c.writes <;> simp [lastWriter, h]

end LastWriter

variable [DecidableEq K] [MergeOperator V]

/-- The store that the commits of the log give, from the empty store. -/
def store (log : Log V Λ) : Store V :=
  log.foldl (fun s c => s.applyBatch c.writes) fun _ => none

@[simp] theorem store_nil : store ([] : Log V Λ) = fun _ => none := rfl

@[simp] theorem store_append_singleton (log : Log V Λ) (c : Commit V Λ) :
    store (log ++ [c]) = (store log).applyBatch c.writes := by
  simp [store, List.foldl_append]

theorem store_append (log log' : Log V Λ) :
    store (log ++ log') = log'.foldl (fun s c => s.applyBatch c.writes) (store log) :=
  List.foldl_append

theorem foldl_applyBatch_of_not_mem {s : Store V} {k : K} (h : ∀ c ∈ log, k ∉ Batch.keys c.writes) :
    log.foldl (fun s c => s.applyBatch c.writes) s k = s k := by
  induction log generalizing s with
  | nil => rfl
  | cons c log ih =>
    rw [List.foldl_cons, ih fun d hd => h d (List.mem_cons_of_mem c hd),
      Store.applyBatch_of_not_mem (h c List.mem_cons_self)]

/-- A key that no later commit wrote has the value of the snapshot. -/
theorem store_eq_of_not_conflicts {keys : List K} (h : ¬ log.Conflicts snap keys) {k : K}
    (hk : k ∈ keys) : store log k = store (log.take snap) k := by
  conv_lhs => rw [← List.take_append_drop snap log, store_append]
  exact foldl_applyBatch_of_not_mem fun c hc hw => h ⟨c, hc, k, hk, hw⟩

/-- A key whose value differs from the snapshot's was written by a later commit. -/
theorem exists_writer_of_ne {k : K} (h : store log k ≠ store (log.take snap) k) :
    ∃ c ∈ log.drop snap, k ∈ Batch.keys c.writes := by
  by_contra hn
  have hc : ¬ log.Conflicts snap [k] := by
    rintro ⟨c, hc, j, hj, hw⟩
    rw [List.mem_singleton.mp hj] at hw
    exact hn ⟨c, hc, hw⟩
  exact h (store_eq_of_not_conflicts hc (List.mem_singleton.mpr rfl))

theorem exists_lastWriter {k : K} (h : store log k ≠ none) : ∃ c, lastWriter log k = some c := by
  have hne : store log k ≠ store (log.take 0) k := by simpa using h
  obtain ⟨c, hc, hk⟩ := exists_writer_of_ne hne
  rw [← Option.isSome_iff_exists, lastWriter, List.find?_isSome]
  exact ⟨c, by simpa using hc, by simpa using hk⟩

end Log

end Snapshot
