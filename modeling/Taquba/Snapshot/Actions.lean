import Mathlib.Data.Nat.Init
import Mathlib.Tactic.Tauto
import Taquba.Snapshot.Log

/-! # Actions of a transaction and their rerun at commit

An action is a batch with a precondition that reads only keys the batch writes. A
transaction that staged a sequence of enabled actions on its snapshot, and whose
commit finds no conflict on their keys, has the effect of the same actions run on
the store at its commit, where they are enabled as well. What every enabled
action keeps is therefore kept by every commit.
-/

namespace Snapshot

variable {K : Type*} {V : K → Type*}

structure Actions (V : K → Type*) (A : Type*) where
  writes : A → Batch V
  Enabled : A → Store V → Prop
  enabled_congr : ∀ a (s t : Store V), (∀ k ∈ Batch.keys (writes a), s k = t k) →
    Enabled a s → Enabled a t

namespace Actions

variable {A : Type*} (P : Actions V A)

def batch (as : List A) : Batch V := as.flatMap P.writes

@[simp] theorem batch_nil : P.batch [] = [] := rfl

@[simp] theorem batch_cons (a : A) (as : List A) : P.batch (a :: as) = P.writes a ++ P.batch as :=
  rfl

@[simp] theorem batch_append (as bs : List A) : P.batch (as ++ bs) = P.batch as ++ P.batch bs :=
  List.flatMap_append

variable [DecidableEq K] [MergeOperator V]

def AllEnabled : List A → Store V → Prop
  | [], _ => True
  | a :: as, s => P.Enabled a s ∧ AllEnabled as (s.applyBatch (P.writes a))

variable {P} {as bs : List A} {a : A} {s t : Store V}

theorem AllEnabled.append (h : P.AllEnabled as s)
    (h' : P.AllEnabled bs (s.applyBatch (P.batch as))) : P.AllEnabled (as ++ bs) s := by
  induction as generalizing s with
  | nil => exact h'
  | cons a as ih =>
    refine ⟨h.1, ih h.2 ?_⟩
    simpa using h'

theorem AllEnabled.of_append (h : P.AllEnabled (as ++ bs) s) :
    P.AllEnabled as s ∧ P.AllEnabled bs (s.applyBatch (P.batch as)) := by
  induction as generalizing s with
  | nil => exact ⟨trivial, h⟩
  | cons a as ih =>
    obtain ⟨has, hbs⟩ := ih h.2
    rw [batch_cons, Store.applyBatch_append]
    exact ⟨⟨h.1, has⟩, hbs⟩

theorem AllEnabled.congr (h : P.AllEnabled as s)
    (hst : ∀ k ∈ Batch.keys (P.batch as), s k = t k) : P.AllEnabled as t := by
  induction as generalizing s t with
  | nil => trivial
  | cons a as ih =>
    simp only [batch_cons, Batch.keys_append, List.mem_append] at hst
    refine ⟨P.enabled_congr a s t (fun k hk => hst k (.inl hk)) h.1, ih h.2 fun k hk => ?_⟩
    exact Store.applyBatch_congr (hst k (.inr hk))

theorem AllEnabled.exists_enabled (h : P.AllEnabled as s) (ha : a ∈ as) :
    ∃ t, P.Enabled a t := by
  induction as generalizing s with
  | nil => cases ha
  | cons b as ih =>
    rcases List.mem_cons.mp ha with rfl | ha
    · exact ⟨s, h.1⟩
    · exact ih h.2 ha

/-- What every enabled action keeps, a sequence of them keeps. -/
theorem AllEnabled.invariant {I : Store V → Prop}
    (hI : ∀ a s, I s → P.Enabled a s → I (s.applyBatch (P.writes a)))
    (h : P.AllEnabled as s) (hs : I s) : I (s.applyBatch (P.batch as)) := by
  induction as generalizing s with
  | nil => exact hs
  | cons a as ih =>
    rw [batch_cons, Store.applyBatch_append]
    exact ih h.2 (hI a s hs h.1)

/-- A commit without conflict is a run of its actions on the store it commits to. -/
theorem AllEnabled.rerun {Λ : Type*} {log : Log V Λ} {snap : ℕ} {keys : List K}
    (h : P.AllEnabled as (Log.store (log.take snap))) (hk : Batch.keys (P.batch as) ⊆ keys)
    (hc : ¬ log.Conflicts snap keys) : P.AllEnabled as (Log.store log) :=
  h.congr fun _ hmem => (Log.store_eq_of_not_conflicts hc (hk hmem)).symm

end Actions

variable [DecidableEq K] [MergeOperator V]

/-- Batches with the same keys and the same effect on every store. -/
structure Batch.Equiv (ws ws' : Batch V) : Prop where
  keys : ∀ k, k ∈ Batch.keys ws ↔ k ∈ Batch.keys ws'
  apply : ∀ s : Store V, s.applyBatch ws = s.applyBatch ws'

theorem Batch.Equiv.refl (ws : Batch V) : Batch.Equiv ws ws :=
  ⟨fun _ => Iff.rfl, fun _ => rfl⟩

theorem Batch.Equiv.trans {ws ws' ws'' : Batch V} (h : Batch.Equiv ws ws')
    (h' : Batch.Equiv ws' ws'') : Batch.Equiv ws ws'' :=
  ⟨fun k => (h.keys k).trans (h'.keys k), fun s => (h.apply s).trans (h'.apply s)⟩

/-- Deleting a key first changes nothing when the batch deletes it before it writes
it otherwise. -/
theorem Batch.Equiv.delete_cons (us vs : Batch V) {k : K} (h : k ∉ Batch.keys us) :
    Batch.Equiv (⟨k, .delete⟩ :: (us ++ ⟨k, .delete⟩ :: vs)) (us ++ ⟨k, .delete⟩ :: vs) where
  keys j := by
    simp only [Batch.keys_cons, Batch.keys_append, List.mem_cons, List.mem_append]
    tauto
  apply s := by
    funext j
    by_cases hj : j = k
    · subst hj
      simp only [Store.applyBatch_cons, Store.applyBatch_append]
      refine Store.applyBatch_congr ?_
      simp [Write.apply]
    · exact Store.applyBatch_congr (Store.write_of_ne hj)

theorem Batch.Equiv.append {ws ws' vs vs' : Batch V} (h : Batch.Equiv ws ws')
    (h' : Batch.Equiv vs vs') : Batch.Equiv (ws ++ vs) (ws' ++ vs') where
  keys k := by simp [h.keys k, h'.keys k]
  apply s := by simp [h.apply, h'.apply]

namespace Log

variable {Λ : Type*}

inductive Lawful (P : Log V Λ → Commit V Λ → Prop) : Log V Λ → Prop where
  | nil : Lawful P []
  | append {log : Log V Λ} {c : Commit V Λ} : Lawful P log → P log c → Lawful P (log ++ [c])

variable {P : Log V Λ → Commit V Λ → Prop} {I : Store V → Prop} {log : Log V Λ}

omit [DecidableEq K] [MergeOperator V] in
theorem Lawful.take (h : log.Lawful P) (n : ℕ) : Lawful P (log.take n) := by
  induction h with
  | nil => simpa using Lawful.nil
  | @append log c h hc ih =>
    rcases Nat.lt_or_ge log.length n with hn | hn
    · rw [List.take_of_length_le (by simp; omega)]
      exact h.append hc
    · rwa [List.take_append_of_le_length hn]

/-- The position has a commit with the property, judged after the commits before it. -/
def At (P : Log V Λ → Commit V Λ → Prop) (log : Log V Λ) (n : ℕ) : Prop :=
  ∃ c, log[n]? = some c ∧ P (log.take n) c

instance [∀ log c, Decidable (P log c)] (log : Log V Λ) (n : ℕ) : Decidable (At P log n) :=
  decidable_of_iff (log[n]?.any fun c => P (log.take n) c) (by simp [At, Option.any_eq_true])

omit [DecidableEq K] [MergeOperator V] in
/-- What every commit keeps or ends holds until a commit ends it. -/
theorem holds_or_at {Q : Log V Λ → Prop} {n m : ℕ}
    (hstep : ∀ k c, n ≤ k → log[k]? = some c → Q (log.take k) →
      Q (log.take k ++ [c]) ∨ P (log.take k) c)
    (h : Q (log.take n)) (hnm : n ≤ m) (hm : m ≤ log.length) :
    Q (log.take m) ∨ ∃ k, n ≤ k ∧ k < m ∧ At P log k := by
  induction m, hnm using Nat.le_induction with
  | base => exact .inl h
  | succ m hnm ih =>
    have hc : log[m]? = some log[m] := List.getElem?_eq_getElem hm
    rcases ih (by omega) with hq | ⟨k, hk, hkm, hp⟩
    · rw [List.take_succ_eq_append_getElem hm]
      exact (hstep m _ hnm hc hq).imp_right fun hp => ⟨m, hnm, by omega, _, hc, hp⟩
    · exact .inr ⟨k, hk, by omega, hp⟩

variable {n : ℕ} {c : Commit V Λ}

omit [DecidableEq K] [MergeOperator V] in
theorem getElem?_append_singleton {d : Commit V Λ} :
    (log ++ [c])[n]? = some d ↔ log[n]? = some d ∨ n = log.length ∧ d = c := by
  rcases Nat.lt_trichotomy n log.length with hlt | rfl | hgt
  · rw [List.getElem?_append_left hlt]
    exact ⟨.inl, fun h => h.resolve_right fun h => Nat.ne_of_lt hlt h.1⟩
  · simp [eq_comm]
  · rw [List.getElem?_eq_none (by simp; omega), List.getElem?_eq_none (by omega)]
    simp [Nat.ne_of_gt hgt]

omit [DecidableEq K] [MergeOperator V] in
theorem at_append_singleton : At P (log ++ [c]) n ↔ At P log n ∨ n = log.length ∧ P log c := by
  constructor
  · rintro ⟨d, hd, hP⟩
    rcases getElem?_append_singleton.mp hd with hd | ⟨rfl, rfl⟩
    · have hle := Nat.le_of_lt (List.getElem?_eq_some_iff.mp hd).1
      rw [List.take_append_of_le_length hle] at hP
      exact .inl ⟨d, hd, hP⟩
    · rw [List.take_left] at hP
      exact .inr ⟨rfl, hP⟩
  · rintro (⟨d, hd, hP⟩ | ⟨rfl, hP⟩)
    · refine ⟨d, getElem?_append_singleton.mpr (.inl hd), ?_⟩
      have hle := Nat.le_of_lt (List.getElem?_eq_some_iff.mp hd).1
      rwa [List.take_append_of_le_length hle]
    · refine ⟨c, getElem?_append_singleton.mpr (.inr ⟨rfl, rfl⟩), ?_⟩
      rwa [List.take_left]

omit [DecidableEq K] [MergeOperator V] in
theorem At.lt (h : At P log n) : n < log.length := by
  obtain ⟨c, hc, -⟩ := h
  exact (List.getElem?_eq_some_iff.mp hc).1

omit [DecidableEq K] [MergeOperator V] in
theorem at_take {m : ℕ} : At P (log.take m) n ↔ n < m ∧ At P log n := by
  constructor
  · rintro ⟨c, hc, hP⟩
    rw [List.getElem?_take] at hc
    obtain ⟨hlt, hc⟩ := Option.ite_none_right_eq_some.mp hc
    rw [List.take_take, Nat.min_eq_left (Nat.le_of_lt hlt)] at hP
    exact ⟨hlt, c, hc, hP⟩
  · rintro ⟨hlt, c, hc, hP⟩
    refine ⟨c, by rw [List.getElem?_take_of_lt hlt, hc], ?_⟩
    rwa [List.take_take, Nat.min_eq_left (Nat.le_of_lt hlt)]

omit [DecidableEq K] [MergeOperator V] in
/-- Each commit is lawful after the commits before it. -/
theorem Lawful.get (h : log.Lawful P) (hn : log[n]? = some c) : P (log.take n) c := by
  induction h with
  | nil => cases hn
  | @append log d h hd ih =>
    rcases getElem?_append_singleton.mp hn with hn | ⟨rfl, rfl⟩
    · rw [List.take_append_of_le_length (Nat.le_of_lt (List.getElem?_eq_some_iff.mp hn).1)]
      exact ih hn
    · rwa [List.take_left]

omit [DecidableEq K] [MergeOperator V] in
/-- What held after the first `n` commits and is kept by the lawful commits since then
holds. -/
theorem Lawful.invariant_since {I : Log V Λ → Prop} (h : log.Lawful P) (h₀ : I (log.take n))
    (hP : ∀ l c, Lawful P l → P l c → c ∈ log.drop n → I l → I (l ++ [c])) : I log := by
  induction h with
  | nil => simpa using h₀
  | @append log c h hc ih =>
    rcases Nat.lt_or_ge log.length n with hn | hn
    · rwa [List.take_of_length_le (by simp; omega)] at h₀
    · rw [List.take_append_of_le_length hn] at h₀
      rw [List.drop_append_of_le_length hn] at hP
      refine hP log c h hc (by simp) (ih h₀ fun l d hl hd hm => ?_)
      exact hP l d hl hd (List.mem_append_left _ hm)

/-- What holds of the empty store and is kept by lawful commits always holds. -/
theorem Lawful.invariant (h : log.Lawful P) (h₀ : I fun _ => none)
    (hP : ∀ log c, P log c → I (store log) → I ((store log).applyBatch c.writes)) :
    I (store log) := by
  induction h with
  | nil => exact h₀
  | @append log c _ hc ih =>
    rw [store_append_singleton]
    exact hP log c hc ih

end Log

end Snapshot
