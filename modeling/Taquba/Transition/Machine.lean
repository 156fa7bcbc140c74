import Mathlib.Data.Option.Basic

/-! # Machines and their reachable states

A machine takes labelled steps; a label resolves every choice of a step, and a
step that is not enabled is `none`. Runs may be restricted by a condition on the
state before a step and its label. An invariant of the initial states that every
such step keeps holds in every state reached.
-/

namespace Transition

/-- Initial states and a partial step function on labels. -/
structure Machine (σ α : Type*) where
  init : σ → Prop
  step : σ → α → Option σ

namespace Machine

variable {σ α : Type*} (T : Machine σ α)

/-- The states of the runs whose steps all meet `C`. -/
inductive ReachableVia (C : σ → α → Prop) : σ → Prop where
  | init {s : σ} : T.init s → ReachableVia C s
  | step {s s' : σ} {a : α} :
      ReachableVia C s → C s a → T.step s a = some s' → ReachableVia C s'

def Reachable : σ → Prop := T.ReachableVia fun _ _ => True

/-- Take the steps of a list of labels in order. -/
def run : σ → List α → Option σ
  | s, [] => some s
  | s, a :: as => (T.step s a).bind fun s' => run s' as

@[simp] theorem run_nil (s : σ) : T.run s [] = some s := rfl

@[simp] theorem run_cons (s : σ) (a : α) (as : List α) :
    T.run s (a :: as) = (T.step s a).bind fun s' => T.run s' as := rfl

/-- Take the steps of a list of labels in order, as long as they meet `C`. -/
def runVia (C : σ → α → Prop) [∀ s a, Decidable (C s a)] : σ → List α → Option σ
  | s, [] => some s
  | s, a :: as => if C s a then (T.step s a).bind fun s' => runVia C s' as else none

variable {T} {C : σ → α → Prop} {s s' : σ}

theorem Reachable.initial (h : T.init s) : T.Reachable s :=
  .init h

theorem Reachable.next {a : α} (h : T.Reachable s) (hs : T.step s a = some s') :
    T.Reachable s' :=
  .step h trivial hs

theorem ReachableVia.reachable (h : T.ReachableVia C s) : T.Reachable s := by
  induction h with
  | init hi => exact .initial hi
  | step _ _ hs ih => exact ih.next hs

/-- A run of labels that meet the condition in every state. -/
theorem ReachableVia.run {as : List α} (h : T.ReachableVia C s) (hr : T.run s as = some s')
    (hC : ∀ a ∈ as, ∀ t, C t a) : T.ReachableVia C s' := by
  induction as generalizing s with
  | nil =>
    cases hr
    exact h
  | cons a as ih =>
    obtain ⟨t, ht, hr⟩ := Option.bind_eq_some_iff.mp hr
    exact ih (.step h (hC a (.head _) s) ht) hr fun b hb => hC b (.tail _ hb)

theorem Reachable.run {as : List α} (h : T.Reachable s) (hr : T.run s as = some s') :
    T.Reachable s' :=
  ReachableVia.run h hr fun _ _ _ => trivial

theorem reachable_of_run {as : List α} (h : T.run s as = some s') (hi : T.init s) :
    T.Reachable s' :=
  (Reachable.initial hi).run h

/-- A run that evaluates to a state with the property ends in one. -/
theorem exists_of_run_any {as : List α} {p : σ → Prop} [DecidablePred p]
    (h : (T.run s as).any (fun s' => p s') = true) : ∃ s', T.run s as = some s' ∧ p s' := by
  cases hr : T.run s as with
  | none => simp [hr] at h
  | some s' => exact ⟨s', rfl, by simpa [hr] using h⟩

section RunVia

variable [∀ s a, Decidable (C s a)] {as : List α}

theorem runVia_cons_eq_some {a : α} (h : T.runVia C s (a :: as) = some s') :
    C s a ∧ ∃ t, T.step s a = some t ∧ T.runVia C t as = some s' := by
  rw [runVia] at h
  split at h
  · exact ⟨‹_›, Option.bind_eq_some_iff.mp h⟩
  · cases h

theorem run_of_runVia (h : T.runVia C s as = some s') : T.run s as = some s' := by
  induction as generalizing s with
  | nil => exact h
  | cons a as ih =>
    obtain ⟨-, t, ht, h⟩ := runVia_cons_eq_some h
    rw [run_cons, ht]
    exact ih h

theorem ReachableVia.runVia (h : T.ReachableVia C s) (hr : T.runVia C s as = some s') :
    T.ReachableVia C s' := by
  induction as generalizing s with
  | nil =>
    cases hr
    exact h
  | cons a as ih =>
    obtain ⟨hC, t, ht, hr⟩ := runVia_cons_eq_some hr
    exact ih (.step h hC ht) hr

theorem exists_of_runVia_any {p : σ → Prop} [DecidablePred p]
    (h : (T.runVia C s as).any (fun s' => p s') = true) :
    ∃ s', T.runVia C s as = some s' ∧ p s' := by
  cases hr : T.runVia C s as with
  | none => simp [hr] at h
  | some s' => exact ⟨s', rfl, by simpa [hr] using h⟩

end RunVia

/-- Steps that meet `C` and start in an `I`-state end in an `I`-state. -/
theorem ReachableVia.invariant {I : σ → Prop} (h : T.ReachableVia C s)
    (hi : ∀ s, T.init s → I s)
    (hs : ∀ s a s', I s → C s a → T.step s a = some s' → I s') : I s := by
  induction h with
  | init h => exact hi _ h
  | step _ hc hstep ih => exact hs _ _ _ ih hc hstep

/-- Runs that meet `C` also meet a condition that `C` gives along an invariant. -/
theorem ReachableVia.imp {I : σ → Prop} {D : σ → α → Prop} (h : T.ReachableVia C s)
    (hi : ∀ s, T.init s → I s)
    (hs : ∀ s a s', I s → C s a → T.step s a = some s' → I s')
    (hD : ∀ s a, I s → C s a → D s a) : T.ReachableVia D s := by
  induction h with
  | init h => exact .init h
  | @step s s' a hr hc hstep ih => exact .step ih (hD s a (hr.invariant hi hs) hc) hstep

theorem ReachableVia.mono {D : σ → α → Prop} (h : T.ReachableVia C s)
    (hD : ∀ s a, C s a → D s a) : T.ReachableVia D s :=
  h.imp (I := fun _ => True) (fun _ _ => trivial) (fun _ _ _ _ _ _ => trivial)
    fun s a _ hc => hD s a hc

theorem Reachable.invariant {I : σ → Prop} (h : T.Reachable s)
    (hi : ∀ s, T.init s → I s)
    (hs : ∀ s a s', I s → T.step s a = some s' → I s') : I s :=
  ReachableVia.invariant h hi fun s a s' hI _ h => hs s a s' hI h

end Machine

end Transition
