import Taquba.Lease.Views
import Taquba.Transition.Machine

/-! # Operations on the lease registry

Inserts, renewals, cancels, removals, the reaper and the close follow each other in any
order. A token is fired after the lock is released, so other operations can come between
the read of a token and its firing. A renewal reads the token of its claim before the entry,
so a claim that ended after a cancel is told of the cancel.
-/

namespace Taquba

open Transition

namespace Renewals

/-- The registry, the tokens that fired, and those that a cancel or the close read and has
still to fire. -/
structure State where
  registry : LeaseRegistry := {}
  fired : ℕ → Bool := fun _ => false
  firing : List ℕ := []

inductive Label where
  /-- The lease of a claim. The token of a job whose cancel was requested fired before. -/
  | insert (queue : QueueName) (id : String) (expiresAt claimId cancel : ℕ) (requested : Bool)
  | renew (queue : QueueName) (id : String) (claimId cancel expiresAt : ℕ) (mode : Renewal)
  | cancel (queue : QueueName) (id : String)
  | close
  | fire (cancel : ℕ)
  | takeDue (now : ℕ)
  | remove (queue : QueueName) (id : String) (claimId : ℕ)

def State.renewal (s : State) (queue : QueueName) (id : String) (claimId cancel expiresAt : ℕ)
    (mode : Renewal) : Except RenewalError (LeaseRegistry × Bool) :=
  s.registry.renew queue id claimId (s.fired cancel) expiresAt mode

def step (s : State) : Label → Option State
  | .insert queue id expiresAt claimId cancel requested => some { s with
      registry := s.registry.insert queue id expiresAt claimId cancel
      fired := if requested then Function.update s.fired cancel true else s.fired }
  | .renew queue id claimId cancel expiresAt mode =>
    match s.renewal queue id claimId cancel expiresAt mode with
    | .ok (registry, _) => some { s with registry }
    | .error _ => some s
  | .cancel queue id =>
    some { s with firing := (s.registry.token queue id).toList ++ s.firing }
  | .close => some { s with
      registry := s.registry.close.1
      firing := s.registry.close.2 ++ s.firing }
  | .fire cancel =>
    if cancel ∈ s.firing then some { s with
      fired := Function.update s.fired cancel true
      firing := s.firing.erase cancel }
    else none
  | .takeDue now =>
    (s.registry.takeDue now).map fun (registry, _) => { s with registry }
  | .remove queue id claimId => some { s with registry := s.registry.remove queue id claimId }

def machine : Machine State Label where
  init s := s = {}
  step := step

variable {s s' : State} {label : Label}

theorem consistent_step (h : s.registry.Consistent) (hs : step s label = some s') :
    s'.registry.Consistent := by
  cases label with
  | insert queue id expiresAt claimId cancel requested =>
    cases hs
    exact h.insert queue id expiresAt claimId cancel
  | renew queue id claimId cancel expiresAt mode =>
    simp only [step] at hs
    split at hs
    · rename_i registry changed hr
      cases hs
      exact h.renew hr
    · cases hs
      exact h
  | cancel queue id =>
    cases hs
    exact h
  | close =>
    cases hs
    exact { h with }
  | fire cancel =>
    simp only [step, Option.ite_none_right_eq_some] at hs
    obtain ⟨-, ⟨⟩⟩ := hs
    exact h
  | takeDue now =>
    obtain ⟨⟨registry, due⟩, htake, rfl⟩ := Option.map_eq_some_iff.mp hs
    obtain ⟨r', due', htake', hr', -⟩ := h.takeDue now
    rw [htake'] at htake
    cases htake
    exact hr'
  | remove queue id claimId =>
    cases hs
    exact h.remove queue id claimId

theorem consistent_reachable (h : machine.Reachable s) : s.registry.Consistent := by
  refine h.invariant (I := fun s => s.registry.Consistent) ?_ fun s a s' => consistent_step
  rintro _ rfl
  refine ⟨fun key => ?_, .nil, .nil⟩
  simp

/-- After every sequence of operations the expiry order has exactly one entry for each
lease, the reaper finds the entry of every key and gets exactly the due leases, soonest
first, with the claims that hold them, and a removal for another claim changes nothing. -/
theorem registry_views_agree (h : machine.Reachable s) :
    s.registry.Consistent ∧
      (∀ now, ∃ r due, s.registry.takeDue now = some (r, due) ∧ s.registry.ExactlyDue now due) ∧
      ∀ queue id claimId,
        (∀ lease ∈ s.registry.byJob (queue, id), lease.claimId ≠ claimId) →
        s.registry.remove queue id claimId = s.registry := by
  have hc := consistent_reachable h
  refine ⟨hc, fun now => ?_, fun queue id claimId hother => ?_⟩
  · obtain ⟨r, due, htake, -, -, -, hdue⟩ := hc.takeDue now
    exact ⟨r, due, htake, hdue⟩
  · unfold LeaseRegistry.remove
    split
    · rename_i lease hl
      rw [if_pos (hother lease hl)]
    · rfl

def mailbox : QueueName := ⟨"mailbox", by decide⟩

/-- Two leases, of which the second is renewed past the first, and a reaper that takes the
first one. -/
def takenOnce : List Label :=
  [.insert mailbox "a" 20 1 1 false, .insert mailbox "b" 10 2 2 false,
    .renew mailbox "b" 2 2 30 .set, .takeDue 20, .cancel mailbox "a", .fire 1,
    .remove mailbox "a" 2]

theorem registry_views_agree_taken :
    ∃ s, machine.run {} takenOnce = some s ∧
      s.registry.byExpiry = [(20, mailbox, "a"), (30, mailbox, "b")] ∧ s.registry.Consistent ∧
      s.registry.remove mailbox "a" 2 = s.registry := by
  obtain ⟨s, hs, hlist, hother⟩ : ∃ s, machine.run {} takenOnce = some s ∧
      (s.registry.byExpiry = [(20, mailbox, "a"), (30, mailbox, "b")] ∧
        ∀ lease ∈ s.registry.byJob (mailbox, "a"), lease.claimId ≠ 2) :=
    Machine.exists_of_run_any (by decide +kernel)
  obtain ⟨hc, -, hremove⟩ :=
    registry_views_agree (Machine.reachable_of_run hs rfl)
  exact ⟨s, hs, hlist, hc, hremove mailbox "a" 2 hother⟩

/-- A claim whose token fired renews only while it holds its entry, or after the close. -/
def Timely (s : State) : Label → Prop
  | .renew queue id claimId cancel _ _ =>
    s.fired cancel = true → s.registry.closed = true ∨ s.registry.Holds queue id claimId
  | _ => True

instance (s : State) : DecidablePred (Timely s) := fun label =>
  match label with
  | .renew _ _ _ _ _ _ => inferInstanceAs (Decidable (_ → _ ∨ _))
  | .insert .. | .cancel .. | .close | .fire _ | .takeDue _ | .remove .. => .isTrue trivial

/-- The lease of the claim is registered again. -/
def Label.claims (queue : QueueName) (id : String) (claimId : ℕ) : Label → Prop
  | .insert queue' id' _ claimId' _ _ => queue' = queue ∧ id' = id ∧ claimId' = claimId
  | _ => False

structure Truthful (s : State) (queue : QueueName) (id : String) (claimId cancel : ℕ)
    (answer : Except RenewalError (LeaseRegistry × Bool)) : Prop where
  lost : answer = .error .claimLost ↔
    s.registry.closed = true ∨ ¬ s.registry.Holds queue id claimId
  cancelled : answer = .error .cancelRequested ↔
    s.registry.closed = false ∧ s.registry.Holds queue id claimId ∧ s.fired cancel = true
  renewed : (∃ r changed, answer = .ok (r, changed)) ↔
    s.registry.closed = false ∧ s.registry.Holds queue id claimId ∧ s.fired cancel = false

section Renew

variable {queue : QueueName} {id : String} {claimId cancel expiresAt : ℕ} {mode : Renewal}

theorem truthful_of_timely (h : Timely s (.renew queue id claimId cancel expiresAt mode)) :
    Truthful s queue id claimId cancel (s.renewal queue id claimId cancel expiresAt mode) := by
  unfold State.renewal
  cases hclosed : s.registry.closed with
  | true =>
    rw [LeaseRegistry.renew_closed hclosed]
    exact ⟨by simp [hclosed], by simp [hclosed], by simp [hclosed]⟩
  | false =>
    by_cases hh : s.registry.Holds queue id claimId
    · cases hfired : s.fired cancel with
      | true =>
        rw [LeaseRegistry.renew_cancelled hclosed]
        exact ⟨by simp [hclosed, hh], by simp [hclosed, hh, hfired], by simp [hfired]⟩
      | false =>
        obtain ⟨r, changed, hr⟩ := LeaseRegistry.renew_held hclosed hh expiresAt mode
        rw [hr]
        exact ⟨by simp [hclosed, hh], by simp [hfired], by simp [hclosed, hh, hfired]⟩
    · have hfired : s.fired cancel = false := by
        cases hf : s.fired cancel with
        | false => rfl
        | true =>
          rcases h hf with hc | hc
          · rw [hclosed] at hc
            cases hc
          · exact absurd hc hh
      rw [hfired, LeaseRegistry.renew_lost hclosed hh]
      exact ⟨by simp [hh], by simp [hh], by simp [hh]⟩

/-- A claim that lost its entry does not get it back, and a closed registry stays closed. -/
theorem lost_step (hc : s.registry.Consistent)
    (h : s.registry.closed = true ∨ ¬ s.registry.Holds queue id claimId)
    (hl : ¬ label.claims queue id claimId) (hs : step s label = some s') :
    s'.registry.closed = true ∨ ¬ s'.registry.Holds queue id claimId := by
  rw [LeaseRegistry.holds_iff] at h ⊢
  have hback (hclosed : s'.registry.closed = s.registry.closed)
      (hstatus : s'.registry.status (queue, id) = some (claimId, false) →
        s.registry.status (queue, id) = some (claimId, false)) :
      s'.registry.closed = true ∨ ¬ s'.registry.status (queue, id) = some (claimId, false) :=
    h.imp hclosed.trans (mt hstatus)
  cases label with
  | insert queue' id' expiresAt claimId' cancel requested =>
    cases hs
    refine hback rfl fun hstatus => ?_
    rw [show (State.registry _).status = _ from LeaseRegistry.status_insert] at hstatus
    by_cases hj : (queue, id) = (queue', id')
    · cases hj
      simp only [Function.update_self, Option.some.injEq, Prod.mk.injEq, and_true] at hstatus
      exact absurd ⟨rfl, rfl, hstatus⟩ hl
    · rwa [Function.update_of_ne hj] at hstatus
  | renew queue' id' claimId' cancel expiresAt mode =>
    simp only [step] at hs
    split at hs
    · rename_i registry changed hr
      cases hs
      obtain ⟨hclosed, hstatus⟩ := LeaseRegistry.status_renew hr
      exact hback hclosed fun h' => hstatus ▸ h'
    · cases hs
      exact h
  | cancel queue' id' =>
    cases hs
    exact h
  | close =>
    cases hs
    exact .inl rfl
  | fire cancel =>
    simp only [step] at hs
    split at hs
    · cases hs
      exact h
    · cases hs
  | takeDue now =>
    obtain ⟨⟨registry, due⟩, htake, rfl⟩ := Option.map_eq_some_iff.mp hs
    obtain ⟨r', due', htake', -, hclosed, hjobs, -⟩ := hc.takeDue now
    obtain rfl : registry = r' := by
      rw [htake'] at htake
      cases htake
      rfl
    refine hback hclosed fun hstatus => ?_
    simp only [LeaseRegistry.status, hjobs, Option.map_map] at hstatus ⊢
    obtain ⟨lease, hlease, heq⟩ := Option.map_eq_some_iff.mp hstatus
    rw [hlease]
    simp only [Function.comp_apply] at heq
    split at heq
    · cases heq
    · exact congrArg some heq
  | remove queue' id' claimId' =>
    cases hs
    exact hback LeaseRegistry.closed_remove LeaseRegistry.status_remove

theorem lost_run {labels : List Label} (hreach : machine.Reachable s)
    (h : s.registry.closed = true ∨ ¬ s.registry.Holds queue id claimId)
    (hl : ∀ label ∈ labels, ¬ label.claims queue id claimId)
    (hs : machine.run s labels = some s') :
    s'.registry.closed = true ∨ ¬ s'.registry.Holds queue id claimId := by
  induction labels generalizing s with
  | nil =>
    cases hs
    exact h
  | cons label labels ih =>
    obtain ⟨t, ht, hs⟩ := Option.bind_eq_some_iff.mp hs
    exact ih (hreach.next ht) (lost_step (consistent_reachable hreach) h (hl label (.head _)) ht)
      (fun l hmem => hl l (.tail _ hmem)) hs

/-- In every run in which a claim with a fired token renews only while it holds its entry
or after the close, a renewal is refused as lost exactly after the close or without an
unmarked entry of the claim, as cancelled exactly when the token fired otherwise, and a
refused one leaves the registry; and a claim that is lost stays lost until its lease is
registered again. -/
theorem renewal_errors_tell_the_truth (h : machine.ReachableVia Timely s) :
    (∀ expiresAt mode, Timely s (.renew queue id claimId cancel expiresAt mode) →
      Truthful s queue id claimId cancel (s.renewal queue id claimId cancel expiresAt mode) ∧
      ∀ error, s.renewal queue id claimId cancel expiresAt mode = .error error →
        step s (.renew queue id claimId cancel expiresAt mode) = some s) ∧
    (s.registry.closed = true ∨ ¬ s.registry.Holds queue id claimId →
      ∀ labels s', machine.run s labels = some s' →
        (∀ label ∈ labels, ¬ label.claims queue id claimId) → ∀ expiresAt mode,
        Timely s' (.renew queue id claimId cancel expiresAt mode) →
        s'.renewal queue id claimId cancel expiresAt mode = .error .claimLost) := by
  refine ⟨fun expiresAt mode ht => ⟨truthful_of_timely ht, fun error he => ?_⟩, ?_⟩
  · simp only [step, he]
  · intro hlost labels s' hs hl expiresAt mode ht
    exact (truthful_of_timely ht).lost.mpr (lost_run h.reachable hlost hl hs)

end Renew

def cancelledThenSettled : List Label :=
  [.insert mailbox "a" 20 1 1 false, .cancel mailbox "a", .fire 1, .remove mailbox "a" 1]

/-- A renewal after the end of a cancelled claim reports the cancel. -/
theorem renewal_errors_tell_the_truth_fails :
    ∃ s, machine.Reachable s ∧ s.registry.byJob (mailbox, "a") = none ∧
      s.renewal mailbox "a" 1 1 30 .set = .error .cancelRequested ∧
      ¬ Truthful s mailbox "a" 1 1 (s.renewal mailbox "a" 1 1 30 .set) := by
  obtain ⟨s, hs, hnone, hclosed, hfired⟩ : ∃ s, machine.run {} cancelledThenSettled = some s ∧
      (s.registry.byJob (mailbox, "a") = none ∧ s.registry.closed = false ∧ s.fired 1 = true) :=
    Machine.exists_of_run_any (by decide +kernel)
  have hanswer : s.renewal mailbox "a" 1 1 30 .set = .error .cancelRequested := by
    rw [State.renewal, hfired, LeaseRegistry.renew_cancelled hclosed]
  refine ⟨s, Machine.reachable_of_run hs rfl, hnone, hanswer, fun ht => ?_⟩
  obtain ⟨lease, hlease, -⟩ := (ht.cancelled.mp hanswer).2.1
  rw [hnone] at hlease
  cases hlease

theorem renewal_errors_tell_the_truth_taken :
    ∃ s, machine.runVia Timely {} takenOnce = some s ∧ s.fired 1 = true ∧ s.fired 2 = false ∧
      s.renewal mailbox "b" 1 2 40 .set = .error .claimLost := by
  obtain ⟨s, hs, hone, htwo, hlost⟩ : ∃ s, machine.runVia Timely {} takenOnce = some s ∧
      (s.fired 1 = true ∧ s.fired 2 = false ∧ ¬ s.registry.Holds mailbox "b" 1) :=
    Machine.exists_of_runVia_any (by decide +kernel)
  have htimely : Timely s (.renew mailbox "b" 1 2 40 .set) := by
    intro hfired
    rw [htwo] at hfired
    cases hfired
  exact ⟨s, hs, hone, htwo, ((renewal_errors_tell_the_truth
    (.runVia (.init (T := machine) rfl) hs)).1 40 .set htimely).1.lost.mpr (.inr hlost)⟩

end Renewals

end Taquba
