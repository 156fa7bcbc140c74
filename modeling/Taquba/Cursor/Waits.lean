import Taquba.Cursor.Invariant

/-! # Claims that wait for a job

Callers claim a job of one queue and wait for a wakeup when they find none. The note of an
insert is followed by notifications. A notification wakes one parked caller, or leaves a
permit that the next caller takes instead of parking. A caller that claimed a job issues one
more notification before it returns.
-/

namespace Taquba.Waits

open Cursor Transition

/-- Where a call of `claimWithWait` is: a `ready` caller claims next, a `claiming` one has the
claim lock, a `claimed` one notifies and returns, and a `missed` one found nothing. -/
inductive Phase where
  | idle
  | ready
  | claiming
  | claimed
  | missed
  | parked
  deriving DecidableEq

/-- The queue and its callers, the stored permit, and the notifications that are still to be
issued for noted inserts. -/
structure State (K : Type*) (n : ℕ) where
  queue : Cursor.State K
  phase : Fin n → Phase := fun _ => .idle
  permit : Bool := false
  owed : ℕ := 0

/-- The steps of other transactions and of claims that do not wait, and those of the callers. A
notification names the parked caller that it wakes. -/
inductive Label (K : Type*) (n : ℕ) where
  | txn (inserted removed : Finset K)
  | note (i count : ℕ)
  | notify (waiter : Option (Fin n))
  | plain (l : Cursor.Label K)
  | call (c : Fin n)
  | claim (c : Fin n)
  | attempt (c : Fin n) (l : Cursor.Label K)
  | passOn (c : Fin n) (waiter : Option (Fin n))
  | giveUp (c : Fin n)
  | wait (c : Fin n)
  | timeout (c : Fin n)

def maxInsertWakeups : ℕ := 64

variable {K : Type*} {n : ℕ}

def isClaim : Cursor.Label K → Bool
  | .txn _ _ | .note _ => false
  | _ => true

/-- Where a step of its attempt leaves the caller, if it is the attempt's last one. -/
def outcome : Cursor.Label K → Option Phase
  | .snapshot | .commit => some .claiming
  | .noCandidate => some .missed
  | .conflict => some .ready
  | .advance | .markEmpty => some .claimed
  | _ => none

def State.move (s : State K n) (c : Fin n) (phase : Phase) : State K n :=
  { s with phase := Function.update s.phase c phase }

@[simp] theorem phase_move (s : State K n) (c d : Fin n) (phase : Phase) :
    (s.move c phase).phase d = if d = c then phase else s.phase d :=
  Function.update_apply ..

/-- Wake a parked caller, or store the permit if there is none. -/
def State.notifyOne (s : State K n) : Option (Fin n) → Option (State K n)
  | some c => if s.phase c = .parked then some (s.move c .ready) else none
  | none => if ∀ c, s.phase c ≠ .parked then some { s with permit := true } else none

variable [LinearOrder K]

def step (s : State K n) : Label K n → Option (State K n)
  | .txn inserted removed =>
    (Cursor.step s.queue (.txn inserted removed)).map fun queue => { s with queue }
  | .note i count =>
    if 0 < count then
      (Cursor.step s.queue (.note i)).map fun queue =>
        { s with queue, owed := s.owed + min count maxInsertWakeups }
    else none
  | .notify waiter =>
    if 0 < s.owed then { s with owed := s.owed - 1 }.notifyOne waiter else none
  | .plain l =>
    if isClaim l ∧ ∀ c, s.phase c ≠ .claiming then
      (Cursor.step s.queue l).map fun queue => { s with queue }
    else none
  | .call c => if s.phase c = .idle then some (s.move c .ready) else none
  | .claim c =>
    if s.phase c = .ready then
      if s.queue.cursor.knownEmpty then some (s.move c .missed)
      else
        (Cursor.step s.queue (.beginClaim 1)).map fun queue =>
          { s.move c .claiming with queue }
    else none
  | .attempt c l =>
    match s.phase c, outcome l with
    | .claiming, some phase =>
      (Cursor.step s.queue l).map fun queue =>
        { s.move c (if queue.attempt.isSome then .claiming else phase) with queue }
    | _, _ => none
  | .passOn c waiter => if s.phase c = .claimed then (s.move c .idle).notifyOne waiter else none
  | .giveUp c => if s.phase c = .missed then some (s.move c .idle) else none
  | .wait c =>
    if s.phase c = .missed then
      if s.permit then some { s.move c .ready with permit := false } else some (s.move c .parked)
    else none
  | .timeout c => if s.phase c = .parked then some (s.move c .ready) else none

variable (K n) in
/-- A queue with `n` callers, from any process start. -/
def machine : Machine (State K n) (Label K n) where
  init s := ∃ live, s = { queue := .start live }
  step := step

def Available (q : Cursor.State K) : Prop := ∃ k ∈ q.live, q.Noted k

/-- The attempt that has the claim lock took a job, or no insert was noted since it began. -/
def Takes (q : Cursor.State K) : Prop :=
  match q.attempt with
  | none => False
  | some (.begun observed _ _) => observed.epoch = q.cursor.epoch
  | some (.scanned a) => a.observed.epoch = q.cursor.epoch
  | some (.committed _ _ _) | some (.advanced _) => True

/-- The caller will claim or notify, or takes a job. -/
def Active (q : Cursor.State K) : Phase → Prop
  | .ready | .claimed => True
  | .claiming => Takes q
  | _ => False

/-- A notification is outstanding, or a caller is active. -/
def Awake (s : State K n) : Prop := 0 < s.owed ∨ ∃ c, Active s.queue (s.phase c)

structure Inv (s : State K n) : Prop where
  queue : Cursor.Inv s.queue
  permit : s.permit = true → ∀ c, s.phase c ≠ .parked
  awake : Available s.queue → (∀ c, s.phase c = .idle) ∨ s.permit = true ∨ Awake s

section Queue

variable {q q' : Cursor.State K}

theorem Available.of_claim {l : Cursor.Label K} (hl : isClaim l = true)
    (h : Cursor.step q l = some q') (ha : Available q') : Available q := by
  obtain ⟨k, hk, hn⟩ := ha
  cases l with
  | txn | note => cases hl
  | _ =>
    simp only [Cursor.step] at h
    repeat' split at h
    all_goals cases h
    all_goals first
      | exact ⟨k, hk, hn⟩
      | exact ⟨k, (Finset.mem_sdiff.mp hk).1, hn⟩

theorem takes_applyTxn {inserted removed : Finset K} {minKey : Option K} (h : Takes q) :
    Takes (q.applyTxn inserted removed minKey) := by
  unfold Takes at h ⊢
  simp only [State.applyTxn]
  cases hq : q.attempt with
  | none => simp [hq] at h
  | some a => cases a <;> simp_all [Attempt.touch]

/-- An attempt that takes a job leaves its caller active, or there was no job to take. -/
theorem active_step {l : Cursor.Label K} {phase : Phase} (hi : Cursor.Inv q)
    (hl : outcome l = some phase) (h : Cursor.step q l = some q') (ht : Takes q)
    (ha : Available q') : Active q' (if q'.attempt.isSome then .claiming else phase) := by
  have hinv := hi.attempt
  unfold Takes at ht
  cases l with
  | snapshot =>
    simp only [Cursor.step] at h
    split at h
    · rename_i hatt
      cases h
      simpa [Active, Takes, hatt, State.takeSnapshot] using ht
    · cases h
  | noCandidate =>
    simp only [Cursor.step] at h
    split at h
    · rename_i a hatt
      rw [hatt] at hinv ht
      obtain ⟨hnil, ⟨⟩⟩ := Option.ite_none_right_eq_some.mp h
      obtain ⟨k, hk, hn⟩ := ha
      obtain ⟨hsnap, hy⟩ := hinv.still ht.symm k hk hn
      exact absurd hy (not_yields_of_candidates_nil hinv.maxJobs_pos
        (by rw [hinv.scan_eq]; exact hnil) hsnap)
    · cases h
  | commit | conflict | advance | markEmpty =>
    simp only [Cursor.step] at h
    repeat' split at h
    all_goals cases h
    all_goals cases hl
    all_goals simp [Active, Takes]
  | _ => cases hl

end Queue

variable {s s' : State K n} {c : Fin n} {phase : Phase}

theorem Inv.move_ne (hi : Inv s) (hp : phase ≠ .parked) (hs : s.permit = true) (d : Fin n) :
    (s.move c phase).phase d ≠ .parked := by
  rw [phase_move]
  split
  · exact hp
  · exact hi.permit hs d

/-- The queue moves under the callers, and makes no key available. -/
theorem Inv.withQueue (hi : Inv s) {q : Cursor.State K} (hq : Cursor.Inv q)
    (ha : Available q → Available s.queue)
    (ht : ∀ c, s.phase c = .claiming → Takes s.queue → Takes q) : Inv { s with queue := q } := by
  refine ⟨hq, hi.permit, fun h => ?_⟩
  rcases hi.awake (ha h) with h | h | h | ⟨c, hc⟩
  · exact .inl h
  · exact .inr (.inl h)
  · exact .inr (.inr (.inl h))
  · refine .inr (.inr (.inr ⟨c, ?_⟩))
    cases hphase : s.phase c <;> rw [hphase] at hc <;> first | exact hc | exact ht c hphase hc

theorem Inv.ready (hi : Inv s) {permit : Bool} (hp : permit = true → s.permit = true) :
    Inv { s.move c .ready with permit } := by
  refine ⟨hi.queue, fun h => hi.move_ne (by decide) (hp h), fun _ => ?_⟩
  exact .inr (.inr (.inr ⟨c, by simp [Active]⟩))

/-- A caller that found nothing leaves, or parks when no permit is stored. -/
theorem Inv.missed (hi : Inv s) (hc : s.phase c = .missed)
    (hp : s.permit = true → phase ≠ .parked) : Inv (s.move c phase) := by
  refine ⟨hi.queue, fun h => hi.move_ne (hp h) h, fun ha => ?_⟩
  rcases hi.awake ha with h | h | h | ⟨d, hd⟩
  · cases hc.symm.trans (h c)
  · exact .inr (.inl h)
  · exact .inr (.inr (.inl h))
  · refine .inr (.inr (.inr ⟨d, ?_⟩))
    rwa [phase_move, if_neg]
    rintro rfl
    rw [hc] at hd
    exact hd

theorem inv_notifyOne {waiter : Option (Fin n)} (hq : Cursor.Inv s.queue)
    (hp : s.permit = true → ∀ c, s.phase c ≠ .parked) (h : s.notifyOne waiter = some s') :
    Inv s' := by
  cases waiter with
  | none =>
    obtain ⟨hnone, ⟨⟩⟩ := Option.ite_none_right_eq_some.mp h
    exact ⟨hq, fun _ => hnone, fun _ => .inr (.inl rfl)⟩
  | some c =>
    obtain ⟨hc, ⟨⟩⟩ := Option.ite_none_right_eq_some.mp h
    refine ⟨hq, fun h => absurd hc (hp h c), fun _ => .inr (.inr (.inr ⟨c, ?_⟩))⟩
    simp [Active]

theorem inv_claim (hi : Inv s) (h : step s (.claim c) = some s') : Inv s' := by
  obtain ⟨-, h⟩ := Option.ite_none_right_eq_some.mp h
  split_ifs at h with hempty
  · cases h
    refine ⟨hi.queue, hi.move_ne (by decide), ?_⟩
    rintro ⟨k, hk, hn⟩
    exact absurd hn (hi.queue.empty hempty k hk)
  · obtain ⟨q, hq, rfl⟩ := Option.map_eq_some_iff.mp h
    refine ⟨Cursor.inv_step hi.queue hq, hi.move_ne (by decide), fun _ => ?_⟩
    obtain ⟨-, ⟨⟩⟩ := Option.ite_none_right_eq_some.mp hq
    exact .inr (.inr (.inr ⟨c, by simp [Active, Takes, QueueClaimState.beginClaim]⟩))

theorem inv_attempt {l : Cursor.Label K} (hi : Inv s) (h : step s (.attempt c l) = some s') :
    Inv s' := by
  simp only [step] at h
  split at h
  · rename_i phase hc hl
    obtain ⟨q, hq, rfl⟩ := Option.map_eq_some_iff.mp h
    have hclaim : isClaim l = true := by
      cases l <;> first | rfl | cases hl
    refine ⟨Cursor.inv_step hi.queue hq, hi.move_ne ?_, fun ha => ?_⟩
    · split
      · decide
      · rintro rfl
        cases l <;> cases hl
    · by_cases ht : Takes s.queue
      · refine .inr (.inr (.inr ⟨c, ?_⟩))
        simpa using active_step hi.queue hl hq ht ha
      · rcases hi.awake (ha.of_claim hclaim hq) with h | h | h | ⟨d, hd⟩
        · cases hc.symm.trans (h c)
        · exact .inr (.inl h)
        · exact .inr (.inr (.inl h))
        · have hne : s.phase d ≠ .claiming := fun hphase => ht (by rwa [hphase] at hd)
          have hdc : d ≠ c := by
            rintro rfl
            exact hne hc
          refine .inr (.inr (.inr ⟨d, ?_⟩))
          rw [phase_move, if_neg hdc]
          cases hphase : s.phase d <;> simp_all [Active]
  · cases h

theorem inv_step {l : Label K n} (hi : Inv s) (h : step s l = some s') : Inv s' := by
  cases l with
  | claim c => exact inv_claim hi h
  | attempt c l => exact inv_attempt hi h
  | txn inserted removed =>
    cases h
    refine hi.withQueue (Cursor.inv_step (l := .txn inserted removed) hi.queue rfl) ?_ fun _ _ =>
      takes_applyTxn
    rintro ⟨k, hk, hn⟩
    exact ⟨k, noted_of_applyTxn hi.queue hk hn⟩
  | note i count =>
    obtain ⟨hcount, h⟩ := Option.ite_none_right_eq_some.mp h
    obtain ⟨q, hq, rfl⟩ := Option.map_eq_some_iff.mp h
    refine ⟨Cursor.inv_step hi.queue hq, hi.permit, fun _ => .inr (.inr (.inl ?_))⟩
    simp only [maxInsertWakeups]
    omega
  | notify waiter =>
    obtain ⟨-, h⟩ := Option.ite_none_right_eq_some.mp h
    exact inv_notifyOne (s := { s with owed := s.owed - 1 }) hi.queue hi.permit h
  | plain l =>
    obtain ⟨⟨hl, hnone⟩, h⟩ := Option.ite_none_right_eq_some.mp h
    obtain ⟨q, hq, rfl⟩ := Option.map_eq_some_iff.mp h
    exact hi.withQueue (Cursor.inv_step hi.queue hq) (.of_claim hl hq) fun c hc =>
      absurd hc (hnone c)
  | passOn c waiter =>
    obtain ⟨-, h⟩ := Option.ite_none_right_eq_some.mp h
    exact inv_notifyOne (s := s.move c .idle) hi.queue (hi.move_ne (by decide)) h
  | giveUp c =>
    obtain ⟨hc, ⟨⟩⟩ := Option.ite_none_right_eq_some.mp h
    exact hi.missed hc (by simp)
  | wait c =>
    obtain ⟨hc, h⟩ := Option.ite_none_right_eq_some.mp h
    split_ifs at h with hp
    · cases h
      exact hi.ready (by simp)
    · cases h
      exact hi.missed hc fun h => absurd h hp
  | call c | timeout c =>
    obtain ⟨-, ⟨⟩⟩ := Option.ite_none_right_eq_some.mp h
    exact hi.ready id

/-- While a caller is parked and a noted key is live, a notification is outstanding, or another
caller will claim or notify, took a job, or runs an attempt that no note has overtaken. -/
theorem claim_with_wait_loses_no_wakeup (h : (machine K n).Reachable s) (hc : s.phase c = .parked)
    {k : K} (hk : k ∈ s.queue.live) (hn : s.queue.Noted k) : Awake s := by
  have hi : Inv s := by
    refine h.invariant ?_ fun s l s' => inv_step
    rintro _ ⟨live, rfl⟩
    exact ⟨inv_start live, by simp, fun _ => .inl fun _ => rfl⟩
  rcases hi.awake ⟨k, hk, hn⟩ with hidle | hp | h
  · cases hc.symm.trans (hidle c)
  · exact absurd hc (hi.permit hp c)
  · exact h

/-- The first of two callers parks, and a job is inserted and noted. -/
def parkedCaller : List (Label ℕ 2) :=
  [.call 0, .claim 0, .attempt 0 .snapshot, .attempt 0 .noCandidate, .wait 0, .txn {5} ∅, .note 1 1]

theorem claim_with_wait_loses_no_wakeup_of_insert :
    ∃ s, (machine ℕ 2).run { queue := .start ∅ } parkedCaller = some s ∧ s.phase 0 = .parked ∧
      5 ∈ s.queue.live ∧ s.queue.Noted 5 ∧ Awake s := by
  obtain ⟨s, hs, hc, hk, hn⟩ : ∃ s, (machine ℕ 2).run { queue := .start ∅ } parkedCaller = some s ∧
      s.phase 0 = .parked ∧ 5 ∈ s.queue.live ∧ s.queue.Noted 5 :=
    Machine.exists_of_run_any (by decide +kernel)
  have hreach := Machine.reachable_of_run hs ⟨∅, rfl⟩
  exact ⟨s, hs, hc, hk, hn, claim_with_wait_loses_no_wakeup hreach hc hk hn⟩

end Taquba.Waits
