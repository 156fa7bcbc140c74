import Taquba.Bounds.Runs

/-! # What a clean close saves is sound after every open

A clean close saves the claim cursors, and the first commit of the next process
deletes them. A crash before that commit is durable loses every later insert with
it, so the next open restores the same cursors for the same store. Calls may be
dropped before their updates in a process that does not close.
-/

namespace Taquba.Bounds

open Snapshot Transition

variable {β : Type}

/-- A process closes only when every pending key is noted. -/
def ClosesNoted (s : State β) : Label β → Prop
  | .close _ => ∀ queue, ∀ key ∈ (s.cursors queue).live, (s.cursors queue).Noted key
  | _ => True

/-- A step that ends the process and opens the next one. -/
def Label.isOpen : Label β → Bool
  | .close _ | .reopen _ _ _ => true
  | _ => false

/-- A step of the recovery at an open: a requeue, or an update of one. -/
def Label.isRecovery : Label β → Bool
  | .requeue _ | .returned _ | .note _ _ | .finish _ => true
  | _ => false

/-- What holds of the state with the updates that dropped calls never made. -/
def SoundInv (s : State β) : Prop :=
  ∃ calls, (∀ note, Awaits s.calls note → Awaits calls note) ∧ Inv { s with calls }

variable {s s' : State β}

theorem Inv.sound (hi : Inv s) : SoundInv s := ⟨s.calls, fun _ => id, hi⟩

theorem SoundInv.withCalls (hi : SoundInv s) {calls : List InProgress}
    (h : ∀ note, Awaits calls note → Awaits s.calls note) : SoundInv { s with calls } := by
  obtain ⟨all, hall, hi⟩ := hi
  exact ⟨all, fun note hn => hall note (h note hn), hi⟩

theorem awaits_eraseIdx {calls : List InProgress} {i : ℕ} {note : Note}
    (h : Awaits (calls.eraseIdx i) note) : Awaits calls note := by
  obtain ⟨call, hc, hn⟩ := h
  exact ⟨call, List.mem_of_mem_eraseIdx hc, hn⟩

variable [DecidableEq β]

theorem commit_withCalls {l : Queue.Label UserKey β} {durability : Durability}
    (h : s.commit l durability = some s') (calls : List InProgress) :
    ∃ call, s'.calls = s.calls ++ [call] ∧
      ({ s with calls } : State β).commit l durability =
        some { s' with calls := calls ++ [call] } := by
  obtain ⟨q, hq, h⟩ := Option.bind_eq_some_iff.mp h
  obtain ⟨c, hc, rfl⟩ := Option.map_eq_some_iff.mp h
  refine ⟨_, rfl, ?_⟩
  simp only [State.commit, hq, Option.bind_some, hc, Option.map_some]
  rfl

/-- The steps that only add calls do not depend on the calls in progress. -/
def Label.onlyAdds : Label β → Bool
  | .commit _ _ _ | .requeue _ | .claim _ _ | .claimCommit _ _ _ | .beginScan _ _ _ _
  | .scan _ _ _ => true
  | _ => false

theorem step_withCalls {l : Label β} (hl : l.onlyAdds = true) (h : step s l = some s')
    (calls : List InProgress) :
    ∃ new, s'.calls = s.calls ++ new ∧
      step { s with calls } l = some { s' with calls := calls ++ new } := by
  cases l with
  | commit call snap durability =>
    simp only [step] at h ⊢
    obtain ⟨hs, h⟩ := Option.ite_none_left_eq_some.mp h
    obtain ⟨c, hc, h'⟩ := commit_withCalls h calls
    exact ⟨[c], hc, by rw [if_neg hs, h']⟩
  | requeue now =>
    obtain ⟨c, hc, h'⟩ := commit_withCalls h calls
    exact ⟨[c], hc, h'⟩
  | claim queue l =>
    simp only [step] at h ⊢
    obtain ⟨hs, h⟩ := Option.ite_none_right_eq_some.mp h
    obtain ⟨cursor, hc, rfl⟩ := Option.map_eq_some_iff.mp h
    refine ⟨[], by simp [State.setCursor], ?_⟩
    rw [if_pos hs, hc, List.append_nil]
    rfl
  | claimCommit queue claimIds now =>
    simp only [step] at h ⊢
    split at h
    · rename_i a ha
      obtain ⟨last, hlast, h⟩ := Option.bind_eq_some_iff.mp h
      obtain ⟨s₁, h₁, rfl⟩ := Option.map_eq_some_iff.mp h
      obtain ⟨c, hc, h'⟩ := commit_withCalls h₁ calls
      refine ⟨[c], hc, ?_⟩
      simp only [hlast, Option.bind_some, h', Option.map_some]
      rfl
    · cases h
  | beginScan space loaded now retention =>
    simp only [step] at h ⊢
    obtain ⟨hs, ⟨⟩⟩ := Option.ite_none_right_eq_some.mp h
    refine ⟨[], by simp [State.setBound], ?_⟩
    rw [if_pos hs, List.append_nil]
    rfl
  | scan space i op =>
    obtain ⟨scan, hs, h⟩ := Option.bind_eq_some_iff.mp h
    simp only [step, hs, Option.bind_some]
    cases op with
    | page | gone | complete =>
      simp only [State.scanStep] at h ⊢
      obtain ⟨hg, ⟨⟩⟩ := Option.ite_none_right_eq_some.mp h
      refine ⟨[], by simp [State.setBound], (if_pos hg).trans ?_⟩
      rw [List.append_nil]
      rfl
    | keep | abandon =>
      cases h
      refine ⟨[], by simp [State.setBound], ?_⟩
      rw [List.append_nil]
      rfl
  | _ => cases hl

theorem soundInv_note {i j : ℕ} (hi : SoundInv s) (h : step s (.note i j) = some s') :
    SoundInv s' := by
  obtain ⟨all, hall, hi⟩ := hi
  obtain ⟨call, hc, h⟩ := Option.bind_eq_some_iff.mp h
  obtain ⟨-, h⟩ := Option.ite_none_right_eq_some.mp h
  obtain ⟨note, hnote, rfl⟩ := Option.map_eq_some_iff.mp h
  have ha : Awaits s.calls note := ⟨call, List.mem_of_getElem? hc, List.mem_of_getElem? hnote⟩
  have hcalls : (s.applyNote note).calls = s.calls := by cases note <;> rfl
  refine ⟨all, fun n hn => hall n ?_, ?_⟩
  · rw [State.setCall, hcalls] at hn
    exact awaits_of_set hc hn fun x hx => List.mem_of_mem_eraseIdx hx
  · have hi' := inv_applyNote hi (hall note ha) (fun _ => id) fun _ hn _ => hn
    cases note <;> exact hi'

/-- After an open, nothing is left of what the process before did not note. -/
theorem inv_of_isOpen {l : Label β} (hi : SoundInv s) (hl : l.isOpen = true)
    (hc : ClosesNoted s l) (h : step s l = some s') : Inv s' := by
  obtain ⟨all, -, hi⟩ := hi
  cases l with
  | close todo =>
    simp only [step, Option.ite_none_right_eq_some, Option.map_eq_some_iff] at h
    obtain ⟨-, q, hq, rfl⟩ := h
    have hql : q.log = s.queue.log := by simpa using log_reopen hq
    have hr : ∀ queue, Reaches s.queue.log queue (s.cursors queue).cursor.exportState :=
      fun queue => (hi.queues queue).reaches_of_noted (hc queue)
    refine inv_opened (Queue.inv_step hi.queue hq) (hql ▸ hr) fun n cursors hs => ?_
    cases hs
    rw [hql, List.take_length]
    exact ⟨le_rfl, hr⟩
  | reopen kept todo restoring => exact inv_reopen hi h
  | _ => cases hl

theorem soundInv_step {l : Label β} (hi : SoundInv s) (hc : ClosesNoted s l)
    (h : step s l = some s') : SoundInv s' := by
  have hadds : l.onlyAdds = true → KeepsUpdates ({ s with calls := hi.choose } : State β) l →
      SoundInv s' := by
    intro hl hk
    obtain ⟨hall, hinv⟩ := hi.choose_spec
    obtain ⟨new, hnew, h'⟩ := step_withCalls hl h hi.choose
    refine ⟨_, fun note hn => ?_, inv_step hinv hk h'⟩
    rw [hnew] at hn
    obtain ⟨call, hc, hn⟩ := hn
    rcases List.mem_append.mp hc with hc | hc
    · obtain ⟨d, hd, hn⟩ := hall note ⟨call, hc, hn⟩
      exact ⟨d, List.mem_append_left _ hd, hn⟩
    · exact ⟨call, List.mem_append_right _ hc, hn⟩
  cases l with
  | returned i =>
    obtain ⟨call, hi', rfl⟩ := Option.map_eq_some_iff.mp h
    exact hi.withCalls fun note hn => awaits_of_set hi' hn (List.Subset.refl _)
  | fail i | drop i | finish i =>
    obtain ⟨call, -, h⟩ := Option.bind_eq_some_iff.mp h
    obtain ⟨-, ⟨⟩⟩ := Option.ite_none_right_eq_some.mp h
    exact hi.withCalls fun note => awaits_eraseIdx
  | note i j => exact soundInv_note hi h
  | close | reopen => exact (inv_of_isOpen hi rfl hc h).sound
  | _ => exact hadds rfl trivial

theorem soundInv_reachable (h : (machine β).ReachableVia ClosesNoted s) : SoundInv s := by
  refine h.invariant ?_ fun s l s' => soundInv_step
  rintro _ rfl
  exact inv_init.sound

theorem inv_recovery {ls : List (Label β)} (hi : Inv s) (hl : ∀ l ∈ ls, l.isRecovery = true)
    (h : (machine β).run s ls = some s') : Inv s' := by
  induction ls generalizing s with
  | nil =>
    cases h
    exact hi
  | cons l ls ih =>
    obtain ⟨t, ht, h⟩ := Option.bind_eq_some_iff.mp h
    have hk : KeepsUpdates s l := by
      have := hl l (.head _)
      cases l <;> trivial
    exact ih (inv_step hi hk ht) (fun l' hl' => hl l' (.tail _ hl')) h

omit [DecidableEq β] in
theorem Inv.reaches (hi : Inv s) (hc : s.calls = []) {queue : QueueName} {key : PendingKey}
    (hk : s.store (.record (.pending queue key)) ≠ none) :
    (s.cursors queue).cursor.knownEmpty = false ∧
      Cursor.Yields (s.cursors queue).cursor.scanFrom key := by
  have hq := hi.queues queue
  rw [hc] at hq
  exact hq.reaches key hk

/-- In a run in which every process that closes has noted its pending keys, the cursor
of each queue after an open, by restore or not, misses no pending key of the store:
none sorts before its bound, and a queue known as empty has none. The same holds when
the recovery has requeued the interrupted claims. -/
theorem restored_cursor_sound {l : Label β} (h : (machine β).ReachableVia ClosesNoted s)
    (hl : l.isOpen = true) (hc : ClosesNoted s l) (hs : step s l = some s') :
    (∀ queue key, s'.store (.record (.pending queue key)) ≠ none →
      (s'.cursors queue).cursor.knownEmpty = false ∧
        Cursor.Yields (s'.cursors queue).cursor.scanFrom key) ∧
    ∀ ls s'', (machine β).run s' ls = some s'' → (∀ l ∈ ls, l.isRecovery = true) →
      s''.calls = [] → ∀ queue key, s''.store (.record (.pending queue key)) ≠ none →
        (s''.cursors queue).cursor.knownEmpty = false ∧
          Cursor.Yields (s''.cursors queue).cursor.scanFrom key := by
  have hi := inv_of_isOpen (soundInv_reachable h) hl hc hs
  have hcalls : s'.calls = [] := by
    cases l with
    | close todo =>
      simp only [step, Option.ite_none_right_eq_some, Option.map_eq_some_iff] at hs
      obtain ⟨-, q, -, rfl⟩ := hs
      rfl
    | reopen kept todo restoring =>
      simp only [step] at hs
      split at hs
      all_goals
        obtain ⟨-, hs⟩ := Option.ite_none_left_eq_some.mp hs
        obtain ⟨q, -, rfl⟩ := Option.map_eq_some_iff.mp hs
        rfl
    | _ => cases hl
  constructor
  · exact fun queue key => hi.reaches hcalls
  · exact fun ls s'' hrun hls hcalls' queue key => (inv_recovery hi hls hrun).reaches hcalls'

/-- A run whose calls make their updates notes every pending key before it closes. -/
theorem closesNoted_of_keepsUpdates (h : (machine β).ReachableVia KeepsUpdates s) :
    (machine β).ReachableVia ClosesNoted s := by
  induction h with
  | init h => exact .init h
  | @step s s' l hr hk hstep ih =>
    refine .step ih ?_ hstep
    cases l with
    | close todo =>
      simp only [machine, step, Option.ite_none_right_eq_some] at hstep
      obtain ⟨hg, hstep⟩ := hstep
      intro queue
      have hq := (inv_reachable hr).queues queue
      rw [hg.1] at hq
      exact hq.noted_of_nil
    | _ => trivial

/-- A job is enqueued and claimed, and another enqueued before the process closes. -/
def closeWithClaim : List (Label ℕ) :=
  [.commit (.enqueue (fun _ _ => none) Queue.welcome {}) 0 .awaited, .returned 0, .note 0 0,
    .finish 0, .claim Queue.emails (.beginClaim 1), .claim Queue.emails .snapshot,
    .claimCommit Queue.emails [1] 7, .returned 0, .finish 0, .claim Queue.emails .advance,
    .commit (.enqueue (fun _ _ => none) { job := .newPending "b" Queue.emails [1] 3 0 6 } {}) 2
      .awaited, .returned 0, .note 0 0, .finish 0,
    .close [{ Queue.welcome.job with status := .claimed, attempts := 1, claimedAt := some 7 }]]

def crash : Label ℕ :=
  .reopen 3 [{ Queue.welcome.job with status := .claimed, attempts := 1, claimedAt := some 7 }] true

/-- A crash before a later commit is durable restores the saved cursor again. Its bound is
after the claimed job and does not miss the other; once the claimed job is requeued, the
bound is at or before it. -/
theorem restored_cursor_sound_after_crash :
    ∃ s s' s'', (machine ℕ).run {} closeWithClaim = some s ∧ step s crash = some s' ∧
      (machine ℕ).run s' [.requeue 9, .returned 0, .note 0 0, .finish 0] = some s'' ∧
      (s'.cursors Queue.emails).cursor.scanFrom.isSome = true ∧
      Cursor.Yields (s'.cursors Queue.emails).cursor.scanFrom ⟨0, 6, "b"⟩ ∧
      Cursor.Yields (s''.cursors Queue.emails).cursor.scanFrom ⟨0, 5, "a"⟩ := by
  obtain ⟨s, hs, hsteps⟩ : ∃ s, (machine ℕ).run {} closeWithClaim = some s ∧
      ((step s crash).any fun s' => (s'.cursors Queue.emails).cursor.scanFrom.isSome &&
        (s'.store (.record (.pending Queue.emails ⟨0, 6, "b"⟩))).isSome &&
        ((machine ℕ).run s' [.requeue 9, .returned 0, .note 0 0, .finish 0]).any fun s'' =>
          s''.calls.isEmpty &&
            (s''.store (.record (.pending Queue.emails ⟨0, 5, "a"⟩))).isSome) = true :=
    Machine.exists_of_run_any (by decide +kernel)
  obtain ⟨s', hs', hsteps⟩ := (Option.any_eq_true _ _).mp hsteps
  simp only [Bool.and_eq_true] at hsteps
  obtain ⟨⟨hfrom, hb⟩, hsteps⟩ := hsteps
  obtain ⟨s'', hs'', hsteps⟩ := (Option.any_eq_true _ _).mp hsteps
  simp only [Bool.and_eq_true] at hsteps
  obtain ⟨hcalls, ha⟩ := hsteps
  have hreach : (machine ℕ).ReachableVia KeepsUpdates s :=
    (Machine.ReachableVia.init (T := machine ℕ) rfl).run hs
      (by simp [closeWithClaim, KeepsUpdates])
  obtain ⟨hopen, hrecovered⟩ := restored_cursor_sound (closesNoted_of_keepsUpdates hreach)
    (l := crash) rfl trivial hs'
  refine ⟨s, s', s'', hs, hs', hs'', hfrom, ?_, ?_⟩
  · exact (hopen _ _ (Option.isSome_iff_ne_none.mp hb)).2
  · exact (hrecovered _ _ hs'' (by decide) (List.isEmpty_iff.mp hcalls) _ _
      (Option.isSome_iff_ne_none.mp ha)).2

end Taquba.Bounds
