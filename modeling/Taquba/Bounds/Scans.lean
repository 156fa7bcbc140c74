import Taquba.Bounds.Runs

/-! # No bound passes a live key

The bound of a time-ordered space stays at or below the time of every live key
whose writer lowered it, or a scan in flight starts at or below that time. This
holds in every run: calls may be dropped before their updates, scans may overlap
and end early, and the process may close or crash. A pass that begins with no
other in flight finds the bound due and starts at or below every due key.
-/

namespace Taquba.Bounds

open Snapshot Transition

variable {β : Type} [DecidableEq β] {s s' : State β}

structure SpacesInv (s : State β) : Prop where
  queue : Queue.Inv s.queue
  spaces : ∀ space, ScanInv s.queue.log space (s.bounds space)

omit [DecidableEq β] in
theorem SpacesInv.withBound (hi : SpacesInv s) {space : Space}
    {bound : TimeBound.State (Key UserKey)} (hb : ScanInv s.queue.log space bound) :
    SpacesInv (s.setBound space bound) where
  queue := hi.queue
  spaces := (Function.forall_update_iff s.bounds fun sp b => ScanInv s.queue.log sp b).mpr
    ⟨hb, fun sp _ => hi.spaces sp⟩

omit [DecidableEq β] in
theorem spacesInv_opened {queue : Queue.State UserKey β}
    {cursors : QueueName → Cursor.CursorState PendingKey}
    {saved : Option (ℕ × (QueueName → Cursor.CursorState PendingKey))} (hq : Queue.Inv queue) :
    SpacesInv (State.opened queue cursors saved) where
  queue := hq
  spaces _ := ⟨TimeBound.inv_init _ _, nofun⟩

theorem spacesInv_commit {l : Queue.Label UserKey β} {durability : Durability} (hi : SpacesInv s)
    (hl : ∀ kept todo, l ≠ .reopen kept todo) (h : s.commit l durability = some s') :
    SpacesInv s' := by
  obtain ⟨q, c, as, hq, hlog, -, rfl⟩ := commit_performs hi.queue hl h
  constructor
  · exact Queue.inv_step hi.queue hq
  · intro space
    simp only [State.committed, hlog]
    exact (hi.spaces space).commit

theorem spacesInv_step {l : Label β} (hi : SpacesInv s) (h : step s l = some s') :
    SpacesInv s' := by
  cases l with
  | commit call snap durability =>
    simp only [step] at h
    split at h
    · cases h
    · exact spacesInv_commit hi (by simp) h
  | requeue now => exact spacesInv_commit hi (by simp) h
  | returned i =>
    obtain ⟨call, -, rfl⟩ := Option.map_eq_some_iff.mp h
    exact ⟨hi.queue, hi.spaces⟩
  | fail i | drop i | finish i =>
    obtain ⟨call, -, h⟩ := Option.bind_eq_some_iff.mp h
    split at h
    · cases h
      exact ⟨hi.queue, hi.spaces⟩
    · cases h
  | note i j =>
    obtain ⟨call, -, h⟩ := Option.bind_eq_some_iff.mp h
    split at h
    · obtain ⟨note, -, rfl⟩ := Option.map_eq_some_iff.mp h
      cases note with
      | pending queue number minKey => exact ⟨hi.queue, hi.spaces⟩
      | time space atMs =>
        have hb := hi.withBound ((hi.spaces space).lower atMs)
        exact ⟨hb.queue, hb.spaces⟩
    · cases h
  | claim queue l =>
    simp only [step] at h
    split at h
    · obtain ⟨cursor, -, rfl⟩ := Option.map_eq_some_iff.mp h
      exact ⟨hi.queue, hi.spaces⟩
    · cases h
  | claimCommit queue claimIds now =>
    simp only [step] at h
    split at h
    · obtain ⟨last, -, h⟩ := Option.bind_eq_some_iff.mp h
      obtain ⟨s₁, h₁, rfl⟩ := Option.map_eq_some_iff.mp h
      have hi₁ := spacesInv_commit hi (by simp) h₁
      exact ⟨hi₁.queue, hi₁.spaces⟩
    · cases h
  | beginScan space loaded now retention =>
    simp only [step] at h
    split at h
    · cases h
      exact hi.withBound ((hi.spaces space).begin now retention)
    · cases h
  | scan space i op =>
    obtain ⟨scan, hs, h⟩ := Option.bind_eq_some_iff.mp h
    obtain ⟨bound, rfl, -, hb⟩ := (hi.spaces space).scanStep hs h
    exact hi.withBound hb
  | close todo =>
    simp only [step] at h
    split at h
    · obtain ⟨q, hq, rfl⟩ := Option.map_eq_some_iff.mp h
      exact spacesInv_opened (Queue.inv_step hi.queue hq)
    · cases h
  | reopen kept todo restoring =>
    simp only [step] at h
    split at h
    all_goals
      split at h
      · cases h
      · obtain ⟨q, hq, rfl⟩ := Option.map_eq_some_iff.mp h
        exact spacesInv_opened (Queue.inv_step hi.queue hq)

theorem spacesInv_reachable (h : (machine β).Reachable s) : SpacesInv s := by
  refine h.invariant ?_ fun s l s' => spacesInv_step
  rintro _ rfl
  exact ⟨⟨.nil, by simp, by simp⟩, fun _ => ⟨TimeBound.inv_init _ _, nofun⟩⟩

theorem isDue_of_le {bound : TimeBound.Bound} {atMs now retention : ℕ} (h : bound ≤ atMs)
    (hd : TimeBound.isDue atMs now retention) : TimeBound.isDue bound now retention :=
  (add_le_add_left h _).trans hd

/-- In every run each live key of a space whose writer lowered the bound is at or above
the bound, or at or above the start of a scan in flight. With no scan in flight it is
at or above the bound, and a pass at a time when it is due begins a scan that starts
at or below it. -/
theorem bound_never_passes_live_key (h : (machine β).Reachable s) (space : Space)
    (key : Key UserKey) (hlive : space.isLive s.queue.log key = true)
    (hnoted : key ∉ (s.bounds space).unnoted) :
    ((s.bounds space).bound ≤ space.time key ∨
      ∃ scan ∈ (s.bounds space).scans, scan.start ≤ space.time key) ∧
    ((s.bounds space).scans = [] → (s.bounds space).bound ≤ space.time key ∧
      ∀ now retention, TimeBound.isDue (space.time key) now retention →
        ∃ s' scan, step s (.beginScan space (s.bounds space).bound now retention) = some s' ∧
          (s'.bounds space).scans = [scan] ∧ scan.start ≤ space.time key) := by
  have hi := ((spacesInv_reachable h).spaces space).time key hlive hnoted
  constructor
  · rcases hi with hb | ⟨scan, hs, hc⟩
    · exact .inl hb
    · exact .inr ⟨scan, hs, hc.1⟩
  · intro hscans
    have hb : (s.bounds space).bound ≤ space.time key := by
      rcases hi with hb | ⟨scan, hs, -⟩
      · exact hb
      · simp [hscans] at hs
    refine ⟨hb, fun now retention hdue => ?_⟩
    refine ⟨_, { now, retention, start := (s.bounds space).bound, snap := s.queue.log.length },
      if_pos (isDue_of_le hb hdue), ?_, hb⟩
    simp [State.setBound, TimeBound.State.begin, hscans]

def digest : PreparedJob where
  job := { JobRecord.newPending "b" Queue.emails [1] 3 0 5 with
    status := .scheduled, runAt := some 10 }

/-- The job is enqueued. A pass at time 7 begins before the bound is lowered, reads the
job, which is not due, and ends while another pass is dropped. -/
def overlappingPasses : List (Label ℕ) :=
  [.beginScan .scheduled 0 7 0, .beginScan .scheduled 0 8 0,
    .commit (.enqueue (fun _ _ => none) digest {}) 0 .awaited, .returned 0, .note 0 0,
    .scan .scheduled 0 (.page [.record (.scheduled 10 Queue.emails "b")] true),
    .scan .scheduled 0 .complete, .scan .scheduled 0 .abandon]

/-- After the passes the job is at or above the bound, and a pass at time 10 reads it. -/
theorem bound_never_passes_scheduled_job :
    ∃ s, (machine ℕ).run {} overlappingPasses = some s ∧
      Space.scheduled.isLive s.queue.log (.record (.scheduled 10 Queue.emails "b")) = true ∧
      (s.bounds .scheduled).bound ≤ 10 ∧
      ∃ s' scan, step s (.beginScan .scheduled (s.bounds .scheduled).bound 10 0) = some s' ∧
        (s'.bounds .scheduled).scans = [scan] ∧ scan.start ≤ 10 := by
  obtain ⟨s, hs, hlive, hnoted, hscans⟩ : ∃ s, (machine ℕ).run {} overlappingPasses = some s ∧
      Space.scheduled.isLive s.queue.log (.record (.scheduled 10 Queue.emails "b")) = true ∧
      .record (.scheduled 10 Queue.emails "b") ∉ (s.bounds .scheduled).unnoted ∧
      (s.bounds .scheduled).scans.isEmpty = true :=
    Machine.exists_of_run_any (by decide +kernel)
  have hreach := Machine.reachable_of_run hs rfl
  obtain ⟨hb, hpass⟩ := (bound_never_passes_live_key hreach .scheduled _ hlive hnoted).2
    (List.isEmpty_iff.mp hscans)
  exact ⟨s, hs, hlive, hb, hpass 10 0 (by decide)⟩

end Taquba.Bounds
