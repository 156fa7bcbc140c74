import Taquba.Lease.Fence

/-! # Runs whose claims are scans

The claim lock serialises the scans of a queue, so no job of the queue is claimed
between the snapshot of a scan and its commit. The jobs that a scan registers are
therefore free, and the fence holds: a settlement or a reap ends the delivery of its
claim, and is the only one to do so.
-/

namespace Taquba.Delivery

open Snapshot Transition

variable {κ β : Type}

def ScanOnly : Label κ β → Prop
  | .claim (.byId _ _) _ => False
  | _ => True

variable [DecidableEq κ] [DecidableEq β]

/-- A job of a scanned queue that had no live delivery in the snapshot has none. -/
structure Scans (s : State κ β) : Prop where
  byId : ∀ id call, s.claiming (.byId id call) = none
  unclaimed : ∀ queue a, s.claiming (.scan queue) = some a → ∀ id,
    s.log.live s.opened a.snap queue id = none → s.live (queue, id) = none

variable {s s' : State κ β} {who : Claimant} {n : ℕ}

theorem Scans.commit (hs : Scans s) (hb : Base s) {c : CallCommit κ β}
    {claims : List (JobRecord × ℕ)} (hc : Commits s.log c claims)
    (hq : ∀ p ∈ claims, s.claiming (.scan p.1.queue) = none) :
    Scans { s with log := s.log ++ [c] } := by
  refine ⟨hs.byId, fun queue a ha id hl => ?_⟩
  rw [History.live_append_of_le (hb.claimSnap _ a ha).2] at hl
  have hlive : ({ s with log := s.log ++ [c] } : State κ β).live (queue, id) =
      c.label.next queue id (s.live (queue, id)) :=
    History.live_append hb.process.opened_le c queue id
  rw [hlive, hs.unclaimed queue a ha id hl, Entry.next]
  cases hcl : c.label.claimOf queue id with
  | none => simp
  | some p =>
    have href : p.1.ref = (queue, id) := by simpa using List.find?_some hcl
    have hnone := hq p (hc.claims ▸ List.mem_of_find?_eq_some hcl)
    rw [(Prod.mk.inj href).1, ha] at hnone
    cases hnone

omit [DecidableEq κ] [DecidableEq β] in
theorem Scans.setClaiming (hs : Scans s) {queue : QueueName} {a : Option Claiming}
    (h : ∀ a', a = some a' → ∀ id,
      s.log.live s.opened a'.snap queue id = none → s.live (queue, id) = none) :
    Scans (s.setClaiming (.scan queue) a) where
  byId id call := by simpa [State.setClaiming] using hs.byId id call
  unclaimed q a' ha id hl := by
    by_cases hq : q = queue
    · subst hq
      exact h a' (by simpa [State.setClaiming] using ha) id hl
    · exact hs.unclaimed q a' (by simpa [State.setClaiming, hq] using ha) id hl

theorem Base.scan_spec (hb : Base s) {queue : QueueName} {a : Claiming} {st : Staged}
    (ha : s.claiming (.scan queue) = some a) (hst : a.staged = some st) :
    ∀ job ∈ st.claims.map Claim.job ++ st.todo, job.queue = queue := by
  obtain ⟨-, t, ht⟩ := hb.stages _ a ha st hst
  exact queue_of_scan (hb.process.sound.take a.snap).storeInv ht

theorem Base.queue_of_registered (hb : Base s) {queue : QueueName} {cl : Claim}
    (h : cl ∈ s.registered (.scan queue)) : cl.job.queue = queue := by
  unfold State.registered Claiming.claims at h
  cases ha : s.claiming (.scan queue) with
  | none => simp [ha] at h
  | some a =>
    cases hst : a.staged with
    | none => simp [ha, hst] at h
    | some st =>
      simp only [ha, hst, Option.map_some, Option.getD_some] at h
      exact hb.scan_spec ha hst _ (List.mem_append_left _ (List.mem_map.mpr ⟨cl, h, rfl⟩))

theorem scans_claim {queue : QueueName} {op : ClaimOp} (hs : Scans s) (hb : Base s)
    (h : ClaimStep s (.scan queue) op s') : Scans s' := by
  cases h with
  | begin h =>
    refine hs.setClaiming ?_
    rintro _ ⟨⟩ id hl
    exact hl
  | @stage a keys t todo lease ha =>
    refine hs.setClaiming ?_
    rintro _ ⟨⟩
    exact hs.unclaimed queue a ha
  | @register a st job todo claimId ha =>
    have hs' : Scans (s.setClaiming (.scan queue) (some { a with staged := some { st with
        todo, claims := st.claims ++ [⟨job, claimId, s.tokens⟩] } })) := by
      refine hs.setClaiming ?_
      rintro _ ⟨⟩
      exact hs.unclaimed queue a ha
    exact ⟨hs'.byId, hs'.unclaimed⟩
  | @commit a st log ha hst htodo hlog =>
    obtain ⟨c, rfl, -, hc⟩ := hb.commits_claim ha hst htodo hlog
    have hclear : Base (s.setClaiming (.scan queue) none) := base_claim hb (.drop ha)
    refine (hs.setClaiming (by simp)).commit hclear hc ?_
    intro p hp
    obtain ⟨cl, hcl, rfl⟩ := List.mem_map.mp hp
    simp [State.setClaiming, hb.queue_of_registered hcl]
  | drop => exact hs.setClaiming (by simp)

theorem scans_end {op : EndOp κ β} (hs : Scans s) (hb : Base s) (h : EndStep s n op s') :
    Scans s' := by
  cases h with
  | @commit e leases effectLeases now log he hst hgiven hlog =>
    obtain ⟨c, rfl, -, -, hc⟩ := hb.commits_end hgiven hlog
    have hs' := hs.commit hb hc (by simp)
    exact ⟨hs'.byId, hs'.unclaimed⟩
  | _ => exact ⟨hs.byId, hs.unclaimed⟩

omit [DecidableEq κ] [DecidableEq β] in
theorem scans_lease (hs : Scans s) (h : LeaseFrame s s') : Scans s' := by
  rw [h.eq]
  exact ⟨hs.byId, hs.unclaimed⟩

theorem scans_step {a : Label κ β} (hs : Scans s) (hb : Base s) (ho : ScanOnly a)
    (h : step s a = some s') : Scans s' := by
  cases a with
  | claim who op =>
    cases who with
    | scan queue => exact scans_claim hs hb (claimStep_spec h)
    | byId id call => exact ho.elim
  | ending n op => exact scans_end hs hb (endStep_spec h)
  | lease op => exact scans_lease hs (leaseStep_spec h)
  | call call snap =>
    obtain ⟨hother, -, -, hgiven, log, hlog, rfl⟩ := callStep_spec h
    obtain ⟨c, rfl, -, hc⟩ := hb.commits_call hother hgiven hlog
    exact hs.commit hb hc (by simp)

theorem Scans.registersFree (hs : Scans s) (hb : Base s) {a : Label κ β} (ho : ScanOnly a) :
    RegistersFree s a := by
  match a, ho with
  | .claim (.scan queue) (.register claimId), _ =>
    intro job hjob
    obtain ⟨a, ha, hjob⟩ := Option.bind_eq_some_iff.mp hjob
    obtain ⟨st, hst, hjob⟩ := Option.bind_eq_some_iff.mp hjob
    have hmem : job ∈ st.claims.map Claim.job ++ st.todo :=
      List.mem_append_right _ (List.mem_of_head? hjob)
    have hqueue := hb.scan_spec ha hst job hmem
    refine ⟨hb.live_eq_none_iff.mp ?_, fun who' hne cl hcl href => ?_⟩
    · have hl := (hb.staged_spec ha hst).2 job hmem
      rw [JobRecord.ref, hqueue] at *
      exact hs.unclaimed queue a ha job.id hl
    · cases who' with
      | scan queue' =>
        refine hne ?_
        rw [← hqueue, ← (Prod.mk.inj href).1, hb.queue_of_registered hcl]
      | byId id call => simp [State.registered, hs.byId] at hcl
  | .claim (.scan _) .begin, _ | .claim (.scan _) (.stage _ _), _ | .claim (.scan _) .commit, _
  | .claim (.scan _) .drop, _ | .ending _ _, _ | .lease _, _ | .call _ _, _ => trivial

theorem scans_init (h : (machine κ β).init s) : Base s ∧ Scans s := by
  refine ⟨base_init h, ?_⟩
  obtain ⟨log, -, -, rfl⟩ := h
  exact ⟨by simp, by simp⟩

/-- The runs whose claims are scans register free jobs. -/
theorem registersFree_of_scanOnly {C : State κ β → Label κ β → Prop}
    (hC : ∀ s a, C s a → ScanOnly a) (h : (machine κ β).ReachableVia C s) :
    (machine κ β).ReachableVia (fun s a => RegistersFree s a ∧ C s a) s := by
  refine h.imp (I := fun s => Base s ∧ Scans s) (fun _ => scans_init) ?_ ?_
  · rintro s a s' ⟨hb, hs⟩ hc hstep
    exact ⟨base_step hb hstep, scans_step hs hb (hC s a hc) hstep⟩
  · rintro s a ⟨hb, hs⟩ hc
    exact ⟨hs.registersFree hb (hC s a hc), hc⟩

/-- A settlement or a reap of a claim commits only on the claimed record that the claim
wrote, which no commit since has replaced, and no other settlement or reap of the claim
commits. -/
theorem settlement_fence (h : (machine κ β).ReachableVia (fun _ => ScanOnly) s)
    {c : CallCommit κ β} {queue : QueueName} {id : String} {claimId : ℕ}
    (hn : s.opened ≤ n) (hc : s.log[n]? = some c)
    (hend : c.label.call.endsClaim = some (queue, id, claimId)) :
    (∃ m d job, s.opened ≤ m ∧ m < n ∧ s.log[m]? = some d ∧ (job, claimId) ∈ d.label.claims ∧
      job.ref = (queue, id) ∧ .record (.claimed queue id) ∈ Batch.keys d.writes ∧
      ∀ k, m < k → k ≤ n → ∃ stored,
        Log.store (s.log.take k) (.record (.claimed queue id)) = some stored ∧
          WrittenBy job stored) ∧
    ∀ n' c' queue' id', s.opened ≤ n' → s.log[n']? = some c' →
      c'.label.call.endsClaim = some (queue', id', claimId) → n' = n := by
  have hb := base_reachable h.reachable
  have hf : Fenced s :=
    fenced_reachable ((registersFree_of_scanOnly (fun _ _ ho => ho) h).mono fun _ _ hc => hc.1)
  obtain ⟨job, hlive⟩ := hf.ends.live_of_endsClaim hn hc hend
  obtain ⟨m, d, hm, hmn, hd, hmem, href, hsince⟩ := History.Process.live_spec hlive
  have hnlt := (List.getElem?_eq_some_iff.mp hc).1
  refine ⟨⟨m, d, job, hm, hmn, hd, hmem, href, ?_, fun k hk hkn => ?_⟩, ?_⟩
  · obtain ⟨-, as, hp⟩ := hb.process.sound.get hd
    refine hp.writes_claimed (.inl fun hnone => ?_)
    have hne := List.find?_eq_none.mp hnone _ hmem
    simp [href] at hne
  · have hr : Recorded queue id ((s.log.live s.opened k queue id).map Prod.fst) _ :=
      hb.process.recorded_at (by omega) (by omega)
    rw [hsince k hk hkn] at hr
    exact hr.2
  · intro n' c' queue' id' hn' hc' hend'
    exact hb.process.endsClaim_unique hf.ends hb.drawn.distinct hn' hc' hend' hn hc hend

theorem init_empty : (machine ℕ ℕ).init { log := [], opened := 0 } :=
  ⟨[], .nil, fun _ _ => rfl, rfl⟩

def scannedClaim : List (Label ℕ ℕ) :=
  [.call (.enqueue (fun _ _ => none) Queue.welcome {}) 0,
    .claim (.scan Queue.emails) .begin,
    .claim (.scan Queue.emails) (.stage [⟨0, 5, "a"⟩] 30),
    .claim (.scan Queue.emails) (.register 1),
    .claim (.scan Queue.emails) .commit]

def ackedClaim : List (Label ℕ ℕ) :=
  scannedClaim ++ [.ending 0 (.begin (.settle (.ack false) {}) Queue.emails "a" 1),
    .ending 0 .check, .ending 0 (.commit (fun _ _ => none) 0), .ending 0 .finish]

theorem settlement_fence_of_ack :
    ∃ s, (machine ℕ ℕ).run { log := [], opened := 0 } ackedClaim = some s ∧
      ∃ m d job, m < 2 ∧ s.log[m]? = some d ∧ (job, 1) ∈ d.label.claims ∧
        job.ref = (Queue.emails, "a") := by
  obtain ⟨s, hs, hopened, hend⟩ :
      ∃ s, (machine ℕ ℕ).run { log := [], opened := 0 } ackedClaim = some s ∧
      s.opened = 0 ∧ s.log[2]?.map (·.label.call.endsClaim) = some (some (Queue.emails, "a", 1)) :=
    Machine.exists_of_run_any (by decide +kernel)
  obtain ⟨c, hc, hend⟩ := Option.map_eq_some_iff.mp hend
  have hreach : (machine ℕ ℕ).ReachableVia (fun _ => ScanOnly) s :=
    (Machine.ReachableVia.init init_empty).run hs (by simp [ackedClaim, scannedClaim, ScanOnly])
  obtain ⟨⟨m, d, job, -, hm, hd, hmem, href, -⟩, -⟩ :=
    settlement_fence hreach (by omega) hc hend
  exact ⟨s, hs, m, d, job, hm, hd, hmem, href⟩

end Taquba.Delivery
