import Taquba.Lease.Leased

/-! # Who owns the lease of a claimed job

Concurrent attempts register their leases before a commit decides between them, and
the last one to register owns the entry. When each registers only a free job, the
winner owns it. When attempts outlast the reaper's look at their entries, the reaper
can drop the entry of a claim that commits afterwards.
-/

namespace Taquba

namespace LeaseRegistry

/-- The registry is open, and the reaper has taken none of its entries. -/
def Quiet (r : LeaseRegistry) : Prop :=
  r.closed = false ∧ ∀ j lease, r.byJob j = some lease → lease.reaping = false

variable {r r' : LeaseRegistry} {queue : QueueName} {id : String} {claimId : ℕ}

theorem Quiet.insert (h : r.Quiet) (queue : QueueName) (id : String)
    (expiresAt claimId cancel : ℕ) : (r.insert queue id expiresAt claimId cancel).Quiet := by
  refine ⟨h.1, fun j lease hj => ?_⟩
  by_cases hjob : j = (queue, id)
  · subst hjob
    simp only [LeaseRegistry.insert, Function.update_self, Option.some.injEq] at hj
    rw [← hj]
  · exact h.2 j lease (by simpa [LeaseRegistry.insert, hjob] using hj)

theorem Quiet.remove (h : r.Quiet) : (r.remove queue id claimId).Quiet := by
  unfold LeaseRegistry.remove
  split
  · split
    · exact h
    · refine ⟨h.1, fun j lease hj => ?_⟩
      by_cases hjob : j = (queue, id)
      · subst hjob
        simp at hj
      · exact h.2 j lease (by simpa [hjob] using hj)
  · exact h

theorem Quiet.renew (h : r.Quiet) {cancelled changed : Bool} {expiresAt : ℕ} {mode : Renewal}
    (hr : r.renew queue id claimId cancelled expiresAt mode = .ok (r', changed)) : r'.Quiet := by
  obtain ⟨lease, -, -, hlease, -, ⟨-, rfl, -⟩ | ⟨-, rfl, -⟩⟩ := renew_eq_ok hr
  · exact h
  · refine ⟨h.1, fun j l hj => ?_⟩
    by_cases hjob : j = (queue, id)
    · subst hjob
      simp only [Function.update_self, Option.some.injEq] at hj
      rw [← hj]
      exact h.2 _ lease hlease
    · exact h.2 j l (by simpa [hjob] using hj)

theorem Quiet.renew_ne_claimLost (h : r.Quiet) {e k : ℕ}
    (hh : r.held (queue, id) = some (e, claimId, k)) (cancelled : Bool) (expiresAt : ℕ)
    (mode : Renewal) :
    r.renew queue id claimId cancelled expiresAt mode ≠ .error .claimLost := by
  obtain ⟨lease, hl, he⟩ := Option.map_eq_some_iff.mp hh
  cases he
  unfold LeaseRegistry.renew
  rw [h.1, hl]
  simp only [Bool.false_eq_true, if_false, true_and, h.2 _ lease hl, if_true]
  split
  · simp
  · split <;> simp

end LeaseRegistry

namespace Delivery

open Snapshot Transition

variable {κ β : Type} [DecidableEq κ] [DecidableEq β]

/-- No lease is due when the reaper looks, and the registry stays open. -/
def NoneDue (s : State κ β) : Label κ β → Prop
  | .lease .takeDue => ∀ key ∈ s.registry.byExpiry, s.now < key.1
  | .lease .close => False
  | _ => True

structure Undisturbed (s : State κ β) : Prop where
  quiet : s.registry.Quiet
  due : s.due = []
  settles : ∀ n e, s.ending n = some e → e.kind.isReap = false

variable {s s' : State κ β} {who : Claimant} {n : ℕ}

theorem undisturbed_claim {op : ClaimOp} (hu : Undisturbed s) (h : ClaimStep s who op s') :
    Undisturbed s' := by
  cases h with
  | register => exact ⟨hu.quiet.insert .., hu.due, hu.settles⟩
  | _ => exact { hu with }

omit [DecidableEq κ] [DecidableEq β] in
theorem Undisturbed.setEnding (hu : Undisturbed s) {e : Option (Ending κ β)}
    (h : ∀ e', e = some e' → e'.kind.isReap = false) : Undisturbed (s.setEnding n e) where
  __ := hu
  settles m e' hm := by
    by_cases hmn : m = n
    · subst hmn
      exact h e' (by simpa [State.setEnding] using hm)
    · exact hu.settles m e' (by simpa [State.setEnding, hmn] using hm)

theorem undisturbed_end {op : EndOp κ β} (hu : Undisturbed s) (h : EndStep s n op s') :
    Undisturbed s' := by
  have hkeep : ∀ {e : Ending κ β} (stage : EndStage), s.ending n = some e →
      Undisturbed (s.setEnding n (some { e with stage })) := by
    intro e stage he
    refine hu.setEnding ?_
    rintro _ ⟨⟩
    exact hu.settles n e he
  have hgone : Undisturbed (s.setEnding n none) := hu.setEnding (by simp)
  cases h with
  | @begin kind queue id claimId h hdue =>
    refine hu.setEnding ?_
    rintro _ ⟨⟩
    cases hk : kind.isReap with
    | false => rfl
    | true =>
      obtain ⟨lease, hl, -⟩ := hdue hk
      simp [hu.due] at hl
  | check h => exact hkeep _ h
  | commit h =>
    have hu' := hkeep .committed h
    exact { hu' with }
  | lost | drop => exact hgone
  | dropEntry | finish => exact ⟨hu.quiet.remove, hu.due, hgone.settles⟩

omit [DecidableEq κ] [DecidableEq β] in
theorem undisturbed_lease {op : LeaseOp} (hu : Undisturbed s) (hd : NoneDue s (.lease op))
    (h : leaseStep s op = some s') : Undisturbed s' := by
  cases leaseStep_cases h with
  | renew hr => exact ⟨hu.quiet.renew hr, hu.due, hu.settles⟩
  | takeDue hr =>
    have hnil : s.registry.byExpiry.takeWhile (fun key => decide (key.1 ≤ s.now)) = [] := by
      cases hx : s.registry.byExpiry with
      | nil => rfl
      | cons key keys =>
        have hlt := hd key (hx ▸ .head _)
        simp [hlt]
    rw [LeaseRegistry.takeDue, hnil] at hr
    cases hr
    exact { hu with }
  | close => exact hd.elim
  | cancel | tick => exact { hu with }

theorem undisturbed_step {a : Label κ β} (hu : Undisturbed s) (hd : NoneDue s a)
    (h : step s a = some s') : Undisturbed s' := by
  cases a with
  | claim who op => exact undisturbed_claim hu (claimStep_spec h)
  | ending n op => exact undisturbed_end hu (endStep_spec h)
  | lease op => exact undisturbed_lease hu hd h
  | call call snap =>
    obtain ⟨-, -, -, -, log, -, rfl⟩ := callStep_spec h
    exact { hu with }

theorem Undisturbed.reapsSettled (hu : Undisturbed s) {a : Label κ β} (h : step s a = some s') :
    ReapsSettled s a := by
  match a with
  | .ending n (.begin kind queue id claimId) =>
    intro hk
    have hstep : EndStep s n (.begin kind queue id claimId) s' := endStep_spec h
    cases hstep with
    | begin _ hdue =>
      obtain ⟨lease, hl, -⟩ := hdue hk
      simp [hu.due] at hl
  | .ending _ .check | .ending _ (.commit _ _) | .ending _ .dropEntry | .ending _ .finish
  | .ending _ .drop | .claim _ _ | .lease _ | .call _ _ => trivial

theorem undisturbed_reachable
    (h : (machine κ β).ReachableVia (fun s a => RegistersFree s a ∧ NoneDue s a) s) :
    Inv s ∧ Undisturbed s := by
  refine h.invariant (I := fun s => Inv s ∧ Undisturbed s) ?_ ?_
  · intro s hs
    refine ⟨inv_init hs, ?_⟩
    obtain ⟨log, -, -, rfl⟩ := hs
    exact ⟨⟨rfl, by simp⟩, rfl, by simp⟩
  · rintro s a s' ⟨hi, hu⟩ ⟨hfree, hd⟩ hstep
    exact ⟨inv_step hi ⟨hfree, hu.reapsSettled hstep⟩ hstep, undisturbed_step hu hd hstep⟩

/-- In the runs in which leases are registered only for free jobs and none comes due, a
claim that committed and was not settled owns the lease of its job, with its own expiry
and token. Its settlements on any snapshot since and its renewals are not refused. -/
theorem winning_claim_owns_lease
    (h : (machine κ β).ReachableVia (fun s a => RegistersFree s a ∧ NoneDue s a) s)
    {m : ℕ} {d : CallCommit κ β} {job : JobRecord} {claimId : ℕ}
    (hm : s.opened ≤ m) (hd : s.log[m]? = some d) (hclaim : (job, claimId) ∈ d.label.claims)
    (hopen : ∀ n c, m < n → s.log[n]? = some c →
      c.label.call.endsClaim ≠ some (job.queue, job.id, claimId)) :
    (∃ expiresAt cancel, s.registry.current job.queue job.id = some (expiresAt, claimId) ∧
      s.registry.token job.queue job.id = some cancel ∧
      s.granted (job.ref, claimId) = some (expiresAt, cancel)) ∧
    (∀ k, m < k → k ≤ s.log.length → ∃ taken,
      (Txn.begin (Log.store (s.log.take k))).takeClaim s.registry.current job.queue job.id
        claimId = .ok taken) ∧
    ∀ cancelled expiresAt mode,
      s.registry.renew job.queue job.id claimId cancelled expiresAt mode ≠ .error .claimLost := by
  obtain ⟨⟨hb, hf, -, hl⟩, hu⟩ := undisturbed_reachable h
  have hlt := (List.getElem?_eq_some_iff.mp hd).1
  have hlive : ∀ k, m < k → k ≤ s.log.length →
      s.log.live s.opened k job.queue job.id = some (job, claimId) := fun k hk hle =>
    hb.process.live_of_claims hf.ends hm hd hclaim hk hle fun n c hn hc _ => hopen n c hn hc
  obtain ⟨cancel, e, hheld, hgranted⟩ := hl.live job.ref job claimId (hlive _ hlt le_rfl)
  have hcurrent : s.registry.current job.queue job.id = some (e, claimId) := by
    rw [LeaseRegistry.current_eq]
    exact congrArg (Option.map _) hheld
  refine ⟨⟨e, cancel, hcurrent, ?_, hgranted⟩, fun k hk hle => ?_, ?_⟩
  · obtain ⟨lease, hlease, he⟩ := Option.map_eq_some_iff.mp hheld
    cases he
    exact Option.map_eq_some_iff.mpr ⟨lease, hlease, rfl⟩
  · have hr : Recorded job.queue job.id
        ((s.log.live s.opened k job.queue job.id).map Prod.fst) _ :=
      hb.process.recorded_at (by omega) hle
    rw [hlive k hk hle] at hr
    obtain ⟨-, v, hv, -⟩ := hr
    have hget : (Txn.begin (Log.store (s.log.take k))).get
        (.record (.claimed job.queue job.id)) = some v := hv
    simp [Txn.takeClaim, Txn.readClaim, hcurrent, hget]
  · exact hu.quiet.renew_ne_claimLost hheld

omit [DecidableEq κ] [DecidableEq β] in
theorem exists_claim {log : History κ β} {n claimId : ℕ} {j : QueueName × String}
    (h : log[n]?.map (fun d => d.label.claims.map fun p => (p.1.ref, p.2)) = some [(j, claimId)]) :
    ∃ d job, log[n]? = some d ∧ (job, claimId) ∈ d.label.claims ∧ job.ref = j := by
  obtain ⟨d, hd, hmap⟩ := Option.map_eq_some_iff.mp h
  have hmem : (j, claimId) ∈ d.label.claims.map fun p => (p.1.ref, p.2) := hmap ▸ .head _
  obtain ⟨⟨job, c⟩, hp, he⟩ := List.mem_map.mp hmem
  cases he
  exact ⟨d, job, hd, hp, rfl⟩

/-- A scan and a claim by id of one job: the second registers its lease after the
first, whose commit wins. -/
def overtakenClaim : List (Label ℕ ℕ) :=
  [.call (.enqueue (fun _ _ => none) Queue.welcome {}) 0,
    .claim (.scan Queue.emails) .begin, .claim (.byId "a" 0) .begin,
    .claim (.scan Queue.emails) (.stage [⟨0, 5, "a"⟩] 30), .claim (.byId "a" 0) (.stage [] 30),
    .claim (.scan Queue.emails) (.register 1), .claim (.byId "a" 0) (.register 2),
    .claim (.scan Queue.emails) .commit, .claim (.byId "a" 0) .drop]

/-- The lease of the claim that committed belongs to the one that lost, and the worker of
the claim is refused. -/
theorem overtaken_claim_loses_lease :
    ∃ s, (machine ℕ ℕ).ReachableVia NoneDue s ∧ s.opened ≤ 1 ∧
      (∃ d job, s.log[1]? = some d ∧ (job, 1) ∈ d.label.claims ∧
        job.ref = (Queue.emails, "a")) ∧
      (∀ c ∈ s.log, c.label.call.endsClaim = none) ∧
      s.registry.current Queue.emails "a" = some (30, 2) ∧
      (Txn.begin s.log.store).takeClaim s.registry.current Queue.emails "a" 1 =
        .error .claimLost ∧
      s.registry.renew Queue.emails "a" 1 false 60 .set = .error .claimLost := by
  obtain ⟨s, hs, hopened, hclaims, hends, hjob, hclosed⟩ :
      ∃ s, (machine ℕ ℕ).run { log := [], opened := 0 } overtakenClaim = some s ∧
      s.opened ≤ 1 ∧
      s.log[1]?.map (fun d => d.label.claims.map fun p => (p.1.ref, p.2)) =
        some [((Queue.emails, "a"), 1)] ∧
      (∀ c ∈ s.log, c.label.call.endsClaim = none) ∧
      s.registry.byJob (Queue.emails, "a") =
        some { expiresAt := 30, claimId := 2, cancel := 1 } ∧ s.registry.closed = false :=
    Machine.exists_of_run_any (by decide +kernel)
  have hcurrent : s.registry.current Queue.emails "a" = some (30, 2) := by
    simp [LeaseRegistry.current, hjob]
  refine ⟨s, (Machine.ReachableVia.init init_empty).run hs (by simp [overtakenClaim, NoneDue]),
    hopened, ?_, hends, hcurrent, ?_, ?_⟩
  · exact exists_claim hclaims
  · simp [Txn.takeClaim, Txn.readClaim, hcurrent, Bind.bind, Except.bind]
  · simp [LeaseRegistry.renew, hclosed, hjob]

theorem winning_claim_owns_lease_of_scan :
    ∃ s, (machine ℕ ℕ).run { log := [], opened := 0 } scannedClaim = some s ∧
      ∃ (job : JobRecord) (expiresAt cancel : ℕ), job.ref = (Queue.emails, "a") ∧
        s.registry.current job.queue job.id = some (expiresAt, 1) ∧
        s.granted (job.ref, 1) = some (expiresAt, cancel) := by
  obtain ⟨s, hs, hopened, hlen, hclaims⟩ :
      ∃ s, (machine ℕ ℕ).run { log := [], opened := 0 } scannedClaim = some s ∧
      s.opened ≤ 1 ∧ s.log.length = 2 ∧
      s.log[1]?.map (fun d => d.label.claims.map fun p => (p.1.ref, p.2)) =
        some [((Queue.emails, "a"), 1)] :=
    Machine.exists_of_run_any (by decide +kernel)
  obtain ⟨d, job, hd, hp, href⟩ := exists_claim hclaims
  have hreach : (machine ℕ ℕ).ReachableVia (fun s a => ScanOnly a ∧ NoneDue s a) s :=
    (Machine.ReachableVia.init init_empty).run hs (by simp [scannedClaim, ScanOnly, NoneDue])
  have hfree := (registersFree_of_scanOnly (fun _ _ hc => hc.1) hreach).mono
    (D := fun s a => RegistersFree s a ∧ NoneDue s a) fun _ _ hc => ⟨hc.1, hc.2.2⟩
  obtain ⟨⟨expiresAt, cancel, hcurrent, -, hgranted⟩, -⟩ :=
    winning_claim_owns_lease hfree hopened hd hp (by
      intro n c hn hc
      have hlt := (List.getElem?_eq_some_iff.mp hc).1
      omega)
  exact ⟨s, hs, job, expiresAt, cancel, href, hcurrent, hgranted⟩

/-- In the runs whose claims are scans, and whose reaper examines an entry only when the
attempt that registered it is over, every claimed record has a lease. -/
theorem claimed_record_has_lease
    (h : (machine κ β).ReachableVia (fun s a => ScanOnly a ∧ ReapsSettled s a) s)
    {queue : QueueName} {id : String} {stored : JobRecord}
    (hrecord : s.log.store (.record (.claimed queue id)) = some stored) :
    ∃ expiresAt claimId, s.registry.current queue id = some (expiresAt, claimId) := by
  have hguarded : (machine κ β).ReachableVia Guarded s :=
    (registersFree_of_scanOnly (fun _ _ hc => hc.1) h).mono fun _ _ hc => ⟨hc.1, hc.2.2⟩
  obtain ⟨hb, -, -, hl⟩ : Inv s :=
    hguarded.invariant (fun _ => inv_init) fun _ _ _ hi hg hs => inv_step hi hg hs
  cases hlive : s.live (queue, id) with
  | none =>
    rw [hb.live_eq_none_iff, hrecord] at hlive
    cases hlive
  | some p =>
    obtain ⟨cancel, e, hheld, -⟩ := hl.live (queue, id) p.1 p.2 hlive
    refine ⟨e, p.2, ?_⟩
    rw [LeaseRegistry.current_eq, hheld]
    rfl

/-- The lease of a scan attempt comes due before the attempt commits, and the reaper
finds no claimed record yet. -/
def reapedAttempt : List (Label ℕ ℕ) :=
  [.call (.enqueue (fun _ _ => none) Queue.welcome {}) 0,
    .claim (.scan Queue.emails) .begin,
    .claim (.scan Queue.emails) (.stage [⟨0, 5, "a"⟩] 30),
    .claim (.scan Queue.emails) (.register 1),
    .lease (.tick 30), .lease .takeDue,
    .ending 0 (.begin .reap Queue.emails "a" 1), .ending 0 .check, .ending 0 .dropEntry,
    .claim (.scan Queue.emails) .commit]

/-- The claim commits without a lease. -/
theorem reaped_attempt_has_no_lease :
    ∃ s, (machine ℕ ℕ).ReachableVia (fun _ => ScanOnly) s ∧
      (∃ stored, s.log.store (.record (.claimed Queue.emails "a")) = some stored) ∧
      s.registry.byJob (Queue.emails, "a") = none := by
  obtain ⟨s, hs, hrecord, hnone⟩ :
      ∃ s, (machine ℕ ℕ).run { log := [], opened := 0 } reapedAttempt = some s ∧
      (s.log.store (.record (.claimed Queue.emails "a"))).isSome = true ∧
      s.registry.byJob (Queue.emails, "a") = none :=
    Machine.exists_of_run_any (by decide +kernel)
  refine ⟨s, ?_, Option.isSome_iff_exists.mp hrecord, hnone⟩
  exact (Machine.ReachableVia.init init_empty).run hs (by simp [reapedAttempt, ScanOnly])

theorem claimed_record_has_lease_of_scan :
    ∃ s, (machine ℕ ℕ).run { log := [], opened := 0 } scannedClaim = some s ∧
      ∃ stored expiresAt claimId,
        s.log.store (.record (.claimed Queue.emails "a")) = some stored ∧
        s.registry.current Queue.emails "a" = some (expiresAt, claimId) := by
  obtain ⟨s, hs, hrecord⟩ :
      ∃ s, (machine ℕ ℕ).run { log := [], opened := 0 } scannedClaim = some s ∧
      (s.log.store (.record (.claimed Queue.emails "a"))).isSome = true :=
    Machine.exists_of_run_any (by decide +kernel)
  obtain ⟨stored, hstored⟩ := Option.isSome_iff_exists.mp hrecord
  have hreach : (machine ℕ ℕ).ReachableVia (fun s a => ScanOnly a ∧ ReapsSettled s a) s :=
    (Machine.ReachableVia.init init_empty).run hs (by simp [scannedClaim, ScanOnly, ReapsSettled])
  obtain ⟨expiresAt, claimId, hcurrent⟩ := claimed_record_has_lease hreach hstored
  exact ⟨s, hs, stored, expiresAt, claimId, hstored, hcurrent⟩

end Delivery

end Taquba
