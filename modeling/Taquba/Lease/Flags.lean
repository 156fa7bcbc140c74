import Taquba.Lease.Leased
import Taquba.Lifecycle.Runs

/-! # The cancellation flag and the tokens of claims

A scan delivers a job with the flag of its pending record, which no commit between the
snapshot and the claim has changed. The token of a job delivered with the flag fired
when its lease was registered, and no step takes that back.
-/

namespace Taquba

open Snapshot Transition

variable {κ β : Type} [DecidableEq κ]

namespace Txn

variable {t t' : Txn κ β} {source : RecordKey} {old job : JobRecord} {now : ℕ}

omit [DecidableEq κ] in
theorem writes_of_stageClaim (h : t.stageClaim source old now = .ok (t', job)) :
    ∃ ws, t'.writes = t.writes ++ ws ∧ .record source ∈ Batch.keys ws ∧ job.id = old.id ∧
      job.cancelRequested = old.cancelRequested := by
  obtain ⟨⟨t₁, claimed⟩, hm, h⟩ := Except.bind_eq_ok.mp h
  obtain ⟨hc, key, -, -, -, hcase⟩ := moveJob_eq_ok hm
  obtain ⟨ws, hw, hmem⟩ : ∃ ws, t₁.writes = t.writes ++ ws ∧ .record source ∈ Batch.keys ws := by
    obtain ⟨rfl, hw, -⟩ | ⟨-, hw, -⟩ := hcase
    · exact ⟨_, hw, by simp [Batch.keys]⟩
    · exact ⟨_, hw, by simp [Batch.keys]⟩
  cases h
  refine ⟨ws ++ old.dedupKey.elim [] fun dedupKey => [⟨.dedup job.queue dedupKey, .delete⟩],
    ?_, ?_, by simp [hc], by simp [hc]⟩
  · cases old.dedupKey with
    | some dedupKey => simp [delete, hw]
    | none => simp [hw]
  · simp only [Batch.keys, List.map_append, List.mem_append] at hmem ⊢
    exact .inl hmem

omit [DecidableEq κ] in
theorem writes_of_stageClaims {cs : List (RecordKey × JobRecord)} {jobs : List JobRecord}
    (h : t.stageClaims now cs = .ok (t', jobs)) :
    ∃ ws, t'.writes = t.writes ++ ws ∧ ∀ job ∈ jobs, ∃ c ∈ cs, .record c.1 ∈ Batch.keys ws ∧
      job.id = c.2.id ∧ job.cancelRequested = c.2.cancelRequested := by
  induction cs generalizing t jobs with
  | nil =>
    cases h
    exact ⟨[], by simp⟩
  | cons c cs ih =>
    obtain ⟨⟨t₁, job⟩, h₁, h⟩ := Except.bind_eq_ok.mp h
    obtain ⟨⟨t₂, jobs'⟩, h₂, h⟩ := Except.bind_eq_ok.mp h
    cases h
    obtain ⟨ws, hw, hmem, hid, hflag⟩ := writes_of_stageClaim h₁
    obtain ⟨ws', hw', hrest⟩ := ih h₂
    refine ⟨ws ++ ws', by rw [hw', hw, List.append_assoc], fun j hj => ?_⟩
    simp only [Batch.keys, List.map_append, List.mem_append]
    rcases List.mem_cons.mp hj with rfl | hj
    · exact ⟨c, .head _, .inl hmem, by simpa using hid, by simpa using hflag⟩
    · obtain ⟨d, hd, hdm, hjid, hjflag⟩ := hrest j hj
      exact ⟨d, .tail _ hd, .inr hdm, hjid, hjflag⟩

end Txn

namespace Delivery

open Queue (Relives)

variable [DecidableEq β]

/-- The commit takes every job through events of its life, and delivers each job with
the flag of its record. -/
def Follows (log : History κ β) (c : CallCommit κ β) : Prop :=
  Relives log c ∧ ∀ p ∈ c.label.claims, ∃ old, (lifeAt log.store p.1.id).record = some old ∧
    old.cancelRequested = p.1.cancelRequested

section Commits

variable {log : History κ β} {call : Call κ β} {snap : ℕ} {t : Txn κ β} {jobs : List JobRecord}

theorem follows_of_attempt (hs : log.Sound) (hp : call.Pre (Log.store (log.take snap)))
    (ht : call.attempt (Log.store (log.take snap)) = some (t, jobs))
    (hc : ¬ log.Conflicts snap t.tracked)
    (hflag : ∀ job ∈ jobs, ∃ old, (lifeAt log.store job.id).record = some old ∧
      old.cancelRequested = job.cancelRequested) :
    Follows log ⟨⟨call, snap, t.notes, t.stats, jobs⟩, t.writes⟩ :=
  ⟨Queue.relives_of_attempt hs hp ht hc, fun p hp => hflag p.1 (List.of_mem_zip hp).1⟩

theorem flag_of_scan {queue : QueueName} {keys : List PendingKey} {claimIds : List ℕ} {now : ℕ}
    (hs : log.Sound)
    (ht : ((Claimant.scan queue).call keys claimIds now : Call κ β).attempt
      (Log.store (log.take snap)) = some (t, jobs))
    (hc : ¬ log.Conflicts snap t.tracked) :
    ∀ job ∈ jobs, ∃ old, (lifeAt log.store job.id).record = some old ∧
      old.cancelRequested = job.cancelRequested := by
  cases Call.committed_of_attempt ht with
  | claimBatch hr =>
    intro job hj
    obtain ⟨ws, hw, hall⟩ := Txn.writes_of_stageClaims (Txn.claimBatch_eq_ok hr)
    obtain ⟨c, hcand, hmem, hid, hflag⟩ := hall job hj
    obtain ⟨key, -, hcand⟩ := List.mem_filterMap.mp hcand
    obtain ⟨stored, hg, rfl⟩ := Option.map_eq_some_iff.mp hcand
    have hwrites : t.writes = ws := hw
    have htracked : .record (.pending queue key) ∈ t.tracked := by
      rw [Txn.tracked, hwrites]
      exact List.mem_append_left _ hmem
    have hf : JobAction.Found log.store (.pending queue key)
        (JobRecord.decode (.pending queue key) stored) := by
      rw [JobAction.Found, Log.store_eq_of_not_conflicts hc htracked]
      exact Option.map_eq_some_iff.mpr ⟨stored, hg, rfl⟩
    refine ⟨(JobRecord.decode (.pending queue key) stored).bare, ?_, hflag.symm⟩
    rw [hid]
    exact lifeAt_of_found hs.storeInv hf

end Commits

def Fired (s : State κ β) (j : QueueName × String) (claimId : ℕ) : Prop :=
  ∃ expiresAt token, s.granted (j, claimId) = some (expiresAt, token) ∧ s.fired token = true

structure TokenFrame (s s' : State κ β) : Prop where
  fired : ∀ token, s.fired token = true → s'.fired token = true
  granted : ∀ (j : QueueName × String) (claimId e token : ℕ), claimId ∈ s.used →
    s.granted (j, claimId) = some (e, token) → ∃ e', s'.granted (j, claimId) = some (e', token)

variable {s s' : State κ β} {who : Claimant} {n : ℕ} {j : QueueName × String} {claimId : ℕ}

omit [DecidableEq κ] [DecidableEq β] in
theorem TokenFrame.rfl' (hf : s'.fired = s.fired) (hg : s'.granted = s.granted) :
    TokenFrame s s' :=
  ⟨fun token h => by rw [hf, h], fun _ _ e _ _ h => ⟨e, by rw [hg, h]⟩⟩

omit [DecidableEq κ] [DecidableEq β] in
theorem Fired.step (h : Fired s j claimId) (hf : TokenFrame s s') (hu : claimId ∈ s.used) :
    Fired s' j claimId := by
  obtain ⟨e, token, hg, ht⟩ := h
  obtain ⟨e', hg'⟩ := hf.granted j claimId e token hu hg
  exact ⟨e', token, hg', hf.fired token ht⟩

omit [DecidableEq κ] [DecidableEq β] in
theorem tokenFrame_lease {op : LeaseOp} (h : leaseStep s op = some s') : TokenFrame s s' := by
  cases leaseStep_cases h with
  | @renew queue id c _ expiresAt _ _ changed =>
    refine ⟨fun _ h => h, fun j claimId e token _ hg => ?_⟩
    cases changed with
    | false => exact ⟨e, hg⟩
    | true =>
      by_cases hj : (j, claimId) = ((queue, id), c)
      · rw [hj] at hg ⊢
        exact ⟨expiresAt, by simp [hg]⟩
      · exact ⟨e, by simp [Function.update_of_ne hj, hg]⟩
  | @cancel _ _ token =>
    refine ⟨fun k hk => ?_, fun _ _ e _ _ hg => ⟨e, hg⟩⟩
    by_cases hkt : k = token
    · simp [hkt]
    · simpa [hkt] using hk
  | close => exact ⟨fun k hk => by simp [hk], fun _ _ e _ _ hg => ⟨e, hg⟩⟩
  | takeDue | tick => exact .rfl' rfl rfl

variable {a : Label κ β}

theorem tokenFrame_step (h : step s a = some s') : TokenFrame s s' := by
  cases a with
  | claim who op =>
    cases claimStep_spec h with
    | @register a st job todo c ha hst htodo hid =>
      refine ⟨fun k hk => ?_, fun j claimId e token hu hg => ⟨e, ?_⟩⟩
      · simp only [State.register]
        split
        · by_cases hkt : k = s.tokens
          · simp [hkt]
          · simpa [hkt] using hk
        · exact hk
      · have hne : claimId ≠ c := fun he => hid (he ▸ hu)
        simp [State.register, hne, hg]
    | _ => exact .rfl' rfl rfl
  | ending n op =>
    cases endStep_spec h with
    | _ => exact .rfl' rfl rfl
  | lease op => exact tokenFrame_lease h
  | call call snap =>
    obtain ⟨-, -, -, -, log, -, rfl⟩ := callStep_spec h
    exact .rfl' rfl rfl

theorem log_step (h : step s a = some s') :
    s'.opened = s.opened ∧ s'.log.take s.log.length = s.log := by
  have hcommit {call : Call κ β} {snap : ℕ} {log : History κ β}
      (hlog : commitCall s.log call snap = some log) : log.take s.log.length = s.log := by
    obtain ⟨t, jobs, -, -, rfl⟩ := commitCall_eq_some hlog
    exact List.take_left
  cases a with
  | claim who op =>
    cases claimStep_spec h with
    | commit _ _ _ hlog => exact ⟨rfl, hcommit hlog⟩
    | _ => exact ⟨rfl, List.take_length⟩
  | ending n op =>
    cases endStep_spec h with
    | commit _ _ _ hlog => exact ⟨rfl, hcommit hlog⟩
    | _ => exact ⟨rfl, List.take_length⟩
  | lease op =>
    have hframe := leaseStep_spec h
    exact ⟨hframe.opened, by rw [hframe.log, List.take_length]⟩
  | call call snap =>
    obtain ⟨-, -, -, -, log, hlog, rfl⟩ := callStep_spec h
    exact ⟨rfl, hcommit hlog⟩

/-- A job delivered with the flag has a token that fired, and so has a job that an attempt
in flight registered with the flag. -/
structure Flags (s : State κ β) : Prop where
  registered : ∀ who, ∀ cl ∈ s.registered who,
    cl.job.cancelRequested = true → s.fired cl.cancel = true
  follows : ∀ n c, s.opened ≤ n → s.log[n]? = some c → Follows (s.log.take n) c
  delivered : ∀ n c, s.opened ≤ n → s.log[n]? = some c → ∀ p ∈ c.label.claims,
    p.1.cancelRequested = true → Fired s p.1.ref p.2

theorem Base.used_of_claims (hb : Base s) {c : CallCommit κ β} {p : JobRecord × ℕ}
    (hn : s.opened ≤ n) (hc : s.log[n]? = some c) (hp : p ∈ c.label.claims) : p.2 ∈ s.used := by
  refine hb.drawn.covered _ (History.mem_claimIds (m := n - s.opened) ?_ hp)
  rw [List.getElem?_drop, Nat.add_sub_cancel' hn, hc]

/-- What a step has to show for the flags: its registrations fire the tokens of flagged
jobs, and so did those of the jobs that it delivers. -/
theorem Flags.next (hf : Flags s) (hb : Base s) (ht : TokenFrame s s')
    (hopened : s'.opened = s.opened)
    (hreg : ∀ who, ∀ cl ∈ s'.registered who, cl ∈ s.registered who ∨
      (cl.job.cancelRequested = true → s'.fired cl.cancel = true))
    (hlog : s'.log = s.log ∨ ∃ c, s'.log = s.log ++ [c] ∧ Follows s.log c ∧
      ∀ p ∈ c.label.claims, p.1.cancelRequested = true → Fired s' p.1.ref p.2) :
    Flags s' := by
  have hold : ∀ n c, s.opened ≤ n → s.log[n]? = some c → ∀ p ∈ c.label.claims,
      p.1.cancelRequested = true → Fired s' p.1.ref p.2 := fun n c hn hc p hp hflag =>
    (hf.delivered n c hn hc p hp hflag).step ht (hb.used_of_claims hn hc hp)
  constructor
  · intro who cl hcl hflag
    rcases hreg who cl hcl with hcl | h
    · exact ht.fired _ (hf.registered who cl hcl hflag)
    · exact h hflag
  · intro n c hn hc
    rw [hopened] at hn
    rcases hlog with hlog | ⟨d, hlog, hfollows, -⟩
    · rw [hlog] at hc ⊢
      exact hf.follows n c hn hc
    · rw [hlog] at hc ⊢
      rcases Log.getElem?_append_singleton.mp hc with hc | ⟨rfl, rfl⟩
      · rw [List.take_append_of_le_length (Nat.le_of_lt (List.getElem?_eq_some_iff.mp hc).1)]
        exact hf.follows n c hn hc
      · rw [List.take_left]
        exact hfollows
  · intro n c hn hc
    rw [hopened] at hn
    rcases hlog with hlog | ⟨d, hlog, -, hfired⟩
    · rw [hlog] at hc
      exact hold n c hn hc
    · rw [hlog] at hc
      rcases Log.getElem?_append_singleton.mp hc with hc | ⟨rfl, rfl⟩
      · exact hold n c hn hc
      · exact hfired

theorem flags_claim {queue : QueueName} {op : ClaimOp} (hf : Flags s) (hb : Base s)
    (hl : Leased s) (ht : TokenFrame s s') (h : ClaimStep s (.scan queue) op s') : Flags s' := by
  cases h with
  | begin | drop =>
    refine hf.next hb ht rfl (fun w cl hcl => .inl ?_) (.inl rfl)
    exact State.mem_registered_setClaiming (by simp [Claiming.claims]) hcl
  | stage =>
    refine hf.next hb ht rfl (fun w cl hcl => .inl ?_) (.inl rfl)
    exact State.mem_registered_setClaiming (by simp [Claiming.claims]) hcl
  | @register a st job todo claimId ha hst htodo hid =>
    refine hf.next hb ht rfl (fun w cl hcl => ?_) (.inl rfl)
    rcases State.mem_registered_register ha hst hcl with hcl | ⟨-, rfl⟩
    · exact .inl hcl
    · exact .inr fun hflag => by simp only [State.register, if_pos hflag, Function.update_self]
  | @commit a st log ha hst htodo hlog =>
    obtain ⟨c, rfl, -, hc⟩ := hb.commits_claim ha hst htodo hlog
    obtain ⟨t, jobs, hattempt, hconf, hsame⟩ := commitCall_eq_some hlog
    have hsound := hb.process.sound
    have hfollows := follows_of_attempt hsound
      ((Claimant.given_call (hb.stages _ a ha st hst).1).pre hsound) hattempt hconf
      (flag_of_scan hsound hattempt hconf)
    rw [← List.singleton_inj.mp (List.append_cancel_left hsame)] at hfollows
    refine hf.next hb ht rfl (fun w cl hcl => .inl ?_) (.inr ⟨c, rfl, hfollows, ?_⟩)
    · exact State.mem_registered_setClaiming (by simp) hcl
    · intro p hp hflag
      rw [hc.claims] at hp
      obtain ⟨cl, hcl, rfl⟩ := List.mem_map.mp hp
      obtain ⟨e, -, hg⟩ := hl.registered _ cl hcl
      exact ⟨e, cl.cancel, hg, hf.registered _ cl hcl hflag⟩

theorem flags_step (hf : Flags s) (hb : Base s) (hl : Leased s) (ho : ScanOnly a)
    (h : step s a = some s') : Flags s' := by
  have ht := tokenFrame_step h
  cases a with
  | claim who op =>
    cases who with
    | scan queue => exact flags_claim hf hb hl ht (claimStep_spec h)
    | byId id call => exact ho.elim
  | ending n op =>
    cases endStep_spec h with
    | @commit e leases effectLeases now log he hst hgiven hlog =>
      obtain ⟨t, jobs, hattempt, hconf, rfl⟩ := commitCall_eq_some hlog
      obtain rfl := delivered_of_ending hattempt
      have hsound := hb.process.sound
      refine hf.next hb ht rfl (fun _ _ hcl => .inl hcl) (.inr ⟨_, rfl, ?_, ?_⟩)
      · exact follows_of_attempt hsound (hgiven.pre hsound) hattempt hconf (by simp)
      · simp [Entry.claims]
    | _ => exact hf.next hb ht rfl (fun _ _ hcl => .inl hcl) (.inl rfl)
  | lease op =>
    have hframe := leaseStep_spec h
    refine hf.next hb ht hframe.opened (fun w cl hcl => .inl ?_) (.inl hframe.log)
    rwa [State.registered, hframe.claiming] at hcl
  | call call snap =>
    obtain ⟨hother, -, -, hgiven, log, hlog, rfl⟩ := callStep_spec h
    obtain ⟨t, jobs, hattempt, hconf, rfl⟩ := commitCall_eq_some hlog
    obtain rfl := delivered_of_isOther hother hattempt
    have hsound := hb.process.sound
    refine hf.next hb ht rfl (fun _ _ hcl => .inl hcl) (.inr ⟨_, rfl, ?_, ?_⟩)
    · exact follows_of_attempt hsound (hgiven.pre hsound) hattempt hconf (by simp)
    · simp [Entry.claims]

section Due

/-- No lease comes due while the attempt that registered it is in flight. -/
def Undue (s : State κ β) : Label κ β → Prop
  | .lease .takeDue => ∀ registry due, s.registry.takeDue s.now = some (registry, due) →
      ∀ lease ∈ due, ∀ who, ∀ cl ∈ s.registered who, cl.claimId ≠ lease.claimId
  | _ => True

/-- The leases that came due are not those of attempts in flight. -/
def DueSettled (s : State κ β) : Prop :=
  ∀ lease ∈ s.due, ∀ who, ∀ cl ∈ s.registered who, cl.claimId ≠ lease.claimId

theorem dueSettled_step {a : Label κ β} (hd : DueSettled s) (he : Ended s) (hu : Undue s a)
    (h : step s a = some s') : DueSettled s' := by
  cases a with
  | claim who op =>
    cases claimStep_spec h with
    | begin | drop =>
      exact fun lease hlease w cl hcl => hd lease hlease w cl
        (State.mem_registered_setClaiming (by simp [Claiming.claims]) hcl)
    | stage | commit =>
      exact fun lease hlease w cl hcl => hd lease hlease w cl
        (State.mem_registered_setClaiming (by simp [Claiming.claims]) hcl)
    | @register a st job todo claimId ha hst htodo hid =>
      intro lease hlease w cl hcl
      rcases State.mem_registered_register ha hst hcl with hcl | ⟨-, rfl⟩
      · exact hd lease hlease w cl hcl
      · rintro rfl
        exact hid (he.due lease hlease)
  | ending n op =>
    cases endStep_spec h with
    | _ => exact hd
  | lease op =>
    have h : leaseStep s op = some s' := h
    have hframe := leaseStep_spec h
    intro lease hlease w cl hcl
    rw [State.registered, hframe.claiming] at hcl
    cases leaseStep_cases h with
    | takeDue hr =>
      rcases List.mem_append.mp hlease with hlease | hlease
      · exact hu _ _ hr lease hlease w cl hcl
      · exact hd lease hlease w cl hcl
    | _ => exact hd lease hlease w cl hcl
  | call call snap =>
    obtain ⟨-, -, -, -, log, -, rfl⟩ := callStep_spec h
    exact hd

theorem DueSettled.reapsSettled {a : Label κ β} (hd : DueSettled s) (h : step s a = some s') :
    ReapsSettled s a := by
  match a, h with
  | .ending n (.begin kind queue id claimId), h =>
    have h : endStep s n (.begin kind queue id claimId) = some s' := h
    intro hk
    cases endStep_spec h with
    | begin _ hdue =>
      obtain ⟨lease, hlease, -, -, rfl⟩ := hdue hk
      exact hd lease hlease
  | .ending _ .check, _ | .ending _ (.commit _ _), _ | .ending _ .dropEntry, _
  | .ending _ .finish, _ | .ending _ .drop, _ | .claim _ _, _ | .lease _, _ | .call _ _, _ =>
    trivial

end Due

/-- Jobs are claimed by scans, and no lease comes due before its claim commits. -/
def Timely (s : State κ β) (a : Label κ β) : Prop := ScanOnly a ∧ Undue s a

/-- What holds in the runs whose steps are timely. -/
structure Settled (s : State κ β) : Prop where
  inv : Inv s
  scans : Scans s
  due : DueSettled s
  flags : Flags s

theorem settled_step (hs : Settled s) (ht : Timely s a) (h : step s a = some s') : Settled s' where
  inv := inv_step hs.inv ⟨hs.scans.registersFree hs.inv.base ht.1, hs.due.reapsSettled h⟩ h
  scans := scans_step hs.scans hs.inv.base ht.1 h
  due := dueSettled_step hs.due hs.inv.ended ht.2 h
  flags := flags_step hs.flags hs.inv.base hs.inv.leased ht.1 h

theorem settled_init (h : (machine κ β).init s) : Settled s := by
  have hi := inv_init h
  have hs := (scans_init h).2
  obtain ⟨log, -, -, rfl⟩ := h
  have hlen : ∀ {n : ℕ} {c : CallCommit κ β}, log.length ≤ n → log[n]? ≠ some c := by
    intro n c hn hc
    have := (List.getElem?_eq_some_iff.mp hc).1
    omega
  refine ⟨hi, hs, by simp [DueSettled], ⟨by simp [State.registered], ?_, ?_⟩⟩
  · exact fun n c hn hc => absurd hc (hlen hn)
  · exact fun n c hn hc => absurd hc (hlen hn)

end Delivery

end Taquba
