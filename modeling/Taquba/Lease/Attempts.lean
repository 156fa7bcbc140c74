import Taquba.Lease.Machine

/-! # The attempts of a process

What an attempt delivers does not depend on the claim ids. The jobs of a scan are
of its queue. The commits of a process extend its history, and only a claim commit
makes deliveries, with claim ids that no other delivery has.
-/

namespace Taquba

open Snapshot Transition

variable {κ β : Type} [DecidableEq κ]

namespace Txn

variable {t t' : Txn κ β} {now : ℕ}

omit [DecidableEq κ] in
theorem queue_of_stageClaim {source : RecordKey} {job claimed : JobRecord}
    (h : t.stageClaim source job now = .ok (t', claimed)) : claimed.queue = job.queue := by
  obtain ⟨⟨t₁, claimed'⟩, hm, h⟩ := Except.bind_eq_ok.mp h
  cases h
  obtain ⟨hc, -⟩ := moveJob_eq_ok hm
  simp [hc]

omit [DecidableEq κ] in
theorem queue_of_stageClaims {cs : List (RecordKey × JobRecord)} {jobs : List JobRecord}
    (h : t.stageClaims now cs = .ok (t', jobs)) :
    ∀ job ∈ jobs, ∃ c ∈ cs, job.queue = c.2.queue := by
  induction cs generalizing t jobs with
  | nil =>
    cases h
    simp
  | cons c cs ih =>
    obtain ⟨⟨t₁, job⟩, h₁, h⟩ := Except.bind_eq_ok.mp h
    obtain ⟨⟨t₂, jobs'⟩, h₂, h⟩ := Except.bind_eq_ok.mp h
    cases h
    intro j hj
    rcases List.mem_cons.mp hj with rfl | hj
    · exact ⟨c, .head _, queue_of_stageClaim h₁⟩
    · obtain ⟨d, hd, hq⟩ := ih h₂ j hj
      exact ⟨d, .tail _ hd, hq⟩

end Txn

namespace Delivery

variable [DecidableEq β]

section Calls

variable {s : Store (Val κ β)} {t : Txn κ β} {jobs : List JobRecord} {now : ℕ}
  {keys : List PendingKey} {claimIds : List ℕ} {who : Claimant}

theorem Claimant.attempt_call :
    (who.call keys claimIds now : Call κ β).attempt s = (who.call keys [] now).attempt s := by
  cases who <;> rfl

omit [DecidableEq κ] [DecidableEq β] in
@[simp] theorem Claimant.ended_call : (who.call keys claimIds now : Call κ β).ended = none := by
  cases who <;> rfl

omit [DecidableEq β] in
theorem Claimant.given_call {log : History κ β} {snap : ℕ} (h : keys.Pairwise (· < ·)) :
    (who.call keys claimIds now : Call κ β).Given log snap := by
  cases who with
  | scan queue => exact h
  | byId id n => trivial

theorem queue_of_scan {queue : QueueName} (hi : StoreInv s)
    (h : ((Claimant.scan queue).call keys claimIds now : Call κ β).attempt s = some (t, jobs)) :
    ∀ job ∈ jobs, job.queue = queue := by
  cases Call.committed_of_attempt h with
  | claimBatch hr =>
    intro job hj
    obtain ⟨c, hc, hq⟩ := Txn.queue_of_stageClaims (Txn.claimBatch_eq_ok hr) job hj
    obtain ⟨key, -, hc⟩ := List.mem_filterMap.mp hc
    obtain ⟨stored, hg, rfl⟩ := Option.map_eq_some_iff.mp hc
    have hsk := (hi.record_index _ stored hg).2
    rw [hq, ← JobRecord.decode_queue (.pending queue key) stored,
      ← JobRecord.queue_of_storedKey hsk]
    rfl

theorem Claimant.claimIds_call
    (h : (who.call keys [] now : Call κ β).attempt s = some (t, jobs))
    (hl : jobs.length = claimIds.length) :
    (who.call keys claimIds now : Call κ β).claimIds = claimIds := by
  cases who with
  | scan queue => rfl
  | byId id n =>
    cases Call.committed_of_attempt h with
    | claimById hr =>
      obtain ⟨-, -, claimed, -, -, -, rfl⟩ := Txn.claimById_eq_ok hr
      match claimIds, hl with
      | [claimId], _ => rfl

theorem delivered_of_isOther {call : Call κ β} (ho : isOther call = true)
    (h : call.attempt s = some (t, jobs)) : jobs = [] := by
  cases call with
  | claimBatch | claimById | settle | reap | requeueInterrupted => cases ho
  | _ =>
    cases Call.committed_of_attempt h
    rfl

omit [DecidableEq κ] [DecidableEq β] in
theorem ended_of_isOther {call : Call κ β} (ho : isOther call = true) :
    call.ended = none ∧ call.claimIds = [] := by
  cases call with
  | claimBatch | claimById | settle | reap | requeueInterrupted => cases ho
  | _ => exact ⟨rfl, rfl⟩

theorem delivered_of_ending {e : Ending κ β} {leases effectLeases : Leases}
    (h : (e.call leases effectLeases now).attempt s = some (t, jobs)) : jobs = [] := by
  obtain ⟨kind, queue, id, claimId, snap, stage⟩ := e
  cases kind with
  | settle | reap =>
    cases Call.committed_of_attempt h
    rfl

omit [DecidableEq κ] [DecidableEq β] in
theorem Ending.endsClaim_call (e : Ending κ β) (leases effectLeases : Leases) (now : ℕ) :
    (e.call leases effectLeases now).endsClaim = some (e.queue, e.id, e.claimId) ∧
      (e.call leases effectLeases now).claimIds = [] := by
  obtain ⟨kind, queue, id, claimId, snap, stage⟩ := e
  cases kind <;> exact ⟨rfl, rfl⟩

end Calls

section Ids

/-- Claim ids: those of deliveries and those that attempts in flight registered are
drawn once each. -/
structure Drawn (registered : Claimant → List Claim) (used made : List ℕ) : Prop where
  distinct : made.Nodup
  covered : ∀ c ∈ made, c ∈ used
  fresh : ∀ who, ∀ cl ∈ registered who, cl.claimId ∈ used ∧ cl.claimId ∉ made
  apart : ∀ who who', ∀ cl ∈ registered who, ∀ cl' ∈ registered who',
    cl.claimId = cl'.claimId → who = who'
  nodup : ∀ who, ((registered who).map Claim.claimId).Nodup

variable {registered : Claimant → List Claim} {used made : List ℕ}

theorem Drawn.clear (h : Drawn registered used made) (who : Claimant) :
    Drawn (Function.update registered who []) used made := by
  have hmem : ∀ {w : Claimant} {cl : Claim}, cl ∈ Function.update registered who [] w →
      cl ∈ registered w := by
    intro w cl hcl
    by_cases hw : w = who
    · subst hw
      simp at hcl
    · simpa [hw] using hcl
  refine ⟨h.distinct, h.covered, fun w cl hcl => h.fresh w cl (hmem hcl), ?_, fun w => ?_⟩
  · exact fun w w' cl hcl cl' hcl' he => h.apart w w' cl (hmem hcl) cl' (hmem hcl') he
  · by_cases hw : w = who
    · subst hw
      simp
    · simpa [hw] using h.nodup w

theorem Drawn.push (h : Drawn registered used made) (who : Claimant) (cl : Claim)
    (hcl : cl.claimId ∉ used) :
    Drawn (Function.update registered who (registered who ++ [cl])) (cl.claimId :: used) made := by
  have hmem : ∀ {w : Claimant} {d : Claim},
      d ∈ Function.update registered who (registered who ++ [cl]) w →
      d ∈ registered w ∨ w = who ∧ d = cl := by
    intro w d hd
    by_cases hw : w = who
    · subst hw
      simpa using hd
    · exact .inl (by simpa [hw] using hd)
  have hne : ∀ {w : Claimant} {d : Claim}, d ∈ registered w → d.claimId ≠ cl.claimId :=
    fun hd he => hcl (he ▸ (h.fresh _ _ hd).1)
  refine ⟨h.distinct, fun c hc => .tail _ (h.covered c hc), ?_, ?_, fun w => ?_⟩
  · intro w d hd
    rcases hmem hd with hd | ⟨-, rfl⟩
    · exact ⟨.tail _ (h.fresh w d hd).1, (h.fresh w d hd).2⟩
    · exact ⟨.head _, fun hm => hcl (h.covered _ hm)⟩
  · intro w w' d hd d' hd' he
    rcases hmem hd with hold | ⟨rfl, rfl⟩
    · rcases hmem hd' with hold' | ⟨rfl, rfl⟩
      · exact h.apart w w' d hold d' hold' he
      · exact absurd he (hne hold)
    · rcases hmem hd' with hold' | ⟨rfl, -⟩
      · exact absurd he.symm (hne hold')
      · rfl
  · by_cases hw : w = who
    · subst hw
      simp only [Function.update_self, List.map_append, List.map_cons, List.map_nil]
      refine List.nodup_append.mpr ⟨h.nodup w, by simp, ?_⟩
      intro c hc c' hc' he
      obtain ⟨d, hd, rfl⟩ := List.mem_map.mp hc
      exact hne hd (he.trans (List.mem_singleton.mp hc'))
    · simpa [hw] using h.nodup w

theorem Drawn.commit (h : Drawn registered used made) (who : Claimant) :
    Drawn (Function.update registered who []) used
      (made ++ (registered who).map Claim.claimId) := by
  have hc := h.clear who
  have hother : ∀ {w : Claimant} {d : Claim}, d ∈ Function.update registered who [] w →
      d ∈ registered w ∧ w ≠ who := by
    intro w d hd
    by_cases hw : w = who
    · subst hw
      simp at hd
    · exact ⟨by simpa [hw] using hd, hw⟩
  refine ⟨?_, ?_, ?_, hc.apart, hc.nodup⟩
  · refine List.nodup_append.mpr ⟨h.distinct, h.nodup who, ?_⟩
    rintro c hc c' hc' rfl
    obtain ⟨d, hd, rfl⟩ := List.mem_map.mp hc'
    exact (h.fresh who d hd).2 hc
  · intro c hc
    rcases List.mem_append.mp hc with hc | hc
    · exact h.covered c hc
    · obtain ⟨d, hd, rfl⟩ := List.mem_map.mp hc
      exact (h.fresh who d hd).1
  · intro w d hd
    obtain ⟨hd, hw⟩ := hother hd
    refine ⟨(h.fresh w d hd).1, fun hm => ?_⟩
    rcases List.mem_append.mp hm with hm | hm
    · exact (h.fresh w d hd).2 hm
    · obtain ⟨d', hd', he⟩ := List.mem_map.mp hm
      exact hw (h.apart w who d hd d' hd' he.symm)

end Ids

def Claiming.claims (a : Claiming) : List Claim := (a.staged.map Staged.claims).getD []

namespace State

variable (s : State κ β)

def registered (who : Claimant) : List Claim := ((s.claiming who).map Claiming.claims).getD []

def live (j : QueueName × String) : Option (JobRecord × ℕ) :=
  s.log.live s.opened s.log.length j.1 j.2

def claimIds : List ℕ := History.claimIds (s.log.drop s.opened)

omit [DecidableEq κ] [DecidableEq β] in
theorem registered_setClaiming (who : Claimant) (a : Option Claiming) :
    (s.setClaiming who a).registered =
      Function.update s.registered who ((a.map Claiming.claims).getD []) := by
  funext w
  by_cases hw : w = who
  · subst hw
    simp [registered, setClaiming]
  · simp [registered, setClaiming, hw]

variable {s} {who w : Claimant} {cl : Claim}

omit [DecidableEq κ] [DecidableEq β] in
theorem mem_registered_setClaiming {a : Option Claiming}
    (h : ∀ cl ∈ (a.map Claiming.claims).getD [], cl ∈ s.registered who)
    (hcl : cl ∈ (s.setClaiming who a).registered w) : cl ∈ s.registered w := by
  rw [registered_setClaiming] at hcl
  by_cases hw : w = who
  · subst hw
    exact h cl (by simpa using hcl)
  · simpa [hw] using hcl

variable {a : Claiming} {st : Staged} {job : JobRecord} {todo : List JobRecord} {claimId : ℕ}

omit [DecidableEq κ] [DecidableEq β] in
theorem mem_registered_register (ha : s.claiming who = some a) (hst : a.staged = some st)
    (hcl : cl ∈ (s.register who a st job todo claimId).registered w) :
    cl ∈ s.registered w ∨ w = who ∧ cl = ⟨job, claimId, s.tokens⟩ := by
  have hreg : (s.register who a st job todo claimId).registered =
      Function.update s.registered who (st.claims ++ [⟨job, claimId, s.tokens⟩]) :=
    registered_setClaiming ..
  rw [hreg] at hcl
  by_cases hw : w = who
  · subst hw
    rw [Function.update_self, List.mem_append, List.mem_singleton] at hcl
    rcases hcl with hcl | rfl
    · exact .inl (by simpa [registered, ha, Claiming.claims, hst] using hcl)
    · exact .inr ⟨rfl, rfl⟩
  · exact .inl (by simpa [hw] using hcl)

omit [DecidableEq κ] [DecidableEq β] in
theorem held_register :
    (s.register who a st job todo claimId).registry.held =
      Function.update s.registry.held job.ref (some (st.expiresAt, claimId, s.tokens)) :=
  LeaseRegistry.held_insert ..

end State

end Delivery

end Taquba
