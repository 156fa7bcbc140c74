import Taquba.Lease.Base

/-! # The settlement fence

As long as an attempt registers a lease only for a job that has no claimed record
and no other registered attempt, the claim of a registry entry is the one that wrote
the claimed record of its job. An end of a claim that passed the check and commits
therefore ends the delivery of that claim.
-/

namespace Taquba

open Snapshot Transition

variable {κ β : Type}
variable {log : History κ β} {a : Claiming} {st : Staged}

theorem History.live_append_of_le {opened n : ℕ} (h : n ≤ log.length) (log' : History κ β)
    (queue : QueueName) (id : String) :
    History.live (log ++ log') opened n queue id = log.live opened n queue id := by
  rw [live, live, List.take_append_of_le_length h]

theorem History.live_append {opened : ℕ} (h : opened ≤ log.length)
    (c : CallCommit κ β) (queue : QueueName) (id : String) :
    History.live (log ++ [c]) opened (log ++ [c]).length queue id =
      c.label.next queue id (log.live opened log.length queue id) := by
  rw [List.length_append, List.length_singleton, Process.live_succ (c := c) h (by simp),
    live_append_of_le le_rfl]

namespace Delivery

variable [DecidableEq κ] [DecidableEq β]

def State.nextJob (s : State κ β) (who : Claimant) : Option JobRecord :=
  (s.claiming who).bind fun a => a.staged.bind fun st => st.todo.head?

/-- The job has no claimed record, and no other attempt in flight has registered it. -/
def Free (s : State κ β) (who : Claimant) (j : QueueName × String) : Prop :=
  s.log.store (.record (.claimed j.1 j.2)) = none ∧
    ∀ who', who' ≠ who → ∀ cl ∈ s.registered who', cl.job.ref ≠ j

def RegistersFree (s : State κ β) : Label κ β → Prop
  | .claim who (.register _) => ∀ job, s.nextJob who = some job → Free s who job.ref
  | _ => True

/-- The registry entries of claims that are live or in flight are theirs, and what
passed the check of the registry is the end of the live delivery, until a commit
writes the claimed record. -/
structure Fenced (s : State κ β) : Prop where
  live : ∀ j h p, s.registry.held j = some h → s.live j = some p → h.2.1 = p.2
  registered : ∀ who, ∀ cl ∈ s.registered who, ∀ h,
    s.registry.held cl.job.ref = some h → h.2.1 = cl.claimId
  checked : ∀ n e leases p, s.ending n = some e → e.stage = .checked leases →
    ¬ s.log.Conflicts e.snap [.record (.claimed e.queue e.id)] →
    s.live (e.queue, e.id) = some p → p.2 = e.claimId
  ends : s.log.EndsLive s.opened

variable {s s' : State κ β} {who : Claimant} {n : ℕ} {j : QueueName × String}

theorem Base.live_eq_none_iff (hb : Base s) :
    s.live j = none ↔ s.log.store (.record (.claimed j.1 j.2)) = none := by
  have hr : Recorded j.1 j.2 ((s.live j).map Prod.fst) _ := hb.process.recorded
  cases hl : s.live j with
  | none =>
    rw [hl] at hr
    exact ⟨fun _ => hr, fun _ => rfl⟩
  | some p =>
    rw [hl] at hr
    obtain ⟨-, v, hv, -⟩ := hr
    simp [hv]

theorem Base.staged_spec (hb : Base s) (ha : s.claiming who = some a) (hst : a.staged = some st) :
    ((st.claims.map Claim.job ++ st.todo).map JobRecord.ref).Nodup ∧
      ∀ job ∈ st.claims.map Claim.job ++ st.todo,
        s.log.live s.opened a.snap job.queue job.id = none := by
  obtain ⟨hkeys, t, ht⟩ := hb.stages who a ha st hst
  obtain ⟨ho, hle⟩ := hb.claimSnap who a ha
  have hi := (hb.process.sound.take a.snap).storeInv
  obtain ⟨as, he, htraces⟩ := Call.attempt_trace hi
    ((Claimant.given_call hkeys).pre hb.process.sound) ht
  exact hb.process.shape_spec ho hle he.enabled htraces.shape

/-- A commit whose deliveries have their own leases, and that ends at most the live
delivery, keeps the fence. -/
theorem Fenced.commit (hf : Fenced s) (hb : Base s) {c : CallCommit κ β}
    {claims : List (JobRecord × ℕ)} (hc : Commits s.log c claims)
    (hheld : ∀ p ∈ claims, ∀ h, s.registry.held p.1.ref = some h → h.2.1 = p.2)
    (hend : ∀ queue id, c.label.call.ended = some (queue, id) →
      ∃ job claimId, c.label.call.endsClaim = some (queue, id, claimId) ∧
        s.live (queue, id) = some (job, claimId)) :
    Fenced { s with log := s.log ++ [c] } := by
  have hlive : ∀ j, ({ s with log := s.log ++ [c] } : State κ β).live j =
      c.label.next j.1 j.2 (s.live j) := fun j =>
    History.live_append hb.process.opened_le c j.1 j.2
  obtain ⟨as, hp⟩ := hc.performs
  refine ⟨fun j h p hh hl => ?_, hf.registered, fun n e leases p he hst hnc hl => ?_, ?_⟩
  · rw [hlive, Entry.next] at hl
    split at hl
    · rename_i p' hp'
      cases hl
      have href : p.1.ref = j := by simpa using List.find?_some hp'
      refine hheld p (hc.claims ▸ List.mem_of_find?_eq_some hp') h ?_
      rw [href]
      exact hh
    · obtain ⟨-, hl⟩ := Option.ite_none_left_eq_some.mp hl
      exact hf.live j h p hh hl
  · rw [Log.conflicts_append_iff (hb.endSnap n e he).2, not_or] at hnc
    have hunwritten : .record (.claimed e.queue e.id) ∉ Batch.keys c.writes := fun hk =>
      hnc.2 ⟨_, .head _, hk⟩
    rw [hlive, hp.next_of_unwritten hunwritten] at hl
    exact hf.checked n e leases p he hst hnc.1 hl
  · intro n d queue id hn hd hended
    rcases Log.getElem?_append_singleton.mp hd with hd | ⟨rfl, rfl⟩
    · rw [History.live_append_of_le (List.getElem?_eq_some_iff.mp hd).1.le]
      exact hf.ends n d queue id hn hd hended
    · rw [History.live_append_of_le le_rfl]
      exact hend queue id hended

omit [DecidableEq κ] [DecidableEq β] in
theorem Fenced.setClaiming (hf : Fenced s) {a : Option Claiming}
    (h : ∀ cl ∈ (a.map Claiming.claims).getD [], cl ∈ s.registered who) :
    Fenced (s.setClaiming who a) where
  __ := hf
  registered w cl hcl := hf.registered w cl (State.mem_registered_setClaiming h hcl)

theorem Base.ref_ne_of_registered (hb : Base s) {job : JobRecord} {todo : List JobRecord}
    (ha : s.claiming who = some a) (hst : a.staged = some st) (htodo : st.todo = job :: todo)
    (hfree : Free s who job.ref) {w : Claimant} {cl : Claim} (hcl : cl ∈ s.registered w) :
    cl.job.ref ≠ job.ref := by
  by_cases hw : w = who
  · subst hw
    intro he
    have hnd := (hb.staged_spec ha hst).1
    rw [htodo, List.map_append, List.map_cons] at hnd
    refine (List.nodup_append.mp hnd).2.2 _ ?_ _ (.head _) he
    have hmem : cl ∈ st.claims := by
      simpa [State.registered, ha, Claiming.claims, hst] using hcl
    exact List.mem_map.mpr ⟨cl.job, List.mem_map.mpr ⟨cl, hmem, rfl⟩, rfl⟩
  · exact hfree.2 w hw cl hcl

theorem Fenced.register (hf : Fenced s) (hb : Base s) {job : JobRecord} {todo : List JobRecord}
    {claimId : ℕ} (ha : s.claiming who = some a) (hst : a.staged = some st)
    (htodo : st.todo = job :: todo) (hfree : Free s who job.ref) :
    Fenced (s.register who a st job todo claimId) := by
  refine ⟨fun j h p hh hl => ?_, fun w cl hcl h hh => ?_, hf.checked, hf.ends⟩
  · rw [State.held_register] at hh
    by_cases hj : j = job.ref
    · subst hj
      have hnone : s.live job.ref = none := hb.live_eq_none_iff.mpr hfree.1
      rw [show (s.register who a st job todo claimId).live job.ref = s.live job.ref from rfl,
        hnone] at hl
      cases hl
    · rw [Function.update_of_ne hj] at hh
      exact hf.live j h p hh hl
  · rw [State.held_register] at hh
    rcases State.mem_registered_register ha hst hcl with hcl | ⟨-, rfl⟩
    · rw [Function.update_of_ne (hb.ref_ne_of_registered ha hst htodo hfree hcl)] at hh
      exact hf.registered w cl hcl h hh
    · rw [Function.update_self] at hh
      cases hh
      rfl

theorem fenced_claim {op : ClaimOp} (hf : Fenced s) (hb : Base s) (h : ClaimStep s who op s')
    (hfree : RegistersFree s (.claim who op)) : Fenced s' := by
  cases h with
  | begin | drop => exact hf.setClaiming (by simp [Claiming.claims])
  | stage => exact hf.setClaiming (by simp [Claiming.claims])
  | @register a st job todo claimId ha hst htodo hid =>
    refine hf.register hb ha hst htodo (hfree job ?_)
    simp [State.nextJob, ha, hst, htodo]
  | @commit a st log ha hst htodo hlog =>
    obtain ⟨c, rfl, hended, hc⟩ := hb.commits_claim ha hst htodo hlog
    have hclear : Base (s.setClaiming who none) := base_claim hb (.drop ha)
    refine (hf.setClaiming (by simp)).commit hclear hc ?_ ?_
    · rintro p hp h hh
      obtain ⟨cl, hcl, rfl⟩ := List.mem_map.mp hp
      exact hf.registered who cl hcl h hh
    · intro queue id he
      rw [hended] at he
      cases he

omit [DecidableEq κ] [DecidableEq β] in
theorem Fenced.setEnding (hf : Fenced s) {e : Option (Ending κ β)}
    (h : ∀ e' leases p, e = some e' → e'.stage = .checked leases →
      s.live (e'.queue, e'.id) = some p → p.2 = e'.claimId) :
    Fenced (s.setEnding n e) where
  __ := hf
  checked m e' leases p he hst hnc hl := by
    by_cases hm : m = n
    · subst hm
      exact h e' leases p (by simpa [State.setEnding] using he) hst hl
    · exact hf.checked m e' leases p (by simpa [State.setEnding, hm] using he) hst hnc hl

omit [DecidableEq κ] [DecidableEq β] in
theorem Fenced.unregister (hf : Fenced s) (e : Ending κ β) : Fenced (s.unregister n e) where
  live j h p hh := hf.live j h p (LeaseRegistry.held_of_held_remove hh)
  registered w cl hcl h hh := hf.registered w cl hcl h (LeaseRegistry.held_of_held_remove hh)
  checked m e' leases p he hst hnc hl := by
    by_cases hm : m = n
    · subst hm
      simp [State.unregister] at he
    · exact hf.checked m e' leases p (by simpa [State.unregister, hm] using he) hst hnc hl
  ends := hf.ends

/-- The commit of an end that passed the check ends the live delivery of its claim. -/
theorem Fenced.live_of_commit (hf : Fenced s) (hb : Base s) {e : Ending κ β}
    {leases effectLeases : Leases} {now : ℕ} {c : CallCommit κ β}
    (he : s.ending n = some e) (hst : e.stage = .checked leases)
    (hcall : c.label.call = e.call leases effectLeases now) (hsnap : c.label.snap = e.snap)
    (hc : Commits s.log c []) : ∃ job, s.live (e.queue, e.id) = some (job, e.claimId) := by
  obtain ⟨as, hp⟩ := hc.performs
  have hended : c.label.call.ended = some (e.queue, e.id) :=
    hcall ▸ Call.ended_of_endsClaim (Ending.endsClaim_call e leases effectLeases now).1
  have hnil : c.label.delivered = [] := hp.shape.alone.resolve_right (by simp [hended])
  have hclaims : ∀ a ∈ as, a.claim? = none := by
    have hc := hp.shape.claims
    rw [hnil] at hc
    exact List.filterMap_eq_nil_iff.mp hc
  cases hl : s.live (e.queue, e.id) with
  | none =>
    have hmem : (e.queue, e.id) ∈ as.filterMap (·.end?) := by
      rw [hp.shape.ended, hended]
      exact .head _
    obtain ⟨a, ha, hend⟩ := List.mem_filterMap.mp hmem
    exact absurd hend
      (not_end_of_claimed_none hp.enabled hclaims (hb.live_eq_none_iff.mp hl) a ha)
  | some p =>
    have hnc : ¬ s.log.Conflicts e.snap [.record (.claimed e.queue e.id)] := by
      intro hconf
      refine hp.unwritten (hsnap ▸ hconf.mono ?_)
      intro k hk
      rw [List.mem_singleton.mp hk]
      exact hp.writes_claimed (.inr hended)
    refine ⟨p.1, ?_⟩
    rw [← hf.checked n e leases p he hst hnc hl]

theorem fenced_end {op : EndOp κ β} (hf : Fenced s) (hb : Base s) (h : EndStep s n op s') :
    Fenced s' := by
  cases h with
  | begin h hdue =>
    refine hf.setEnding ?_
    rintro _ leases p ⟨⟩ hst
    cases hst
  | @check e h hst hcurrent =>
    refine hf.setEnding ?_
    rintro _ leases p ⟨⟩ - hl
    rw [LeaseRegistry.current_eq, Option.any_map, Option.any_eq_true] at hcurrent
    obtain ⟨held, hheld, hid⟩ := hcurrent
    rw [← hf.live (e.queue, e.id) held p hheld hl]
    simpa using hid
  | lost | drop => exact hf.setEnding (by simp)
  | @commit e leases effectLeases now log he hst hgiven hlog =>
    obtain ⟨c, rfl, hcall, hsnap, hc⟩ := hb.commits_end hgiven hlog
    obtain ⟨job, hlive⟩ := hf.live_of_commit hb he hst hcall hsnap hc
    have hf' : Fenced (s.setEnding n (some { e with stage := .committed })) := by
      refine hf.setEnding ?_
      rintro _ leases p ⟨⟩ hst
      cases hst
    have hb' : Base (s.setEnding n (some { e with stage := .committed })) := by
      refine hb.setEnding ?_
      rintro _ ⟨⟩
      exact hb.endSnap n e he
    refine hf'.commit hb' hc (by simp) ?_
    intro queue id hended
    have hends := (Ending.endsClaim_call e leases effectLeases now).1
    rw [hcall] at hended ⊢
    rw [Call.ended_of_endsClaim hends] at hended
    cases hended
    exact ⟨job, e.claimId, hends, hlive⟩
  | dropEntry | finish => exact hf.unregister _

omit [DecidableEq κ] [DecidableEq β] in
theorem fenced_lease (hf : Fenced s) (h : LeaseFrame s s') : Fenced s' := by
  rw [h.eq]
  refine ⟨fun j h' p hh' hl => ?_, fun w cl hcl h' hh' => ?_, hf.checked, hf.ends⟩
  · obtain ⟨held, hh, he⟩ := h.held_eq hh'
    rw [← he]
    exact hf.live j held p hh hl
  · obtain ⟨held, hh, he⟩ := h.held_eq hh'
    rw [← he]
    exact hf.registered w cl hcl held hh

theorem fenced_step {a : Label κ β} (hf : Fenced s) (hb : Base s) (hfree : RegistersFree s a)
    (h : step s a = some s') : Fenced s' := by
  cases a with
  | claim who op => exact fenced_claim hf hb (claimStep_spec h) hfree
  | ending n op => exact fenced_end hf hb (endStep_spec h)
  | lease op => exact fenced_lease hf (leaseStep_spec h)
  | call call snap =>
    obtain ⟨ho, -, -, hgiven, log, hlog, rfl⟩ := callStep_spec h
    obtain ⟨c, rfl, hended, hc⟩ := hb.commits_call ho hgiven hlog
    refine hf.commit hb hc (by simp) ?_
    intro queue id he
    rw [hended] at he
    cases he

omit [DecidableEq κ] [DecidableEq β] in
theorem fenced_init : Fenced ({ log, opened := log.length } : State κ β) := by
  refine ⟨?_, by simp [State.registered], by simp, ?_⟩
  · rintro j h p hh
    cases hh
  · intro n c queue id hn hc
    exact absurd (List.getElem?_eq_some_iff.mp hc).1 (Nat.not_lt.mpr hn)

theorem fenced_reachable (h : (machine κ β).ReachableVia RegistersFree s) : Fenced s := by
  refine (h.invariant (I := fun s => Base s ∧ Fenced s) ?_ ?_).2
  · rintro s hs
    refine ⟨base_init hs, ?_⟩
    obtain ⟨log, -, -, rfl⟩ := hs
    exact fenced_init
  · rintro s a s' ⟨hb, hf⟩ hfree hs
    exact ⟨base_step hb hs, fenced_step hf hb hfree hs⟩

end Delivery

end Taquba
