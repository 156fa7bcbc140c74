import Taquba.Lease.Scans

/-! # Live claims have their leases

A registry entry goes only for its own claim: after the commit that ends the claim,
or when the reaper finds no claimed record. When the reaper examines an entry only
after the attempt that registered it is over, it finds the record of a claim that
committed. Every live claim and every registered attempt then keeps its lease.
-/

namespace Taquba.Delivery

open Snapshot Transition

variable {κ β : Type} [DecidableEq κ] [DecidableEq β]

/-- The reaper begins to examine an entry only when the attempt that registered it is
no longer in flight. -/
def ReapsSettled (s : State κ β) : Label κ β → Prop
  | .ending _ (.begin kind _ _ claimId) =>
    kind.isReap = true → ∀ who, ∀ cl ∈ s.registered who, cl.claimId ≠ claimId
  | _ => True

/-- What the ends in flight know: a committed one ended its claim, and the claim that
a reap examines was made before its snapshot or never. -/
structure Ended (s : State κ β) : Prop where
  committed : ∀ n e, s.ending n = some e → e.stage = .committed →
    ∃ m d, s.opened ≤ m ∧ s.log[m]? = some d ∧
      d.label.call.endsClaim = some (e.queue, e.id, e.claimId)
  idle : ∀ n e, s.ending n = some e → e.kind = .reap →
    e.claimId ∈ s.used ∧ ∀ who, ∀ cl ∈ s.registered who, cl.claimId ≠ e.claimId
  before : ∀ n e, s.ending n = some e → e.kind = .reap →
    ∀ m d, s.opened ≤ m → s.log[m]? = some d → ∀ p ∈ d.label.claims,
      p.2 = e.claimId → m < e.snap
  held : ∀ j h, s.registry.held j = some h → h.2.1 ∈ s.used
  due : ∀ lease ∈ s.due, lease.claimId ∈ s.used

structure Leased (s : State κ β) : Prop where
  live : ∀ j job claimId, s.live j = some (job, claimId) → ∃ cancel, Holds s j claimId cancel
  registered : ∀ who, ∀ cl ∈ s.registered who, Holds s cl.job.ref cl.claimId cl.cancel

variable {s s' : State κ β} {who : Claimant} {n : ℕ} {j : QueueName × String}
variable {e : Ending κ β} {todo : List JobRecord} {job : JobRecord} {claimId : ℕ} {a : Claiming}
  {st : Staged}

section Ended

omit [DecidableEq β] in
theorem Ended.commit (he : Ended s) {c : CallCommit κ β}
    {claims : List (JobRecord × ℕ)} (hc : Commits s.log c claims)
    (hidle : ∀ n e, s.ending n = some e → e.kind = .reap → ∀ p ∈ claims, p.2 ≠ e.claimId) :
    Ended { s with log := s.log ++ [c] } where
  committed n e hn hst := by
    obtain ⟨m, d, hm, hd, hend⟩ := he.committed n e hn hst
    have hlt := (List.getElem?_eq_some_iff.mp hd).1
    exact ⟨m, d, hm, by rw [List.getElem?_append_left hlt, hd], hend⟩
  __ := he
  before n e hn hk m d hm hd p hp hid := by
    rcases Log.getElem?_append_singleton.mp hd with hd | ⟨rfl, rfl⟩
    · exact he.before n e hn hk m d hm hd p hp hid
    · exact absurd hid (hidle n e hn hk p (hc.claims ▸ hp))

omit [DecidableEq κ] [DecidableEq β] in
theorem Ended.setClaiming (he : Ended s) {a : Option Claiming}
    (h : ∀ cl ∈ (a.map Claiming.claims).getD [], cl ∈ s.registered who) :
    Ended (s.setClaiming who a) where
  __ := he
  idle n e hn hk := by
    refine ⟨(he.idle n e hn hk).1, fun w cl hcl => ?_⟩
    exact (he.idle n e hn hk).2 w cl (State.mem_registered_setClaiming h hcl)

omit [DecidableEq κ] [DecidableEq β] in
theorem Ended.register (he : Ended s) (ha : s.claiming who = some a) (hst : a.staged = some st)
    (hid : claimId ∉ s.used) : Ended (s.register who a st job todo claimId) where
  __ := he
  idle n e hn hk := by
    obtain ⟨hused, hidle⟩ := he.idle n e hn hk
    refine ⟨.tail _ hused, fun w cl hcl => ?_⟩
    rcases State.mem_registered_register ha hst hcl with hcl | ⟨-, rfl⟩
    · exact hidle w cl hcl
    · rintro rfl
      exact hid hused
  held j h hh := by
    rw [State.held_register] at hh
    by_cases hj : j = job.ref
    · subst hj
      rw [Function.update_self] at hh
      cases hh
      exact .head _
    · rw [Function.update_of_ne hj] at hh
      exact .tail _ (he.held j h hh)
  due lease hl := .tail _ (he.due lease hl)

theorem ended_claim {op : ClaimOp} (he : Ended s) (hb : Base s) (h : ClaimStep s who op s') :
    Ended s' := by
  cases h with
  | begin | drop => exact he.setClaiming (by simp [Claiming.claims])
  | stage => exact he.setClaiming (by simp [Claiming.claims])
  | register ha hst _ hid => exact he.register ha hst hid
  | @commit a st log ha hst htodo hlog =>
    obtain ⟨c, rfl, -, hc⟩ := hb.commits_claim ha hst htodo hlog
    refine (he.setClaiming (by simp)).commit hc ?_
    rintro n e hn hk p hp
    obtain ⟨cl, hcl, rfl⟩ := List.mem_map.mp hp
    exact (he.idle n e hn hk).2 who cl hcl

omit [DecidableEq κ] [DecidableEq β] in
theorem Ended.setEnding (he : Ended s) {e : Option (Ending κ β)}
    (hc : ∀ e', e = some e' → e'.stage = .committed → ∃ m d, s.opened ≤ m ∧ s.log[m]? = some d ∧
      d.label.call.endsClaim = some (e'.queue, e'.id, e'.claimId))
    (hi : ∀ e', e = some e' → e'.kind = .reap →
      e'.claimId ∈ s.used ∧ ∀ who, ∀ cl ∈ s.registered who, cl.claimId ≠ e'.claimId)
    (hbefore : ∀ e', e = some e' → e'.kind = .reap →
      ∀ m d, s.opened ≤ m → s.log[m]? = some d → ∀ p ∈ d.label.claims,
        p.2 = e'.claimId → m < e'.snap) :
    Ended (s.setEnding n e) where
  committed m e' hm := by
    by_cases hmn : m = n
    · subst hmn
      exact hc e' (by simpa [State.setEnding] using hm)
    · exact he.committed m e' (by simpa [State.setEnding, hmn] using hm)
  idle m e' hm := by
    by_cases hmn : m = n
    · subst hmn
      exact hi e' (by simpa [State.setEnding] using hm)
    · exact he.idle m e' (by simpa [State.setEnding, hmn] using hm)
  before m e' hm := by
    by_cases hmn : m = n
    · subst hmn
      exact hbefore e' (by simpa [State.setEnding] using hm)
    · exact he.before m e' (by simpa [State.setEnding, hmn] using hm)
  __ := he

omit [DecidableEq κ] [DecidableEq β] in
theorem Ended.setStage (he : Ended s) (h : s.ending n = some e) (stage : EndStage)
    (hc : stage = .committed → ∃ m d, s.opened ≤ m ∧ s.log[m]? = some d ∧
      d.label.call.endsClaim = some (e.queue, e.id, e.claimId)) :
    Ended (s.setEnding n (some { e with stage })) := by
  refine he.setEnding ?_ ?_ ?_
  · rintro _ ⟨⟩ hst
    exact hc hst
  · rintro _ ⟨⟩ hk
    exact he.idle n e h hk
  · rintro _ ⟨⟩ hk
    exact he.before n e h hk

omit [DecidableEq κ] [DecidableEq β] in
theorem Ended.unregister (he : Ended s) (e : Ending κ β) : Ended (s.unregister n e) := by
  have h : Ended (s.setEnding n none) := he.setEnding (by simp) (by simp) (by simp)
  exact { h with held := fun j _ hh => he.held j _ (LeaseRegistry.held_of_held_remove hh) }

theorem ended_end {op : EndOp κ β} (he : Ended s) (hb : Base s) (h : EndStep s n op s')
    (hs : ReapsSettled s (.ending n op)) : Ended s' := by
  cases h with
  | @begin kind queue id claimId h hdue =>
    refine he.setEnding ?_ ?_ ?_
    · rintro _ ⟨⟩ hst
      cases hst
    · rintro _ ⟨⟩ hk
      simp only at hk
      subst hk
      obtain ⟨lease, hl, -, -, rfl⟩ := hdue rfl
      exact ⟨he.due lease hl, hs rfl⟩
    · rintro _ ⟨⟩ - m d - hd - - -
      exact (List.getElem?_eq_some_iff.mp hd).1
  | check h => exact he.setStage h _ (by simp)
  | lost | drop => exact he.setEnding (by simp) (by simp) (by simp)
  | @commit e leases effectLeases now log h hst hgiven hlog =>
    obtain ⟨c, rfl, hcall, -, hc⟩ := hb.commits_end hgiven hlog
    have he' : Ended { s with log := s.log ++ [c] } := he.commit hc (by simp)
    refine he'.setStage h .committed fun _ => ?_
    refine ⟨s.log.length, c, hb.process.opened_le, by simp, ?_⟩
    rw [hcall]
    exact (Ending.endsClaim_call e leases effectLeases now).1
  | dropEntry | finish => exact he.unregister _

omit [DecidableEq κ] [DecidableEq β] in
theorem ended_lease {op : LeaseOp} (he : Ended s) (h : leaseStep s op = some s') : Ended s' := by
  have hf := leaseStep_spec h
  have hheld : ∀ j h, s'.registry.held j = some h → h.2.1 ∈ s.used := by
    intro j h' hh'
    obtain ⟨held, hh, he'⟩ := hf.held_eq hh'
    rw [← he']
    exact he.held j held hh
  have hdue : ∀ lease ∈ s'.due, lease.claimId ∈ s.used := by
    cases leaseStep_cases h with
    | takeDue hr =>
      intro lease hl
      rcases List.mem_append.mp hl with hl | hl
      · obtain ⟨e, k, hh⟩ := LeaseRegistry.held_of_markAll hr hl
        exact he.held _ _ hh
      · exact he.due lease hl
    | _ => exact he.due
  rw [hf.eq]
  exact { he with held := hheld, due := hdue }

theorem ended_step {a : Label κ β} (he : Ended s) (hb : Base s) (hs : ReapsSettled s a)
    (h : step s a = some s') : Ended s' := by
  cases a with
  | claim who op => exact ended_claim he hb (claimStep_spec h)
  | ending n op => exact ended_end he hb (endStep_spec h) hs
  | lease op => exact ended_lease he h
  | call call snap =>
    obtain ⟨ho, -, -, hgiven, log, hlog, rfl⟩ := callStep_spec h
    obtain ⟨c, rfl, -, hc⟩ := hb.commits_call ho hgiven hlog
    exact he.commit hc (by simp)

end Ended

section Leased

theorem Leased.commit (hl : Leased s) (hb : Base s) {c : CallCommit κ β}
    {claims : List (JobRecord × ℕ)} (hc : Commits s.log c claims)
    (hclaims : ∀ p ∈ claims, ∃ cancel, Holds s p.1.ref p.2 cancel) :
    Leased { s with log := s.log ++ [c] } := by
  refine ⟨fun j job claimId hj => ?_, hl.registered⟩
  have hlive : ({ s with log := s.log ++ [c] } : State κ β).live j =
      c.label.next j.1 j.2 (s.live j) :=
    History.live_append hb.process.opened_le c j.1 j.2
  rw [hlive, Entry.next] at hj
  split at hj
  · rename_i p hp
    cases hj
    obtain ⟨cancel, hh⟩ := hclaims _ (hc.claims ▸ List.mem_of_find?_eq_some hp)
    have href : job.ref = j := by simpa using List.find?_some hp
    exact ⟨cancel, href ▸ hh⟩
  · obtain ⟨-, hj⟩ := Option.ite_none_left_eq_some.mp hj
    exact hl.live j job claimId hj

omit [DecidableEq κ] [DecidableEq β] in
theorem Leased.setClaiming (hl : Leased s) {a : Option Claiming}
    (h : ∀ cl ∈ (a.map Claiming.claims).getD [], cl ∈ s.registered who) :
    Leased (s.setClaiming who a) :=
  ⟨hl.live, fun w cl hcl => hl.registered w cl (State.mem_registered_setClaiming h hcl)⟩

omit [DecidableEq κ] [DecidableEq β] in
theorem Holds.register {c k : ℕ} (h : Holds s j c k) (hj : j ≠ job.ref) :
    Holds (s.register who a st job todo claimId) j c k := by
  obtain ⟨e, hheld, hgranted⟩ := h
  refine ⟨e, ?_, ?_⟩
  · rw [State.held_register, Function.update_of_ne hj, hheld]
  · simpa [State.register, hj] using hgranted

theorem Leased.register (hl : Leased s) (hb : Base s) (ha : s.claiming who = some a)
    (hst : a.staged = some st) (htodo : st.todo = job :: todo) (hfree : Free s who job.ref) :
    Leased (s.register who a st job todo claimId) := by
  refine ⟨fun j job' c hj => ?_, fun w cl hcl => ?_⟩
  · have hlive : s.live j = some (job', c) := hj
    obtain ⟨cancel, hh⟩ := hl.live j job' c hlive
    refine ⟨cancel, hh.register ?_⟩
    rintro rfl
    rw [hb.live_eq_none_iff.mpr hfree.1] at hlive
    cases hlive
  · rcases State.mem_registered_register ha hst hcl with hcl | ⟨-, rfl⟩
    · exact (hl.registered w cl hcl).register (hb.ref_ne_of_registered ha hst htodo hfree hcl)
    · refine ⟨st.expiresAt, ?_, by simp [State.register]⟩
      rw [State.held_register, Function.update_self]

theorem leased_claim {op : ClaimOp} (hl : Leased s) (hb : Base s) (h : ClaimStep s who op s')
    (hfree : RegistersFree s (.claim who op)) : Leased s' := by
  cases h with
  | begin | drop => exact hl.setClaiming (by simp [Claiming.claims])
  | stage => exact hl.setClaiming (by simp [Claiming.claims])
  | @register a st job todo claimId ha hst htodo hid =>
    refine hl.register hb ha hst htodo (hfree job ?_)
    simp [State.nextJob, ha, hst, htodo]
  | @commit a st log ha hst htodo hlog =>
    obtain ⟨c, rfl, -, hc⟩ := hb.commits_claim ha hst htodo hlog
    have hclear : Base (s.setClaiming who none) := base_claim hb (.drop ha)
    refine (hl.setClaiming (by simp)).commit hclear hc ?_
    intro p hp
    obtain ⟨cl, hcl, rfl⟩ := List.mem_map.mp hp
    exact ⟨cl.cancel, hl.registered who cl hcl⟩

omit [DecidableEq κ] [DecidableEq β] in
theorem Holds.unregister {c k : ℕ} (h : Holds s j c k) (hne : j = (e.queue, e.id) → c ≠ e.claimId) :
    Holds (s.unregister n e) j c k := by
  obtain ⟨expiry, hheld, hgranted⟩ := h
  refine ⟨expiry, ?_, hgranted⟩
  simp only [State.unregister, LeaseRegistry.held_remove]
  split_ifs with hany
  · by_cases hj : j = (e.queue, e.id)
    · subst hj
      rw [hheld] at hany
      exact absurd (by simpa using hany) (hne rfl)
    · rw [Function.update_of_ne hj, hheld]
  · exact hheld

omit [DecidableEq κ] [DecidableEq β] in
theorem Leased.unregister (hl : Leased s)
    (hlive : ∀ job, s.live (e.queue, e.id) ≠ some (job, e.claimId))
    (hreg : ∀ who, ∀ cl ∈ s.registered who, cl.claimId ≠ e.claimId) :
    Leased (s.unregister n e) := by
  constructor
  · intro j job c hj
    have hsj : s.live j = some (job, c) := hj
    obtain ⟨cancel, hh⟩ := hl.live j job c hsj
    refine ⟨cancel, hh.unregister ?_⟩
    rintro rfl rfl
    exact hlive job hsj
  · intro w cl hcl
    exact (hl.registered w cl hcl).unregister fun _ => hreg w cl hcl

/-- A reap that found no claimed record examined a claim that was never made, or that
was over before its snapshot. -/
theorem Ended.not_live_of_reap (he : Ended s) (hb : Base s) (h : s.ending n = some e)
    (hk : e.kind = .reap)
    (hnone : Log.store (s.log.take e.snap) (.record (.claimed e.queue e.id)) = none)
    (job : JobRecord) : s.live (e.queue, e.id) ≠ some (job, e.claimId) := by
  intro hlive
  obtain ⟨m, d, hm, -, hd, hmem, -, hsince⟩ := History.Process.live_spec hlive
  have hlt := he.before n e h hk m d hm hd _ hmem rfl
  obtain ⟨ho, hle⟩ := hb.endSnap n e h
  have hr : Recorded e.queue e.id ((s.log.live s.opened e.snap e.queue e.id).map Prod.fst) _ :=
    hb.process.recorded_at ho hle
  rw [hsince e.snap hlt hle] at hr
  obtain ⟨-, v, hv, -⟩ := hr
  rw [hnone] at hv
  cases hv

/-- A claim that ended is neither live nor in flight. -/
theorem Fenced.over (hf : Fenced s) (hb : Base s) {queue : QueueName} {id : String} {m : ℕ}
    {d : CallCommit κ β} (hm : s.opened ≤ m) (hd : s.log[m]? = some d)
    (hend : d.label.call.endsClaim = some (queue, id, claimId)) :
    (∀ j job, s.live j ≠ some (job, claimId)) ∧
      ∀ who, ∀ cl ∈ s.registered who, cl.claimId ≠ claimId := by
  have hlt := (List.getElem?_eq_some_iff.mp hd).1
  constructor
  · intro j job
    exact hb.process.not_live_of_endsClaim hf.ends hb.drawn.distinct hm hd hend hlt
  · rintro who cl hcl rfl
    refine (hb.drawn.fresh who cl hcl).2 ?_
    obtain ⟨job, hlive⟩ := hf.ends.live_of_endsClaim hm hd hend
    obtain ⟨k, c, hk, -, hc, hmem, -⟩ := History.Process.live_spec hlive
    refine History.mem_claimIds (m := k - s.opened) ?_ hmem
    rw [List.getElem?_drop, Nat.add_sub_cancel' hk, hc]

theorem leased_end {op : EndOp κ β} (hl : Leased s) (hb : Base s) (hf : Fenced s) (he : Ended s)
    (h : EndStep s n op s') : Leased s' := by
  cases h with
  | @commit e leases effectLeases now log h hst hgiven hlog =>
    obtain ⟨c, rfl, -, -, hc⟩ := hb.commits_end hgiven hlog
    have hl' := hl.commit hb hc (by simp)
    exact ⟨hl'.live, hl'.registered⟩
  | @dropEntry e leases h hkind hst hnone =>
    exact hl.unregister (he.not_live_of_reap hb h hkind hnone) (he.idle n e h hkind).2
  | @finish e h hst =>
    obtain ⟨m, d, hm, hd, hend⟩ := he.committed n e h hst
    obtain ⟨hlive, hreg⟩ := hf.over hb hm hd hend
    exact hl.unregister (hlive _) hreg
  | _ => exact ⟨hl.live, hl.registered⟩

omit [DecidableEq κ] [DecidableEq β] in
theorem leased_lease (hl : Leased s) (h : LeaseFrame s s') : Leased s' := by
  rw [h.eq]
  constructor
  · intro j job claimId hj
    obtain ⟨cancel, hh⟩ := hl.live j job claimId hj
    exact ⟨cancel, h.holds _ _ _ hh⟩
  · intro w cl hcl
    exact h.holds _ _ _ (hl.registered w cl hcl)

/-- Registrations of free jobs, and reaps of settled attempts. -/
def Guarded (s : State κ β) (a : Label κ β) : Prop := RegistersFree s a ∧ ReapsSettled s a

/-- What holds in the runs whose steps are guarded. -/
structure Inv (s : State κ β) : Prop where
  base : Base s
  fenced : Fenced s
  ended : Ended s
  leased : Leased s

theorem inv_step {a : Label κ β} (hi : Inv s) (hg : Guarded s a) (h : step s a = some s') :
    Inv s' := by
  obtain ⟨hb, hf, he, hl⟩ := hi
  refine ⟨base_step hb h, fenced_step hf hb hg.1 h, ended_step he hb hg.2 h, ?_⟩
  cases a with
  | claim who op => exact leased_claim hl hb (claimStep_spec h) hg.1
  | ending n op => exact leased_end hl hb hf he (endStep_spec h)
  | lease op => exact leased_lease hl (leaseStep_spec h)
  | call call snap =>
    obtain ⟨ho, -, -, hgiven, log, hlog, rfl⟩ := callStep_spec h
    obtain ⟨c, rfl, -, hc⟩ := hb.commits_call ho hgiven hlog
    exact hl.commit hb hc (by simp)

theorem inv_init (h : (machine κ β).init s) : Inv s := by
  have hb := base_init h
  obtain ⟨log, -, -, rfl⟩ := h
  refine ⟨hb, fenced_init, ⟨by simp, by simp, by simp, ?_, by simp⟩, ?_, ?_⟩
  · rintro j h ⟨⟩
  · intro j job claimId hj
    have hnil : History.live log log.length log.length j.1 j.2 = none := by
      simp [History.live, History.delivery]
    rw [show State.live _ j = History.live log log.length log.length j.1 j.2 from rfl, hnil] at hj
    cases hj
  · simp [State.registered]

end Leased

end Taquba.Delivery
