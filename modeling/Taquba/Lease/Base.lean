import Taquba.Lease.Attempts

/-! # What every run of a process keeps

The jobs that an attempt staged are those that its commit delivers, with the claim
ids that it registered. Snapshots are of this process, and claim ids stay distinct.
-/

namespace Taquba

open Snapshot Transition

variable {κ β : Type} [DecidableEq κ]

theorem History.Process.append {log : History κ β} {opened : ℕ} (h : log.Process opened)
    {c : CallCommit κ β} (hp : ∃ as, Performs log c as)
    (hl : c.label.delivered.length = c.label.call.claimIds.length) :
    History.Process (log ++ [c]) opened where
  sound := Log.Lawful.append h.sound hp
  opened_le := by
    have := h.opened_le
    simp only [List.length_append]
    omega
  unclaimed := by
    rw [List.take_append_of_le_length h.opened_le]
    exact h.unclaimed
  matched d hd := by
    rw [List.drop_append_of_le_length h.opened_le, List.mem_append] at hd
    rcases hd with hd | hd
    · exact h.matched d hd
    · rw [List.mem_singleton.mp hd]
      exact hl

omit [DecidableEq κ] in
theorem History.claimIds_append {log : History κ β} {opened : ℕ} (h : opened ≤ log.length)
    (c : CallCommit κ β) :
    History.claimIds ((log ++ [c]).drop opened) =
      History.claimIds (log.drop opened) ++ c.label.claims.map Prod.snd := by
  simp [History.claimIds, List.drop_append_of_le_length h]

namespace Delivery

variable [DecidableEq β]

def Stages (log : History κ β) (who : Claimant) (a : Claiming) : Prop :=
  ∀ st, a.staged = some st → st.keys.Pairwise (· < ·) ∧
    ∃ t, (who.call st.keys [] st.now : Call κ β).attempt (Log.store (log.take a.snap)) =
      some (t, st.claims.map Claim.job ++ st.todo)

theorem Stages.append {log : History κ β} {who : Claimant} {a : Claiming} (h : Stages log who a)
    (hs : a.snap ≤ log.length) (log' : History κ β) : Stages (log ++ log') who a := by
  intro st hst
  rw [List.take_append_of_le_length hs]
  exact h st hst

/-- The history of the process is that of its commits, and its claim ids are distinct. -/
structure Base (s : State κ β) : Prop where
  process : s.log.Process s.opened
  claimSnap : ∀ who a, s.claiming who = some a → s.opened ≤ a.snap ∧ a.snap ≤ s.log.length
  endSnap : ∀ n e, s.ending n = some e → s.opened ≤ e.snap ∧ e.snap ≤ s.log.length
  stages : ∀ who a, s.claiming who = some a → Stages s.log who a
  drawn : Drawn s.registered s.used s.claimIds

/-- A new commit of the process, with the deliveries it makes. -/
structure Commits (log : History κ β) (c : CallCommit κ β)
    (claims : List (JobRecord × ℕ)) : Prop where
  performs : ∃ as, Performs log c as
  matched : c.label.delivered.length = c.label.call.claimIds.length
  claims : c.label.claims = claims

variable {s s' : State κ β} {log : History κ β} {who : Claimant} {n : ℕ}

theorem Base.commits_claim (hb : Base s) {a : Claiming} {st : Staged}
    (ha : s.claiming who = some a) (hst : a.staged = some st) (htodo : st.todo = [])
    (hlog : commitCall s.log (who.call st.keys (st.claims.map Claim.claimId) st.now) a.snap =
      some log) :
    ∃ c, log = s.log ++ [c] ∧ c.label.call.ended = none ∧
      Commits s.log c ((s.registered who).map fun cl => (cl.job, cl.claimId)) := by
  obtain ⟨hkeys, t, ht⟩ := hb.stages who a ha st hst
  rw [htodo, List.append_nil] at ht
  obtain ⟨t', delivered, ht', hc, rfl⟩ := commitCall_eq_some hlog
  have hperf := performs_of_attempt hb.process.sound
    ((Claimant.given_call hkeys).pre hb.process.sound) ht' hc
  rw [Claimant.attempt_call, ht] at ht'
  cases ht'
  have hids : (who.call st.keys (st.claims.map Claim.claimId) st.now : Call κ β).claimIds =
      st.claims.map Claim.claimId := Claimant.claimIds_call ht (by simp)
  refine ⟨_, rfl, Claimant.ended_call, hperf, ?_, ?_⟩
  · simp [hids]
  · simp [Entry.claims, hids, List.zip_map', State.registered, ha, Claiming.claims, hst]

theorem Base.commits_end (hb : Base s) {e : Ending κ β} {leases effectLeases : Leases} {now : ℕ}
    (hgiven : (e.call leases effectLeases now).Given s.log e.snap)
    (hlog : commitCall s.log (e.call leases effectLeases now) e.snap = some log) :
    ∃ c, log = s.log ++ [c] ∧ c.label.call = e.call leases effectLeases now ∧
      c.label.snap = e.snap ∧ Commits s.log c [] := by
  obtain ⟨t, delivered, ht, hc, rfl⟩ := commitCall_eq_some hlog
  have hperf := performs_of_attempt hb.process.sound (hgiven.pre hb.process.sound) ht hc
  have hids := (Ending.endsClaim_call e leases effectLeases now).2
  obtain rfl := delivered_of_ending ht
  exact ⟨_, rfl, rfl, rfl, hperf, by simp [hids], by simp [Entry.claims]⟩

theorem Base.commits_call (hb : Base s) {call : Call κ β} {snap : ℕ} (ho : isOther call = true)
    (hgiven : call.Given s.log snap) (hlog : commitCall s.log call snap = some log) :
    ∃ c, log = s.log ++ [c] ∧ c.label.call.ended = none ∧ Commits s.log c [] := by
  obtain ⟨t, delivered, ht, hc, rfl⟩ := commitCall_eq_some hlog
  have hperf := performs_of_attempt hb.process.sound (hgiven.pre hb.process.sound) ht hc
  obtain ⟨hended, hids⟩ := ended_of_isOther ho
  obtain rfl := delivered_of_isOther ho ht
  exact ⟨_, rfl, hended, hperf, by simp [hids], by simp [Entry.claims]⟩

/-- A commit keeps the snapshots and the staged jobs of the calls in flight. -/
theorem Base.commit (hb : Base s) {c : CallCommit κ β}
    {claims : List (JobRecord × ℕ)} (hc : Commits s.log c claims)
    (hd : Drawn s.registered s.used (s.claimIds ++ claims.map Prod.snd)) :
    Base { s with log := s.log ++ [c] } where
  process := hb.process.append hc.performs hc.matched
  claimSnap who a ha := by
    obtain ⟨h₁, h₂⟩ := hb.claimSnap who a ha
    simp only [List.length_append]
    omega
  endSnap n e he := by
    obtain ⟨h₁, h₂⟩ := hb.endSnap n e he
    simp only [List.length_append]
    omega
  stages who a ha := (hb.stages who a ha).append (hb.claimSnap who a ha).2 _
  drawn := by
    have hids : ({ s with log := s.log ++ [c] } : State κ β).claimIds =
        s.claimIds ++ claims.map Prod.snd := by
      rw [← hc.claims]
      exact History.claimIds_append hb.process.opened_le c
    rw [hids]
    exact hd

theorem Base.setClaiming (hb : Base s) {a : Option Claiming}
    (hsnap : ∀ a', a = some a' → s.opened ≤ a'.snap ∧ a'.snap ≤ s.log.length)
    (hstages : ∀ a', a = some a' → Stages s.log who a')
    {used : List ℕ}
    (hd : Drawn (Function.update s.registered who ((a.map Claiming.claims).getD [])) used
      s.claimIds) :
    Base { s.setClaiming who a with used } where
  __ := hb
  claimSnap w a' ha := by
    by_cases hw : w = who
    · subst hw
      exact hsnap a' (by simpa [State.setClaiming] using ha)
    · exact hb.claimSnap w a' (by simpa [State.setClaiming, hw] using ha)
  stages w a' ha := by
    by_cases hw : w = who
    · subst hw
      exact hstages a' (by simpa [State.setClaiming] using ha)
    · exact hb.stages w a' (by simpa [State.setClaiming, hw] using ha)
  drawn := by
    rw [← State.registered_setClaiming] at hd
    exact hd

theorem base_claim {op : ClaimOp} (hb : Base s) (h : ClaimStep s who op s') : Base s' := by
  cases h with
  | begin h =>
    have hreg : s.registered who = [] := by simp [State.registered, h]
    refine hb.setClaiming ?_ ?_ ?_
    · rintro _ ⟨⟩
      exact ⟨hb.process.opened_le, le_rfl⟩
    · rintro _ ⟨⟩ st hst
      cases hst
    · simpa [Claiming.claims, ← hreg] using hb.drawn
  | @stage a keys t todo lease h hst hkeys ha =>
    have hreg : s.registered who = [] := by simp [State.registered, h, Claiming.claims, hst]
    refine hb.setClaiming ?_ ?_ ?_
    · rintro _ ⟨⟩
      exact hb.claimSnap who a h
    · rintro _ ⟨⟩ st hst
      cases hst
      exact ⟨hkeys, t, ha⟩
    · simpa [Claiming.claims, ← hreg] using hb.drawn
  | @register a st job todo claimId h hst htodo hid =>
    have hreg : s.registered who = st.claims := by
      simp [State.registered, h, Claiming.claims, hst]
    have hb' : Base { s.setClaiming who (some { a with staged := some { st with
        todo, claims := st.claims ++ [⟨job, claimId, s.tokens⟩] } }) with
        used := claimId :: s.used } := by
      refine hb.setClaiming ?_ ?_ ?_
      · rintro _ ⟨⟩
        exact hb.claimSnap who a h
      · rintro _ ⟨⟩ st' hst'
        cases hst'
        simpa [htodo] using hb.stages who a h st hst
      · have hpush := hb.drawn.push who ⟨job, claimId, s.tokens⟩ hid
        rw [hreg] at hpush
        exact hpush
    exact { hb' with }
  | @commit a st log h hst htodo hlog =>
    obtain ⟨c, rfl, -, hc⟩ := hb.commits_claim h hst htodo hlog
    have hclear : Base (s.setClaiming who none) :=
      hb.setClaiming (by simp) (by simp) (by simpa using hb.drawn.clear who)
    refine hclear.commit hc ?_
    rw [State.registered_setClaiming, List.map_map]
    exact hb.drawn.commit who
  | @drop a h => exact hb.setClaiming (by simp) (by simp) (by simpa using hb.drawn.clear who)

theorem Base.setEnding (hb : Base s) {e : Option (Ending κ β)}
    (h : ∀ e', e = some e' → s.opened ≤ e'.snap ∧ e'.snap ≤ s.log.length) :
    Base (s.setEnding n e) where
  __ := hb
  endSnap m e' he := by
    by_cases hm : m = n
    · subst hm
      exact h e' (by simpa [State.setEnding] using he)
    · exact hb.endSnap m e' (by simpa [State.setEnding, hm] using he)

theorem base_end {op : EndOp κ β} (hb : Base s) (h : EndStep s n op s') : Base s' := by
  cases h with
  | begin h hdue =>
    refine hb.setEnding ?_
    rintro _ ⟨⟩
    exact ⟨hb.process.opened_le, le_rfl⟩
  | @check e h hst hcurrent =>
    refine hb.setEnding ?_
    rintro _ ⟨⟩
    exact hb.endSnap n e h
  | @commit e leases effectLeases now log h hst hgiven hlog =>
    obtain ⟨c, rfl, -, -, hc⟩ := hb.commits_end hgiven hlog
    have hb' : Base (s.setEnding n (some { e with stage := .committed })) := by
      refine hb.setEnding ?_
      rintro _ ⟨⟩
      exact hb.endSnap n e h
    refine hb'.commit hc ?_
    rw [List.map_nil, List.append_nil]
    exact hb.drawn
  | lost | drop => exact hb.setEnding (by simp)
  | @dropEntry e | @finish e =>
    have hb' : Base (s.setEnding n none) := hb.setEnding (by simp)
    exact { hb' with }

theorem base_lease (hb : Base s) (hf : LeaseFrame s s') : Base s' := by
  rw [hf.eq]
  exact { hb with }

theorem base_step {a : Label κ β} (hb : Base s) (h : step s a = some s') : Base s' := by
  cases a with
  | claim who op => exact base_claim hb (claimStep_spec h)
  | ending n op => exact base_end hb (endStep_spec h)
  | lease op => exact base_lease hb (leaseStep_spec h)
  | call call snap =>
    obtain ⟨ho, -, -, hgiven, log, hlog, rfl⟩ := callStep_spec h
    obtain ⟨c, rfl, -, hc⟩ := hb.commits_call ho hgiven hlog
    refine hb.commit hc ?_
    rw [List.map_nil, List.append_nil]
    exact hb.drawn

theorem base_init (h : (machine κ β).init s) : Base s := by
  obtain ⟨log, hsound, hnone, rfl⟩ := h
  have hids : History.claimIds (log.drop log.length) = [] := by simp [History.claimIds]
  refine ⟨⟨hsound, le_rfl, ?_, by simp⟩, by simp, by simp, by simp, ?_⟩
  · rw [List.take_length]
    exact hnone
  · rw [State.claimIds, hids]
    exact ⟨by simp, by simp, by simp [State.registered], by simp [State.registered],
      by simp [State.registered]⟩

theorem base_reachable (h : (machine κ β).Reachable s) : Base s :=
  h.invariant (fun _ => base_init) fun _ _ _ => base_step

end Delivery

end Taquba
