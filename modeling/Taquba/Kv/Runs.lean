import Taquba.Kv.Machine

/-! # Compare operations are linearizable

An operation that applies takes effect at its one commit, between its call and its return,
where every key that it compares has the expected value. One that reports a compare that
did not match has no commit, and its snapshot is a point of the same interval at which the
compare does not hold. So two operations that expect the same state of a key and change it
both apply only if another commit in between restores the state.
-/

namespace Taquba.Kv

open Snapshot Transition

variable {κ β : Type} [DecidableEq κ]

def Matches (log : History κ β) (n : ℕ) (compares : List (KvCompare κ β)) : Prop :=
  ∀ c ∈ compares, Log.store (log.take n) (.user c.key) = c.expected

/-- The commit at the position changes the user keys so. -/
def Changes (log : History κ β) (n : ℕ) (changes : List (κ × Option β)) : Prop :=
  ∀ k, Log.store (log.take (n + 1)) (.user k) =
    kvAfter changes k (Log.store (log.take n) (.user k))

def Outcome (log : History κ β) (o : Operation κ β) (ended : ℕ) : Answer κ → Prop
  | .applied => ∃ n, o.began ≤ n ∧ n < ended ∧ o.commits = [n] ∧
      Matches log n o.request.compares ∧ Changes log n o.request.changes
  | .unmatched key => o.commits = [] ∧ ∃ n, o.began ≤ n ∧ n ≤ ended ∧
      Txn.Mismatched (Log.store (log.take n)) o.request.compares key
  | .discarded => o.commits = [] ∨ ∃ n, n < ended ∧ o.commits = [n] ∧ Changes log n []
  | .failed _ => o.commits = []

def OperationInv (log : History κ β) (o : Operation κ β) : Prop :=
  match o.phase with
  | .ready => o.began ≤ log.length ∧ o.commits = []
  | .begun snap => o.began ≤ snap ∧ snap ≤ log.length ∧ o.commits = []
  | .returned answer ended => ended ≤ log.length ∧ Outcome log o ended answer

section Append

variable {log : History κ β} {o : Operation κ β}

theorem Outcome.append {ended : ℕ} {answer : Answer κ} (h : Outcome log o ended answer)
    (he : ended ≤ log.length) (d : CallCommit κ β) :
    Outcome (log ++ [d]) o ended answer := by
  have hchanges : ∀ {n changes}, n < ended → Changes log n changes →
      Changes (log ++ [d]) n changes := by
    intro n changes hn h k
    rw [List.take_append_of_le_length (by omega), List.take_append_of_le_length (by omega)]
    exact h k
  cases answer with
  | applied =>
    obtain ⟨n, hb, hn, hc, hm, hch⟩ := h
    refine ⟨n, hb, hn, hc, ?_, hchanges hn hch⟩
    rw [Matches, List.take_append_of_le_length (by omega)]
    exact hm
  | unmatched key =>
    obtain ⟨hc, n, hb, hn, hm⟩ := h
    refine ⟨hc, n, hb, hn, ?_⟩
    rwa [List.take_append_of_le_length (by omega)]
  | discarded =>
    rcases h with h | ⟨n, hn, hc, hch⟩
    · exact .inl h
    · exact .inr ⟨n, hn, hc, hchanges hn hch⟩
  | failed error => exact h

theorem OperationInv.append (h : OperationInv log o) (d : CallCommit κ β) :
    OperationInv (log ++ [d]) o := by
  have hle : log.length ≤ (log ++ [d]).length := by simp
  unfold OperationInv at h ⊢
  cases hphase : o.phase with
  | ready =>
    rw [hphase] at h
    exact ⟨h.1.trans hle, h.2⟩
  | begun snap =>
    rw [hphase] at h
    exact ⟨h.1, h.2.1.trans hle, h.2.2⟩
  | returned answer ended =>
    rw [hphase] at h
    exact ⟨h.1.trans hle, h.2.append h.1 d⟩

end Append

section Runs

variable [DecidableEq β] {s s' : State κ β}

abbrev Inv (s : State κ β) : Prop := Queue.Serves OperationInv s.queue s.operations

/-- A step of an operation leaves the history, or it ends an attempt, which adds the commit of
the operation and notes its place. The other steps are those of other calls. -/
def Accounted (s : State κ β) (l : Label κ β) (s' : State κ β) : Prop :=
  Queue.Accounted Operation.commits (∃ label, l = .other label)
    (fun i => ∃ leases effectLeases now, l = .finish i leases effectLeases now) s.queue s'.queue
    s.operations s'.operations

theorem outcome_of_commit {queue : Queue.State κ β} {o : Operation κ β} {snap : ℕ}
    {leases effectLeases : Leases} {now : ℕ} {t : Txn κ β} {answer : Answer κ}
    (hq : (Queue.machine κ β).Reachable queue) (hb : o.began ≤ queue.log.length)
    (hc : o.commits = [])
    (hbody : o.request.body leases effectLeases now (Txn.begin (Log.store (queue.log.take snap)))
      = .ok (t, .commit answer))
    {queue' : Queue.State κ β}
    (h : Queue.step queue (.commit (o.request.call leases effectLeases now) snap) = some queue') :
    ∃ d, queue'.log = queue.log ++ [d] ∧ ∀ phase,
      Outcome queue'.log ⟨o.request, o.began, phase, o.commits ++ [queue.log.length]⟩
        queue'.log.length answer := by
  have hsound := (Queue.inv_reachable hq).sound
  obtain ⟨-, hg, t', delivered, ht, hnc, rfl⟩ := Queue.commit_eq_some h
  obtain ⟨hattempt, hcases⟩ := body_commit (hsound.take snap).storeInv (hg.pre hsound) hbody
  obtain ⟨rfl, rfl⟩ := Prod.mk.inj (Option.some.inj (hattempt.symm.trans ht))
  refine ⟨_, rfl, fun phase => ?_⟩
  have hchanges : Changes (queue.log ++ [⟨⟨o.request.call leases effectLeases now, snap, t.notes,
      t.stats, []⟩, t.writes⟩]) queue.log.length
      ((o.request.call leases effectLeases now).kvChanges (Log.store (queue.log.take snap))) := by
    intro k
    rw [List.take_left, List.take_of_length_le (by simp), Log.store_append_singleton]
    exact Call.user_of_attempt hattempt _ k
  rcases hcases with ⟨rfl, hcompared, hch⟩ | ⟨rfl, hch⟩
  · rw [hch] at hchanges
    refine ⟨queue.log.length, hb, by simp, by simp [hc], fun c hm => ?_, hchanges⟩
    obtain ⟨heq, htracked⟩ := hcompared c hm
    rw [List.take_left, Log.store_eq_of_not_conflicts hnc htracked]
    exact heq
  · rw [hch] at hchanges
    exact .inr ⟨queue.log.length, by simp, by simp [hc], hchanges⟩

theorem inv_finish {i : ℕ} {o : Operation κ β} {snap : ℕ} {leases effectLeases : Leases} {now : ℕ}
    (hi : Inv s) (ho : s.operations[i]? = some o) (hb : o.began ≤ snap)
    (hsnap : snap ≤ s.queue.log.length) (hc : o.commits = [])
    (h : finish s i o snap leases effectLeases now = some s') :
    Inv s' ∧ Accounted s (.finish i leases effectLeases now) s' := by
  unfold finish at h
  split at h
  · rename_i error hbody
    cases h
    refine ⟨hi.set ⟨le_rfl, ?_⟩, .inl rfl⟩
    rcases body_error hbody with ⟨key, hanswer, hm⟩ | ⟨e, hanswer⟩
    · rw [hanswer]
      exact ⟨hc, snap, hb, hsnap, hm⟩
    · rw [hanswer]
      exact hc
  · rename_i t answer hbody
    cases h
    refine ⟨hi.set ⟨le_rfl, ?_⟩, .inl rfl⟩
    rcases body_abort hbody with ⟨key, rfl, hm⟩ | rfl
    · exact ⟨hc, snap, hb, hsnap, hm⟩
    · exact .inl hc
  · rename_i t answer hbody
    split at h
    · cases h
      exact ⟨hi.set ⟨hb.trans hsnap, hc⟩, .inl rfl⟩
    · obtain ⟨queue, hstep, rfl⟩ := Option.map_eq_some_iff.mp h
      obtain ⟨d, hlog, hout⟩ := outcome_of_commit hi.reachable (hb.trans hsnap) hc hbody hstep
      exact ⟨(hi.other OperationInv.append (by simp) hstep).set ⟨le_rfl, hout _⟩,
        .of_commit ⟨leases, effectLeases, now, rfl⟩ ho rfl hstep⟩

theorem inv_step {l : Label κ β} (hi : Inv s) (h : step s l = some s') :
    Inv s' ∧ Accounted s l s' := by
  cases l with
  | call request =>
    cases h
    exact ⟨hi.add ⟨le_rfl, rfl⟩, .inl rfl⟩
  | begin i =>
    simp only [step] at h
    split at h
    · rename_i o ho
      obtain ⟨hphase, ⟨⟩⟩ := Option.ite_none_right_eq_some.mp h
      have hop := hi.calls o (List.mem_of_getElem? ho)
      unfold OperationInv at hop
      rw [hphase] at hop
      exact ⟨hi.set ⟨hop.1, le_rfl, hop.2⟩, .inl rfl⟩
    · cases h
  | finish i leases effectLeases now =>
    simp only [step] at h
    split at h
    · rename_i o ho
      split at h
      · rename_i snap hphase
        have hop := hi.calls o (List.mem_of_getElem? ho)
        unfold OperationInv at hop
        rw [hphase] at hop
        obtain ⟨hb, hsnap, hc⟩ := hop
        have hle : snap ≤ o.request.snapshot s.queue.log snap ∧
            o.request.snapshot s.queue.log snap ≤ s.queue.log.length := by
          cases o.request with
          | kvPut | kvDelete => exact ⟨hsnap, le_rfl⟩
          | kvCompareThen | effects => exact ⟨le_rfl, hsnap⟩
        exact inv_finish hi ho (hb.trans hle.1) hle.2 hc h
      · cases h
    · cases h
  | other label =>
    refine ⟨?_, .inr (.inl ⟨label, rfl⟩)⟩
    cases label with
    | reopen kept todo =>
      obtain ⟨queue, hstep, rfl⟩ := Option.map_eq_some_iff.mp h
      exact hi.reopen hstep
    | commit | requeue =>
      obtain ⟨queue, hstep, rfl⟩ := Option.map_eq_some_iff.mp h
      exact hi.other OperationInv.append (by simp) hstep

theorem inv_reachable (h : (machine κ β).Reachable s) : Inv s := by
  refine h.invariant ?_ fun s l s' hi hstep => (inv_step hi hstep).1
  rintro _ rfl
  exact ⟨.initial rfl, by simp⟩

/-- A key that has another state and later the expected one was changed to it in between. -/
theorem exists_restore {log : History κ β} {k : κ} {expected : Option β} {n m : ℕ} (hnm : n ≤ m)
    (hn : Log.store (log.take n) (.user k) ≠ expected)
    (hm : Log.store (log.take m) (.user k) = expected) :
    ∃ l, n ≤ l ∧ l < m ∧ Log.store (log.take l) (.user k) ≠ expected ∧
      Log.store (log.take (l + 1)) (.user k) = expected := by
  induction m, hnm using Nat.le_induction with
  | base => exact absurd hm hn
  | succ m hnm ih =>
    by_cases hlast : Log.store (log.take m) (.user k) = expected
    · obtain ⟨l, hl, hlm, hl'⟩ := ih hlast
      exact ⟨l, hl, hlm.trans (Nat.lt_succ_self m), hl'⟩
    · exact ⟨m, hnm, Nat.lt_succ_self m, hlast, hm⟩

/-- In every run, an operation that returned has done what it reports at a point between its
call and its return. Only the commit that it notes is by its own steps. Of two operations that
expect one state of a key, the first of which changes it, both apply only if another
commit between theirs changes the key back. -/
theorem compare_operations_linearizable (h : (machine κ β).Reachable s) :
    (∀ o ∈ s.operations, ∀ answer ended, o.phase = .returned answer ended →
      ended ≤ s.queue.log.length ∧ Outcome s.queue.log o ended answer) ∧
    (∀ l s', step s l = some s' → Accounted s l s') ∧
    ∀ o ∈ s.operations, ∀ p ∈ s.operations, ∀ ended ended' n m, ∀ c : KvCompare κ β,
      o.phase = .returned .applied ended → p.phase = .returned .applied ended' →
      o.commits = [n] → p.commits = [m] → n < m → c ∈ o.request.compares → c ∈ p.request.compares →
      kvAfter o.request.changes c.key c.expected ≠ c.expected →
      ∃ l, n < l ∧ l < m ∧ Log.store (s.queue.log.take l) (.user c.key) ≠ c.expected ∧
        Log.store (s.queue.log.take (l + 1)) (.user c.key) = c.expected := by
  have hi := inv_reachable h
  have hout : ∀ o ∈ s.operations, ∀ answer ended, o.phase = .returned answer ended →
      ended ≤ s.queue.log.length ∧ Outcome s.queue.log o ended answer := by
    intro o ho answer ended hphase
    have hop := hi.calls o ho
    unfold OperationInv at hop
    rw [hphase] at hop
    exact hop
  refine ⟨hout, fun l s' hstep => (inv_step hi hstep).2, ?_⟩
  intro o ho p hp ended ended' n m c hphase hphase' hn hm hnm hco hcp hchange
  obtain ⟨n', -, -, hn', hmatch, hchanges⟩ := (hout o ho _ _ hphase).2
  obtain ⟨m', -, -, hm', hmatch', -⟩ := (hout p hp _ _ hphase').2
  obtain rfl : n' = n := by simpa [hn'] using hn
  obtain rfl : m' = m := by simpa [hm'] using hm
  have hafter := hchanges c.key
  rw [hmatch c hco] at hafter
  exact exists_restore hnm (fun heq => hchange (hafter.symm.trans heq)) (hmatch' c hcp)

/-- Two operations expect that a key is absent and write it. Another call deletes it after the
first has written. -/
def restoredCompare : List (Label ℕ ℕ) :=
  let noLeases : Leases := fun _ _ => none
  [.call (.kvComparePut 1 none 7), .call (.kvComparePut 1 none 8),
    .begin 0, .finish 0 noLeases noLeases 0, .other (.commit (.kvDelete 1) 1),
    .begin 1, .finish 1 noLeases noLeases 0]

structure Summary (κ β : Type) where
  compares : List (KvCompare κ β)
  changes : List (κ × Option β)
  began : ℕ
  phase : Phase κ
  commits : List ℕ
  deriving DecidableEq

def Operation.summary (o : Operation κ β) : Summary κ β :=
  ⟨o.request.compares, o.request.changes, o.began, o.phase, o.commits⟩

theorem restoredCompare_run :
    ∃ s o p, (machine ℕ ℕ).Reachable s ∧ s.operations = [o, p] ∧
      o.summary = ⟨[⟨1, none⟩], [(1, some 7)], 0, .returned .applied 1, [0]⟩ ∧
      p.summary = ⟨[⟨1, none⟩], [(1, some 8)], 0, .returned .applied 3, [2]⟩ := by
  obtain ⟨s, hs, hmap⟩ : ∃ s, (machine ℕ ℕ).run {} restoredCompare = some s ∧
      s.operations.map Operation.summary =
        [⟨[⟨1, none⟩], [(1, some 7)], 0, .returned .applied 1, [0]⟩,
          ⟨[⟨1, none⟩], [(1, some 8)], 0, .returned .applied 3, [2]⟩] :=
    Machine.exists_of_run_any (by decide +kernel)
  obtain ⟨o, rest, hops, ho, hrest⟩ := List.map_eq_cons_iff.mp hmap
  obtain ⟨p, rest', rfl, hp, hnil⟩ := List.map_eq_cons_iff.mp hrest
  rw [List.map_eq_nil_iff] at hnil
  subst hnil
  exact ⟨s, o, p, Machine.reachable_of_run hs rfl, hops, ho, hp⟩

theorem concurrent_compares_both_apply :
    ∃ s o p ended ended' key, ∃ expected : Option ℕ, (machine ℕ ℕ).Reachable s ∧
      s.operations = [o, p] ∧
      o.phase = .returned .applied ended ∧ p.phase = .returned .applied ended' ∧
      o.began < ended' ∧ p.began < ended ∧
      o.request.compares = [⟨key, expected⟩] ∧ p.request.compares = [⟨key, expected⟩] ∧
      kvAfter o.request.changes key expected ≠ expected ∧
      kvAfter p.request.changes key expected ≠ expected := by
  obtain ⟨s, o, p, hreach, hops, ho, hp⟩ := restoredCompare_run
  simp only [Operation.summary, Summary.mk.injEq] at ho hp
  obtain ⟨hco, hcho, hbo, hpho, -⟩ := ho
  obtain ⟨hcp, hchp, hbp, hphp, -⟩ := hp
  refine ⟨s, o, p, 1, 3, 1, none, hreach, hops, hpho, hphp, by omega, by omega, hco, hcp, ?_, ?_⟩
  · rw [hcho]
    decide
  · rw [hchp]
    decide

theorem compare_operations_linearizable_restored :
    ∃ s o p, (machine ℕ ℕ).Reachable s ∧ s.operations = [o, p] ∧
      Outcome s.queue.log o 1 .applied ∧
      ∃ l, 0 < l ∧ l < 2 ∧ Log.store (s.queue.log.take l) (.user 1) ≠ none ∧
        Log.store (s.queue.log.take (l + 1)) (.user 1) = none := by
  obtain ⟨s, o, p, hreach, hops, ho, hp⟩ := restoredCompare_run
  simp only [Operation.summary, Summary.mk.injEq] at ho hp
  obtain ⟨hco, hcho, -, hpho, hno⟩ := ho
  obtain ⟨hcp, -, -, hphp, hnp⟩ := hp
  obtain ⟨hout, -, hrestore⟩ := compare_operations_linearizable hreach
  refine ⟨s, o, p, hreach, hops, (hout o (by simp [hops]) _ _ hpho).2, ?_⟩
  refine hrestore o (by simp [hops]) p (by simp [hops]) 1 3 0 2 ⟨1, none⟩ hpho hphp hno hnp
    (by decide) (by simp [hco]) (by simp [hcp]) ?_
  rw [hcho]
  decide

end Runs

end Taquba.Kv
