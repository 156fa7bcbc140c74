import Taquba.Bounds.Invariant

/-! # No committed write is forgotten

Claims, scans and opens keep what a process knows about its live keys. In a run
whose calls end, after their transaction applied, only with their updates made, a
state without a call in progress has every live key in the reach of its index. A
call that is dropped in between leaves its keys out of reach.
-/

namespace Taquba

open Snapshot Transition

namespace Cursor

variable {K : Type*} [LinearOrder K] {s t : State K} {l : Label K}

theorem step_of_isAttempt (hl : l.isAttempt = true) (h : step s l = some t) :
    t.live = s.live ∧ t.latest = s.latest ∧ t.noted = s.noted ∧ t.minKey = s.minKey ∧
      ∀ a, t.attempt = some (.scanned a) → l = .snapshot ∧ a.snapshot = s.live := by
  cases l with
  | txn | note | commit => cases hl
  | beginClaim n =>
    simp only [step] at h
    split at h
    · cases h
      exact ⟨rfl, rfl, rfl, rfl, by rintro _ ⟨⟩⟩
    · cases h
  | snapshot =>
    simp only [step] at h
    split at h
    · cases h
      refine ⟨rfl, rfl, rfl, rfl, fun a ha => ?_⟩
      cases ha
      exact ⟨rfl, rfl⟩
    · cases h
  | noCandidate =>
    simp only [step] at h
    split at h
    · split at h
      · cases h
        exact ⟨rfl, rfl, rfl, rfl, by rintro _ ⟨⟩⟩
      · cases h
    · cases h
  | conflict =>
    simp only [step] at h
    split at h
    · cases h
      exact ⟨rfl, rfl, rfl, rfl, by rintro _ ⟨⟩⟩
    · cases h
  | advance =>
    simp only [step] at h
    split at h
    · cases h
      refine ⟨rfl, rfl, rfl, rfl, fun a ha => ?_⟩
      split at ha <;> cases ha
    · cases h
  | markEmpty =>
    simp only [step] at h
    split at h
    · cases h
      exact ⟨rfl, rfl, rfl, rfl, by rintro _ ⟨⟩⟩
    · cases h
  | drop =>
    cases h
    exact ⟨rfl, rfl, rfl, rfl, by rintro _ ⟨⟩⟩

end Cursor

namespace Bounds

variable {β : Type} {log : History UserKey β} {awaits : Note → Prop} {queue : QueueName}
  {snap : ℕ} {cursor cursor' : Cursor.State PendingKey} {space : Space}
  {bound : TimeBound.State (Key UserKey)}

section Claims

theorem QueueInv.attempt {l : Cursor.Label PendingKey}
    (h : QueueInv log awaits queue snap cursor) (hl : l.isAttempt = true)
    (hs : Cursor.step cursor l = some cursor') {snap' : ℕ}
    (hsnap : l = .snapshot → snap' = log.length) : QueueInv log awaits queue snap' cursor' := by
  obtain ⟨hlive, hlatest, hnoted, hmin, hatt⟩ := Cursor.step_of_isAttempt hl hs
  constructor
  · exact Cursor.inv_step h.inv hs
  · rw [hlive]
    exact h.live
  · intro a ha
    obtain ⟨rfl, hsame⟩ := hatt a ha
    rw [hsnap rfl, List.take_length, hsame]
    exact ⟨le_rfl, fun key hk => (h.live key).mp hk⟩
  · rw [hmin]
    exact h.minKey
  · intro key hk hn
    rw [Cursor.State.Noted, hlatest, hnoted] at hn
    rw [hlive] at hk
    rw [hlatest]
    exact h.noted key hk hn

theorem store_claimBatch [DecidableEq β] {s s' : Queue.State UserKey β} {keys : List PendingKey}
    {claimIds : List ℕ} {now : ℕ} (hn : keys.Nodup)
    (h : Queue.step s (.commit (.claimBatch queue keys claimIds now) snap) = some s')
    {key : PendingKey} (hk : key ∈ keys)
    (hp : Log.store (s.log.take snap) (.record (.pending queue key)) ≠ none) :
    s'.log.store (.record (.pending queue key)) = none := by
  obtain ⟨-, -, t, delivered, ht, hc, rfl⟩ := Queue.commit_eq_some h
  simp only [Call.attempt] at ht
  obtain ⟨r, hr, -⟩ := Call.committing_eq_some ht
  obtain ⟨⟨as, he, -⟩, hview⟩ := Txn.trace_claimBatch hn hr
  have hbase : t.base = Log.store (s.log.take snap) := he.base
  have hnone := hview key hk
  rw [Txn.view, hbase] at hnone
  have hmem : .record (.pending queue key) ∈ Batch.keys t.writes := by
    by_contra hw
    rw [Store.applyBatch_of_not_mem hw] at hnone
    exact hp hnone
  have hsame := Log.store_eq_of_not_conflicts hc (List.mem_append_left _ hmem)
  simp only [Log.store_append_singleton]
  rw [Store.applyBatch_congr hsame]
  exact hnone

theorem QueueInv.committed {a : Cursor.Scanned PendingKey} {last : PendingKey}
    (h : QueueInv log awaits queue snap cursor) (ha : cursor.attempt = some (.scanned a))
    (hl : a.candidates.getLast? = some last)
    (hgone : ∀ key ∈ a.candidates, log.store (.record (.pending queue key)) = none) :
    QueueInv log awaits queue snap
      { cursor with attempt := some (.committed a.observed last a.drained) } where
  inv := by
    have hinv := h.inv.attempt
    rw [ha] at hinv
    refine Cursor.inv_commit h.inv hinv hl fun key hk => ⟨hk, fun hc => ?_⟩
    exact (h.live key).mp hk (hgone key hc)
  __ := h
  snapshot := nofun

end Claims

section Scans

theorem ScanInv.begin (h : ScanInv log space bound) (now retention : ℕ) :
    ScanInv log space (bound.begin now retention log.length) where
  time := h.time.begin now retention log.length
  gone scan hs := by
    rcases List.mem_append.mp hs with hs | hs
    · exact h.gone scan hs
    · rw [List.mem_singleton.mp hs]
      refine ⟨le_rfl, fun key _ n hn hnone => ?_⟩
      rw [List.take_of_length_le hn] at hnone
      rw [← Bool.not_eq_true]
      exact fun hlive => (Space.isLive_iff.mp hlive).1 hnone

theorem SpaceInv.withScans {bound' : TimeBound.State (Key UserKey)}
    (h : SpaceInv log awaits space bound) (hs : ScanInv log space bound')
    (hu : bound'.unnoted = bound.unnoted) : SpaceInv log awaits space bound' :=
  ⟨hs.time, hs.gone, hu ▸ h.unnoted⟩

variable {i : ℕ} {scan scan' : TimeBound.Scan (Key UserKey)}

theorem ScanInv.setScan (h : ScanInv log space bound)
    (hs : bound.scans[i]? = some scan) (hsnap : scan'.snap = scan.snap)
    (hsince : scan'.since = scan.since)
    (hc : ∀ key, space.isLive log key = true → scan.Covers space.time key →
      scan'.Covers space.time key) :
    ScanInv log space (bound.setScan i scan') where
  time := h.time.setScan hs hc
  gone c hmem := by
    rcases List.mem_or_eq_of_mem_set hmem with hmem | rfl
    · exact h.gone c hmem
    · have hg := h.gone scan (List.mem_of_getElem? hs)
      rw [Gone, hsnap, hsince]
      exact hg

theorem ScanInv.finish (h : ScanInv log space bound) (hs : bound.scans[i]? = some scan)
    {left : TimeBound.Bound} (hl : ∀ key, scan.Covers space.time key → left ≤ space.time key) :
    ScanInv log space (bound.finish i left) where
  time := h.time.finish hs hl
  gone c hmem := h.gone c (List.mem_of_mem_eraseIdx hmem)

theorem mem_spaceKeys {s : State β} {key : Key UserKey}
    (h : space.isLive s.queue.log key = true) : key ∈ s.spaceKeys space := by
  obtain ⟨hs, atMs, c, ht, -⟩ := Space.isLive_iff.mp h
  refine List.mem_filter.mpr ⟨History.mem_keys_of_store hs, ?_⟩
  simp [State.store, Option.isSome_iff_ne_none.mpr hs, ht]

theorem page_snap (time : Key UserKey → ℕ) (keys : List (Key UserKey)) (last : Bool) :
    (scan.page time keys last).snap = scan.snap ∧
      (scan.page time keys last).since = scan.since := by
  unfold TimeBound.Scan.page
  dsimp only
  split <;> exact ⟨rfl, rfl⟩

theorem ScanInv.scanStep {s s' : State β} {op : ScanOp}
    (h : ScanInv s.queue.log space (s.bounds space)) (hs : (s.bounds space).scans[i]? = some scan)
    (hstep : s.scanStep space i scan op = some s') :
    ∃ bound, s' = s.setBound space bound ∧ bound.unnoted = (s.bounds space).unnoted ∧
      ScanInv s.queue.log space bound := by
  cases op with
  | page keys last =>
    simp only [State.scanStep, Option.ite_none_right_eq_some] at hstep
    obtain ⟨hg, ⟨⟩⟩ := hstep
    obtain ⟨-, hsort, -, hrest⟩ := hg
    obtain ⟨hsnap, hsince⟩ := page_snap space.time keys last
    refine ⟨_, rfl, rfl, h.setScan hs hsnap hsince fun key hlive hc => ?_⟩
    exact hc.page hsort fun hsince _ hseen hk =>
      hrest key (mem_spaceKeys hlive) hc.1 hsince hseen hk
  | gone key n =>
    simp only [State.scanStep, Option.ite_none_right_eq_some] at hstep
    obtain ⟨hg, ⟨⟩⟩ := hstep
    refine ⟨_, rfl, rfl, h.setScan hs rfl rfl fun k hlive hc => hc.settle fun hsince he => ?_⟩
    subst he
    have hgone := (h.gone scan (List.mem_of_getElem? hs)).2 k hsince n hg.1
      (Option.isNone_iff_eq_none.mp hg.2)
    rw [hgone] at hlive
    cases hlive
  | keep key =>
    cases hstep
    exact ⟨_, rfl, rfl, h.setScan hs rfl rfl fun k _ hc => hc.retain key⟩
  | complete =>
    simp only [State.scanStep, Option.ite_none_right_eq_some] at hstep
    obtain ⟨hg, ⟨⟩⟩ := hstep
    exact ⟨_, rfl, rfl, h.finish hs fun key hc => hc.retained_le hg.1 hg.2⟩
  | abandon =>
    cases hstep
    exact ⟨_, rfl, rfl, h.finish hs fun key hc => hc.1⟩

end Scans

section Opens

theorem mem_pendingKeys {key : PendingKey} :
    key ∈ State.pendingKeys log queue ↔ log.store (.record (.pending queue key)) ≠ none := by
  rw [State.pendingKeys, Finset.mem_filter, mem_pendingKeys_keys, Option.isSome_iff_ne_none]
  exact ⟨fun h => h.2, fun h => ⟨History.mem_keys_of_store h, h⟩⟩

theorem inv_restored {live : Finset PendingKey} {saved : Cursor.CursorState PendingKey}
    (h : ∀ key ∈ live, saved.knownEmpty = false ∧ Cursor.Yields saved.scanFrom key) :
    Cursor.Inv (restored live saved) := by
  have hs := Cursor.inv_start live
  refine ⟨hs.latest_lt, hs.noted_lt, hs.minKey_lt, hs.minKey_le, fun key hk _ => (h key hk).2, ?_,
    ?_, trivial⟩
  · intro he key hk _
    rw [Cursor.QueueClaimState.knownEmpty_iff] at he
    simp [restored, Cursor.QueueClaimState.restore, (h key hk).1] at he
  · intro e he
    simp only [restored, Cursor.QueueClaimState.restore] at he ⊢
    obtain ⟨-, ⟨⟩⟩ := Option.ite_none_right_eq_some.mp he
    exact le_rfl

theorem inv_opened {q : Queue.State UserKey β}
    {cursors : QueueName → Cursor.CursorState PendingKey}
    {saved : Option (ℕ × (QueueName → Cursor.CursorState PendingKey))} (hq : Queue.Inv q)
    (hr : ∀ queue, Reaches q.log queue (cursors queue))
    (hs : ∀ n cursors, saved = some (n, cursors) → n ≤ q.log.length ∧
      ∀ queue, Reaches (q.log.take n) queue (cursors queue)) :
    Inv (State.opened q cursors saved) where
  queue := hq
  queues queue := by
    constructor
    · exact inv_restored fun key hk => hr queue key (mem_pendingKeys.mp hk)
    · exact fun key => mem_pendingKeys
    · exact nofun
    · rintro i m ⟨call, hc, -⟩
      cases hc
    · exact fun key _ hn => absurd (Finset.mem_singleton.mpr rfl) hn
  spaces space := ⟨TimeBound.inv_init _ _, nofun, nofun⟩
  saved := hs

theorem reaches_new (log : History UserKey β) (queue : QueueName) : Reaches log queue {} :=
  fun _ _ => ⟨rfl, trivial⟩

/-- With every pending key noted, a claim misses none. -/
theorem QueueInv.reaches_of_noted (h : QueueInv log awaits queue snap cursor)
    (hn : ∀ key ∈ cursor.live, cursor.Noted key) :
    Reaches log queue cursor.cursor.exportState := by
  intro key hk
  have hmem := (h.live key).mpr hk
  refine ⟨?_, h.inv.bound key hmem (hn key hmem)⟩
  by_contra he
  exact h.inv.empty (by simpa [Cursor.QueueClaimState.exportState] using he) key hmem
    (hn key hmem)

/-- With every update made, every pending key is noted. -/
theorem QueueInv.noted_of_nil (h : QueueInv log (Awaits []) queue snap cursor) :
    ∀ key ∈ cursor.live, cursor.Noted key := by
  intro key hmem
  by_contra hn
  obtain ⟨m, call, hc, -⟩ := h.noted key hmem hn
  cases hc

theorem QueueInv.reaches (h : QueueInv log (Awaits []) queue snap cursor) :
    Reaches log queue cursor.cursor.exportState :=
  h.reaches_of_noted h.noted_of_nil

end Opens

section Calls

variable {s : State β}

theorem awaits_set {calls : List InProgress} {i : ℕ} {call call' : InProgress}
    (hc : calls[i]? = some call) {note : Note} (h : Awaits calls note)
    (hn : note ∈ call.todo → note ∈ call'.todo) : Awaits (calls.set i call') note := by
  obtain ⟨d, hd, hnote⟩ := h
  rcases List.mem_set_of_mem hd hc with rfl | hd'
  · exact ⟨call', List.mem_set (List.getElem?_eq_some_iff.mp hc).1 _, hn hnote⟩
  · exact ⟨d, hd', hnote⟩

theorem awaits_of_set {calls : List InProgress} {i : ℕ} {call call' : InProgress}
    (hc : calls[i]? = some call) {note : Note} (h : Awaits (calls.set i call') note)
    (hn : call'.todo ⊆ call.todo) : Awaits calls note := by
  obtain ⟨d, hd, hnote⟩ := h
  rcases List.mem_or_eq_of_mem_set hd with hd | rfl
  · exact ⟨d, hd, hnote⟩
  · exact ⟨call, List.mem_of_getElem? hc, hn hnote⟩

theorem inv_removeCall {i : ℕ} {call : InProgress} (hi : Inv s) (hc : s.calls[i]? = some call)
    (htodo : call.todo = []) : Inv (s.removeCall i) := by
  refine hi.withCalls fun note => ⟨?_, ?_⟩
  · rintro ⟨d, hd, hnote⟩
    exact ⟨d, List.mem_of_mem_eraseIdx hd, hnote⟩
  · rintro ⟨d, hd, hnote⟩
    rcases List.mem_eraseIdx_of_mem hd hc with rfl | hd'
    · simp [htodo] at hnote
    · exact ⟨d, hd', hnote⟩

end Calls

section Step

variable [DecidableEq β] {s s' : State β}

/-- What a commit does: one transaction at the end of the log. -/
theorem commit_performs {l : Queue.Label UserKey β} {durability : Durability}
    (hi : Queue.Inv s.queue) (hl : ∀ kept todo, l ≠ .reopen kept todo)
    (h : s.commit l durability = some s') :
    ∃ q c as, Queue.step s.queue l = some q ∧ q.log = s.queue.log ++ [c] ∧
      Performs s.queue.log c as ∧ s' = s.committed q c durability := by
  obtain ⟨q, hq, h⟩ := Option.bind_eq_some_iff.mp h
  obtain ⟨c, hc, rfl⟩ := Option.map_eq_some_iff.mp h
  obtain ⟨-, -, d, as, -, hlog, -, hp, -⟩ := Queue.step_traces hi hq hl
  obtain rfl : d = c := by simpa [hlog] using hc
  exact ⟨q, d, as, hq, hlog, hp, rfl⟩

theorem commit_eq_some {l : Queue.Label UserKey β} {durability : Durability} (hi : Inv s)
    (hl : ∀ kept todo, l ≠ .reopen kept todo) (h : s.commit l durability = some s') :
    ∃ q c, Queue.step s.queue l = some q ∧ q.log = s.queue.log ++ [c] ∧ Inv s' ∧
      s' = s.committed q c durability := by
  obtain ⟨q, c, as, hq, hlog, hp, rfl⟩ := commit_performs hi.queue hl h
  exact ⟨q, c, hq, hlog, inv_committed hi (Queue.inv_step hi.queue hq) hlog hp, rfl⟩

theorem inv_claimCommit {claimIds : List ℕ} {now : ℕ} (hi : Inv s)
    (h : step s (.claimCommit queue claimIds now) = some s') : Inv s' := by
  simp only [step] at h
  split at h
  · rename_i a ha
    obtain ⟨last, hlast, h⟩ := Option.bind_eq_some_iff.mp h
    obtain ⟨s₁, h₁, rfl⟩ := Option.map_eq_some_iff.mp h
    obtain ⟨q, c, hq, hlog, hi₁, rfl⟩ := commit_eq_some hi (by simp) h₁
    have hinv := (hi.queues queue).inv.attempt
    rw [ha] at hinv
    have hcand : (Cursor.scan a.observed.scanFrom a.maxJobs a.snapshot).1 = a.candidates := by
      rw [hinv.scan_eq]
    have hnodup : a.candidates.Nodup := hcand ▸ Cursor.nodup_candidates _ _ _
    obtain ⟨dirty, hatt⟩ : ∃ dirty, ((s.committed q c .deferred).cursors queue).attempt =
        some (.scanned { a with dirty }) := by
      simp only [State.committed, commitCursor, Cursor.State.applyTxn, ha, Option.map_some]
      exact ⟨_, rfl⟩
    have hsnap := (hi.queues queue).snapshot a ha
    have hgone : ∀ key ∈ a.candidates, q.log.store (.record (.pending queue key)) = none :=
      fun key hk => store_claimBatch hnodup hq hk
        (hsnap.2 key (Cursor.mem_of_mem_candidates (hcand ▸ hk)).1)
    exact hi₁.withCursor ((hi₁.queues queue).committed (a := { a with dirty }) hatt hlast hgone)
      fun _ _ => rfl
  · cases h

/-- A call is dropped, or its wait fails, after its transaction applied only when it
has no update to make. -/
def KeepsUpdates (s : State β) : Label β → Prop
  | .drop i | .fail i => ∀ call, s.calls[i]? = some call → call.todo = []
  | _ => True

theorem inv_note {i j : ℕ} (hi : Inv s) (h : step s (.note i j) = some s') : Inv s' := by
  obtain ⟨call, hc, h⟩ := Option.bind_eq_some_iff.mp h
  obtain ⟨-, h⟩ := Option.ite_none_right_eq_some.mp h
  obtain ⟨note, hnote, rfl⟩ := Option.map_eq_some_iff.mp h
  have hcalls : (s.applyNote note).calls = s.calls := by cases note <;> rfl
  have hmem : Awaits s.calls note :=
    ⟨call, List.mem_of_getElem? hc, List.mem_of_getElem? hnote⟩
  rw [State.setCall, hcalls]
  refine inv_applyNote hi hmem (fun n hn => ?_) fun n hn hne => ?_
  · exact awaits_of_set hc hn fun x hx => List.mem_of_mem_eraseIdx hx
  · exact awaits_set hc hn fun hn =>
      (List.mem_eraseIdx_of_mem hn hnote).resolve_left hne

theorem log_reopen {q q' : Queue.State UserKey β} {kept : ℕ}
    {todo : List JobRecord} (h : Queue.step q (.reopen kept todo) = some q') :
    q'.log = q.log.take kept := by
  simp only [Queue.step, Option.ite_none_right_eq_some] at h
  obtain ⟨-, ⟨⟩⟩ := h
  rfl

theorem inv_reopen {kept : ℕ} {todo : List JobRecord} {restoring : Bool} (hi : Inv s)
    (h : step s (.reopen kept todo restoring) = some s') : Inv s' := by
  have hlog : ∀ q, Queue.step s.queue (.reopen kept todo) = some q →
      Queue.Inv q ∧ q.log = s.queue.log.take kept := fun q hq =>
    ⟨Queue.inv_step hi.queue hq, log_reopen hq⟩
  simp only [step] at h
  split at h
  · obtain ⟨-, h⟩ := Option.ite_none_left_eq_some.mp h
    obtain ⟨q, hq, rfl⟩ := Option.map_eq_some_iff.mp h
    exact inv_opened (hlog q hq).1 (reaches_new q.log) nofun
  · rename_i n cursors hsaved
    obtain ⟨hg, h⟩ := Option.ite_none_left_eq_some.mp h
    obtain ⟨q, hq, rfl⟩ := Option.map_eq_some_iff.mp h
    obtain ⟨hqi, hql⟩ := hlog q hq
    obtain ⟨hle, hr⟩ := hi.saved n cursors hsaved
    simp only [not_or, not_and, not_not, not_lt] at hg
    refine inv_opened hqi ?_ fun n' cursors' hs => ?_
    · intro queue
      split_ifs with hrest
      · rw [hql, hg.2 hrest]
        exact hr queue
      · exact reaches_new q.log queue
    · obtain ⟨hkept, hs⟩ := Option.ite_none_right_eq_some.mp hs
      rw [hsaved] at hs
      cases hs
      rw [hql, hkept, List.take_take, min_self, List.length_take]
      exact ⟨by omega, hr⟩

theorem inv_step {l : Label β} (hi : Inv s) (hl : KeepsUpdates s l) (h : step s l = some s') :
    Inv s' := by
  cases l with
  | commit call snap durability =>
    simp only [step, Option.ite_none_left_eq_some] at h
    obtain ⟨-, h⟩ := h
    obtain ⟨-, -, -, -, hi', -⟩ := commit_eq_some hi (by simp) h
    exact hi'
  | requeue now =>
    obtain ⟨-, -, -, -, hi', -⟩ := commit_eq_some hi (by simp) h
    exact hi'
  | returned i =>
    obtain ⟨call, hc, rfl⟩ := Option.map_eq_some_iff.mp h
    exact hi.withCalls fun note =>
      ⟨fun hn => awaits_of_set hc hn (List.Subset.refl _), fun hn => awaits_set hc hn id⟩
  | fail i =>
    obtain ⟨call, hc, h⟩ := Option.bind_eq_some_iff.mp h
    obtain ⟨-, ⟨⟩⟩ := Option.ite_none_right_eq_some.mp h
    exact inv_removeCall hi hc (hl call hc)
  | drop i =>
    obtain ⟨call, hc, h⟩ := Option.bind_eq_some_iff.mp h
    obtain ⟨-, ⟨⟩⟩ := Option.ite_none_right_eq_some.mp h
    exact inv_removeCall hi hc (hl call hc)
  | note i j => exact inv_note hi h
  | finish i =>
    obtain ⟨call, hc, h⟩ := Option.bind_eq_some_iff.mp h
    obtain ⟨hg, ⟨⟩⟩ := Option.ite_none_right_eq_some.mp h
    exact inv_removeCall hi hc hg.2
  | claim queue l =>
    simp only [step, Option.ite_none_right_eq_some, Option.map_eq_some_iff] at h
    obtain ⟨hatt, cursor, hc, rfl⟩ := h
    refine hi.withCursor ((hi.queues queue).attempt hatt hc ?_) ?_
    · rintro rfl
      simp
    · intro q hq
      split
      · simp [hq]
      · rfl
  | claimCommit queue claimIds now => exact inv_claimCommit hi h
  | beginScan space loaded now retention =>
    simp only [step, Option.ite_none_right_eq_some] at h
    obtain ⟨-, ⟨⟩⟩ := h
    have hsp := hi.spaces space
    exact hi.withBound (hsp.withScans (hsp.scans.begin now retention) rfl)
  | scan space i op =>
    obtain ⟨scan, hs, h⟩ := Option.bind_eq_some_iff.mp h
    have hsp := hi.spaces space
    obtain ⟨bound, rfl, hu, hb⟩ := hsp.scans.scanStep hs h
    exact hi.withBound (hsp.withScans hb hu)
  | close todo =>
    simp only [step, Option.ite_none_right_eq_some, Option.map_eq_some_iff] at h
    obtain ⟨hg, q, hq, rfl⟩ := h
    have hr : ∀ queue, Reaches s.queue.log queue (s.cursors queue).cursor.exportState := by
      intro queue
      have := hi.queues queue
      rw [hg.1] at this
      exact this.reaches
    have hqi := Queue.inv_step hi.queue hq
    have hql : q.log = s.queue.log := by simpa using log_reopen hq
    refine inv_opened hqi (hql ▸ hr) fun n cursors hs => ?_
    cases hs
    rw [hql, List.take_length]
    exact ⟨le_rfl, hr⟩
  | reopen kept todo restoring => exact inv_reopen hi h

omit [DecidableEq β] in
theorem inv_init : Inv ({} : State β) := by
  have hq : Queue.Inv ({} : Queue.State UserKey β) := ⟨.nil, by simp, by simp⟩
  exact inv_opened hq (reaches_new _) (by rintro _ _ ⟨⟩)

theorem inv_reachable (h : (machine β).ReachableVia KeepsUpdates s) : Inv s := by
  refine h.invariant ?_ fun s l s' => inv_step
  rintro _ rfl
  exact inv_init

/-- In a run whose calls end only with their updates made, a state without a call in
progress has every live key in reach. A queue with a pending key is not known empty
and a claim's scan yields the key. The bound of a space is at or below the time of
each of its live keys; the entries of an expiry index are those recorded there. -/
theorem committed_writes_in_reach (h : (machine β).ReachableVia KeepsUpdates s) (hq : s.Quiet) :
    (∀ queue key, s.store (.record (.pending queue key)) ≠ none →
      (s.cursors queue).cursor.knownEmpty = false ∧
        key ∈ Cursor.iter (s.cursors queue).cursor.scanFrom (s.cursors queue).live) ∧
    (∀ runAt queue id, s.store (.record (.scheduled runAt queue id)) ≠ none →
      (s.bounds .scheduled).bound ≤ runAt) ∧
    (∀ completedAt queue id, s.store (.record (.done completedAt queue id)) ≠ none →
      (s.bounds .done).bound ≤ completedAt) ∧
    (∀ appliedAt queue id, s.store (.inboxExpiry appliedAt queue id) ≠ none →
      (s.bounds .inbox).bound ≤ appliedAt) ∧
    ∀ (index : ExpiryIndex) (key : UserKey) (atMs : ℕ) (suffix : UserKey),
      index.parse key = some (atMs, suffix) →
      (Space.expiry index).isLive s.queue.log (.user key) = true →
      (s.bounds (.expiry index)).bound ≤ atMs := by
  have hi := inv_reachable h
  obtain ⟨hcalls, -, hscans⟩ := hq
  have hbound : ∀ (space : Space) key, space.isLive s.queue.log key = true →
      (s.bounds space).bound ≤ space.time key := by
    intro space key hlive
    refine (hi.spaces space).time.bound_le ?_ (hscans space) hlive
    refine Finset.eq_empty_of_forall_notMem fun k hk => ?_
    obtain ⟨atMs, ⟨call, hc, -⟩, -⟩ := (hi.spaces space).unnoted k hk
    simp [hcalls] at hc
  have hlive : ∀ (space : Space) key atMs, s.store key ≠ none → space.time? key = some atMs →
      (∀ notes, space.records notes atMs = true) → space.isLive s.queue.log key = true := by
    intro space key atMs hs ht hr
    obtain ⟨c, hc⟩ := Log.exists_lastWriter hs
    exact Space.isLive_iff.mpr ⟨hs, atMs, c, ht, hc, hr _⟩
  refine ⟨fun queue key hk => ?_, ?_, ?_, ?_, ?_⟩
  · have hqueue := hi.queues queue
    rw [hcalls] at hqueue
    obtain ⟨hne, hy⟩ := hqueue.reaches key hk
    exact ⟨hne, Cursor.mem_iter.mpr ⟨(hqueue.live key).mpr hk, hy⟩⟩
  · exact fun runAt queue id hk => hbound .scheduled _ (hlive _ _ runAt hk rfl fun _ => rfl)
  · exact fun completedAt queue id hk =>
      hbound .done _ (hlive _ _ completedAt hk rfl fun _ => rfl)
  · exact fun appliedAt queue id hk => hbound .inbox _ (hlive _ _ appliedAt hk rfl fun _ => rfl)
  · intro index key atMs suffix hp hl
    have := hbound (.expiry index) _ hl
    simpa [Space.time, Space.time?, hp] using this

end Step

section Dropped

/-- The other queues have no claim in progress, and the spaces no scan. -/
def Idle (s : State β) (queue : QueueName) : Prop :=
  (∀ q ≠ queue, (s.cursors q).attempt = none) ∧ ∀ space, (s.bounds space).scans = []

def Label.isOn (queue : QueueName) : Label β → Bool
  | .claim q _ => q = queue
  | .commit _ _ _ | .returned _ | .drop _ | .note _ _ | .finish _ => true
  | _ => false

variable [DecidableEq β] {s s' : State β}

theorem idle_commit {l : Queue.Label UserKey β} {durability : Durability} (hi : Idle s queue)
    (h : s.commit l durability = some s') : Idle s' queue := by
  obtain ⟨q, -, h⟩ := Option.bind_eq_some_iff.mp h
  obtain ⟨c, -, rfl⟩ := Option.map_eq_some_iff.mp h
  constructor
  · intro q hq
    simp [State.committed, commitCursor, Cursor.State.applyTxn, hi.1 q hq]
  · intro space
    simp [State.committed, TimeBound.State.commit, hi.2 space]

omit [DecidableEq β] in
theorem idle_applyNote (hi : Idle s queue) (note : Note) : Idle (s.applyNote note) queue := by
  cases note with
  | pending q i m =>
    refine ⟨(Function.forall_update_iff s.cursors fun q c => q ≠ queue → c.attempt = none).mpr
      ⟨hi.1 q, fun q' _ => hi.1 q'⟩, hi.2⟩
  | time space atMs =>
    exact ⟨hi.1, (Function.forall_update_iff s.bounds fun _ b => b.scans = []).mpr
      ⟨hi.2 space, fun sp _ => hi.2 sp⟩⟩

theorem idle_step {l : Label β} (hl : l.isOn queue = true) (hi : Idle s queue)
    (h : step s l = some s') : Idle s' queue := by
  cases l with
  | commit call snap durability =>
    simp only [step, Option.ite_none_left_eq_some] at h
    obtain ⟨-, h⟩ := h
    exact idle_commit hi h
  | returned i =>
    obtain ⟨call, -, rfl⟩ := Option.map_eq_some_iff.mp h
    exact hi
  | drop i | finish i =>
    obtain ⟨call, -, h⟩ := Option.bind_eq_some_iff.mp h
    obtain ⟨-, ⟨⟩⟩ := Option.ite_none_right_eq_some.mp h
    exact hi
  | note i j =>
    obtain ⟨call, -, h⟩ := Option.bind_eq_some_iff.mp h
    obtain ⟨-, h⟩ := Option.ite_none_right_eq_some.mp h
    obtain ⟨note, -, rfl⟩ := Option.map_eq_some_iff.mp h
    exact idle_applyNote hi note
  | claim q l =>
    obtain rfl : q = queue := by simpa [Label.isOn] using hl
    simp only [step, Option.ite_none_right_eq_some, Option.map_eq_some_iff] at h
    obtain ⟨-, cursor, -, rfl⟩ := h
    refine ⟨fun q' hq => ?_, hi.2⟩
    simp only [State.setCursor, Function.update_of_ne hq]
    exact hi.1 q' hq
  | _ => cases hl

theorem idle_run {ls : List (Label β)} (hl : ∀ l ∈ ls, l.isOn queue = true) (hi : Idle s queue)
    (h : (machine β).run s ls = some s') : Idle s' queue := by
  induction ls generalizing s with
  | nil =>
    cases h
    exact hi
  | cons l ls ih =>
    obtain ⟨t, ht, h⟩ := Option.bind_eq_some_iff.mp h
    exact ih (fun l' hl' => hl l' (.tail _ hl')) (idle_step (hl l (.head _)) hi ht) h

/-- A run that only calls, and claims from `queue`, is quiet when these are done. -/
theorem quiet_of_run {ls : List (Label β)} (hl : ∀ l ∈ ls, l.isOn queue = true)
    (h : (machine β).run {} ls = some s) (hcalls : s.calls.isEmpty = true)
    (hatt : (s.cursors queue).attempt.isNone = true) : s.Quiet := by
  obtain ⟨hothers, hscans⟩ := idle_run hl ⟨fun _ _ => rfl, fun _ => rfl⟩ h
  refine ⟨List.isEmpty_iff.mp hcalls, fun q => ?_, hscans⟩
  by_cases hq : q = queue
  · rw [hq]
    exact Option.isNone_iff_eq_none.mp hatt
  · exact hothers q hq

/-- A claim finds the queue empty, and then the transaction of an enqueue applies. -/
def enqueueAfterEmptyClaim : List (Label ℕ) :=
  [.claim Queue.emails (.beginClaim 1), .claim Queue.emails .snapshot,
    .claim Queue.emails .noCandidate,
      .commit (.enqueue (fun _ _ => none) Queue.welcome {}) 0 .awaited]

/-- The future of the enqueue is dropped while it waits for durability. No call is in
progress and the job is pending, but its queue is known empty and is not scanned. -/
theorem dropped_enqueue_out_of_reach :
    ∃ s, (machine ℕ).run {} (enqueueAfterEmptyClaim ++ [.drop 0]) = some s ∧ s.Quiet ∧
      s.store (.record (.pending Queue.emails ⟨0, 5, "a"⟩)) ≠ none ∧
      (s.cursors Queue.emails).cursor.knownEmpty = true := by
  obtain ⟨s, hs, hcalls, hatt, hjob, hempty⟩ :
      ∃ s, (machine ℕ).run {} (enqueueAfterEmptyClaim ++ [.drop 0]) = some s ∧
      s.calls.isEmpty = true ∧ (s.cursors Queue.emails).attempt.isNone = true ∧
      (s.store (.record (.pending Queue.emails ⟨0, 5, "a"⟩))).isSome = true ∧
      (s.cursors Queue.emails).cursor.knownEmpty = true :=
    Machine.exists_of_run_any (by decide +kernel)
  refine ⟨s, hs, quiet_of_run ?_ hs hcalls hatt, Option.isSome_iff_ne_none.mp hjob, hempty⟩
  simp [enqueueAfterEmptyClaim, Label.isOn]

/-- The same enqueue makes its update: a claim's scan yields the job. -/
theorem committed_writes_in_reach_of_enqueue :
    ∃ s, (machine ℕ).run {} (enqueueAfterEmptyClaim ++ [.returned 0, .note 0 0, .finish 0]) =
        some s ∧ s.Quiet ∧ s.store (.record (.pending Queue.emails ⟨0, 5, "a"⟩)) ≠ none ∧
      (s.cursors Queue.emails).cursor.knownEmpty = false := by
  obtain ⟨s, hs, hcalls, hatt, hjob⟩ : ∃ s, (machine ℕ).run {}
        (enqueueAfterEmptyClaim ++ [.returned 0, .note 0 0, .finish 0]) = some s ∧
      s.calls.isEmpty = true ∧ (s.cursors Queue.emails).attempt.isNone = true ∧
      (s.store (.record (.pending Queue.emails ⟨0, 5, "a"⟩))).isSome = true :=
    Machine.exists_of_run_any (by decide +kernel)
  have hquiet : s.Quiet :=
    quiet_of_run (by simp [enqueueAfterEmptyClaim, Label.isOn]) hs hcalls hatt
  have hreach : (machine ℕ).ReachableVia KeepsUpdates s :=
    (Machine.ReachableVia.init (T := machine ℕ) rfl).run hs
      (by simp [enqueueAfterEmptyClaim, KeepsUpdates])
  have hjob := Option.isSome_iff_ne_none.mp hjob
  exact ⟨s, hs, hquiet, hjob, ((committed_writes_in_reach hreach hquiet).1 _ _ hjob).1⟩

end Dropped

end Bounds

end Taquba
