import Taquba.Cursor.Claims

/-! # The scan bound covers every noted key

What an attempt in flight knows about the inserts noted since it read the bound,
and the invariant of every run: noted live keys are yielded by a scan from the
bound, and a queue known empty has only keys whose note is outstanding.
-/

namespace Taquba.Cursor

open Transition State

variable {K : Type*} [LinearOrder K]
variable {observed : ClaimScanStart K}

/-- While an attempt is in flight the bound only moves back, never to a bound it
had before, and it stays where it was as long as the epoch does. -/
structure InFlight (s : State K) (observed : ClaimScanStart K) : Prop where
  notEmpty : s.cursor.knownEmpty = false
  epoch_le : observed.epoch ≤ s.cursor.epoch
  scanFrom_eq : s.cursor.epoch = observed.epoch → s.cursor.scanFrom = observed.scanFrom
  yields : ∀ k, Yields observed.scanFrom k → Yields s.cursor.scanFrom k
  moved : s.cursor.scanFrom ≠ observed.scanFrom →
    ∃ k, Yields s.cursor.scanFrom k ∧ ¬ Yields observed.scanFrom k

/-- What holds of an undecided attempt. A noted live key the scan does not know of
was noted after the bound was read, and then either moved the bound or is
remembered ahead of it. -/
structure ScannedInv (s : State K) (a : Scanned K) : Prop where
  flight : InFlight s a.observed
  maxJobs_pos : 0 < a.maxJobs
  scan_eq : scan a.observed.scanFrom a.maxJobs a.snapshot = (a.candidates, a.drained)
  covered : ∀ k ∈ a.snapshot, a.latest k ∈ a.notedAtBegin → Yields a.observed.scanFrom k
  ahead : s.cursor.scanFrom = a.observed.scanFrom → ∀ k ∈ s.live, s.Noted k →
    (k ∈ a.snapshot ∧ Yields a.observed.scanFrom k) ∨
      ∃ m, s.cursor.minInsertAhead = some m ∧ m ≤ k
  still : s.cursor.epoch = a.observed.epoch → ∀ k ∈ s.live, s.Noted k →
    k ∈ a.snapshot ∧ Yields a.observed.scanFrom k

/-- What holds of the attempt that has the claim lock, by its progress. -/
def AttemptInv (s : State K) : Option (Attempt K) → Prop
  | none => True
  | some (.begun observed maxJobs notedAtBegin) =>
    InFlight s observed ∧ 0 < maxJobs ∧ notedAtBegin ⊆ s.noted ∧
      ∀ k ∈ s.live, s.latest k ∈ notedAtBegin → Yields observed.scanFrom k
  | some (.scanned a) => ScannedInv s a
  | some (.committed observed last drained) =>
    InFlight s observed ∧
    (s.cursor.scanFrom = observed.scanFrom → ∀ k ∈ s.live, s.Noted k →
      last < k ∨ ∃ m, s.cursor.minInsertAhead = some m ∧ m ≤ k) ∧
    (drained = true → s.cursor.epoch = observed.epoch → ∀ k ∈ s.live, ¬ s.Noted k)
  | some (.advanced observed) =>
    s.cursor.knownEmpty = false ∧ observed.epoch ≤ s.cursor.epoch ∧
      (s.cursor.epoch = observed.epoch → ∀ k ∈ s.live, ¬ s.Noted k)

structure Inv (s : State K) : Prop where
  latest_lt : ∀ k, s.latest k < s.next
  noted_lt : ∀ i ∈ s.noted, i < s.next
  minKey_lt : ∀ i m, s.minKey i = some m → i < s.next
  minKey_le : ∀ k ∈ s.live, ∀ m, s.minKey (s.latest k) = some m → m ≤ k
  bound : ∀ k ∈ s.live, s.Noted k → Yields s.cursor.scanFrom k
  empty : s.cursor.knownEmpty = true → ∀ k ∈ s.live, ¬ s.Noted k
  emptyAsOf_le : ∀ e, s.cursor.emptyAsOf = some e → e ≤ s.cursor.epoch
  attempt : AttemptInv s s.attempt

theorem inv_start (live : Finset K) : Inv (State.start live) where
  latest_lt _ := Nat.one_pos
  noted_lt i hi := by simp_all [State.start]
  minKey_lt i m h := by simp [State.start] at h
  minKey_le k _ m h := by simp [State.start] at h
  bound k _ _ := trivial
  empty h := by simp [State.start, QueueClaimState.knownEmpty] at h
  emptyAsOf_le e h := by simp [State.start] at h
  attempt := trivial

section Txn

variable {s : State K} {inserted removed : Finset K} {minKey : Option K}

theorem not_mem_inserted_of_noted (hi : Inv s) {k : K}
    (h : (s.applyTxn inserted removed minKey).Noted k) : k ∉ inserted := by
  intro hk
  simp only [State.Noted, applyTxn, hk, if_true] at h
  exact lt_irrefl _ (hi.noted_lt _ h)

theorem noted_of_applyTxn (hi : Inv s) {k : K} (hk : k ∈ (s.applyTxn inserted removed minKey).live)
    (h : (s.applyTxn inserted removed minKey).Noted k) : k ∈ s.live ∧ s.Noted k := by
  have hn := not_mem_inserted_of_noted hi h
  simp only [applyTxn, Finset.mem_union, Finset.mem_sdiff, hn, or_false] at hk
  simp only [State.Noted, applyTxn, hn, if_false] at h
  exact ⟨hk.1, h⟩

theorem minKey_le_smallest {m k : K} (h : smallest inserted = some m) (hk : k ∈ inserted) :
    m ≤ k := by
  unfold smallest at h
  split at h
  · cases h
    exact inserted.min'_le k hk
  · cases h

theorem InFlight.of_cursor_eq {t : State K} (h : InFlight s observed) (ht : t.cursor = s.cursor) :
    InFlight t observed := by
  obtain ⟨h₁, h₂, h₃, h₄, h₅⟩ := h
  constructor <;> rwa [ht]

theorem attemptInv_applyTxn (hi : Inv s) :
    AttemptInv (s.applyTxn inserted removed minKey)
      (s.applyTxn inserted removed minKey).attempt := by
  have hinv := hi.attempt
  change AttemptInv _ (s.attempt.map (Attempt.touch (inserted ∪ removed)))
  match hatt : s.attempt with
  | none => trivial
  | some (.begun observed maxJobs notedAtBegin) =>
    rw [hatt] at hinv
    obtain ⟨hf, hpos, hsub, hcov⟩ := hinv
    refine ⟨hf.of_cursor_eq rfl, hpos, hsub, fun k hk hl => ?_⟩
    have hnoted : (s.applyTxn inserted removed minKey).Noted k := hsub hl
    have hn := not_mem_inserted_of_noted hi hnoted
    simp only [applyTxn, hn, if_false] at hl
    exact hcov k (noted_of_applyTxn hi hk hnoted).1 hl
  | some (.scanned a) =>
    rw [hatt] at hinv
    refine { hinv with flight := hinv.flight.of_cursor_eq rfl, ahead := ?_, still := ?_ }
    · intro he k hk hn
      obtain ⟨hk, hn⟩ := noted_of_applyTxn hi hk hn
      exact hinv.ahead he k hk hn
    · intro he k hk hn
      obtain ⟨hk, hn⟩ := noted_of_applyTxn hi hk hn
      exact hinv.still he k hk hn
  | some (.committed observed last drained) =>
    rw [hatt] at hinv
    obtain ⟨hf, hahead, hdrained⟩ := hinv
    refine ⟨hf.of_cursor_eq rfl, ?_, ?_⟩
    · intro he k hk hn
      obtain ⟨hk, hn⟩ := noted_of_applyTxn hi hk hn
      exact hahead he k hk hn
    · intro hd he k hk hn
      obtain ⟨hk, hn⟩ := noted_of_applyTxn hi hk hn
      exact hdrained hd he k hk hn
  | some (.advanced observed) =>
    rw [hatt] at hinv
    refine ⟨hinv.1, hinv.2.1, fun he k hk hn => ?_⟩
    obtain ⟨hk, hn⟩ := noted_of_applyTxn hi hk hn
    exact hinv.2.2 he k hk hn

theorem inv_applyTxn (hi : Inv s) (hmin : ∀ m, minKey = some m → ∀ k ∈ inserted, m ≤ k) :
    Inv (s.applyTxn inserted removed minKey) where
  latest_lt k := by
    simp only [applyTxn]
    split
    · exact Nat.lt_succ_self _
    · exact (hi.latest_lt k).trans (Nat.lt_succ_self _)
  noted_lt i h := (hi.noted_lt i h).trans (Nat.lt_succ_self _)
  minKey_lt i m h := by
    simp only [applyTxn] at h ⊢
    by_cases hin : i = s.next
    · omega
    · rw [Function.update_of_ne hin] at h
      exact (hi.minKey_lt i m h).trans (Nat.lt_succ_self _)
  minKey_le k hk m h := by
    by_cases hins : k ∈ inserted
    · simp only [applyTxn, hins, if_true, Function.update_self] at h
      exact hmin m h k hins
    · simp only [applyTxn, Finset.mem_union, Finset.mem_sdiff, hins, or_false] at hk
      simp only [applyTxn, hins, if_false] at h
      rw [Function.update_of_ne (hi.latest_lt k).ne] at h
      exact hi.minKey_le k hk.1 m h
  bound k hk hn := by
    obtain ⟨hk, hn⟩ := noted_of_applyTxn hi hk hn
    exact hi.bound k hk hn
  empty he k hk hn := by
    obtain ⟨hk, hn⟩ := noted_of_applyTxn hi hk hn
    exact hi.empty he k hk hn
  emptyAsOf_le := hi.emptyAsOf_le
  attempt := attemptInv_applyTxn hi

end Txn

section Note

variable {s : State K} {i : ℕ} {m : K}

theorem noted_applyNote {k : K} : (s.applyNote i m).Noted k ↔ s.latest k = i ∨ s.Noted k := by
  simp [State.Noted, applyNote]

theorem knownEmpty_applyNote (hi : Inv s) : (s.applyNote i m).cursor.knownEmpty = false := by
  rw [Bool.eq_false_iff, ne_eq, QueueClaimState.knownEmpty_iff]
  simp only [applyNote, QueueClaimState.notePendingInserts_emptyAsOf,
    QueueClaimState.notePendingInserts_epoch]
  intro h
  have := hi.emptyAsOf_le _ h
  omega

theorem InFlight.applyNote (h : InFlight s observed) (hi : Inv s) :
    InFlight (s.applyNote i m) observed where
  notEmpty := knownEmpty_applyNote hi
  epoch_le := by
    have := h.epoch_le
    simp only [State.applyNote, QueueClaimState.notePendingInserts_epoch]
    omega
  scanFrom_eq he := by
    have := h.epoch_le
    simp only [State.applyNote, QueueClaimState.notePendingInserts_epoch] at he
    omega
  yields k hk :=
    QueueClaimState.yields_notePendingInserts_of_yields (fun _ => h.notEmpty) (h.yields k hk)
  moved hne := by
    by_cases hs : s.cursor.scanFrom = observed.scanFrom
    · refine ⟨m, ?_⟩
      rw [← hs] at hne ⊢
      exact QueueClaimState.notePendingInserts_moved (fun _ => h.notEmpty) hne
    · obtain ⟨k, hk, hk'⟩ := h.moved hs
      exact ⟨k, QueueClaimState.yields_notePendingInserts_of_yields (fun _ => h.notEmpty) hk, hk'⟩

/-- A note never restores the bound an attempt read: if the bound is that one
after the note, it was before, and the key is remembered ahead of it. -/
theorem InFlight.applyNote_scanFrom (h : InFlight s observed)
    (he : (s.applyNote i m).cursor.scanFrom = observed.scanFrom) :
    s.cursor.scanFrom = observed.scanFrom ∧
      ∃ a, (s.applyNote i m).cursor.minInsertAhead = some a ∧ a ≤ m ∧
        ∀ b, s.cursor.minInsertAhead = some b → a ≤ b := by
  have hs : s.cursor.scanFrom = observed.scanFrom := by
    by_contra hne
    obtain ⟨k, hk, hk'⟩ := h.moved hne
    have := QueueClaimState.yields_notePendingInserts_of_yields (m := m) (fun _ => h.notEmpty) hk
    exact hk' (he ▸ this)
  exact ⟨hs, QueueClaimState.notePendingInserts_ahead (fun _ => h.notEmpty) (he.trans hs.symm)⟩

theorem InFlight.ahead_applyNote {P : K → Prop} (h : InFlight s observed)
    (hmin : ∀ k ∈ s.live, s.latest k = i → m ≤ k)
    (ha : s.cursor.scanFrom = observed.scanFrom → ∀ k ∈ s.live, s.Noted k →
      P k ∨ ∃ a, s.cursor.minInsertAhead = some a ∧ a ≤ k)
    (he : (s.applyNote i m).cursor.scanFrom = observed.scanFrom) :
    ∀ k ∈ s.live, (s.applyNote i m).Noted k →
      P k ∨ ∃ a, (s.applyNote i m).cursor.minInsertAhead = some a ∧ a ≤ k := by
  obtain ⟨hs, a, ha', ham, hab⟩ := h.applyNote_scanFrom he
  intro k hk hn
  rcases noted_applyNote.mp hn with hl | hn
  · exact .inr ⟨a, ha', ham.trans (hmin k hk hl)⟩
  · rcases ha hs k hk hn with hP | ⟨b, hb, hbk⟩
    · exact .inl hP
    · exact .inr ⟨a, ha', (hab b hb).trans hbk⟩

theorem epoch_applyNote_ne {e : ℕ} (h : e ≤ s.cursor.epoch) :
    (s.applyNote i m).cursor.epoch ≠ e := by
  simp only [State.applyNote, QueueClaimState.notePendingInserts_epoch]
  omega

theorem attemptInv_applyNote (hi : Inv s) (hm : s.minKey i = some m) :
    AttemptInv (s.applyNote i m) s.attempt := by
  have hinv := hi.attempt
  have hmin : ∀ k ∈ s.live, s.latest k = i → m ≤ k := fun k hk hl =>
    hi.minKey_le k hk m (hl ▸ hm)
  match hatt : s.attempt with
  | none => trivial
  | some (.begun observed maxJobs notedAtBegin) =>
    rw [hatt] at hinv
    obtain ⟨hf, hpos, hsub, hcov⟩ := hinv
    exact ⟨hf.applyNote hi, hpos, hsub.trans (Finset.subset_insert _ _), hcov⟩
  | some (.scanned a) =>
    rw [hatt] at hinv
    refine ⟨hinv.flight.applyNote hi, hinv.maxJobs_pos, hinv.scan_eq, hinv.covered,
      hinv.flight.ahead_applyNote hmin hinv.ahead, fun he => ?_⟩
    exact absurd he (epoch_applyNote_ne hinv.flight.epoch_le)
  | some (.committed observed last drained) =>
    rw [hatt] at hinv
    obtain ⟨hf, hahead, -⟩ := hinv
    refine ⟨hf.applyNote hi, hf.ahead_applyNote hmin hahead, fun _ he => ?_⟩
    exact absurd he (epoch_applyNote_ne hf.epoch_le)
  | some (.advanced observed) =>
    rw [hatt] at hinv
    have hle := hinv.2.1
    refine ⟨knownEmpty_applyNote hi, ?_, fun he => absurd he (epoch_applyNote_ne hle)⟩
    simp only [State.applyNote, QueueClaimState.notePendingInserts_epoch]
    omega

theorem inv_applyNote (hi : Inv s) (hm : s.minKey i = some m) : Inv (s.applyNote i m) where
  __ := hi
  noted_lt j hj := by
    rcases Finset.mem_insert.mp hj with rfl | hj
    · exact hi.minKey_lt _ m hm
    · exact hi.noted_lt j hj
  bound k hk hn := by
    rcases noted_applyNote.mp hn with hl | hn
    · exact QueueClaimState.yields_notePendingInserts (hi.minKey_le k hk m (hl ▸ hm))
    · refine QueueClaimState.yields_notePendingInserts_of_yields (fun _ => ?_) (hi.bound k hk hn)
      by_contra he
      exact hi.empty (by simpa using he) k hk hn
  empty he := by
    rw [knownEmpty_applyNote hi] at he
    cases he
  emptyAsOf_le e he := by
    have := hi.emptyAsOf_le e (by simpa [applyNote] using he)
    simp only [applyNote, QueueClaimState.notePendingInserts_epoch]
    omega
  attempt := attemptInv_applyNote hi hm

end Note

section Claim

variable {s : State K}

theorem AttemptInv.withAttempt {a b : Option (Attempt K)} (h : AttemptInv s a) :
    AttemptInv { s with attempt := b } a := by
  match a with
  | none => trivial
  | some (.begun _ _ _) => exact ⟨h.1.of_cursor_eq rfl, h.2⟩
  | some (.scanned _) =>
    exact { h with flight := h.flight.of_cursor_eq rfl }
  | some (.committed _ _ _) => exact ⟨h.1.of_cursor_eq rfl, h.2⟩
  | some (.advanced _) => exact h

theorem Inv.withAttempt (hi : Inv s) {a : Option (Attempt K)} (ha : AttemptInv s a) :
    Inv { s with attempt := a } :=
  { hi with attempt := ha.withAttempt }

theorem Inv.markEmpty (hi : Inv s) (hle : observed.epoch ≤ s.cursor.epoch)
    (h : s.cursor.epoch = observed.epoch → ∀ k ∈ s.live, ¬ s.Noted k) :
    Inv { s with cursor := s.cursor.markEmpty observed, attempt := none } where
  __ := hi
  empty he := h (Option.some.inj (QueueClaimState.knownEmpty_iff.mp he)).symm
  emptyAsOf_le e he := by
    cases he
    exact hle
  attempt := trivial

theorem inFlight_beginClaim (h : s.cursor.knownEmpty = false) :
    InFlight s s.cursor.beginClaim :=
  ⟨h, le_rfl, fun _ => rfl, fun _ => id, fun hne => absurd rfl hne⟩

theorem inv_beginClaim (hi : Inv s) {maxJobs : ℕ} (hpos : 0 < maxJobs)
    (h : s.cursor.knownEmpty = false) :
    Inv { s with attempt := some (.begun s.cursor.beginClaim maxJobs s.noted) } :=
  hi.withAttempt ⟨inFlight_beginClaim h, hpos, subset_rfl, fun k hk hn => hi.bound k hk hn⟩

theorem scannedInv_takeSnapshot (hi : Inv s) {maxJobs : ℕ} {notedAtBegin : Finset ℕ}
    (h : AttemptInv s (some (.begun observed maxJobs notedAtBegin))) :
    ScannedInv s (s.takeSnapshot observed maxJobs notedAtBegin) := by
  obtain ⟨hf, hpos, -, hcov⟩ := h
  have hyields : s.cursor.scanFrom = observed.scanFrom → ∀ k ∈ s.live, s.Noted k →
      k ∈ s.live ∧ Yields observed.scanFrom k := by
    intro he k hk hn
    exact ⟨hk, he ▸ hi.bound k hk hn⟩
  refine ⟨hf, hpos, rfl, hcov, ?_, ?_⟩
  · intro he k hk hn
    exact .inl (hyields he k hk hn)
  · intro he
    exact hyields (hf.scanFrom_eq he)

/-- Committing the claim removes its candidates, which are all the snapshot has up
to the last of them. -/
theorem inv_commit (hi : Inv s) {a : Scanned K} {last : K} (h : ScannedInv s a)
    (hl : a.candidates.getLast? = some last) {live : Finset K}
    (hlive : ∀ k ∈ live, k ∈ s.live ∧ k ∉ a.candidates) :
    Inv { s with live, attempt := some (.committed a.observed last a.drained) } := by
  have hlast : last ∈ a.candidates := List.mem_of_getLast? hl
  have hcand : (scan a.observed.scanFrom a.maxJobs a.snapshot).1 = a.candidates := by
    rw [h.scan_eq]
  refine ⟨hi.latest_lt, hi.noted_lt, hi.minKey_lt, ?_, ?_, ?_, hi.emptyAsOf_le, ?_, ?_, ?_⟩
  · exact fun k hk => hi.minKey_le k (hlive k hk).1
  · exact fun k hk => hi.bound k (hlive k hk).1
  · exact fun he k hk => hi.empty he k (hlive k hk).1
  · exact h.flight.of_cursor_eq rfl
  · intro he k hk hn
    obtain ⟨hk, hnc⟩ := hlive k hk
    rcases h.ahead he k hk hn with ⟨hsnap, hy⟩ | hahead
    · rw [← hcand] at hnc hlast
      exact .inl (lt_of_not_mem_candidates hsnap hy hnc hlast)
    · exact .inr hahead
  · intro hd he k hk hn
    obtain ⟨hk, hnc⟩ := hlive k hk
    obtain ⟨hsnap, hy⟩ := h.still he k hk hn
    rw [← hcand] at hnc
    exact hnc (mem_candidates_of_drained (by rw [h.scan_eq]; exact hd) hsnap hy)

theorem inv_advance (hi : Inv s) {last : K} {drained : Bool}
    (h : AttemptInv s (some (.committed observed last drained))) :
    Inv { s with
      cursor := s.cursor.advance last observed
      attempt := if drained then some (.advanced observed) else none } := by
  obtain ⟨hf, hahead, hdrained⟩ := h
  have hke : (s.cursor.advance last observed).knownEmpty = s.cursor.knownEmpty := by
    simp [QueueClaimState.knownEmpty]
  refine { hi with bound := ?_, empty := ?_, emptyAsOf_le := ?_, attempt := ?_ }
  · intro k hk hn
    by_cases he : s.cursor.scanFrom = observed.scanFrom
    · exact QueueClaimState.yields_advance he (hahead he k hk hn)
    · simp only [QueueClaimState.advance_of_ne he]
      exact hi.bound k hk hn
  · intro he
    rw [hke, hf.notEmpty] at he
    cases he
  · simpa using hi.emptyAsOf_le
  · cases drained with
    | false => trivial
    | true =>
      refine ⟨hke.trans hf.notEmpty, by simpa using hf.epoch_le, fun he k hk hn => ?_⟩
      exact hdrained rfl (by simpa using he) k hk hn

end Claim

theorem inv_step {s t : State K} {l : Label K} (hi : Inv s) (h : step s l = some t) : Inv t := by
  have hinv := hi.attempt
  cases l with
  | txn inserted removed =>
    cases h
    exact inv_applyTxn hi fun m hm k hk => minKey_le_smallest hm hk
  | note i =>
    simp only [step] at h
    split at h
    · rename_i m hm
      split at h
      · cases h
      · cases h
        exact inv_applyNote hi hm
    · cases h
  | beginClaim maxJobs =>
    simp only [step] at h
    split_ifs at h with hc
    cases h
    exact inv_beginClaim hi hc.2.1 hc.2.2
  | snapshot =>
    simp only [step] at h
    split at h
    · rename_i hatt
      cases h
      exact hi.withAttempt (scannedInv_takeSnapshot hi (hatt ▸ hinv))
    · cases h
  | noCandidate =>
    simp only [step] at h
    split at h
    · rename_i a hatt
      rw [hatt] at hinv
      split_ifs at h with hnil
      cases h
      refine hi.markEmpty hinv.flight.epoch_le fun he k hk hn => ?_
      obtain ⟨hsnap, hy⟩ := hinv.still he k hk hn
      exact not_yields_of_candidates_nil hinv.maxJobs_pos (by rw [hinv.scan_eq]; exact hnil)
        hsnap hy
    · cases h
  | commit =>
    simp only [step] at h
    split at h
    · rename_i a hatt
      rw [hatt] at hinv
      split at h
      · rename_i last hlast
        split at h
        · cases h
          exact inv_commit hi hinv hlast (by simp)
        · cases h
      · cases h
    · cases h
  | conflict =>
    simp only [step] at h
    split at h
    · cases h
      exact hi.withAttempt trivial
    · cases h
  | advance =>
    simp only [step] at h
    split at h
    · rename_i hatt
      cases h
      exact inv_advance hi (hatt ▸ hinv)
    · cases h
  | markEmpty =>
    simp only [step] at h
    split at h
    · rename_i hatt
      rw [hatt] at hinv
      cases h
      exact hi.markEmpty hinv.2.1 hinv.2.2
    · cases h
  | drop =>
    cases h
    exact hi.withAttempt trivial

theorem inv_reachable {s : State K} (h : (machine K).Reachable s) : Inv s :=
  h.invariant (by rintro _ ⟨live, rfl⟩; exact inv_start live) fun _ _ _ => inv_step

/-- In every state, noted live keys are on the scanned side of the bound and a
queue known empty has only keys whose note is outstanding. A claim's candidates
are those of a front scan of its snapshot without some keys whose note had not
run when the claim read the bound. -/
theorem scan_bound_invariant {s : State K} (h : (machine K).Reachable s) :
    (∀ sf, s.cursor.scanFrom = some sf → ∀ k ∈ s.live, s.Noted k →
      sf.key < k ∨ (sf.key = k ∧ sf.inclusive = true)) ∧
    (s.cursor.knownEmpty = true → s.attempt = none → ∀ k ∈ s.live, ¬ s.Noted k) ∧
    (∀ a, s.attempt = some (.scanned a) → ∃ skipped ⊆ a.snapshot,
      (∀ k ∈ skipped, a.latest k ∉ a.notedAtBegin) ∧
      (a.candidates, a.drained) = scan none a.maxJobs (a.snapshot \ skipped)) := by
  have hi := inv_reachable h
  refine ⟨?_, fun he _ => hi.empty he, ?_⟩
  · intro sf hsf k hk hn
    have := hi.bound k hk hn
    rwa [hsf] at this
  · intro a ha
    have hinv := hi.attempt
    rw [ha] at hinv
    refine ⟨a.snapshot.filter fun k => ¬ Yields a.observed.scanFrom k,
      Finset.filter_subset _ _, ?_, ?_⟩
    · intro k hk hn
      obtain ⟨hk, hy⟩ := Finset.mem_filter.mp hk
      exact hy (hinv.covered k hk hn)
    · rw [← hinv.scan_eq]
      exact scan_eq_front _ _ _

theorem scan_bound_invariant_of_drained_claim :
    ∃ s, (machine ℕ).run (State.start {3})
        [.beginClaim 2, .snapshot, .commit, .txn {2} ∅, .advance, .note 1] = some s ∧
      s.cursor.scanFrom = some ⟨2, true⟩ ∧ 2 ∈ s.live ∧ s.Noted 2 ∧
      ∀ sf, s.cursor.scanFrom = some sf → sf.key < 2 ∨ (sf.key = 2 ∧ sf.inclusive = true) := by
  have hscan : scan none 2 ({3} : Finset ℕ) = ([3], true) := by
    simp [scan, iter, collect, Finset.filter_true_of_mem]
  obtain ⟨s, hs, hsf, hl, hn⟩ : ∃ s, (machine ℕ).run (State.start {3})
        [.beginClaim 2, .snapshot, .commit, .txn {2} ∅, .advance, .note 1] = some s ∧
      s.cursor.scanFrom = some ⟨2, true⟩ ∧ 2 ∈ s.live ∧ s.Noted 2 := by
    simp [machine, step, start, takeSnapshot, QueueClaimState.beginClaim,
      QueueClaimState.knownEmpty, hscan, applyTxn, Attempt.touch, smallest, applyNote,
      QueueClaimState.advance, QueueClaimState.notePendingInserts_scanFrom,
      QueueClaimState.includeMinKey, State.Noted]
  have hreach := Machine.reachable_of_run hs ⟨_, rfl⟩
  exact ⟨s, hs, hsf, hl, hn, fun sf h => (scan_bound_invariant hreach).1 sf h 2 hl hn⟩

end Taquba.Cursor
