import Mathlib.Order.Lattice
import Mathlib.Data.Finset.Sort

/-! # The claim cursor of one queue

The cursor keeps the position the next claim scans from, an epoch of recorded
pending inserts, the epoch of the last scan that found nothing, and the smallest
insert recorded ahead of the bound. Keys are compared only, so they range over
any linear order.
-/

namespace Taquba.Cursor

variable {K : Type*}
variable {m k : K}

structure ScanFrom (K : Type*) where
  key : K
  inclusive : Bool
  deriving DecidableEq, Repr

structure QueueClaimState (K : Type*) where
  scanFrom : Option (ScanFrom K) := none
  epoch : ℕ := 0
  emptyAsOf : Option ℕ := none
  minInsertAhead : Option K := none
  deriving DecidableEq, Repr

/-- The scan state read at the start of a claim attempt. -/
structure ClaimScanStart (K : Type*) where
  scanFrom : Option (ScanFrom K)
  epoch : ℕ
  knownEmpty : Bool
  deriving DecidableEq, Repr

/-- What a clean close keeps of the claim state for the next open. -/
structure CursorState (K : Type*) where
  scanFrom : Option (ScanFrom K) := none
  knownEmpty : Bool := false
  deriving DecidableEq, Repr

namespace QueueClaimState

def knownEmpty (s : QueueClaimState K) : Bool :=
  s.emptyAsOf == some s.epoch

def beginClaim (s : QueueClaimState K) : ClaimScanStart K :=
  ⟨s.scanFrom, s.epoch, s.knownEmpty⟩

def markEmpty (s : QueueClaimState K) (observed : ClaimScanStart K) : QueueClaimState K :=
  { s with emptyAsOf := some observed.epoch }

def exportState (s : QueueClaimState K) : CursorState K := ⟨s.scanFrom, s.knownEmpty⟩

def restore (s : QueueClaimState K) (state : CursorState K) : QueueClaimState K :=
  { s with
    scanFrom := state.scanFrom
    emptyAsOf := if state.knownEmpty then some s.epoch else s.emptyAsOf }

variable [LinearOrder K]

/-- Move the bound past `claimed`, clamped to the smallest insert recorded ahead
of it, unless an insert moved the bound since `observed`. -/
def advance (s : QueueClaimState K) (claimed : K) (observed : ClaimScanStart K) :
    QueueClaimState K :=
  if s.scanFrom ≠ observed.scanFrom then s
  else
    { s with
      scanFrom := match s.minInsertAhead with
        | some min => if min ≤ claimed then some ⟨min, true⟩ else some ⟨claimed, false⟩
        | none => some ⟨claimed, false⟩
      minInsertAhead := none }

/-- Whether recording an insert of `minKey` moves the bound to it. -/
def includeMinKey (s : QueueClaimState K) (minKey : K) : Bool :=
  match s.scanFrom with
  | some sf => minKey < sf.key || (minKey = sf.key && !sf.inclusive)
  | none => s.knownEmpty

/-- Record committed pending inserts whose smallest key is `minKey`. -/
def notePendingInserts (s : QueueClaimState K) (minKey : K) : QueueClaimState K :=
  if s.includeMinKey minKey then
    { s with
      epoch := s.epoch + 1
      scanFrom := some ⟨minKey, true⟩
      minInsertAhead := none }
  else
    { s with
      epoch := s.epoch + 1
      minInsertAhead := match s.minInsertAhead with
        | some min => if minKey < min then some minKey else some min
        | none => some minKey }

end QueueClaimState

section Yields

variable [LinearOrder K]

def Yields : Option (ScanFrom K) → K → Prop
  | none, _ => True
  | some sf, k => sf.key < k ∨ (sf.key = k ∧ sf.inclusive = true)

instance (sf : Option (ScanFrom K)) (k : K) : Decidable (Yields sf k) :=
  match sf with
  | none => isTrue trivial
  | some sf => inferInstanceAs (Decidable (sf.key < k ∨ (sf.key = k ∧ sf.inclusive = true)))

@[simp] theorem yields_none (k : K) : Yields none k := trivial

theorem yields_some {sf : ScanFrom K} :
    Yields (some sf) k ↔ sf.key < k ∨ (sf.key = k ∧ sf.inclusive = true) := Iff.rfl

@[simp] theorem yields_inclusive : Yields (some ⟨m, true⟩) k ↔ m ≤ k := by
  simp [yields_some, le_iff_lt_or_eq]

@[simp] theorem yields_exclusive : Yields (some ⟨m, false⟩) k ↔ m < k := by
  simp [yields_some]

theorem Yields.mono {sf : Option (ScanFrom K)} {j : K} (h : Yields sf j) (hjk : j ≤ k) :
    Yields sf k := by
  match sf with
  | none => trivial
  | some ⟨m, true⟩ => exact yields_inclusive.mpr ((yields_inclusive.mp h).trans hjk)
  | some ⟨m, false⟩ => exact yields_exclusive.mpr ((yields_exclusive.mp h).trans_le hjk)

end Yields

namespace QueueClaimState

variable {s : QueueClaimState K}

theorem knownEmpty_iff : s.knownEmpty = true ↔ s.emptyAsOf = some s.epoch := by
  simp [knownEmpty]

variable [LinearOrder K]

@[simp] theorem notePendingInserts_epoch (m : K) :
    (s.notePendingInserts m).epoch = s.epoch + 1 := by
  unfold notePendingInserts
  split <;> rfl

@[simp] theorem notePendingInserts_emptyAsOf (m : K) :
    (s.notePendingInserts m).emptyAsOf = s.emptyAsOf := by
  unfold notePendingInserts
  split <;> rfl

@[simp] theorem advance_epoch (k : K) (obs : ClaimScanStart K) :
    (s.advance k obs).epoch = s.epoch := by
  unfold advance
  split <;> rfl

@[simp] theorem advance_emptyAsOf (k : K) (obs : ClaimScanStart K) :
    (s.advance k obs).emptyAsOf = s.emptyAsOf := by
  unfold advance
  split <;> rfl

theorem advance_of_ne {obs : ClaimScanStart K} (h : s.scanFrom ≠ obs.scanFrom) :
    s.advance k obs = s :=
  if_pos h

theorem includeMinKey_eq_false_iff (h : s.scanFrom = none → s.knownEmpty = false) :
    s.includeMinKey m = false ↔ Yields s.scanFrom m := by
  unfold includeMinKey
  cases hsf : s.scanFrom with
  | none => simp [h hsf]
  | some sf =>
    obtain ⟨f, inclusive⟩ := sf
    cases inclusive with
    | true => simp
    | false =>
      simp only [Bool.not_false, Bool.and_true, Bool.or_eq_false_iff, decide_eq_false_iff_not,
        not_lt, yields_exclusive]
      exact ⟨fun h => lt_of_le_of_ne h.1 (Ne.symm h.2), fun h => ⟨h.le, h.ne'⟩⟩

theorem notePendingInserts_scanFrom :
    (s.notePendingInserts m).scanFrom =
      if s.includeMinKey m then some ⟨m, true⟩ else s.scanFrom := by
  unfold notePendingInserts
  split <;> rfl

theorem yields_notePendingInserts (h : m ≤ k) : Yields (s.notePendingInserts m).scanFrom k := by
  rw [notePendingInserts_scanFrom]
  split_ifs with hi
  · exact yields_inclusive.mpr h
  · cases hsf : s.scanFrom with
    | none => trivial
    | some sf =>
      have hm := (includeMinKey_eq_false_iff (s := s) (m := m) (by simp [hsf])).mp
        (Bool.eq_false_iff.mpr hi)
      exact hsf ▸ hm.mono h

theorem yields_notePendingInserts_of_yields (hs : s.scanFrom = none → s.knownEmpty = false)
    (h : Yields s.scanFrom k) : Yields (s.notePendingInserts m).scanFrom k := by
  rw [notePendingInserts_scanFrom]
  split_ifs with hi
  · by_contra hk
    have hkm : k ≤ m := le_of_not_ge fun hmk => hk (yields_inclusive.mpr hmk)
    have := (includeMinKey_eq_false_iff hs).mpr (h.mono hkm)
    simp [this] at hi
  · exact h

theorem notePendingInserts_moved (hs : s.scanFrom = none → s.knownEmpty = false)
    (h : (s.notePendingInserts m).scanFrom ≠ s.scanFrom) :
    Yields (s.notePendingInserts m).scanFrom m ∧ ¬ Yields s.scanFrom m := by
  refine ⟨yields_notePendingInserts le_rfl, fun hy => h ?_⟩
  rw [notePendingInserts_scanFrom, (includeMinKey_eq_false_iff hs).mpr hy]
  rfl

theorem notePendingInserts_ahead (hs : s.scanFrom = none → s.knownEmpty = false)
    (h : (s.notePendingInserts m).scanFrom = s.scanFrom) :
    ∃ a, (s.notePendingInserts m).minInsertAhead = some a ∧ a ≤ m ∧
      ∀ b, s.minInsertAhead = some b → a ≤ b := by
  have hy : Yields s.scanFrom m := h ▸ yields_notePendingInserts le_rfl
  have hi := (includeMinKey_eq_false_iff hs).mpr hy
  simp only [notePendingInserts, hi]
  cases hb : s.minInsertAhead with
  | none => exact ⟨m, rfl, le_rfl, by simp⟩
  | some b =>
    by_cases hlt : m < b
    · exact ⟨m, by simp [hlt], le_rfl, by rintro _ ⟨⟩; exact hlt.le⟩
    · exact ⟨b, by simp [hlt], le_of_not_gt hlt, by rintro _ ⟨⟩; exact le_rfl⟩

/-- After an advance past `claimed`, the bound yields every key that is beyond
`claimed` or at or after an insert recorded ahead of the old bound. -/
theorem yields_advance {claimed : K} {obs : ClaimScanStart K} (hs : s.scanFrom = obs.scanFrom)
    (h : claimed < k ∨ ∃ a, s.minInsertAhead = some a ∧ a ≤ k) :
    Yields (s.advance claimed obs).scanFrom k := by
  simp only [advance, hs, ne_eq, not_true_eq_false, if_false]
  cases ha : s.minInsertAhead with
  | none => simpa [ha] using h
  | some a =>
    simp only [ha, Option.some.injEq, exists_eq_left'] at h
    by_cases hac : a ≤ claimed
    · simp only [hac, if_true, yields_inclusive]
      exact h.elim (fun hk => hac.trans hk.le) id
    · simp only [hac, if_false, yields_exclusive]
      exact h.elim id (fun hk => (not_le.mp hac).trans_le hk)

end QueueClaimState

end Taquba.Cursor
