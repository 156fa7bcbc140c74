import Taquba.Clock.Duration
import Taquba.Lease.Views

/-! # The expiries of leases

A claim and a renewal add a duration in milliseconds to the clock, and a handler asks for
the rest of its delivery with a margin on top. The registry then sets the expiry, or only
extends it.
-/

namespace Taquba.LeaseTime

open Clock

/-- The lease left to settle a delivery that ran to the requested bound. -/
def settlementMargin : Duration := .fromMillis 5000

section Calls

variable (checks : Bool) (r : LeaseRegistry) (now : ℕ) (duration : Duration)

/-- The expiry of a claim and of a renewal, `none` for a panic. -/
def expiry : Option ℕ := addU64 checks now duration.lowMillis

def claim (fence : ClaimFence) (cancel : ℕ) : Option LeaseRegistry :=
  (expiry checks now duration).map fun expiresAt =>
    r.insert fence.queue fence.id expiresAt fence.claimId cancel

def renewLease (fence : ClaimFence) (cancelled : Bool) :
    Option (Except RenewalError (LeaseRegistry × ℕ)) :=
  (expiry checks now duration).map fun newExpiry =>
    (r.renew fence.queue fence.id fence.claimId cancelled newExpiry .set).map fun renewed =>
      (renewed.1, newExpiry)

/-- The expiry that a handler needs, `none` for a panic. -/
def needed : Option ℕ := do
  let sum ← addU64 checks now duration.lowMillis
  addU64 checks sum settlementMargin.lowMillis

/-- Extend the lease of a handle, which is detached without a claim. -/
def ensureAtLeast (inner : Option ClaimFence) (cancelled : Bool) :
    Option (Except RenewalError LeaseRegistry) :=
  match inner with
  | none => some (.ok r)
  | some fence =>
    (needed checks now duration).map fun needed =>
      (r.renew fence.queue fence.id fence.claimId cancelled needed .extend).map Prod.fst

end Calls

/-- The lease of a job ends at least `duration` after `now`, both to the nanosecond. -/
def Covers (r : LeaseRegistry) (fence : ClaimFence) (now : ℕ) (duration : Duration) : Prop :=
  ∃ e, r.current fence.queue fence.id = some (e, fence.claimId) ∧
    now * milli + duration.nanos ≤ e * milli

section Safe

variable (checks : Bool) (r : LeaseRegistry) (now : ℕ) (duration : Duration) (fence : ClaimFence)

/-- The sum of a claim and of a renewal neither panics nor wraps, and no shorter duration has a
later expiry. -/
structure ExpirySafe : Prop where
  exact : expiry checks now duration = some (now + duration.asMillis)
  monotone : ∀ shorter : Duration, shorter.nanos ≤ duration.nanos →
    ∃ e, expiry checks now shorter = some e ∧ e ≤ now + duration.asMillis

structure ClaimSafe (cancel : ℕ) : Prop where
  expiry : ExpirySafe checks now duration
  covers : ∀ r', claim checks r now duration fence cancel = some r' → Covers r' fence now duration

structure RenewalSafe (cancelled : Bool) : Prop where
  expiry : ExpirySafe checks now duration
  covers : ∀ r' e, renewLease checks r now duration fence cancelled = some (.ok (r', e)) →
    r'.current fence.queue fence.id = some (e, fence.claimId) ∧ Covers r' fence now duration

/-- The sum of a handler's request neither panics nor wraps, and an extended lease covers the
request and is not shortened. A detached handle changes nothing. -/
structure ExtensionSafe (inner : Option ClaimFence) (cancelled : Bool) : Prop where
  exact : inner.isSome → needed checks now duration =
    some (now + duration.asMillis + settlementMargin.asMillis)
  detached : inner = none → ensureAtLeast checks r now duration inner cancelled = some (.ok r)
  covers : ∀ r', ensureAtLeast checks r now duration inner cancelled = some (.ok r') →
    ∀ fence ∈ inner, Covers r' fence now duration ∧
      ∀ e, r.current fence.queue fence.id = some (e, fence.claimId) →
        ∃ e', r'.current fence.queue fence.id = some (e', fence.claimId) ∧ e ≤ e'

end Safe

section Sums

variable {checks : Bool} {now : ℕ} {duration : Duration}

theorem expiry_exact_iff : expiry checks now duration = some (now + duration.asMillis) ↔
    now + duration.asMillis < 2 ^ 64 := by
  constructor
  · exact addU64_lt
  · intro h
    rw [expiry, Duration.lowMillis_eq (by omega), addU64_of_lt _ h]

theorem needed_exact_iff :
    needed checks now duration = some (now + duration.asMillis + settlementMargin.asMillis) ↔
      now + duration.asMillis + settlementMargin.asMillis < 2 ^ 64 := by
  constructor
  · intro h
    obtain ⟨sum, -, h⟩ := Option.bind_eq_some_iff.mp h
    exact addU64_lt h
  · intro h
    have hm : settlementMargin.lowMillis = settlementMargin.asMillis := by decide
    rw [needed, Duration.lowMillis_eq (by omega), addU64_of_lt _ (by omega), hm,
      Option.bind_eq_bind, Option.bind_some, addU64_of_lt _ h]

/-- The request of a handler panics only with overflow checks. -/
theorem needed_isSome_iff : (needed checks now duration).isSome ↔
    (checks = true → now + duration.lowMillis + settlementMargin.asMillis < 2 ^ 64) := by
  have hm : settlementMargin.lowMillis = 5000 := by decide
  have hm' : settlementMargin.asMillis = 5000 := by decide
  simp only [needed, addU64, hm, hm', Option.bind_eq_bind]
  cases checks with
  | false =>
    simp only [Bool.false_eq_true, if_false, false_imp_iff, iff_true]
    by_cases h : now + duration.lowMillis < 2 ^ 64
    · rw [if_pos h, Option.bind_some]
      split <;> rfl
    · rw [if_neg h, Option.bind_some]
      split <;> rfl
  | true =>
    simp only [if_true, forall_const]
    by_cases h : now + duration.lowMillis < 2 ^ 64
    · rw [if_pos h, Option.bind_some]
      split <;> simp_all
    · rw [if_neg h]
      simp only [Option.bind_none, Option.isSome_none, Bool.false_eq_true, false_iff]
      omega

theorem expirySafe_iff : ExpirySafe checks now duration ↔ now + duration.asMillis < 2 ^ 64 := by
  refine ⟨fun h => expiry_exact_iff.mp h.exact, fun h => ⟨expiry_exact_iff.mpr h, ?_⟩⟩
  intro shorter hle
  have hms := Nat.add_le_add_left (Duration.asMillis_mono hle) now
  exact ⟨_, expiry_exact_iff.mpr (hms.trans_lt h), hms⟩

/-- The margin covers the part of a millisecond that a duration loses. -/
theorem nanos_le_needed (now : ℕ) (duration : Duration) : now * milli + duration.nanos ≤
    (now + duration.asMillis + settlementMargin.asMillis) * milli := by
  have hm : settlementMargin.asMillis = 5000 := by decide
  rw [hm]
  simp only [Duration.asMillis, milli]
  omega

theorem nanos_le_expiry_iff (now : ℕ) :
    now * milli + duration.nanos ≤ (now + duration.asMillis) * milli ↔ milli ∣ duration.nanos := by
  simp only [Duration.asMillis, milli]
  omega

end Sums

section Renewed

variable {r r' : LeaseRegistry} {queue : QueueName} {id : String} {claimId expiresAt : ℕ}
  {cancelled changed : Bool}

/-- The expiry that a renewal leaves in place of `old`. -/
def applied (old expiresAt : ℕ) : Renewal → ℕ
  | .set => expiresAt
  | .extend => max old expiresAt

theorem current_renew {mode : Renewal}
    (h : r.renew queue id claimId cancelled expiresAt mode = .ok (r', changed)) :
    ∃ old, r.current queue id = some (old, claimId) ∧
      r'.current queue id = some (applied old expiresAt mode, claimId) := by
  obtain ⟨lease, -, -, hl, hc, hr⟩ := LeaseRegistry.renew_eq_ok h
  refine ⟨lease.expiresAt, by simp [LeaseRegistry.current, hl, hc.1], ?_⟩
  rcases hr with ⟨-, rfl, he⟩ | ⟨-, rfl, he⟩
  · have happlied : applied lease.expiresAt expiresAt mode = lease.expiresAt := by
      rcases he with he | ⟨rfl, he⟩
      · cases mode <;> simp [applied, he]
      · exact max_eq_left he.le
    simp [LeaseRegistry.current, hl, hc.1, happlied]
  · have happlied : applied lease.expiresAt expiresAt mode = expiresAt := by
      cases mode with
      | set => rfl
      | extend => exact max_eq_right (not_lt.mp fun hlt => he (.inr ⟨rfl, hlt⟩))
    simp [LeaseRegistry.current, hc.1, happlied]

end Renewed

section Conditions

variable {checks : Bool} {r : LeaseRegistry} {now : ℕ} {duration : Duration} {fence : ClaimFence}
  {cancelled : Bool}

/-- The registry accepts a renewal of the claim. -/
def Renewable (r : LeaseRegistry) (fence : ClaimFence) (cancelled : Bool) : Prop :=
  r.closed = false ∧ cancelled = false ∧ r.Holds fence.queue fence.id fence.claimId

theorem claimSafe_iff {cancel : ℕ} : ClaimSafe checks r now duration fence cancel ↔
    now + duration.asMillis < 2 ^ 64 ∧ milli ∣ duration.nanos := by
  have hcovers : (expiry checks now duration = some (now + duration.asMillis)) →
      ((∀ r', claim checks r now duration fence cancel = some r' →
        Covers r' fence now duration) ↔ milli ∣ duration.nanos) := by
    intro he
    simp only [claim, he, Option.map_some, Option.some.injEq, forall_eq', Covers,
      ← nanos_le_expiry_iff now]
    simp [LeaseRegistry.current, LeaseRegistry.insert]
  constructor
  · intro h
    exact ⟨expirySafe_iff.mp h.expiry, (hcovers h.expiry.exact).mp h.covers⟩
  · rintro ⟨hlt, hw⟩
    have hsafe : ExpirySafe checks now duration := expirySafe_iff.mpr hlt
    exact ⟨hsafe, (hcovers hsafe.exact).mpr hw⟩

theorem renewLease_eq_ok {r' : LeaseRegistry} {e : ℕ}
    (he : expiry checks now duration = some (now + duration.asMillis))
    (h : renewLease checks r now duration fence cancelled = some (.ok (r', e))) :
    e = now + duration.asMillis ∧ Renewable r fence cancelled ∧
      r'.current fence.queue fence.id = some (e, fence.claimId) := by
  rw [renewLease, he, Option.map_some, Option.some.injEq] at h
  cases hr : r.renew fence.queue fence.id fence.claimId cancelled
    (now + duration.asMillis) .set with
  | error err => simp [hr, Except.map] at h
  | ok renewed =>
    simp only [hr, Except.map, Except.ok.injEq, Prod.mk.injEq] at h
    obtain ⟨rfl, rfl⟩ := h
    obtain ⟨lease, hclosed, hcancelled, hl, hc, -⟩ := LeaseRegistry.renew_eq_ok hr
    obtain ⟨_, -, hafter⟩ := current_renew hr
    exact ⟨rfl, ⟨hclosed, hcancelled, lease, hl, hc⟩, hafter⟩

theorem renewalSafe_iff : RenewalSafe checks r now duration fence cancelled ↔
    now + duration.asMillis < 2 ^ 64 ∧
      (Renewable r fence cancelled → milli ∣ duration.nanos) := by
  constructor
  · rintro ⟨hsafe, hcovers⟩
    refine ⟨expirySafe_iff.mp hsafe, fun ⟨hclosed, hcancelled, hholds⟩ => ?_⟩
    obtain ⟨r', changed, hr⟩ :=
      LeaseRegistry.renew_held hclosed hholds (now + duration.asMillis) .set
    have hrenew : renewLease checks r now duration fence cancelled =
        some (.ok (r', now + duration.asMillis)) := by
      rw [renewLease, hsafe.exact, Option.map_some, hcancelled, hr]
      rfl
    obtain ⟨hafter, e, he, hle⟩ := hcovers _ _ hrenew
    cases hafter.symm.trans he
    exact (nanos_le_expiry_iff now).mp hle
  · rintro ⟨hlt, hw⟩
    have hsafe : ExpirySafe checks now duration := expirySafe_iff.mpr hlt
    refine ⟨hsafe, fun r' e h => ?_⟩
    obtain ⟨rfl, hrenewable, hafter⟩ := renewLease_eq_ok hsafe.exact h
    exact ⟨hafter, _, hafter, (nanos_le_expiry_iff now).mpr (hw hrenewable)⟩

theorem extensionSafe_iff {inner : Option ClaimFence} :
    ExtensionSafe checks r now duration inner cancelled ↔
      (inner.isSome → now + duration.asMillis + settlementMargin.asMillis < 2 ^ 64) := by
  refine ⟨fun h hi => needed_exact_iff.mp (h.exact hi), fun h => ?_⟩
  have hexact : inner.isSome → needed checks now duration = _ := fun hi =>
    needed_exact_iff.mpr (h hi)
  refine ⟨hexact, fun hi => by rw [hi, ensureAtLeast], ?_⟩
  intro r' hr' fence hf
  cases hf
  rw [ensureAtLeast, hexact rfl, Option.map_some, Option.some.injEq] at hr'
  cases hr : r.renew fence.queue fence.id fence.claimId cancelled
    (now + duration.asMillis + settlementMargin.asMillis) .extend with
  | error err => simp [hr, Except.map] at hr'
  | ok renewed =>
    simp only [hr, Except.map, Except.ok.injEq] at hr'
    subst hr'
    obtain ⟨e, hbefore, hafter⟩ := current_renew hr
    refine ⟨⟨_, hafter, ?_⟩, fun e₀ h₀ => ⟨_, hafter, ?_⟩⟩
    · exact (nanos_le_needed now duration).trans
        (Nat.mul_le_mul_right _ (Nat.le_max_right _ _))
    · cases hbefore.symm.trans h₀
      exact Nat.le_max_left _ _

end Conditions

/-- A claim and a renewal are safe exactly when the clock and the duration have a sum in 64 bits
of milliseconds, and for a lease to the nanosecond when the duration is whole milliseconds. A
handler's request is safe exactly when the sum with the margin fits, or the handle is
detached. -/
theorem lease_arithmetic_is_safe (checks : Bool) (r : LeaseRegistry) (fence : ClaimFence)
    (cancel now : ℕ) (cancelled : Bool) (duration : Duration) :
    (ExpirySafe checks now duration ↔ now + duration.asMillis < 2 ^ 64) ∧
    (ClaimSafe checks r now duration fence cancel ↔
      now + duration.asMillis < 2 ^ 64 ∧ milli ∣ duration.nanos) ∧
    (RenewalSafe checks r now duration fence cancelled ↔
      now + duration.asMillis < 2 ^ 64 ∧ (Renewable r fence cancelled → milli ∣ duration.nanos)) ∧
    ∀ inner, ExtensionSafe checks r now duration inner cancelled ↔
      (inner.isSome → now + duration.asMillis + settlementMargin.asMillis < 2 ^ 64) :=
  ⟨expirySafe_iff, claimSafe_iff, renewalSafe_iff, fun _ => extensionSafe_iff⟩

def mailFence : ClaimFence := ⟨⟨"mail", by decide⟩, "a", 1⟩

theorem lease_arithmetic_is_safe_minute :
    ∃ r, claim true {} 5 (.fromMillis 60000) mailFence 0 = some r ∧
      Covers r mailFence 5 (.fromMillis 60000) :=
  ⟨_, rfl, ((lease_arithmetic_is_safe true {} mailFence 0 5 false (.fromMillis 60000)).2.1.mpr
    ⟨by decide, by decide⟩).covers _ rfl⟩

def longDuration : Duration := .saturatingMul (.fromMillis (2 ^ 63)) 2

/-- A claim for 2⁶⁴ milliseconds is due at once, and a handler that asks for as much is left
with the margin. One millisecond less panics with overflow checks, and wraps into the past
without. -/
theorem lease_arithmetic_is_safe_fails :
    (∀ checks, (claim checks {} 5 longDuration mailFence 0).map
      (·.current mailFence.queue mailFence.id) = some (some (5, 1))) ∧
    (∀ checks, needed checks 5 longDuration = some 5005) ∧
    claim true {} 5 (.fromMillis (2 ^ 64 - 1)) mailFence 0 = none ∧
    (claim false {} 5 (.fromMillis (2 ^ 64 - 1)) mailFence 0).map
      (·.current mailFence.queue mailFence.id) = some (some (4, 1)) := by
  refine ⟨by decide +kernel, by decide +kernel, rfl, by decide +kernel⟩

end Taquba.LeaseTime
