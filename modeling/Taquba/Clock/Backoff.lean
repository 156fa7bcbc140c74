import Taquba.Job.Config
import Taquba.Queue.Calls

/-! # The backoff of retries

A failed attempt that is not the last one is retried after a delay that doubles with the
attempts up to a maximum. The multiplier saturates in 32 bits, whatever the maximum is.
-/

namespace Taquba.Backoff

open Clock

def backoffDelay (attempts : ℕ) (base max : Duration) : Duration :=
  if base.isZero then .zero
  else (base.saturatingMul (saturatingPow (attempts - 1))).least max

variable (checks : Bool) (config : QueueConfig) (stored : JobRecord) (now : ℕ)

def delay (attempts : ℕ) : Duration :=
  backoffDelay attempts config.retryBackoffBase config.retryBackoffMax

def nackEnd (error : String) : Option ClaimEnd :=
  if stored.isLastAttempt then some (.dead error)
  else if (delay config stored.attempts).isZero then some (.retry none .retried (some error))
  else
    (addU64 checks now (delay config stored.attempts).lowMillis).map fun runAt =>
      .retry (some runAt) .retried (some error)

def millisAfter (attempts : ℕ) : Option ℕ :=
  if (delay config attempts).isZero then none else some (delay config attempts).asMillis

/-- The delay of the documentation in nanoseconds, `min(base * 2^(attempts - 1), max)`. -/
def documented (attempts : ℕ) : ℕ :=
  min (config.retryBackoffBase.nanos * 2 ^ (attempts - 1)) config.retryBackoffMax.nanos

/-- The multiplier saturates above the maximum only, and the retry fits in 64 bits of
milliseconds. -/
structure Fits (attempts : ℕ) : Prop where
  multiplier : attempts ≤ 32 ∨ config.retryBackoffBase.nanos = 0 ∨
    config.retryBackoffMax.nanos ≤ config.retryBackoffBase.nanos * (2 ^ 32 - 1)
  clock : documented config attempts = 0 ∨ now + documented config attempts / milli < 2 ^ 64

/-- A retry is scheduled the documented delay after the clock, to the millisecond, which does
not decrease with the attempts, is the maximum once the product reaches it, and is no time in
the past. A job without a delay is pending at once. -/
structure Lawful (error : String) : Prop where
  scheduled : ∃ runAt, nackEnd checks config stored now error =
      some (.retry runAt .retried (some error)) ∧
    (runAt = none ↔ documented config stored.attempts = 0) ∧
    ∀ t ∈ runAt, t = now + documented config stored.attempts / milli ∧ now ≤ t
  exact : (delay config stored.attempts).nanos = documented config stored.attempts
  reaches : config.retryBackoffMax.nanos ≤
      config.retryBackoffBase.nanos * 2 ^ (stored.attempts - 1) →
    delay config stored.attempts = config.retryBackoffMax
  monotone : ∀ a, a ≤ stored.attempts →
    (delay config a).nanos ≤ (delay config stored.attempts).nanos

section Delay

variable {config} {now}

theorem nanos_backoffDelay (attempts : ℕ) (base max : Duration) :
    (backoffDelay attempts base max).nanos =
      min (base.nanos * saturatingPow (attempts - 1)) max.nanos := by
  unfold backoffDelay
  split_ifs with hz
  · simp only [Duration.isZero, decide_eq_true_eq] at hz
    simp [hz, Duration.zero]
  · exact Duration.nanos_least_saturatingMul _ _ _

theorem delay_mono {a b : ℕ} (h : a ≤ b) : (delay config a).nanos ≤ (delay config b).nanos := by
  have hpow := saturatingPow_mono (Nat.sub_le_sub_right h 1)
  rw [delay, delay, nanos_backoffDelay, nanos_backoffDelay]
  exact min_le_min_right _ (Nat.mul_le_mul_left _ hpow)

theorem nanos_delay_iff {attempts : ℕ} :
    (delay config attempts).nanos = documented config attempts ↔
      attempts ≤ 32 ∨ config.retryBackoffBase.nanos = 0 ∨
        config.retryBackoffMax.nanos ≤ config.retryBackoffBase.nanos * (2 ^ 32 - 1) := by
  rw [delay, nanos_backoffDelay, documented]
  by_cases hlt : attempts - 1 < 32
  · rw [saturatingPow_of_lt hlt]
    simp only [true_iff]
    omega
  · have hpow : 2 ^ 32 ≤ 2 ^ (attempts - 1) := Nat.pow_le_pow_right (by decide) (not_lt.mp hlt)
    have hs : saturatingPow (attempts - 1) = 2 ^ 32 - 1 := min_eq_right (by omega)
    have hmul : config.retryBackoffBase.nanos * 2 ^ 32 ≤
        config.retryBackoffBase.nanos * 2 ^ (attempts - 1) := Nat.mul_le_mul_left _ hpow
    rw [hs]
    by_cases hz : config.retryBackoffBase.nanos = 0
    · simp [hz]
    · generalize config.retryBackoffBase.nanos * 2 ^ (attempts - 1) = product at hmul ⊢
      omega

theorem asMillis_delay {attempts : ℕ}
    (h : (delay config attempts).nanos = documented config attempts) :
    (delay config attempts).asMillis = documented config attempts / milli := by
  rw [Duration.asMillis, h]

theorem isZero_delay_iff {attempts : ℕ}
    (h : (delay config attempts).nanos = documented config attempts) :
    (delay config attempts).isZero = true ↔ documented config attempts = 0 := by
  rw [Duration.isZero, h, decide_eq_true_iff]

end Delay

/-- With a multiplier and a clock that fit, a nack neither panics nor wraps and ends the claim
as the settlement of a nack with the delays in milliseconds does. -/
theorem nackEnd_eq_endFor (error : String) (h : Fits config now stored.attempts) :
    nackEnd checks config stored now error =
      some (Settlement.endFor (.nack error (millisAfter config)) stored now) := by
  have hn := nanos_delay_iff.mpr h.multiplier
  unfold nackEnd Settlement.endFor
  by_cases hlast : stored.isLastAttempt = true
  · simp [hlast]
  · rw [if_neg hlast]
    by_cases hz : (delay config stored.attempts).isZero = true
    · simp [millisAfter, hz, hlast]
    · have hclock := h.clock.resolve_left (mt (isZero_delay_iff hn).mpr hz)
      rw [← asMillis_delay hn] at hclock
      rw [if_neg hz, Duration.lowMillis_eq (by omega), addU64_of_lt _ hclock]
      simp [millisAfter, hz, hlast]

theorem lawful_of_fits (error : String) (h : Fits config now stored.attempts)
    (hlast : stored.isLastAttempt = false) : Lawful checks config stored now error := by
  have hn := nanos_delay_iff.mpr h.multiplier
  refine ⟨⟨(millisAfter config stored.attempts).map (now + ·), ?_, ?_, ?_⟩, hn, ?_, ?_⟩
  · rw [nackEnd_eq_endFor checks config stored now error h, Settlement.endFor]
    simp [hlast]
  · simp [millisAfter, Duration.isZero, hn]
  · intro t ht
    obtain ⟨ms, hms, rfl⟩ := Option.map_eq_some_iff.mp ht
    by_cases hz : (delay config stored.attempts).isZero = true
    · simp [millisAfter, hz] at hms
    · rw [millisAfter, if_neg hz] at hms
      cases hms
      exact ⟨by rw [asMillis_delay hn], Nat.le_add_right _ _⟩
  · intro hmax
    ext
    rw [hn, documented, min_eq_right hmax]
  · intro a ha
    exact delay_mono ha

theorem Lawful.fits {error : String} (h : Lawful checks config stored now error)
    (hlast : stored.isLastAttempt = false) : Fits config now stored.attempts := by
  refine ⟨nanos_delay_iff.mp h.exact, ?_⟩
  by_cases hz : documented config stored.attempts = 0
  · exact .inl hz
  · obtain ⟨runAt, hnack, hnone, ht⟩ := h.scheduled
    rw [nackEnd, if_neg (by simp [hlast]), if_neg (mt (isZero_delay_iff h.exact).mp hz)] at hnack
    obtain ⟨t, hsum, he⟩ := Option.map_eq_some_iff.mp hnack
    cases he
    rw [← (ht t rfl).1]
    exact .inr (addU64_lt hsum)

/-- A nack that is not of the last attempt keeps the law of the backoff exactly when the
multiplier and the clock fit. -/
theorem retry_backoff_law (error : String) (hlast : stored.isLastAttempt = false) :
    Lawful checks config stored now error ↔ Fits config now stored.attempts :=
  ⟨fun h => h.fits checks config stored now hlast,
    fun h => lawful_of_fits checks config stored now error h hlast⟩

def backupJob (attempts : ℕ) : JobRecord :=
  { JobRecord.newPending "a" ⟨"backup", by decide⟩ [] 100 1 5 with attempts }

def backoff (base max : Duration) : QueueConfig :=
  { retryBackoffBase := base, retryBackoffMax := max }

theorem retry_backoff_law_third :
    nackEnd true {} (backupJob 3) 5 "late" =
      some (.retry (some 4005) .retried (some "late")) := by
  obtain ⟨runAt, hr, hnone, ht⟩ := ((retry_backoff_law true {} (backupJob 3) 5 "late"
    rfl).mpr ⟨.inl (by decide), .inr (by decide)⟩).scheduled
  cases runAt with
  | none => exact absurd (hnone.mp rfl) (by decide)
  | some t =>
    rw [hr, (ht t rfl).1]
    rfl

/-- From the 33rd attempt on the multiplier of a base of one millisecond stays below a maximum
of a hundred days, and a delay of 2⁶⁴ milliseconds is a retry at once. -/
theorem retry_backoff_law_fails :
    (∀ checks, nackEnd checks (backoff (.fromMillis 1) (.fromMillis 8640000000)) (backupJob 35) 5
      "late" = some (.retry (some 4294967300) .retried (some "late"))) ∧
    documented (backoff (.fromMillis 1) (.fromMillis 8640000000)) 35 / milli = 8640000000 ∧
    (∀ checks, nackEnd checks (backoff (.fromMillis (2 ^ 63)) .max) (backupJob 2) 5 "late" =
      some (.retry (some 5) .retried (some "late"))) ∧
    nackEnd true (backoff (.fromMillis (2 ^ 64 - 1)) .max) (backupJob 1) 5 "late" = none ∧
    nackEnd false (backoff (.fromMillis (2 ^ 64 - 1)) .max) (backupJob 1) 5 "late" =
      some (.retry (some 4) .retried (some "late")) := by
  decide +kernel

end Taquba.Backoff
