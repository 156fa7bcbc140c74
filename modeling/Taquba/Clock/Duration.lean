import Mathlib.Tactic.Ring
import Mathlib.Order.Monotone.Basic

/-! # Durations, instants and machine integers

A duration has 64 bits of seconds and a part of a second in nanoseconds. An instant has
signed 64 bits of seconds around the epoch, and a sum beyond them panics. A sum or a
difference of two 64-bit integers that overflows panics in a build with overflow checks
and wraps in another.
-/

namespace Clock

def milli : ℕ := 1000000

/-- The nanoseconds beyond the largest duration. -/
def durationEnd : ℕ := 2 ^ 64 * 1000000000

def instantEnd : ℕ := 2 ^ 63 * 1000000000

@[ext] structure Duration where
  nanos : ℕ
  lt : nanos < durationEnd
  deriving DecidableEq

namespace Duration

def zero : Duration := ⟨0, by decide⟩

def max : Duration := ⟨durationEnd - 1, by decide⟩

/-- The duration of a 64-bit number of milliseconds. -/
def fromMillis (ms : ℕ) : Duration where
  nanos := ms % 2 ^ 64 * milli
  lt := by
    have h := Nat.mod_lt ms (show 0 < 2 ^ 64 by decide)
    simp only [milli, durationEnd]
    omega

def asMillis (d : Duration) : ℕ := d.nanos / milli

def lowMillis (d : Duration) : ℕ := d.asMillis % 2 ^ 64

def isZero (d : Duration) : Bool := d.nanos = 0

def saturatingMul (d : Duration) (n : ℕ) : Duration where
  nanos := min (d.nanos * n) (durationEnd - 1)
  lt := lt_of_le_of_lt (min_le_right _ _) (by decide)

def least (d e : Duration) : Duration := if d.nanos ≤ e.nanos then d else e

@[simp] theorem nanos_least (d e : Duration) : (d.least e).nanos = min d.nanos e.nanos := by
  unfold least
  split <;> omega

theorem nanos_fromMillis {ms : ℕ} (h : ms < 2 ^ 64) : (fromMillis ms).nanos = ms * milli := by
  simp only [fromMillis, Nat.mod_eq_of_lt h]

theorem fromMillis_asMillis {d : Duration} (h : d.asMillis < 2 ^ 64) (hw : milli ∣ d.nanos) :
    fromMillis d.asMillis = d := by
  ext
  rw [nanos_fromMillis h, asMillis, Nat.div_mul_cancel hw]

theorem lowMillis_eq {d : Duration} (h : d.asMillis < 2 ^ 64) : d.lowMillis = d.asMillis :=
  Nat.mod_eq_of_lt h

theorem asMillis_mono {d e : Duration} (h : d.nanos ≤ e.nanos) : d.asMillis ≤ e.asMillis :=
  Nat.div_le_div_right h

/-- A product that stays below a bound is not saturated below it. -/
theorem nanos_least_saturatingMul (d e : Duration) (n : ℕ) :
    ((d.saturatingMul n).least e).nanos = min (d.nanos * n) e.nanos := by
  have he := e.lt
  simp only [nanos_least, saturatingMul]
  omega

end Duration

@[ext] structure SystemTime where
  nanos : ℤ
  ge : -(instantEnd : ℤ) ≤ nanos
  lt : nanos < instantEnd

namespace SystemTime

def epoch : SystemTime := ⟨0, by decide, by decide⟩

/-- The instant a duration later, `none` for the panic of the sum. -/
def add (t : SystemTime) (d : Duration) : Option SystemTime :=
  if h : t.nanos + d.nanos < instantEnd then
    some ⟨t.nanos + d.nanos, by have := t.ge; omega, h⟩
  else none

def sinceEpoch (t : SystemTime) : Option Duration :=
  if 0 ≤ t.nanos then
    some ⟨t.nanos.toNat, by
      have := t.lt
      simp only [instantEnd, durationEnd] at *
      omega⟩
  else none

/-- The instant in 64 bits of milliseconds after the epoch. An earlier one is the epoch. -/
def toMillis (t : SystemTime) : ℕ := (t.sinceEpoch.getD .zero).lowMillis

end SystemTime

/-- The sum of two 64-bit integers, in a build with or without overflow checks. -/
def addU64 (checks : Bool) (a b : ℕ) : Option ℕ :=
  if a + b < 2 ^ 64 then some (a + b) else if checks then none else some ((a + b) % 2 ^ 64)

theorem addU64_of_lt (checks : Bool) {a b : ℕ} (h : a + b < 2 ^ 64) :
    addU64 checks a b = some (a + b) :=
  if_pos h

theorem addU64_unchecked (a b : ℕ) : addU64 false a b = some ((a + b) % 2 ^ 64) := by
  unfold addU64
  by_cases h : a + b < 2 ^ 64
  · rw [if_pos h, Nat.mod_eq_of_lt h]
  · rw [if_neg h, if_neg (by simp)]

theorem addU64_lt {checks : Bool} {a b c : ℕ} (h : addU64 checks a b = some c) : c < 2 ^ 64 := by
  unfold addU64 at h
  by_cases hlt : a + b < 2 ^ 64
  · rw [if_pos hlt] at h
    cases h
    exact hlt
  · rw [if_neg hlt] at h
    cases checks
    · cases h
      exact Nat.mod_lt _ (by decide)
    · cases h

/-- The difference of two 64-bit integers, in a build with or without overflow checks. -/
def subU64 (checks : Bool) (a b : ℕ) : Option ℕ :=
  if b ≤ a then some (a - b) else if checks then none else some (a + 2 ^ 64 - b)

/-- The sum of two signed 64-bit integers, in a build with or without overflow checks. -/
def addI64 (checks : Bool) (a b : Int64) : Option Int64 :=
  if checks ∧ (a + b).toInt ≠ a.toInt + b.toInt then none else some (a + b)

/-- `b` is what `a` becomes by additions that are `d` in all. -/
structure SumI64 (checks : Bool) (a : Int64) (d : ℤ) (b : Int64) : Prop where
  wraps : b = a + .ofInt d
  checked : checks = true → b.toInt = a.toInt + d

namespace SumI64

variable {checks : Bool} {a b c : Int64} {d d' : ℤ}

theorem of_eq (h : b = a) : SumI64 checks a 0 b where
  wraps := h.trans (Int64.add_zero a).symm
  checked _ := by rw [h, add_zero]

theorem trans (h : SumI64 checks a d b) (h' : SumI64 checks b d' c) :
    SumI64 checks a (d + d') c where
  wraps := by rw [h'.wraps, h.wraps, Int64.ofInt_add, Int64.add_assoc]
  checked hc := by rw [h'.checked hc, h.checked hc, add_assoc]

theorem toInt_eq (h : SumI64 checks a d b) (hl : -2 ^ 63 ≤ a.toInt + d)
    (hu : a.toInt + d < 2 ^ 63) : b.toInt = a.toInt + d := by
  rw [h.wraps, Int64.toInt_add, Int64.toInt_ofInt, Int64.size, Int.add_bmod_bmod]
  exact Int.bmod_eq_of_le (by omega) (by omega)

end SumI64

theorem addI64_eq_some_iff {checks : Bool} {a b c : Int64} :
    addI64 checks a b = some c ↔ SumI64 checks a b.toInt c := by
  unfold addI64
  by_cases h : checks ∧ (a + b).toInt ≠ a.toInt + b.toInt
  · rw [if_pos h]
    refine iff_of_false (by simp) fun hs => h.2 ?_
    rw [← hs.checked h.1, hs.wraps, Int64.ofInt_toInt]
  · rw [if_neg h, Option.some_inj]
    constructor
    · rintro rfl
      exact ⟨by rw [Int64.ofInt_toInt], fun hc => not_not.mp fun hne => h ⟨hc, hne⟩⟩
    · intro hs
      rw [hs.wraps, Int64.ofInt_toInt]

def saturatingPow (n : ℕ) : ℕ := min (2 ^ n) (2 ^ 32 - 1)

theorem saturatingPow_mono : Monotone saturatingPow := by
  intro a b h
  have := Nat.pow_le_pow_right (show 0 < 2 by decide) h
  simp only [saturatingPow]
  omega

theorem saturatingPow_of_lt {n : ℕ} (h : n < 32) : saturatingPow n = 2 ^ n := by
  have := Nat.pow_lt_pow_right (show 1 < 2 by decide) h
  simp only [saturatingPow]
  omega

end Clock
