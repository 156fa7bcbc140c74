import Taquba.Bytes.Order
import Taquba.Paging.Pages

/-! # Ranges of keys within a prefix

A range is a pair of bounds on whole keys. A scan of a prefix takes bounds on the rest of
the key after the prefix, so a bound outside the prefix is before, within or after all of
its keys. The store scans its rows in key order, in either direction.
-/

namespace Taquba

open Bytes

inductive Bound (α : Type) where
  | included (a : α)
  | excluded (a : α)
  | unbounded
  deriving DecidableEq, Repr

namespace Bound

variable {α β : Type}

def map (f : α → β) : Bound α → Bound β
  | .included a => .included (f a)
  | .excluded a => .excluded (f a)
  | .unbounded => .unbounded

def key? : Bound α → Option α
  | .included a => some a
  | .excluded a => some a
  | .unbounded => none

def Starts : Bound (List UInt8) → List UInt8 → Prop
  | .included a, key => a ≤ key
  | .excluded a, key => a < key
  | .unbounded, _ => True

def Ends : Bound (List UInt8) → List UInt8 → Prop
  | .included a, key => key ≤ a
  | .excluded a, key => key < a
  | .unbounded, _ => True

instance (bound : Bound (List UInt8)) (key : List UInt8) : Decidable (bound.Starts key) :=
  match bound with
  | .included _ => inferInstanceAs (Decidable (_ ≤ _))
  | .excluded _ => inferInstanceAs (Decidable (_ < _))
  | .unbounded => inferInstanceAs (Decidable True)

instance (bound : Bound (List UInt8)) (key : List UInt8) : Decidable (bound.Ends key) :=
  match bound with
  | .included _ => inferInstanceAs (Decidable (_ ≤ _))
  | .excluded _ => inferInstanceAs (Decidable (_ < _))
  | .unbounded => inferInstanceAs (Decidable True)

end Bound

structure KvRange where
  startBound : Bound (List UInt8)
  endBound : Bound (List UInt8)
  deriving DecidableEq, Repr

def KvRange.Contains (range : KvRange) (key : List UInt8) : Prop :=
  range.startBound.Starts key ∧ range.endBound.Ends key

instance (range : KvRange) (key : List UInt8) : Decidable (range.Contains key) :=
  inferInstanceAs (Decidable (_ ∧ _))

/-- The position of a bound relative to the keys within a prefix. -/
inductive Side where
  | before
  | within (bound : Bound (List UInt8))
  | after
  deriving DecidableEq, Repr

def side (front : List UInt8) (bound : Bound (List UInt8)) : Side :=
  match bound.key? with
  | none => .within .unbounded
  | some key =>
    if front <+: key then .within (bound.map fun key => key.drop front.length)
    else if key < front then .before
    else .after

/-- The lower bound on the rest of the keys, unless every key is before it. -/
def Side.lower : Side → Option (Bound (List UInt8))
  | .before => some .unbounded
  | .within bound => some bound
  | .after => none

/-- The upper bound on the rest of the keys, unless every key is after it. -/
def Side.upper : Side → Option (Bound (List UInt8))
  | .before => none
  | .within bound => some bound
  | .after => some .unbounded

/-- The store's test of the bounds of a scan. -/
def nonEmpty : Bound (List UInt8) → Bound (List UInt8) → Bool
  | .included a, .included b => a ≤ b
  | .included a, .excluded b => a < b
  | .excluded a, .included b => a < b
  | .excluded a, .excluded b => a < b
  | .unbounded, _ => true
  | _, .unbounded => true

/-- The bounds of a range on the rest of the keys after a prefix, unless the prefix has no
key in the range. -/
def subrange (front : List UInt8) (range : KvRange) : Option KvRange := do
  let start ← (side front range.startBound).lower
  let stop ← (side front range.endBound).upper
  if nonEmpty start stop then some ⟨start, stop⟩ else none

section Subrange

variable {front rest : List UInt8}

theorem lt_or_lt_of_not_prefix {key : List UInt8} (hp : ¬ front <+: key) :
    (key < front ∧ ∀ rest, key < front ++ rest) ∨
      (¬ key < front ∧ ∀ rest, front ++ rest < key) := by
  rcases lt_trichotomy key front with h | rfl | h
  · exact .inl ⟨h, lt_append_of_lt h⟩
  · exact absurd (List.prefix_refl _) hp
  · exact .inr ⟨not_lt_of_gt h, append_lt_of_lt h hp⟩

variable (front) in
theorem side_spec (bound : Bound (List UInt8)) :
    (∃ b, side front bound = .within b ∧
      ∀ rest, (b.Starts rest ↔ bound.Starts (front ++ rest)) ∧
        (b.Ends rest ↔ bound.Ends (front ++ rest))) ∨
    (side front bound = .before ∧
      ∀ rest, bound.Starts (front ++ rest) ∧ ¬ bound.Ends (front ++ rest)) ∨
    (side front bound = .after ∧
      ∀ rest, ¬ bound.Starts (front ++ rest) ∧ bound.Ends (front ++ rest)) := by
  cases bound with
  | unbounded => exact .inl ⟨.unbounded, rfl, fun _ => ⟨Iff.rfl, Iff.rfl⟩⟩
  | included key =>
    by_cases hp : front <+: key
    · obtain ⟨suffix, rfl⟩ := hp
      refine .inl ⟨.included suffix, by simp [side, Bound.key?, Bound.map], fun rest => ?_⟩
      simp [Bound.Starts, Bound.Ends]
    · rcases lt_or_lt_of_not_prefix hp with ⟨hlt, hall⟩ | ⟨hlt, hall⟩
      · refine .inr (.inl ⟨by simp [side, Bound.key?, hp, hlt], fun rest => ?_⟩)
        exact ⟨(hall rest).le, not_le_of_gt (hall rest)⟩
      · refine .inr (.inr ⟨by simp [side, Bound.key?, hp, hlt], fun rest => ?_⟩)
        exact ⟨not_le_of_gt (hall rest), (hall rest).le⟩
  | excluded key =>
    by_cases hp : front <+: key
    · obtain ⟨suffix, rfl⟩ := hp
      refine .inl ⟨.excluded suffix, by simp [side, Bound.key?, Bound.map], fun rest => ?_⟩
      simp [Bound.Starts, Bound.Ends]
    · rcases lt_or_lt_of_not_prefix hp with ⟨hlt, hall⟩ | ⟨hlt, hall⟩
      · refine .inr (.inl ⟨by simp [side, Bound.key?, hp, hlt], fun rest => ?_⟩)
        exact ⟨hall rest, not_lt_of_gt (hall rest)⟩
      · refine .inr (.inr ⟨by simp [side, Bound.key?, hp, hlt], fun rest => ?_⟩)
        exact ⟨not_lt_of_gt (hall rest), hall rest⟩

theorem lower_eq_some {bound b : Bound (List UInt8)} (h : (side front bound).lower = some b) :
    b.Starts rest ↔ bound.Starts (front ++ rest) := by
  rcases side_spec front bound with ⟨b', hs, hb⟩ | ⟨hs, hb⟩ | ⟨hs, hb⟩ <;>
    rw [hs] at h <;> cases h
  · exact (hb rest).1
  · exact iff_of_true trivial (hb rest).1

theorem lower_eq_none {bound : Bound (List UInt8)} (h : (side front bound).lower = none) :
    ¬ bound.Starts (front ++ rest) := by
  rcases side_spec front bound with ⟨b', hs, hb⟩ | ⟨hs, hb⟩ | ⟨hs, hb⟩ <;>
    rw [hs] at h <;> cases h
  exact (hb rest).1

theorem upper_eq_some {bound b : Bound (List UInt8)} (h : (side front bound).upper = some b) :
    b.Ends rest ↔ bound.Ends (front ++ rest) := by
  rcases side_spec front bound with ⟨b', hs, hb⟩ | ⟨hs, hb⟩ | ⟨hs, hb⟩ <;>
    rw [hs] at h <;> cases h
  · exact (hb rest).2
  · exact iff_of_true trivial (hb rest).2

theorem upper_eq_none {bound : Bound (List UInt8)} (h : (side front bound).upper = none) :
    ¬ bound.Ends (front ++ rest) := by
  rcases side_spec front bound with ⟨b', hs, hb⟩ | ⟨hs, hb⟩ | ⟨hs, hb⟩ <;>
    rw [hs] at h <;> cases h
  exact (hb rest).2

theorem nonEmpty_of_contains {start stop : Bound (List UInt8)} (h : start.Starts rest)
    (h' : stop.Ends rest) : nonEmpty start stop = true := by
  cases start <;> cases stop <;>
    simp only [Bound.Starts, Bound.Ends, nonEmpty, decide_eq_true_eq] at *
  case included.included => exact h.trans h'
  case included.excluded => exact lt_of_le_of_lt h h'
  case excluded.included => exact lt_of_lt_of_le h h'
  case excluded.excluded => exact h.trans h'

/-- The bounds after the prefix select the keys of the prefix in the range. -/
theorem contains_subrange {range sub : KvRange} (h : subrange front range = some sub) :
    sub.Contains rest ↔ range.Contains (front ++ rest) := by
  obtain ⟨start, hstart, h⟩ := Option.bind_eq_some_iff.mp h
  obtain ⟨stop, hstop, h⟩ := Option.bind_eq_some_iff.mp h
  obtain ⟨-, hsub⟩ := Option.ite_none_right_eq_some.mp h
  cases hsub
  exact and_congr (lower_eq_some hstart) (upper_eq_some hstop)

theorem not_contains_of_subrange {range : KvRange} (h : subrange front range = none) :
    ¬ range.Contains (front ++ rest) := by
  rintro ⟨hstart, hend⟩
  cases hl : (side front range.startBound).lower with
  | none => exact lower_eq_none hl hstart
  | some start =>
    cases hu : (side front range.endBound).upper with
    | none => exact upper_eq_none hu hend
    | some stop =>
      have hne := nonEmpty_of_contains ((lower_eq_some hl).mpr hstart) ((upper_eq_some hu).mpr hend)
      simp [subrange, hl, hu, hne] at h

end Subrange

/-- A row of the store: its key and its value. -/
abbrev Row := List UInt8 × List UInt8

structure Db where
  rows : List Row
  sorted : Paging.Sorted Prod.fst (· < ·) rows

inductive KvOrder where
  | ascending
  | descending
  deriving DecidableEq, Repr

namespace KvOrder

/-- The first key is read before the second. -/
def Before (order : KvOrder) (a b : List UInt8) : Prop :=
  match order with
  | .ascending => a < b
  | .descending => b < a

instance (order : KvOrder) : DecidableRel order.Before := fun _ _ =>
  match order with
  | .ascending => inferInstanceAs (Decidable (_ < _))
  | .descending => inferInstanceAs (Decidable (_ < _))

instance (order : KvOrder) : IsStrictOrder (List UInt8) order.Before where
  irrefl a := by cases order <;> exact lt_irrefl a
  trans a b c h h' := by
    cases order with
    | ascending => exact lt_trans h h'
    | descending => exact lt_trans h' h

def read {α : Type} (order : KvOrder) (rows : List α) : List α :=
  match order with
  | .ascending => rows
  | .descending => rows.reverse

@[simp] theorem mem_read {α : Type} {order : KvOrder} {rows : List α} {row : α} :
    row ∈ order.read rows ↔ row ∈ rows := by
  cases order <;> simp [read]

theorem map_read {α β : Type} (order : KvOrder) (f : α → β) (rows : List α) :
    (order.read rows).map f = order.read (rows.map f) := by
  cases order <;> simp [read]

theorem sorted_read {α : Type} {key : α → List UInt8} {rows : List α}
    (h : Paging.Sorted key (· < ·) rows) (order : KvOrder) :
    Paging.Sorted key order.Before (order.read rows) := by
  cases order with
  | ascending => exact h
  | descending => exact List.pairwise_reverse.mpr h

theorem filter_read {α : Type} (order : KvOrder) (p : α → Bool) (rows : List α) :
    (order.read rows).filter p = order.read (rows.filter p) := by
  cases order <;> simp [read]

end KvOrder

/-- The scan of a prefix: the rows with the prefix whose rest lies in the range. -/
def Db.scanPrefix (db : Db) (front : List UInt8) (range : KvRange) (order : KvOrder) : List Row :=
  order.read (db.rows.filter fun row =>
    front <+: row.1 ∧ range.Contains (row.1.drop front.length))

end Taquba
