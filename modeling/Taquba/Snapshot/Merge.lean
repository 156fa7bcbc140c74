import Mathlib.Algebra.BigOperators.Group.List.Basic

/-! # Merge operands and their groupings

A key that is only merged holds the operands of its merges in commit order. A store
may replace adjacent operands by their merge, with or without an earlier value under
them, at any time and in any grouping. A batch merge that adds its operands up gives
the same total in every grouping.
-/

namespace Snapshot

variable {M : Type*}

/-- The operand lists that groupings of merges make out of `operands`. -/
inductive Groups (mergeBatch : Option M → List M → M) (operands : List M) : List M → Prop where
  | refl : Groups mergeBatch operands operands
  | alone {before group after : List M} :
      Groups mergeBatch operands (before ++ group ++ after) → group ≠ [] →
      Groups mergeBatch operands (before ++ [mergeBatch none group] ++ after)
  | onto {before group after : List M} {existing : M} :
      Groups mergeBatch operands (before ++ (existing :: group) ++ after) →
      Groups mergeBatch operands (before ++ [mergeBatch (some existing) group] ++ after)

/-- The value that a reader finds under a key that is only merged: none without an
operand, and otherwise the last operand of a grouping of all of them. -/
def Reads (mergeBatch : Option M → List M → M) (operands : List M) : Option M → Prop
  | none => operands = []
  | some value => Groups mergeBatch operands [value]

variable [AddMonoid M] {mergeBatch : Option M → List M → M} {operands current : List M}

theorem Groups.sum_eq
    (hm : ∀ existing group, mergeBatch existing group = existing.getD 0 + group.sum)
    (h : Groups mergeBatch operands current) : current.sum = operands.sum := by
  induction h with
  | refl => rfl
  | alone _ _ ih =>
    rw [← ih]
    simp [hm]
  | onto _ ih =>
    rw [← ih]
    simp [hm, add_assoc]

/-- Every reader finds the total of the operands. -/
theorem Reads.getD_eq_sum
    (hm : ∀ existing group, mergeBatch existing group = existing.getD 0 + group.sum)
    {value : Option M} (h : Reads mergeBatch operands value) : value.getD 0 = operands.sum := by
  cases value with
  | none =>
    rw [show operands = [] from h]
    rfl
  | some v => simpa using Groups.sum_eq hm h

end Snapshot
