import Taquba.Bounds.Spaces
import Taquba.Effects.Prepare
import Taquba.Keys.Layout
import Taquba.Scan.Kv

/-! # The entries of an expiry index

The rows of the store as a caller's transaction changes them, and the part of them that is
an expiry index: the keys within its prefix, each with a time and a suffix, in the order of
the times.
-/

namespace Taquba

open Bytes

namespace ExpiryIndex

theorem bigEndian_eq (n : ℕ) : ExpiryIndex.bigEndian n = Bytes.bigEndian 8 n := by
  simp [ExpiryIndex.bigEndian, Bytes.bigEndian, Nat.div_div_eq_div_mul]

variable {index : ExpiryIndex} {atMs atMs' : ℕ} {suffix suffix' : List UInt8}

theorem entryKey_eq : index.entryKey atMs suffix =
    index.leading ++ (Bytes.bigEndian 8 atMs ++ suffix) := by
  rw [entryKey, bigEndian_eq]

theorem leading_prefix : index.leading <+: index.entryKey atMs suffix := List.prefix_append _ _

theorem entryKey_inj (h : atMs < 2 ^ 64) (h' : atMs' < 2 ^ 64) :
    index.entryKey atMs suffix = index.entryKey atMs' suffix' ↔
      atMs = atMs' ∧ suffix = suffix' := by
  rw [entryKey_eq, entryKey_eq, List.append_cancel_left_eq]
  constructor
  · intro heq
    obtain ⟨ht, hs⟩ := List.append_inj heq (by simp)
    exact ⟨(bigEndian_inj h h').mp ht, hs⟩
  · rintro ⟨rfl, rfl⟩
    rfl

theorem entryKey_lt_iff (h : atMs < 2 ^ 64) (h' : atMs' < 2 ^ 64) :
    index.entryKey atMs suffix < index.entryKey atMs' suffix' ↔
      atMs < atMs' ∨ atMs = atMs' ∧ suffix < suffix' := by
  rw [entryKey_eq, entryKey_eq, append_lt_append_left_iff, append_lt_append_iff (by simp),
    bigEndian_lt_iff h h', bigEndian_inj h h']

end ExpiryIndex

namespace Db

variable {db : Db}

def set (db : Db) (key : List UInt8) (value : Option (List UInt8)) : Db where
  rows := db.rows.filter (·.1 < key) ++ (value.map fun v => (key, v)).toList ++
    db.rows.filter (key < ·.1)
  sorted := by
    refine List.pairwise_append.mpr ⟨List.pairwise_append.mpr ⟨?_, ?_, ?_⟩, ?_, ?_⟩
    · exact List.Pairwise.filter _ db.sorted
    · cases value <;> simp
    · intro a ha b hb
      obtain ⟨v, -, rfl⟩ : ∃ v, value = some v ∧ (key, v) = b := by
        simpa using hb
      simpa using (List.mem_filter.mp ha).2
    · exact List.Pairwise.filter _ db.sorted
    · intro a ha b hb
      have hb' : key < b.1 := by simpa using (List.mem_filter.mp hb).2
      rcases List.mem_append.mp ha with ha | ha
      · have ha' : a.1 < key := by simpa using (List.mem_filter.mp ha).2
        exact lt_trans ha' hb'
      · obtain ⟨v, -, rfl⟩ : ∃ v, value = some v ∧ (key, v) = a := by
          simpa using ha
        exact hb'

theorem mem_set {key k v : List UInt8} {value : Option (List UInt8)} :
    (k, v) ∈ (db.set key value).rows ↔ if k = key then value = some v else (k, v) ∈ db.rows := by
  simp only [set, List.mem_append, List.mem_filter, decide_eq_true_eq, Option.mem_toList,
    Option.map_eq_some_iff, Prod.mk.injEq]
  split_ifs with hk
  · subst hk
    simp
  · rcases lt_trichotomy k key with h | h | h
    · simp [h, Ne.symm hk, asymm h]
    · exact absurd h hk
    · simp [h, Ne.symm hk, asymm h]

def kvGet (db : Db) (key : List UInt8) : Option (List UInt8) :=
  (db.rows.find? fun row => row.1 = userScopedKey key).map Prod.snd

/-- The store after a transaction with the changes of effects to the callers' keys. -/
def apply (db : Db) (effects : SettlementEffects (List UInt8) (List UInt8)) : Db :=
  let written := effects.kvWrites.entries.foldl
    (fun db entry => db.set (userScopedKey entry.1) (some entry.2)) db
  effects.kvDeletes.foldl (fun db key => db.set (userScopedKey key) none) written

theorem mem_foldl_delete {keys : List (List UInt8)} {k v : List UInt8} :
    (userScopedKey k, v) ∈
        (keys.foldl (fun db key => db.set (userScopedKey key) none) db).rows ↔
      (userScopedKey k, v) ∈ db.rows ∧ k ∉ keys := by
  induction keys generalizing db with
  | nil => simp
  | cons key keys ih =>
    rw [List.foldl_cons, ih, mem_set]
    by_cases hk : k = key
    · simp [hk]
    · simp [hk, userScopedKey]

theorem mem_foldl_put {entries : List (Σ _ : List UInt8, List UInt8)} {k v : List UInt8}
    (h : k ∉ entries.map Sigma.fst) :
    (userScopedKey k, v) ∈
        (entries.foldl (fun db entry => db.set (userScopedKey entry.1) (some entry.2)) db).rows ↔
      (userScopedKey k, v) ∈ db.rows := by
  induction entries generalizing db with
  | nil => rfl
  | cons entry entries ih =>
    simp only [List.map_cons, List.mem_cons, not_or] at h
    rw [List.foldl_cons, ih h.2, mem_set, if_neg (by simpa [userScopedKey] using h.1)]

variable (db) in
theorem exists_mem_foldl_put {entries : List (Σ _ : List UInt8, List UInt8)} {k : List UInt8}
    (h : k ∈ entries.map Sigma.fst) :
    ∃ v, (userScopedKey k, v) ∈
      (entries.foldl (fun db entry => db.set (userScopedKey entry.1) (some entry.2)) db).rows := by
  induction entries generalizing db with
  | nil => simp at h
  | cons entry entries ih =>
    rw [List.foldl_cons]
    by_cases hk : k ∈ entries.map Sigma.fst
    · exact ih _ hk
    · obtain rfl : k = entry.1 := by simpa [hk] using h
      exact ⟨entry.2, (mem_foldl_put hk).mpr (mem_set.mpr (by simp))⟩

variable {effects : SettlementEffects (List UInt8) (List UInt8)}

theorem mem_apply {k v : List UInt8} (h : k ∉ effects.kvWrites) :
    (userScopedKey k, v) ∈ (db.apply effects).rows ↔
      (userScopedKey k, v) ∈ db.rows ∧ k ∉ effects.kvDeletes := by
  rw [apply, mem_foldl_delete, mem_foldl_put h]

theorem exists_mem_apply {k : List UInt8} (h : k ∈ effects.kvWrites)
    (hd : k ∉ effects.kvDeletes) : ∃ v, (userScopedKey k, v) ∈ (db.apply effects).rows := by
  obtain ⟨v, hv⟩ := exists_mem_foldl_put db h
  exact ⟨v, mem_foldl_delete.mpr ⟨hv, hd⟩⟩

end Db

namespace ExpiryIndex

variable (index : ExpiryIndex)

def rows (db : Db) : List Row :=
  db.listing index.leading ⟨.unbounded, .unbounded⟩ .ascending

structure Avoided (effects : SettlementEffects (List UInt8) (List UInt8)) : Prop where
  writes : ∀ key ∈ effects.kvWrites, ¬ index.leading <+: key
  deletes : ∀ key ∈ effects.kvDeletes, ¬ index.leading <+: key

instance (effects : SettlementEffects (List UInt8) (List UInt8)) :
    Decidable (index.Avoided effects) :=
  decidable_of_iff ((∀ key ∈ effects.kvWrites.keys, ¬ index.leading <+: key) ∧
    ∀ key ∈ effects.kvDeletes, ¬ index.leading <+: key) ⟨fun h => ⟨h.1, h.2⟩, fun h => ⟨h.1, h.2⟩⟩

variable {index} {db : Db} {effects : SettlementEffects (List UInt8) (List UInt8)}

theorem sorted_rows : Paging.Sorted Prod.fst (· < ·) (index.rows db) :=
  sorted_listing db index.leading ⟨.unbounded, .unbounded⟩ .ascending

theorem mem_rows {key value : List UInt8} :
    (key, value) ∈ index.rows db ↔
      (userScopedKey key, value) ∈ db.rows ∧ index.leading <+: key := by
  rw [rows, mem_listing]
  simp [KvRange.Contains, Bound.Starts, Bound.Ends]

theorem rows_apply_kvDelete (h : index.Avoided effects) (key : List UInt8) :
    index.rows (db.apply (effects.kvDelete key)) =
      (index.rows db).filter fun row => row.1 ≠ key := by
  have hsorted : ((index.rows db).filter fun row => row.1 ≠ key).Pairwise fun a b => a.1 < b.1 :=
    List.Pairwise.filter _ sorted_rows
  have : Std.Irrefl fun a b : Row => a.1 < b.1 := ⟨fun a => lt_irrefl a.1⟩
  refine List.Pairwise.eq_of_mem_iff sorted_rows hsorted fun row => ?_
  obtain ⟨k, v⟩ := row
  rw [List.mem_filter, mem_rows, mem_rows]
  by_cases hk : index.leading <+: k
  · have hw : k ∉ (effects.kvDelete key).kvWrites := fun hw => h.writes k hw hk
    have hd : k ∉ effects.kvDeletes := fun hd => h.deletes k hd hk
    rw [Db.mem_apply hw]
    simp [hk, SettlementEffects.kvDelete, hd]
  · simp [hk]

end ExpiryIndex

end Taquba
