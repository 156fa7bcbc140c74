import Taquba.Lease.Registry
import Taquba.Lists

/-! # The two views of the leases

The expiry order has one entry for each lease and no other. Every operation keeps this, so
the reaper finds the entry of every due key, and it marks the entries of the due keys only.
A renewal answers from the closed mark, the token of the claim and the entry of the job, in
this order.
-/

namespace Taquba

instance : IsTrans ExpiryKey ExpiryKey.le := ⟨fun _ _ _ => le_trans⟩

instance : Std.Total ExpiryKey.le := ⟨fun _ _ => le_total _ _⟩

def Lease.taken (lease : Lease) : Lease := { lease with reaping := true }

namespace LeaseRegistry

variable {r r' : LeaseRegistry} {j : QueueName × String} {key : ExpiryKey}

/-- The expiry order lists each lease once, at its expiry, soonest first. -/
structure Consistent (r : LeaseRegistry) : Prop where
  exact : ∀ key : ExpiryKey, key ∈ r.byExpiry ↔
    ∃ lease, r.byJob key.2 = some lease ∧ lease.expiresAt = key.1
  nodup : r.byExpiry.Nodup
  sorted : r.byExpiry.Pairwise ExpiryKey.le

/-- The expiry order without the entry of a job. -/
def others (r : LeaseRegistry) (j : QueueName × String) : List ExpiryKey :=
  match r.byJob j with
  | some lease => r.byExpiry.erase (lease.expiresAt, j)
  | none => r.byExpiry

theorem mem_order {byExpiry : List ExpiryKey} {k : ExpiryKey} :
    k ∈ order key byExpiry ↔ k = key ∨ k ∈ byExpiry := by
  unfold order
  split_ifs with hmem
  · constructor
    · exact .inr
    · rintro (rfl | h)
      · exact hmem
      · exact h
  · exact List.mem_orderedInsert _

theorem nodup_order {byExpiry : List ExpiryKey} (h : byExpiry.Nodup) :
    (order key byExpiry).Nodup := by
  unfold order
  split_ifs with hmem
  · exact h
  · exact (List.perm_orderedInsert _ _ _).nodup_iff.mpr (List.nodup_cons.mpr ⟨hmem, h⟩)

theorem pairwise_order {byExpiry : List ExpiryKey} (h : byExpiry.Pairwise ExpiryKey.le) :
    (order key byExpiry).Pairwise ExpiryKey.le := by
  unfold order
  split
  · exact h
  · exact h.orderedInsert _ _

namespace Consistent

theorem mem_others (h : r.Consistent) :
    key ∈ r.others j ↔ key.2 ≠ j ∧ key ∈ r.byExpiry := by
  unfold others
  split
  · rename_i lease hl
    rw [h.nodup.mem_erase_iff]
    constructor
    · rintro ⟨hne, hmem⟩
      refine ⟨?_, hmem⟩
      rintro rfl
      obtain ⟨lease', hl', he⟩ := (h.exact key).mp hmem
      rw [hl] at hl'
      cases hl'
      exact hne (by rw [he])
    · rintro ⟨hne, hmem⟩
      refine ⟨?_, hmem⟩
      rintro rfl
      exact hne rfl
  · rename_i hnone
    constructor
    · intro hmem
      refine ⟨?_, hmem⟩
      rintro rfl
      obtain ⟨lease', hl', -⟩ := (h.exact key).mp hmem
      rw [hnone] at hl'
      cases hl'
    · exact fun hmem => hmem.2

theorem nodup_others (h : r.Consistent) : (r.others j).Nodup := by
  unfold others
  split
  · exact h.nodup.erase _
  · exact h.nodup

theorem pairwise_others (h : r.Consistent) : (r.others j).Pairwise ExpiryKey.le := by
  unfold others
  split
  · exact h.sorted.sublist List.erase_sublist
  · exact h.sorted

theorem put (h : r.Consistent) (lease : Lease) : Consistent
    { r with
      byJob := Function.update r.byJob j (some lease)
      byExpiry := order (lease.expiresAt, j) (r.others j) } where
  exact key := by
    simp only
    rw [mem_order, h.mem_others]
    by_cases hj : key.2 = j
    · subst hj
      simp only [Function.update_self, Option.some.injEq, exists_eq_left', ne_eq,
        not_true_eq_false, false_and, or_false]
      constructor
      · intro he
        rw [he]
      · intro he
        rw [he]
    · rw [Function.update_of_ne hj, ← h.exact]
      constructor
      · rintro (rfl | hmem)
        · exact absurd rfl hj
        · exact hmem.2
      · exact fun hmem => .inr ⟨hj, hmem⟩
  nodup := nodup_order h.nodup_others
  sorted := pairwise_order h.pairwise_others

theorem drop (h : r.Consistent) : Consistent
    { r with byJob := Function.update r.byJob j none, byExpiry := r.others j } where
  exact key := by
    simp only
    rw [h.mem_others]
    by_cases hj : key.2 = j
    · subst hj
      simp
    · rw [Function.update_of_ne hj, ← h.exact]
      exact and_iff_right hj
  nodup := h.nodup_others
  sorted := h.pairwise_others

theorem insert (h : r.Consistent) (queue : QueueName) (id : String)
    (expiresAt claimId cancel : ℕ) :
    (r.insert queue id expiresAt claimId cancel).Consistent :=
  h.put (j := (queue, id)) { expiresAt, claimId, cancel }

theorem remove (h : r.Consistent) (queue : QueueName) (id : String) (claimId : ℕ) :
    (r.remove queue id claimId).Consistent := by
  unfold LeaseRegistry.remove
  split
  · rename_i lease hl
    split
    · exact h
    · have hdrop := h.drop (j := (queue, id))
      simp only [others, hl] at hdrop
      exact hdrop
  · exact h

theorem renew (h : r.Consistent) {queue : QueueName} {id : String} {claimId expiresAt : ℕ}
    {cancelled changed : Bool} {mode : Renewal}
    (hr : r.renew queue id claimId cancelled expiresAt mode = .ok (r', changed)) :
    r'.Consistent := by
  obtain ⟨lease, -, -, hl, -, ⟨-, rfl, -⟩ | ⟨-, rfl, -⟩⟩ := renew_eq_ok hr
  · exact h
  · have hput := h.put (j := (queue, id)) { lease with expiresAt }
    simp only [others, hl] at hput
    exact hput

end Consistent

theorem markDue_eq {key : ExpiryKey} {lease : Lease} (hl : r.byJob key.2 = some lease) :
    r.markDue key = some
      ({ r with byJob := Function.update r.byJob key.2 (some lease.taken) },
        ⟨key.2.1, key.2.2, key.1, lease.claimId⟩) := by
  unfold markDue
  rw [show (key.2.1, key.2.2) = key.2 from rfl, hl]
  rfl

def claimOf (r : LeaseRegistry) (j : QueueName × String) : ℕ := (r.byJob j).elim 0 Lease.claimId

def dueLease (r : LeaseRegistry) (key : ExpiryKey) : DueLease :=
  ⟨key.2.1, key.2.2, key.1, r.claimOf key.2⟩

theorem markAll_spec (keys : List ExpiryKey)
    (hkeys : ∀ key ∈ keys, (r.byJob key.2).isSome) :
    ∃ r', r.markAll keys = some (r', keys.map r.dueLease) ∧ r'.byExpiry = r.byExpiry ∧
      r'.closed = r.closed ∧
      ∀ j, r'.byJob j =
        if j ∈ keys.map (·.2) then (r.byJob j).map Lease.taken else r.byJob j := by
  induction keys generalizing r with
  | nil => exact ⟨r, rfl, rfl, rfl, fun j => by simp⟩
  | cons key keys ih =>
    obtain ⟨lease, hl⟩ := Option.isSome_iff_exists.mp (hkeys key (.head _))
    have hmarked : ∀ j, (Function.update r.byJob key.2 (some lease.taken) j).isSome =
        (r.byJob j).isSome ∧
        (Function.update r.byJob key.2 (some lease.taken) j).elim 0 Lease.claimId =
          r.claimOf j := by
      intro j
      by_cases hj : j = key.2
      · subst hj
        simp [claimOf, hl, Lease.taken]
      · simp [claimOf, hj]
    obtain ⟨r', hmark, hexpiry, hclosed, hjobs⟩ := ih (r :=
      { r with byJob := Function.update r.byJob key.2 (some lease.taken) })
      fun k hk => (hmarked k.2).1.trans (hkeys k (.tail _ hk))
    refine ⟨r', ?_, hexpiry, hclosed, fun j => ?_⟩
    · have hdue : keys.map (dueLease
          { r with byJob := Function.update r.byJob key.2 (some lease.taken) }) =
          keys.map r.dueLease := by
        refine List.map_congr_left fun k _ => ?_
        simp only [dueLease, claimOf, (hmarked k.2).2]
      rw [hdue] at hmark
      simp only [markAll, markDue_eq hl, Option.bind_eq_bind, Option.bind_some, hmark]
      simp [dueLease, claimOf, hl]
    · rw [hjobs j]
      by_cases hj : j = key.2
      · subst hj
        simp only [Function.update_self, List.map_cons, List.mem_cons, true_or, if_true, hl,
          Option.map_some]
        split <;> rfl
      · simp only [Function.update_of_ne hj, List.map_cons, List.mem_cons, hj, false_or]

/-- The due leases are those of the entries that expire by `now`, soonest first. -/
structure ExactlyDue (r : LeaseRegistry) (now : ℕ) (due : List DueLease) : Prop where
  exact : ∀ d : DueLease, d ∈ due ↔ d.expiresAt ≤ now ∧ ∃ lease,
    r.byJob (d.queue, d.id) = some lease ∧ lease.expiresAt = d.expiresAt ∧
      lease.claimId = d.claimId
  soonest : due.Pairwise fun d d' => d.expiresAt ≤ d'.expiresAt
  nodup : due.Nodup

theorem ExpiryKey.fst_le {a b : ExpiryKey} (h : a.le b) : a.1 ≤ b.1 := by
  rcases Prod.Lex.toLex_le_toLex.mp h with h | h
  · exact h.le
  · exact h.1.le

/-- The reaper finds the entry of every due key, and marks those entries only. -/
theorem Consistent.takeDue (h : r.Consistent) (now : ℕ) :
    ∃ r' due, r.takeDue now = some (r', due) ∧ r'.Consistent ∧ r'.closed = r.closed ∧
      (∀ j, r'.byJob j =
        (r.byJob j).map fun lease => if lease.expiresAt ≤ now then lease.taken else lease) ∧
      r.ExactlyDue now due := by
  have hkeys : r.byExpiry.takeWhile (fun key => key.1 ≤ now) =
      r.byExpiry.filter fun key => key.1 ≤ now := by
    refine List.takeWhile_eq_filter h.sorted fun a b hab hb => ?_
    simp only [decide_eq_true_eq] at hb ⊢
    exact (ExpiryKey.fst_le hab).trans hb
  have hmem {key : ExpiryKey} : key ∈ r.byExpiry.filter (fun key => key.1 ≤ now) ↔
      key.1 ≤ now ∧ ∃ lease, r.byJob key.2 = some lease ∧ lease.expiresAt = key.1 := by
    rw [List.mem_filter, h.exact, and_comm, decide_eq_true_eq]
  obtain ⟨r', hmark, hexpiry, hclosed, hjobs⟩ :=
    markAll_spec (r.byExpiry.filter fun key => key.1 ≤ now) fun key hk => by
      obtain ⟨-, lease, hl, -⟩ := hmem.mp hk
      rw [hl]
      rfl
  have hjob : ∀ j, r'.byJob j =
      (r.byJob j).map fun lease => if lease.expiresAt ≤ now then lease.taken else lease := by
    intro j
    rw [hjobs j]
    cases hl : r.byJob j with
    | none => simp
    | some lease =>
      have hiff : j ∈ (r.byExpiry.filter fun key => key.1 ≤ now).map (·.2) ↔
          lease.expiresAt ≤ now := by
        constructor
        · intro hj
          obtain ⟨key, hk, rfl⟩ := List.mem_map.mp hj
          obtain ⟨hle, lease', hl', he⟩ := hmem.mp hk
          rw [hl] at hl'
          cases hl'
          rwa [he]
        · intro hle
          exact List.mem_map.mpr ⟨(lease.expiresAt, j), hmem.mpr ⟨hle, lease, hl, rfl⟩, rfl⟩
      by_cases hle : lease.expiresAt ≤ now
      · rw [if_pos (hiff.mpr hle), Option.map_some, Option.map_some, if_pos hle]
      · rw [if_neg (fun hj => hle (hiff.mp hj)), Option.map_some, if_neg hle]
  refine ⟨r', _, by rw [LeaseRegistry.takeDue, hkeys, hmark], ?_, hclosed, hjob, ?_⟩
  · refine ⟨fun key => ?_, hexpiry ▸ h.nodup, hexpiry ▸ h.sorted⟩
    rw [hexpiry, h.exact, hjob]
    simp only [Option.map_eq_some_iff]
    constructor
    · rintro ⟨lease, hl, he⟩
      refine ⟨_, ⟨lease, hl, rfl⟩, ?_⟩
      split <;> exact he
    · rintro ⟨_, ⟨lease, hl, rfl⟩, he⟩
      refine ⟨lease, hl, ?_⟩
      split at he <;> exact he
  · refine ⟨fun d => ?_, ?_, ?_⟩
    · simp only [List.mem_map, hmem]
      constructor
      · rintro ⟨key, ⟨hle, lease, hl, he⟩, rfl⟩
        exact ⟨hle, lease, hl, he, by simp [dueLease, claimOf, hl]⟩
      · rintro ⟨hle, lease, hl, he, hc⟩
        refine ⟨(d.expiresAt, d.queue, d.id), ⟨hle, lease, hl, he⟩, ?_⟩
        simp [dueLease, claimOf, hl, hc]
    · rw [List.pairwise_map]
      exact (h.sorted.sublist List.filter_sublist).imp ExpiryKey.fst_le
    · refine (h.nodup.filter _).map ?_
      rintro ⟨e, q, i⟩ ⟨e', q', i'⟩ heq
      simp only [dueLease, DueLease.mk.injEq] at heq
      obtain ⟨rfl, rfl, rfl, -⟩ := heq
      rfl

/-- The claim holds the entry of the job, which the reaper has not taken. -/
def Holds (r : LeaseRegistry) (queue : QueueName) (id : String) (claimId : ℕ) : Prop :=
  ∃ lease ∈ r.byJob (queue, id), lease.claimId = claimId ∧ lease.reaping = false

instance (queue : QueueName) (id : String) (claimId : ℕ) :
    Decidable (r.Holds queue id claimId) :=
  inferInstanceAs (Decidable (∃ lease ∈ _, _ ∧ _))

section Renew

variable {queue : QueueName} {id : String} {claimId expiresAt : ℕ} {cancelled changed : Bool}
  {mode : Renewal}

def status (r : LeaseRegistry) (j : QueueName × String) : Option (ℕ × Bool) :=
  (r.byJob j).map fun lease => (lease.claimId, lease.reaping)

theorem holds_iff : r.Holds queue id claimId ↔ r.status (queue, id) = some (claimId, false) := by
  simp only [Holds, status, Option.map_eq_some_iff, Prod.mk.injEq, Option.mem_def]

theorem status_renew (h : r.renew queue id claimId cancelled expiresAt mode = .ok (r', changed)) :
    r'.closed = r.closed ∧ r'.status = r.status := by
  obtain ⟨lease, -, -, hl, -, ⟨-, rfl, -⟩ | ⟨-, rfl, -⟩⟩ := renew_eq_ok h
  · exact ⟨rfl, rfl⟩
  · refine ⟨rfl, funext fun j => ?_⟩
    by_cases hj : j = (queue, id)
    · subst hj
      simp [status, hl]
    · simp [status, hj]

theorem closed_remove : (r.remove queue id claimId).closed = r.closed := by
  unfold remove
  split
  · split <;> rfl
  · rfl

theorem status_remove {p : ℕ × Bool} (h : (r.remove queue id claimId).status j = some p) :
    r.status j = some p := by
  unfold remove at h
  split at h
  · split at h
    · exact h
    · by_cases hj : j = (queue, id)
      · subst hj
        simp [status] at h
      · simpa [status, hj] using h
  · exact h

theorem status_insert {cancel : ℕ} : (r.insert queue id expiresAt claimId cancel).status =
    Function.update r.status (queue, id) (some (claimId, false)) := by
  funext j
  by_cases hj : j = (queue, id)
  · subst hj
    simp [status, insert]
  · simp [status, insert, hj]

theorem renew_closed (h : r.closed = true) :
    r.renew queue id claimId cancelled expiresAt mode = .error .claimLost := by
  rw [renew, if_pos h]

/-- The token is read before the entry. -/
theorem renew_cancelled (h : r.closed = false) :
    r.renew queue id claimId true expiresAt mode = .error .cancelRequested := by
  rw [renew, if_neg (by simp [h]), if_pos rfl]

theorem renew_lost (h : r.closed = false) (hh : ¬ r.Holds queue id claimId) :
    r.renew queue id claimId false expiresAt mode = .error .claimLost := by
  rw [renew, if_neg (by simp [h]), if_neg (by simp)]
  split
  · rename_i lease hl
    rw [if_neg fun hc => hh ⟨lease, hl, hc⟩]
  · rfl

theorem renew_held (h : r.closed = false) (hh : r.Holds queue id claimId) (expiresAt : ℕ)
    (mode : Renewal) :
    ∃ r' changed, r.renew queue id claimId false expiresAt mode = .ok (r', changed) := by
  obtain ⟨lease, hl, hc⟩ := hh
  rw [renew, if_neg (by simp [h]), if_neg (by simp), Option.mem_def.mp hl]
  simp only
  rw [if_pos hc]
  split
  · exact ⟨_, _, rfl⟩
  · exact ⟨_, _, rfl⟩

end Renew

end LeaseRegistry

end Taquba
