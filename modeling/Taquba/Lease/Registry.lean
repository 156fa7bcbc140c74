import Mathlib.Data.List.Sort
import Taquba.Txn.Stage

/-! # The lease registry

The leases of the claimed jobs, by job and in order of their expiry. An entry
replaces the one before it, is renewed and removed only for its own claim, and
refuses renewal once the reaper took it as due.
-/

namespace Taquba

theorem QueueName.name_injective : Function.Injective QueueName.name := by
  rintro ⟨_, _⟩ ⟨_, _⟩ rfl
  rfl

instance : LinearOrder QueueName := LinearOrder.lift' QueueName.name QueueName.name_injective

/-- How a renewal applies the requested expiry. -/
inductive Renewal where
  | set
  | extend
  deriving DecidableEq, Repr

inductive RenewalError where
  | claimLost
  | cancelRequested
  deriving DecidableEq, Repr

/-- A due lease that the reaper marked and examines. -/
structure DueLease where
  queue : QueueName
  id : String
  expiresAt : ℕ
  claimId : ℕ
  deriving DecidableEq

structure Lease where
  expiresAt : ℕ
  claimId : ℕ
  cancel : ℕ
  reaping : Bool := false
  deriving DecidableEq

/-- An entry of the expiry order: the expiry, the queue and the id of a job. -/
abbrev ExpiryKey := ℕ × QueueName × String

def ExpiryKey.le (a b : ExpiryKey) : Prop :=
  toLex (a.1, toLex (a.2.1, a.2.2)) ≤ toLex (b.1, toLex (b.2.1, b.2.2))

instance : DecidableRel ExpiryKey.le := fun _ _ => inferInstanceAs (Decidable (_ ≤ _))

structure LeaseRegistry where
  byJob : QueueName × String → Option Lease := fun _ => none
  byExpiry : List ExpiryKey := []
  closed : Bool := false

namespace LeaseRegistry

/-- Add an entry to the expiry order, which holds it once. -/
def order (key : ExpiryKey) (byExpiry : List ExpiryKey) : List ExpiryKey :=
  if key ∈ byExpiry then byExpiry else byExpiry.orderedInsert ExpiryKey.le key

/-- Record the lease of a claim in place of any entry of the job. -/
def insert (r : LeaseRegistry) (queue : QueueName) (id : String) (expiresAt claimId cancel : ℕ) :
    LeaseRegistry :=
  let byExpiry := match r.byJob (queue, id) with
    | some old => r.byExpiry.erase (old.expiresAt, queue, id)
    | none => r.byExpiry
  { r with
    byJob := Function.update r.byJob (queue, id) (some { expiresAt, claimId, cancel })
    byExpiry := order (expiresAt, queue, id) byExpiry }

/-- Apply a requested expiry to the lease of a claim, and tell whether it changed.
`cancelled` is the state of the claim's token. -/
def renew (r : LeaseRegistry) (queue : QueueName) (id : String) (claimId : ℕ) (cancelled : Bool)
    (expiresAt : ℕ) (mode : Renewal) : Except RenewalError (LeaseRegistry × Bool) :=
  if r.closed then .error .claimLost
  else if cancelled then .error .cancelRequested
  else
    match r.byJob (queue, id) with
    | some lease =>
      if lease.claimId = claimId ∧ lease.reaping = false then
        if lease.expiresAt = expiresAt ∨ (mode = .extend ∧ expiresAt < lease.expiresAt) then
          .ok (r, false)
        else
          .ok ({ r with
            byJob := Function.update r.byJob (queue, id) (some { lease with expiresAt })
            byExpiry := order (expiresAt, queue, id)
              (r.byExpiry.erase (lease.expiresAt, queue, id)) }, true)
      else .error .claimLost
    | none => .error .claimLost

def current (r : LeaseRegistry) : Leases := fun queue id =>
  (r.byJob (queue, id)).map fun lease => (lease.expiresAt, lease.claimId)

def token (r : LeaseRegistry) (queue : QueueName) (id : String) : Option ℕ :=
  (r.byJob (queue, id)).map Lease.cancel

def close (r : LeaseRegistry) : LeaseRegistry × List ℕ :=
  ({ r with closed := true }, r.byExpiry.filterMap fun key => r.token key.2.1 key.2.2)

/-- Mark the entry of one due key. A key without an entry is a failed `expect`. -/
def markDue (r : LeaseRegistry) (key : ExpiryKey) : Option (LeaseRegistry × DueLease) :=
  (r.byJob (key.2.1, key.2.2)).map fun lease =>
    ({ r with
      byJob := Function.update r.byJob (key.2.1, key.2.2) (some { lease with reaping := true }) },
      ⟨key.2.1, key.2.2, key.1, lease.claimId⟩)

def markAll (r : LeaseRegistry) : List ExpiryKey → Option (LeaseRegistry × List DueLease)
  | [] => some (r, [])
  | key :: keys => do
    let (r, lease) ← r.markDue key
    let (r, due) ← r.markAll keys
    return (r, lease :: due)

/-- Mark the entries due at `now`, soonest first. They stay in the registry. -/
def takeDue (r : LeaseRegistry) (now : ℕ) : Option (LeaseRegistry × List DueLease) :=
  r.markAll (r.byExpiry.takeWhile fun key => key.1 ≤ now)

def remove (r : LeaseRegistry) (queue : QueueName) (id : String) (claimId : ℕ) : LeaseRegistry :=
  match r.byJob (queue, id) with
  | some lease =>
    if lease.claimId ≠ claimId then r
    else
      { r with
        byJob := Function.update r.byJob (queue, id) none
        byExpiry := r.byExpiry.erase (lease.expiresAt, queue, id) }
  | none => r

/-- What an entry says about its claim: its expiry, its id and its token. -/
def held (r : LeaseRegistry) (j : QueueName × String) : Option (ℕ × ℕ × ℕ) :=
  (r.byJob j).map fun lease => (lease.expiresAt, lease.claimId, lease.cancel)

variable {r r' : LeaseRegistry} {queue : QueueName} {id : String} {claimId : ℕ}

theorem current_eq (r : LeaseRegistry) (queue : QueueName) (id : String) :
    r.current queue id = (r.held (queue, id)).map fun h => (h.1, h.2.1) := by
  simp only [current, held, Option.map_map]
  rfl

theorem held_insert (r : LeaseRegistry) (queue : QueueName) (id : String)
    (expiresAt claimId cancel : ℕ) :
    (r.insert queue id expiresAt claimId cancel).held =
      Function.update r.held (queue, id) (some (expiresAt, claimId, cancel)) := by
  funext j
  by_cases hj : j = (queue, id)
  · subst hj
    simp [held, insert]
  · simp [held, insert, hj]

theorem held_remove (r : LeaseRegistry) (queue : QueueName) (id : String) (claimId : ℕ) :
    (r.remove queue id claimId).held =
      if (r.held (queue, id)).any fun h => h.2.1 = claimId then
        Function.update r.held (queue, id) none
      else r.held := by
  unfold remove
  cases hl : r.byJob (queue, id) with
  | none => simp [held, hl]
  | some lease =>
    by_cases hc : lease.claimId = claimId
    · simp only [hc, ne_eq, not_true_eq_false, if_false, held, hl, Option.map_some, Option.any_some,
        decide_true, if_true]
      funext j
      by_cases hj : j = (queue, id)
      · subst hj
        simp [held]
      · simp [held, hj]
    · simp [hc, held, hl]

theorem held_of_held_remove {j : QueueName × String} {h : ℕ × ℕ × ℕ}
    (hh : (r.remove queue id claimId).held j = some h) : r.held j = some h := by
  rw [held_remove] at hh
  split at hh
  · by_cases hj : j = (queue, id)
    · subst hj
      simp at hh
    · simpa [hj] using hh
  · exact hh

theorem held_markDue {key : ExpiryKey} {lease : DueLease} (h : r.markDue key = some (r', lease)) :
    r'.held = r.held := by
  obtain ⟨l, hl, he⟩ := Option.map_eq_some_iff.mp h
  cases he
  funext j
  by_cases hj : j = (key.2.1, key.2.2)
  · subst hj
    simp [held, hl]
  · simp [held, hj]

theorem held_markAll {keys : List ExpiryKey} {due : List DueLease}
    (h : r.markAll keys = some (r', due)) : r'.held = r.held := by
  induction keys generalizing r due with
  | nil =>
    cases h
    rfl
  | cons key keys ih =>
    obtain ⟨⟨r₁, lease⟩, h₁, h⟩ := Option.bind_eq_some_iff.mp h
    obtain ⟨⟨r₂, due'⟩, h₂, h⟩ := Option.bind_eq_some_iff.mp h
    cases h
    rw [ih h₂, held_markDue h₁]

theorem held_of_markAll {keys : List ExpiryKey} {due : List DueLease}
    (h : r.markAll keys = some (r', due)) {lease : DueLease} (hl : lease ∈ due) :
    ∃ e k, r.held (lease.queue, lease.id) = some (e, lease.claimId, k) := by
  induction keys generalizing r due with
  | nil =>
    cases h
    cases hl
  | cons key keys ih =>
    obtain ⟨⟨r₁, first⟩, h₁, h⟩ := Option.bind_eq_some_iff.mp h
    obtain ⟨⟨r₂, due'⟩, h₂, h⟩ := Option.bind_eq_some_iff.mp h
    cases h
    rcases List.mem_cons.mp hl with rfl | hl
    · obtain ⟨entry, hentry, he⟩ := Option.map_eq_some_iff.mp h₁
      cases he
      exact ⟨entry.expiresAt, entry.cancel, by simp [held, hentry]⟩
    · rw [← held_markDue h₁]
      exact ih h₂ hl

theorem held_takeDue {now : ℕ} {due : List DueLease} (h : r.takeDue now = some (r', due)) :
    r'.held = r.held :=
  held_markAll h

/-- An accepted renewal finds the claim in an open registry with its token not fired, and
changes nothing or the expiry of the entry. -/
theorem renew_eq_ok {cancelled changed : Bool} {expiresAt : ℕ} {mode : Renewal}
    (h : r.renew queue id claimId cancelled expiresAt mode = .ok (r', changed)) :
    ∃ lease, r.closed = false ∧ cancelled = false ∧ r.byJob (queue, id) = some lease ∧
      (lease.claimId = claimId ∧ lease.reaping = false) ∧
      ((changed = false ∧ r' = r ∧
          (lease.expiresAt = expiresAt ∨ mode = .extend ∧ expiresAt < lease.expiresAt)) ∨
        (changed = true ∧
          r' = { r with
            byJob := Function.update r.byJob (queue, id) (some { lease with expiresAt })
            byExpiry := order (expiresAt, queue, id)
              (r.byExpiry.erase (lease.expiresAt, queue, id)) } ∧
          ¬ (lease.expiresAt = expiresAt ∨ mode = .extend ∧ expiresAt < lease.expiresAt))) := by
  unfold renew at h
  by_cases hclosed : r.closed = true
  · rw [if_pos hclosed] at h
    cases h
  rw [if_neg hclosed] at h
  by_cases hcancelled : cancelled = true
  · rw [if_pos hcancelled] at h
    cases h
  rw [if_neg hcancelled] at h
  cases hl : r.byJob (queue, id) with
  | none =>
    rw [hl] at h
    cases h
  | some lease =>
    simp only [hl] at h
    by_cases hc : lease.claimId = claimId ∧ lease.reaping = false
    · rw [if_pos hc] at h
      refine ⟨lease, by simpa using hclosed, by simpa using hcancelled, rfl, hc, ?_⟩
      by_cases he : lease.expiresAt = expiresAt ∨ mode = .extend ∧ expiresAt < lease.expiresAt
      · rw [if_pos he] at h
        cases h
        exact .inl ⟨rfl, rfl, he⟩
      · rw [if_neg he] at h
        cases h
        exact .inr ⟨rfl, rfl, he⟩
    · rw [if_neg hc] at h
      cases h

/-- A renewal changes only the expiry of its own claim. -/
theorem held_renew {cancelled changed : Bool} {expiresAt : ℕ} {mode : Renewal}
    (h : r.renew queue id claimId cancelled expiresAt mode = .ok (r', changed)) :
    ∃ e k, r.held (queue, id) = some (e, claimId, k) ∧
      r'.held = Function.update r.held (queue, id)
        (some (if changed then expiresAt else e, claimId, k)) := by
  obtain ⟨lease, -, -, hl, hc, hr⟩ := renew_eq_ok h
  have hheld : r.held (queue, id) = some (lease.expiresAt, claimId, lease.cancel) := by
    simp [held, hl, hc.1]
  refine ⟨lease.expiresAt, lease.cancel, hheld, ?_⟩
  rcases hr with ⟨rfl, rfl, -⟩ | ⟨rfl, rfl, -⟩
  · simp [← hheld]
  · funext j
    by_cases hj : j = (queue, id)
    · subst hj
      simp [held, hc.1]
    · simp [held, hj]

end LeaseRegistry

end Taquba
