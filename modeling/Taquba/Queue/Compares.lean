import Taquba.Queue.User

/-! # Compares and claim fences

The effects of a call test a claim and some user keys on the snapshot of their
transaction. The keys join its read set, so a commit finds what the test found. Only a
compare that did not match reports a failed compare.
-/

namespace Taquba

open Snapshot

variable {κ β : Type}
variable {leases : Leases}

namespace Txn

section Internal

variable [DecidableEq κ] {t : Txn κ β}

/-- A stage of jobs and counts that compares nothing. -/
abbrev Internal {α : Type} (txn : α → Txn κ β) : Txn κ β → Except (Error κ) α → Prop :=
  Staged .internal ⟨False, True⟩ txn

theorem internal_stageJobWrites {prepared : PreparedJob} :
    Internal Prod.fst t (t.stageJobWrites prepared) :=
  staged_stageJobWrites _ ⟨trivial, trivial⟩ trivial _

theorem internal_takeClaim {queue : QueueName} {id : String} {claimId : ℕ} :
    Internal Prod.fst t (t.takeClaim leases queue id claimId) :=
  staged_takeClaim ..

omit [DecidableEq κ] in
theorem internal_stageClaimEnd {job : JobRecord} {claimEnd : ClaimEnd} {now : ℕ} :
    Internal Prod.fst t (t.stageClaimEnd job claimEnd now) :=
  staged_stageClaimEnd _ _ _ (.inl trivial)

theorem internal_stageCancel {id : String} : Internal Prod.fst t (t.stageCancel id) :=
  staged_stageCancel ..

end Internal

section Compares

variable [DecidableEq κ] [DecidableEq β] {t t' : Txn κ β}

/-- The compares hold in the state that the transaction sees, and it has read their keys. -/
def Compared (t t' : Txn κ β) (compares : List (KvCompare κ β)) : Prop :=
  ∀ c ∈ compares, t.view (.user c.key) = c.expected ∧ .user c.key ∈ t'.reads

/-- A compare does not hold in the state that the transaction sees. -/
def Mismatched (s : Store (Val κ β)) (compares : List (KvCompare κ β)) (key : κ) : Prop :=
  ∃ c ∈ compares, c.key = key ∧ s (.user key) ≠ c.expected

theorem stageCompares_eq_ok {compares : List (KvCompare κ β)}
    (h : t.stageCompares compares = .ok t') :
    Compared t t' compares ∧ t.reads ⊆ t'.reads := by
  induction compares generalizing t with
  | nil =>
    cases h
    exact ⟨by simp [Compared], List.Subset.refl _⟩
  | cons c compares ih =>
    simp only [stageCompares] at h
    split_ifs at h with heq
    obtain ⟨hall, hsub⟩ := ih h
    have hsub' : t.reads ⊆ t'.reads := List.Subset.trans (List.subset_append_left _ _) hsub
    refine ⟨?_, hsub'⟩
    rintro d (_ | ⟨_, hd⟩)
    · exact ⟨heq, hsub (by simp [markRead])⟩
    · exact hall d hd

theorem stageCompares_eq_error {compares : List (KvCompare κ β)} {key : κ}
    (h : t.stageCompares compares = .error (.kvCompareFailed key)) :
    Mismatched t.view compares key := by
  induction compares generalizing t with
  | nil => cases h
  | cons c compares ih =>
    simp only [stageCompares] at h
    split_ifs at h with hne
    · obtain ⟨d, hd, hk, hne⟩ := ih h
      exact ⟨d, .tail _ hd, hk, hne⟩
    · cases h
      exact ⟨c, .head _, rfl, hne⟩

/-- The claim that a fence names is live in the state that the transaction sees, and it
has read its record. -/
def FencedBy (leases : Leases) (t t' : Txn κ β) (fence : ClaimFence) : Prop :=
  (leases fence.queue fence.id).any (fun current => current.2 = fence.claimId) = true ∧
    (t.view (.record (.claimed fence.queue fence.id))).isSome = true ∧
    .record (.claimed fence.queue fence.id) ∈ t'.reads

omit [DecidableEq β] in
theorem readClaim_fencedBy {fence : ClaimFence} {job : JobRecord}
    (h : t.readClaim leases fence.queue fence.id fence.claimId = .ok (t', job)) :
    FencedBy leases t t' fence := by
  unfold readClaim at h
  split at h
  · rename_i due current hl
    split_ifs at h with hcurrent
    split at h
    · rename_i stored hg
      cases h
      refine ⟨by simp [hl, hcurrent], ?_, by simp [markRead]⟩
      have hv : t.view (.record (.claimed fence.queue fence.id)) = some stored := hg
      simp [hv]
    · cases h
  · cases h

omit [DecidableEq β] in
theorem view_of_stageFence {fence : Option ClaimFence} (h : t.stageFence leases fence = .ok t') :
    t'.view = t.view := by
  cases fence with
  | none =>
    cases h
    rfl
  | some fence =>
    obtain ⟨⟨t₁, job⟩, h₁, h⟩ := Except.bind_eq_ok.mp h
    cases h
    unfold readClaim at h₁
    split at h₁
    · split at h₁
      · split at h₁
        · cases h₁
          rfl
        · cases h₁
      · cases h₁
    · cases h₁

/-- Effects that are staged have their compares and their fence hold in the state before. -/
theorem stageEffects_compared {effects : PreparedEffects κ β} {rs : List EnqueueResult}
    (h : t.stageEffects leases effects = .ok (t', rs)) :
    Compared t t' effects.kvCompares ∧
      ∀ fence ∈ effects.claimFence, FencedBy leases t t' fence := by
  obtain ⟨t₁, t₂, t₃, t₄, h₁, h₂, h₃, h₄, rfl⟩ := stageEffects_parts h
  obtain ⟨hcompared, hsub⟩ := stageCompares_eq_ok h₂
  have hrest : Adds ⟨True, True, True⟩ t₂ _ :=
    ((staged_stageCountChanges (F := .any) _ trivial _ _).of_ok h₃).trans <|
      ((staged_stageJobs (F := .any) _ ⟨trivial, trivial⟩ trivial _).of_ok h₄).trans <|
      (adds_stageKv t₄ trivial effects.kvWrites effects.kvDeletes).trans
        (adds_noteExpiryEntries _ effects.expiryEntries)
  have hview := view_of_stageFence h₁
  rw [Compared, hview] at hcompared
  constructor
  · intro c hc
    exact ⟨(hcompared c hc).1, hrest.reads (hcompared c hc).2⟩
  · intro fence hf
    rw [hf] at h₁
    obtain ⟨⟨t₀, job⟩, h₀, h₁⟩ := Except.bind_eq_ok.mp h₁
    cases h₁
    obtain ⟨hlease, hrecord, hread⟩ := readClaim_fencedBy h₀
    exact ⟨hlease, hrecord, hrest.reads (hsub hread)⟩

theorem stageEffects_mismatched {effects : PreparedEffects κ β} {key : κ}
    (h : t.stageEffects leases effects = .error (.kvCompareFailed key)) :
    Mismatched t.view effects.kvCompares key := by
  rcases Except.bind_eq_error.mp h with h | ⟨t₁, h₁, h⟩
  · exact (Staged.of_error (staged_stageFence .. : Internal id t _) h).elim
  rcases Except.bind_eq_error.mp h with h | ⟨t₂, h₂, h⟩
  · rw [← view_of_stageFence h₁]
    exact stageCompares_eq_error h
  rcases Except.bind_eq_error.mp h with h | ⟨t₃, h₃, h⟩
  · exact (Staged.of_error (staged_stageCountChanges _ trivial _ _ : Internal id t₂ _) h).elim
  rcases Except.bind_eq_error.mp h with h | ⟨⟨t₄, rs⟩, h₄, h⟩
  · exact (Staged.of_error (staged_stageJobs _ ⟨trivial, trivial⟩ trivial _ :
      Internal Prod.fst t₃ _) h).elim
  · cases h

omit [DecidableEq β] in
theorem Adds.user (h : Adds .internal t t') (k : κ) :
    t'.view (.user k) = t.view (.user k) := by
  obtain ⟨ws, hw, hc⟩ := h.stagesExternal.changesUser
  rw [view, view, h.base, hw, Store.applyBatch_append, applyBatch_user, hc]
  rfl

end Compares

end Txn

namespace Call

variable [DecidableEq κ] [DecidableEq β] {s : Store (Val κ β)} {t : Txn κ β} {call : Call κ β}
  {delivered : List JobRecord} {effects : PreparedEffects κ β}

theorem compared_of_stageEffects {t₁ : Txn κ β} {rs : List EnqueueResult}
    (hs : Txn.Adds .internal (Txn.begin s) t₁) (h : t₁.stageEffects leases effects = .ok (t, rs)) :
    Txn.Compared (Txn.begin s) t effects.kvCompares := by
  intro c hc
  rw [← hs.user]
  exact (Txn.stageEffects_compared h).1 c hc

/-- When the effects of a call apply, their compares hold on its snapshot. -/
theorem attempt_compared (h : call.attempt s = some (t, delivered))
    (he : call.appliedEffects s = some effects) :
    Txn.Compared (Txn.begin s) t effects.kvCompares := by
  cases committed_of_attempt h with
  | enqueue hr =>
    obtain ⟨t₁, id, results, h₁, h₂, -⟩ := Txn.writeJobTxn_eq_ok hr
    cases he
    exact compared_of_stageEffects (Txn.internal_stageJobWrites.of_ok h₁) h₂
  | commitEffects hr =>
    cases he
    exact compared_of_stageEffects (.refl _) (Txn.commitEffects_eq_ok hr)
  | @settle _ _ queue id _ _ _ _ _ _ hr =>
    obtain ⟨t₁, t₂, job, h₁, h₂, -, hcase⟩ := Txn.settleClaim_eq_commit hr
    have hstage := (Txn.internal_takeClaim.of_ok h₁).trans (Txn.internal_stageClaimEnd.of_ok h₂)
    obtain ⟨stored, hst, hdec⟩ := Option.map_eq_some_iff.mp (Txn.quietly_takeClaim h₁).2
    have hst' : s (.record (.claimed queue id)) = some stored := hst
    simp only [appliedEffects, hst', Option.bind_some, hdec] at he
    obtain ⟨hterm, results, h₃, -⟩ | ⟨hterm, rfl, -⟩ := hcase
    · rw [if_pos hterm] at he
      cases he
      exact compared_of_stageEffects hstage h₃
    · simp [hterm] at he
  | cancel hr =>
    obtain ⟨key, job, hj, ⟨hst, h₁, results, h₂, -⟩ | ⟨hst, job', h₁, -⟩⟩ := Txn.cancel_eq_ok hr
    · simp only [appliedEffects, hj, Option.bind_some, hst, if_true] at he
      cases he
      exact compared_of_stageEffects (Txn.internal_stageCancel.of_ok h₁) h₂
    · simp [appliedEffects, hj, hst] at he
  | _ => cases he

end Call

end Taquba
