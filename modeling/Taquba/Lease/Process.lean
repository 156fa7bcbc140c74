import Mathlib.Data.List.Induction
import Taquba.Lease.Deliveries

/-! # The deliveries of one process

A process opens a store without claimed records. Its commits tell which delivery
wrote each claimed record since then. When every end of a claim found the delivery
of that claim, and no two deliveries share a claim id, a claim is ended once.
-/

namespace Taquba

open Snapshot

variable {κ β : Type}
variable {c : CallCommit κ β} {p : JobRecord × ℕ} {n : ℕ}

def Call.endsClaim : Call κ β → Option (QueueName × String × ℕ)
  | .settle _ _ queue id claimId _ _ _ | .reap _ queue id claimId _ => some (queue, id, claimId)
  | _ => none

theorem Call.ended_of_endsClaim {call : Call κ β} {queue : QueueName} {id : String} {claimId : ℕ}
    (h : call.endsClaim = some (queue, id, claimId)) : call.ended = some (queue, id) := by
  cases call with
  | settle | reap =>
    cases h
    rfl
  | _ => cases h

namespace History

theorem delivery_spec {log : History κ β} {queue : QueueName} {id : String}
    (h : log.delivery queue id = some p) :
    ∃ m c, log[m]? = some c ∧ p ∈ c.label.claims ∧ p.1.ref = (queue, id) ∧
      ∀ k, m < k → k ≤ log.length → delivery (log.take k) queue id = some p := by
  induction log using List.reverseRecOn with
  | nil => cases h
  | append_singleton log c ih =>
    have hlast : ∀ k, log.length < k → k ≤ (log ++ [c]).length →
        delivery ((log ++ [c]).take k) queue id = some p := by
      intro k hk hle
      rwa [List.take_of_length_le (by simp; omega)]
    rw [delivery_append, Entry.next] at h
    split at h
    · rename_i p' hc
      cases h
      refine ⟨log.length, c, by simp, List.mem_of_find?_eq_some hc, ?_, hlast⟩
      simpa using List.find?_some hc
    · split at h
      · cases h
      · obtain ⟨m, d, hm, hmem, href, hlive⟩ := ih h
        have hlt := (List.getElem?_eq_some_iff.mp hm).1
        refine ⟨m, d, by rw [List.getElem?_append_left hlt, hm], hmem, href, fun k hk hle => ?_⟩
        rcases Nat.lt_or_ge log.length k with hlk | hlk
        · exact hlast k hlk hle
        · rw [List.take_append_of_le_length hlk]
          exact hlive k hk hlk

def claimIds (log : History κ β) : List ℕ := log.flatMap fun c => c.label.claims.map Prod.snd

theorem mem_claimIds {log : History κ β} {m : ℕ} (hm : log[m]? = some c) (hp : p ∈ c.label.claims) :
    p.2 ∈ log.claimIds :=
  List.mem_flatMap.mpr ⟨c, List.mem_of_getElem? hm, List.mem_map.mpr ⟨p, hp, rfl⟩⟩

theorem eq_of_claimIds {log : History κ β} (h : log.claimIds.Nodup) {m : ℕ}
    {d : CallCommit κ β} {q : JobRecord × ℕ} (hm : log[m]? = some c)
    (hn : log[n]? = some d) (hp : p ∈ c.label.claims) (hq : q ∈ d.label.claims) (he : p.2 = q.2) :
    m = n ∧ p = q := by
  obtain ⟨hin, hout⟩ := List.nodup_flatMap.mp h
  rw [List.pairwise_iff_getElem] at hout
  have hdisj : ∀ {i j : ℕ} {c d : CallCommit κ β} {p q : JobRecord × ℕ},
      log[i]? = some c → log[j]? = some d → p ∈ c.label.claims → q ∈ d.label.claims →
      p.2 = q.2 → ¬ i < j := by
    intro i j c d p q hi hj hp hq he hlt
    obtain ⟨hi', rfl⟩ := List.getElem?_eq_some_iff.mp hi
    obtain ⟨hj', rfl⟩ := List.getElem?_eq_some_iff.mp hj
    exact hout i j hi' hj' hlt (List.mem_map.mpr ⟨p, hp, rfl⟩) (List.mem_map.mpr ⟨q, hq, he.symm⟩)
  have hmn : m = n := by
    have h₁ := hdisj hm hn hp hq he
    have h₂ := hdisj hn hm hq hp he.symm
    omega
  subst hmn
  rw [hm] at hn
  cases hn
  exact ⟨rfl, List.inj_on_of_nodup_map (hin c (List.mem_of_getElem? hm)) hp hq he⟩

variable [DecidableEq κ]

/-- The history of a process that opened a store without claimed records after the
first `opened` commits. -/
structure Process (log : History κ β) (opened : ℕ) : Prop where
  sound : log.Sound
  opened_le : opened ≤ log.length
  unclaimed : ∀ queue id, Log.store (log.take opened) (.record (.claimed queue id)) = none
  matched : ∀ c ∈ log.drop opened, c.label.delivered.length = c.label.call.claimIds.length

def live (log : History κ β) (opened n : ℕ) (queue : QueueName) (id : String) :
    Option (JobRecord × ℕ) :=
  delivery ((log.take n).drop opened) queue id

namespace Process

variable {log : History κ β} {opened : ℕ} {queue : QueueName} {id : String}

omit [DecidableEq κ] in
theorem live_succ (hn : opened ≤ n) (hc : log[n]? = some c) :
    log.live opened (n + 1) queue id = c.label.next queue id (log.live opened n queue id) := by
  have hlt := (List.getElem?_eq_some_iff.mp hc).1
  rw [live, List.take_add_one, hc, Option.toList_some,
    List.drop_append_of_le_length (by simp; omega), delivery_append, live]

theorem recorded_at (h : Process log opened) (hn : opened ≤ n) (hle : n ≤ log.length) :
    Recorded queue id ((log.live opened n queue id).map Prod.fst)
      (Log.store (log.take n) (.record (.claimed queue id))) := by
  induction n, hn using Nat.le_induction with
  | base =>
    rw [live, List.drop_eq_nil_of_le (by simp)]
    exact h.unclaimed queue id
  | succ n hn ih =>
    obtain ⟨c, hc⟩ : ∃ c, log[n]? = some c := ⟨_, List.getElem?_eq_getElem hle⟩
    obtain ⟨htake, as, hp⟩ := h.sound.get hc
    have hmem : c ∈ log.drop opened := by
      refine List.mem_of_getElem? (i := n - opened) ?_
      rw [List.getElem?_drop, Nat.add_sub_cancel' hn, hc]
    rw [live_succ hn hc, htake]
    exact hp.recorded (h.sound.take n).storeInv (h.matched c hmem) (ih (by omega))

theorem recorded (h : Process log opened) :
    Recorded queue id ((log.live opened log.length queue id).map Prod.fst)
      (log.store (.record (.claimed queue id))) := by
  conv => arg 4; rw [← List.take_length (l := log)]
  exact h.recorded_at h.opened_le le_rfl

/-- A call on the state after `n` commits delivers each job once, and only when the job
has no live delivery there. -/
theorem shape_spec (h : Process log opened) (hn : opened ≤ n) (hle : n ≤ log.length)
    {as : List (JobAction κ β)} {delivered : List JobRecord} {ended : Option (QueueName × String)}
    {acked : Option QueueName} {cancels : Option String}
    (he : (jobActions κ β).AllEnabled as (Log.store (log.take n)))
    (hs : Shape as delivered ended acked cancels) :
    (delivered.map (·.ref)).Nodup ∧
      ∀ job ∈ delivered, log.live opened n job.queue job.id = none := by
  have hcount : ∀ j : QueueName × String,
      ((log.live opened n j.1 j.2).map Prod.fst).toList.length +
        (delivered.map (·.ref)).count j ≤ 1 := fun j =>
    hs.count_ref_le (h.sound.take n).storeInv he (h.recorded_at hn hle)
  refine ⟨List.nodup_iff_count_le_one.mpr fun j => le_of_add_le_right (hcount j), ?_⟩
  intro job hj
  have hpos : 0 < (delivered.map (·.ref)).count job.ref :=
    List.count_pos_iff.mpr (List.mem_map.mpr ⟨job, hj, rfl⟩)
  have hle := hcount job.ref
  cases hl : log.live opened n job.queue job.id with
  | none => rfl
  | some p =>
    simp only [JobRecord.ref, hl, Option.map_some, Option.toList_some,
      List.length_singleton] at hle hpos
    omega

theorem claims_at (h : Process log opened) (hn : opened ≤ n) (hc : log[n]? = some c) :
    (c.label.delivered.map (·.ref)).Nodup ∧
      ∀ job ∈ c.label.delivered, log.live opened n job.queue job.id = none := by
  obtain ⟨-, as, hp⟩ := h.sound.get hc
  have hlt := (List.getElem?_eq_some_iff.mp hc).1
  exact h.shape_spec hn (by omega) hp.enabled hp.shape

omit [DecidableEq κ] in
theorem live_spec (h : log.live opened n queue id = some p) :
    ∃ m c, opened ≤ m ∧ m < n ∧ log[m]? = some c ∧ p ∈ c.label.claims ∧
      p.1.ref = (queue, id) ∧ ∀ k, m < k → k ≤ n → log.live opened k queue id = some p := by
  obtain ⟨m, c, hm, hp, href, hlive⟩ := delivery_spec h
  have hlt := (List.getElem?_eq_some_iff.mp hm).1
  simp only [List.length_drop, List.length_take] at hlt hlive
  rw [List.getElem?_drop, List.getElem?_take_of_lt (by omega)] at hm
  refine ⟨opened + m, c, by omega, by omega, hm, hp, href, fun k hk hkn => ?_⟩
  rcases Nat.lt_or_ge k log.length with hlen | hlen
  · have hk' := hlive (k - opened) (by omega) (by omega)
    rwa [List.take_drop, List.take_take, Nat.min_eq_left (by omega),
      Nat.add_sub_cancel' (by omega)] at hk'
  · rw [live, List.take_of_length_le hlen]
    rwa [live, List.take_of_length_le (by omega)] at h

end Process

def EndsLive (log : History κ β) (opened : ℕ) : Prop :=
  ∀ n c queue id, opened ≤ n → log[n]? = some c → c.label.call.ended = some (queue, id) →
    ∃ job claimId, c.label.call.endsClaim = some (queue, id, claimId) ∧
      log.live opened n queue id = some (job, claimId)

section Ends

variable {log : History κ β} {opened : ℕ} {queue : QueueName} {id : String} {claimId : ℕ}

omit [DecidableEq κ] in
theorem EndsLive.live_of_endsClaim (h : EndsLive log opened) (hn : opened ≤ n)
    (hc : log[n]? = some c) (he : c.label.call.endsClaim = some (queue, id, claimId)) :
    ∃ job, log.live opened n queue id = some (job, claimId) := by
  obtain ⟨job, cid, he', hlive⟩ := h n c queue id hn hc (Call.ended_of_endsClaim he)
  rw [he] at he'
  cases he'
  exact ⟨job, hlive⟩

theorem Process.not_live_of_endsClaim (h : Process log opened) (he : EndsLive log opened)
    (hd : (claimIds (log.drop opened)).Nodup) {k : ℕ} (hn : opened ≤ n) (hc : log[n]? = some c)
    (hend : c.label.call.endsClaim = some (queue, id, claimId)) (hnk : n < k) {queue' : QueueName}
    {id' : String} {job : JobRecord} : log.live opened k queue' id' ≠ some (job, claimId) := by
  intro hlive
  obtain ⟨job₀, hlive₀⟩ := he.live_of_endsClaim hn hc hend
  obtain ⟨m₀, c₀, hm₀, hlt₀, hget₀, hmem₀, href₀, -⟩ := live_spec hlive₀
  obtain ⟨m, d, hm, hlt, hget, hmem, href, hsince⟩ := live_spec hlive
  have hdrop : ∀ {i : ℕ} {e : CallCommit κ β}, opened ≤ i → log[i]? = some e →
      (log.drop opened)[i - opened]? = some e := by
    intro i e hi hg
    rw [List.getElem?_drop, Nat.add_sub_cancel' hi, hg]
  obtain ⟨hmm, hpp⟩ := eq_of_claimIds hd (hdrop hm₀ hget₀) (hdrop hm hget) hmem₀ hmem rfl
  cases hpp
  have hq : (queue', id') = (queue, id) := by rw [← href, ← href₀]
  cases hq
  have hnext := hsince (n + 1) (by omega) (by omega)
  obtain ⟨-, as, hp⟩ := h.sound.get hc
  rw [live_succ hn hc, hp.next_of_ended (Call.ended_of_endsClaim hend)] at hnext
  cases hnext

/-- A claim is ended by at most one commit. -/
theorem Process.endsClaim_unique (h : Process log opened) (he : EndsLive log opened)
    (hd : (claimIds (log.drop opened)).Nodup) {k : ℕ} {d : CallCommit κ β}
    {queue' : QueueName} {id' : String} (hn : opened ≤ n) (hc : log[n]? = some c)
    (hend : c.label.call.endsClaim = some (queue, id, claimId)) (hk : opened ≤ k)
    (hdk : log[k]? = some d) (hend' : d.label.call.endsClaim = some (queue', id', claimId)) :
    n = k := by
  obtain ⟨job, hlive⟩ := he.live_of_endsClaim hn hc hend
  obtain ⟨job', hlive'⟩ := he.live_of_endsClaim hk hdk hend'
  rcases Nat.lt_trichotomy n k with hlt | rfl | hlt
  · exact absurd hlive' (h.not_live_of_endsClaim he hd hn hc hend hlt)
  · rfl
  · exact absurd hlive (h.not_live_of_endsClaim he hd hk hdk hend' hlt)

/-- A delivery is live until a commit ends its claim. -/
theorem Process.live_of_claims (h : Process log opened) (he : EndsLive log opened) {m : ℕ}
    (hm : opened ≤ m) (hc : log[m]? = some c) (hp : p ∈ c.label.claims) (hmn : m < n)
    (hn : n ≤ log.length) (hopen : ∀ k d, m < k → log[k]? = some d → k < n →
      d.label.call.endsClaim ≠ some (p.1.queue, p.1.id, p.2)) :
    log.live opened n p.1.queue p.1.id = some p := by
  have hmatched : c ∈ log.drop opened := by
    refine List.mem_of_getElem? (i := m - opened) ?_
    rw [List.getElem?_drop, Nat.add_sub_cancel' hm, hc]
  induction n, hmn using Nat.le_induction with
  | base =>
    rw [live_succ hm hc, Entry.next,
      Entry.claimOf_of_mem (h.matched c hmatched) (h.claims_at hm hc).1 hp]
  | succ n hmn ih =>
    have hlive := ih (by omega) fun k d hk hd hkn => hopen k d hk hd (by omega)
    obtain ⟨d, hd⟩ : ∃ d, log[n]? = some d := ⟨_, List.getElem?_eq_getElem hn⟩
    have hon : opened ≤ n := by omega
    have hnone : d.label.claimOf p.1.queue p.1.id = none := by
      cases hcl : d.label.claimOf p.1.queue p.1.id with
      | none => rfl
      | some p' =>
        have href : p'.1.ref = p.1.ref := by simpa [JobRecord.ref] using List.find?_some hcl
        have hnl := (h.claims_at hon hd).2 p'.1
          (List.of_mem_zip (List.mem_of_find?_eq_some hcl)).1
        obtain ⟨hq, hid⟩ := Prod.mk.inj href
        rw [hq, hid, hlive] at hnl
        cases hnl
    rw [live_succ hon hd, Entry.next, hnone]
    split
    · rename_i hx
      cases hx
    · split_ifs with hend
      · obtain ⟨job, cid, hec, hl⟩ := he n d _ _ hon hd hend
        rw [hlive] at hl
        cases hl
        exact absurd hec (hopen n d (by omega) hd (by omega))
      · exact hlive

end Ends


end History

end Taquba
