import Mathlib.Algebra.FreeMonoid.Basic
import Mathlib.Data.Countable.Basic
import Mathlib.Logic.Equiv.List
import Taquba.Lifecycle.Calls
import Taquba.Lifecycle.Invariants
import Taquba.Snapshot.Merge

/-! # The attempts of a job and their history

The counter, the limit and the history of a job are changed by different transitions.
They agree in every reachable store, whatever way the store merges the entries of the
history, and only a worker's own dead letter ends a job before its last attempt.
-/

namespace Taquba

open Snapshot Transition

variable {κ β : Type} [DecidableEq κ]

section Decode

/-- The serialisation of the history entries. Each serialised entry delimits itself. -/
structure HistoryCodec where
  encode : JobAttempt → List UInt8
  deserialize : List UInt8 → Option (JobAttempt × List UInt8)
  deserialize_encode : ∀ entry rest, deserialize (encode entry ++ rest) = some (entry, rest)
  shrinks : ∀ bytes entry rest, deserialize bytes = some (entry, rest) → rest.length < bytes.length

/-- An entry as the number of its digits before a zero. -/
theorem nonempty_historyCodec : Nonempty HistoryCodec := by
  have hchar : Function.Injective Char.toNat := fun _ _ h => Char.toNat_inj.mp h
  have : Countable Char := hchar.countable
  have hstring : Function.Injective String.toList := fun _ _ h => String.toList_inj.mp h
  have : Countable String := hstring.countable
  have : Countable JobAttempt := by
    refine Function.Injective.countable (f := fun e : JobAttempt =>
      (e.attempt, e.claimedAt, e.recordedAt, e.outcome.ctorIdx, e.error)) ?_
    rintro ⟨_, _, _, outcome, _⟩ ⟨_, _, _, outcome', _⟩ h
    obtain ⟨rfl, rfl, rfl, hidx, rfl⟩ := by simpa using h
    cases outcome <;> cases outcome' <;> first | rfl | exact absurd hidx (by decide)
  obtain ⟨number, hnumber⟩ := exists_injective_nat JobAttempt
  refine ⟨fun entry => List.replicate (number entry) 1 ++ [0], fun bytes =>
    let ended := bytes.dropWhile (· == 1)
    if ended.head? = some 0 then
      (Function.partialInv number (bytes.length - ended.tail.length - 1)).map (·, ended.tail)
    else none, fun entry rest => ?_, fun bytes entry rest h => ?_⟩
  · have hdrop : (List.replicate (number entry) (1 : UInt8) ++ [0] ++ rest).dropWhile (· == 1) =
        0 :: rest := by
      simp
    have hlen :
        (List.replicate (number entry) (1 : UInt8) ++ [0] ++ rest).length - rest.length - 1 =
        number entry := by
      simp only [List.length_append, List.length_replicate, List.length_singleton]
      omega
    simp only [hdrop, List.head?_cons, if_true, List.tail_cons, hlen,
      Function.partialInv_left hnumber, Option.map_some]
  · have hle := (List.dropWhile_suffix (· == (1 : UInt8)) (l := bytes)).length_le
    dsimp only at h
    split_ifs at h with hhead
    obtain ⟨_, -, heq⟩ := Option.map_eq_some_iff.mp h
    cases heq
    obtain ⟨rest, hrest⟩ := List.head?_eq_some_iff.mp hhead
    rw [hrest, List.length_cons] at hle
    rw [hrest, List.tail_cons]
    omega

variable (codec : HistoryCodec)

/-- The entries of a merged history value, in the order of the writes. -/
def decodeHistory (bytes : List UInt8) : Option (List JobAttempt) :=
  if bytes = [] then some []
  else
    match h : codec.deserialize bytes with
    | none => none
    | some (entry, rest) =>
      have : rest.length < bytes.length := codec.shrinks _ _ _ h
      (decodeHistory rest).map (entry :: ·)
termination_by bytes.length

theorem HistoryCodec.encode_ne_nil (entry : JobAttempt) : codec.encode entry ≠ [] := by
  intro h
  have hlt := codec.shrinks _ _ _ (codec.deserialize_encode entry [])
  simp [h] at hlt

/-- The entries of a history are read back from the concatenation of their serialisations. -/
theorem decodeHistory_flatten (entries : List JobAttempt) :
    decodeHistory codec (entries.map codec.encode).flatten = some entries := by
  induction entries with
  | nil =>
    rw [decodeHistory]
    simp
  | cons entry entries ih =>
    rw [List.map_cons, List.flatten_cons, decodeHistory]
    rw [if_neg (by simp [codec.encode_ne_nil])]
    split
    · rename_i h
      rw [codec.deserialize_encode] at h
      cases h
    · rename_i e rest h
      rw [codec.deserialize_encode] at h
      cases h
      rw [ih]
      rfl

def mergeAppend (existing : Option (List UInt8)) (operands : List (List UInt8)) : List UInt8 :=
  existing.getD [] ++ operands.flatten

theorem getD_of_reads {operands : List (List UInt8)} {value : Option (List UInt8)}
    (h : Reads mergeAppend operands value) : value.getD [] = operands.flatten := by
  have hsum : ∀ ops : List (FreeAddMonoid UInt8), ops.sum = List.flatten ops := by
    intro ops
    induction ops with
    | nil => rfl
    | cons op ops ih =>
      rw [List.sum_cons, ih]
      rfl
  have hmerge : ∀ (existing : Option (FreeAddMonoid UInt8)) (group : List (FreeAddMonoid UInt8)),
      mergeAppend existing group = existing.getD 0 + group.sum := by
    intro existing group
    rw [hsum]
    rfl
  exact (Reads.getD_eq_sum (M := FreeAddMonoid UInt8) hmerge h).trans (hsum operands)

end Decode

def JobRecord.UsedUp (job : JobRecord) : Prop :=
  job.status = .dead → job.maxAttempts ≤ job.attempts

def JobEvent.Unforced : JobEvent → Prop
  | .deadLetter forced _ _ => forced = false
  | _ => True

namespace Life

variable {life life' : Life} {event : JobEvent} {events : List JobEvent} {old job : JobRecord}

theorem usedUp_of_ne (h : job.status ≠ .dead) : (Txn.leaveWaits job).UsedUp := by
  intro hst
  refine absurd ?_ h
  unfold Txn.leaveWaits at hst
  split at hst <;> exact hst

theorem usedUp_apply (hu : event.Unforced) (ha : event.Allowed old) :
    (event.apply old).UsedUp := by
  cases event with
  | enqueue | remove => exact ha.elim
  | retry runAt => exact usedUp_of_ne (by cases runAt <;> simp)
  | requestCancel =>
    have hst : old.status = .claimed := ha
    exact usedUp_of_ne (by simp [hst])
  | deadLetter forced error now =>
    obtain ⟨-, hlast⟩ := ha
    obtain rfl : forced = false := hu
    have hle : old.maxAttempts ≤ old.attempts := by simpa [JobRecord.isLastAttempt] using hlast
    exact fun _ => hle
  | _ => exact usedUp_of_ne (by simp)

theorem run_usedUp (hr : machine.run life events = some life')
    (hu : ∀ event ∈ events, event.Unforced) (hi : ∀ old, life.record = some old → old.UsedUp) :
    ∀ job, life'.record = some job → job.UsedUp := by
  induction events generalizing life with
  | nil =>
    cases hr
    exact hi
  | cons event events ih =>
    obtain ⟨life₁, hstep, hr⟩ := Option.bind_eq_some_iff.mp hr
    refine ih hr (fun e he => hu e (.tail _ he)) fun job hj => ?_
    obtain ⟨new, -, -, hs, rfl⟩ | ⟨-, -, rfl⟩ | ⟨old, ho, ha, rfl⟩ := step_cases hstep
    · cases hj
      intro hst
      rw [hs.2] at hst
      split at hst <;> cases hst
    · cases hj
    · cases hj
      exact usedUp_apply (hu _ (.head _)) ha

end Life

theorem Call.Makes.unforced {call : Call κ β} {s : Store (Val κ β)} {id : String}
    {event : JobEvent} (h : call.Makes s id event) (hf : call.forcesDeadLetter = false) :
    event.Unforced := by
  cases h.made with
  | effect h =>
    cases event with
    | deadLetter => exact h.elim
    | _ => trivial
  | @ended _ claimEnd _ h =>
    subst h
    match claimEnd with
    | .done true | .done false | .retry _ _ _ => trivial
    | .dead _ => exact hf
  | _ => trivial

namespace Queue

variable [DecidableEq β] {s : State κ β}

/-- A history value that a reader of the store finds, after the store has merged the
serialised entries in some way. -/
def ReadsHistory (codec : HistoryCodec) (s : Store (Val κ β)) (id : String)
    (value : Option (List UInt8)) : Prop :=
  Reads mergeAppend (((s (.attemptHistory id)).getD []).map codec.encode) value

/-- The attempts of every job stay within the limit, its history has the attempts since the
last revival in order, and no call but a worker's own dead letter ends a job that has
attempts left. -/
theorem attempts_accounted (h : (machine κ β).Reachable s) :
    (∀ key job, JobAction.Found s.log.store key job →
      job.attempts ≤ max job.maxAttempts 1 ∧
      (job.status = .pending ∨ job.status = .scheduled → job.attempts < max job.maxAttempts 1) ∧
      ∀ codec value, ReadsHistory codec s.log.store job.id value →
        ∃ history, decodeHistory codec (value.getD []) = some history ∧
          InBlocks history job.recorded) ∧
    (∀ id, s.log.store (.attemptHistory id) ≠ none →
      ∃ key job, JobAction.Found s.log.store key job ∧ job.id = id) ∧
    ∀ n c key job, s.log[n]? = some c → c.label.call.forcesDeadLetter = false →
      JobAction.Found (Log.store (s.log.take (n + 1))) key job → job.status = .dead →
      (∀ key old, JobAction.Found (Log.store (s.log.take n)) key old → old.id = job.id →
        old.status ≠ .dead) →
      job.maxAttempts ≤ job.attempts := by
  have hsound := (inv_reachable h).sound
  refine ⟨fun key job hf => ?_, fun id hid => ?_, fun n c key job hc hforce hf hdead hold => ?_⟩
  · have hj := lifeAt_of_found hsound.storeInv hf
    obtain ⟨hbound, hwaiting, -, ended, hgrows, -⟩ :=
      (Life.counted_of_reachable (reachable_lifeAt h job.id)).1 _ hj
    refine ⟨hbound, hwaiting, fun codec value hv => ⟨_, ?_, hgrows.inBlocks⟩⟩
    rw [getD_of_reads hv]
    exact decodeHistory_flatten codec _
  · have hcounted := Life.counted_of_reachable (reachable_lifeAt h id)
    cases hr : (lifeAt s.log.store id).record with
    | none => exact absurd (hcounted.2 hr) hid
    | some bare =>
      obtain ⟨key, job, hf, hjid, -⟩ := found_of_lifeAt hsound.storeInv hr
      exact ⟨key, job, hf, hjid⟩
  · obtain ⟨es, hlives, -, hrun⟩ := (relives_reachable h).get hc
    have hj := lifeAt_of_found (hsound.take (n + 1)).storeInv hf
    rw [List.take_add_one, hc, Option.toList_some] at hj
    have hused := Life.run_usedUp (hrun job.id)
      (fun event he => (hlives.makes _ (mem_eventsOf.mp he)).unforced hforce)
      (fun bare hb => ?_) job.bare hj
    · exact hused hdead
    · obtain ⟨key, old, hf, hid, rfl⟩ := found_of_lifeAt (hsound.take n).storeInv hb
      exact fun hst => absurd hst (hold key old hf hid)

theorem attempts_accounted_after_reopen :
    ∃ s codec value, (machine ℕ ℕ).run {} interruptedClaim = some s ∧
      ReadsHistory codec s.log.store "a" value ∧
      ∃ history, decodeHistory codec (value.getD []) = some history ∧ InBlocks history 1 := by
  let requeued : JobRecord := { welcome.job with attempts := 1 }
  obtain ⟨s, hs, hf, hh⟩ : ∃ s, (machine ℕ ℕ).run {} interruptedClaim = some s ∧
      JobAction.Found s.log.store (.pending emails ⟨0, 5, "a"⟩) requeued ∧
      s.log.store (.attemptHistory "a") = some [⟨1, some 7, 9, .interrupted, none⟩] :=
    Machine.exists_of_run_any (by decide +kernel)
  have hreach := Machine.reachable_of_run hs rfl
  obtain ⟨codec⟩ := nonempty_historyCodec
  have hv : ReadsHistory codec s.log.store "a"
      (some (codec.encode ⟨1, some 7, 9, .interrupted, none⟩)) := by
    rw [ReadsHistory, hh]
    exact .refl
  obtain ⟨-, -, hhistory⟩ := (attempts_accounted hreach).1 _ _ hf
  exact ⟨s, codec, _, hs, hv, hhistory codec _ hv⟩

end Queue

end Taquba
