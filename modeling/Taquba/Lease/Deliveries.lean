import Taquba.Queue.Machine

/-! # Deliveries

A claim transaction writes the claimed record of each job it delivers. The record
stays, up to a cancellation flag, until the delivery is ended. The delivery that
wrote the claimed record of a job is read off the history.
-/

namespace Taquba

open Snapshot

variable {κ β : Type}

/-- The claim ids of a claim, in the order of the delivered jobs. -/
def Call.claimIds : Call κ β → List ℕ
  | .claimBatch _ _ claimIds _ => claimIds
  | .claimById _ claimId _ => [claimId]
  | _ => []

def Entry.claims (e : Entry κ β) : List (JobRecord × ℕ) := e.delivered.zip e.call.claimIds

def JobRecord.ref (job : JobRecord) : QueueName × String := (job.queue, job.id)

/-- The delivery of the job among those of a commit. -/
def Entry.claimOf (e : Entry κ β) (queue : QueueName) (id : String) : Option (JobRecord × ℕ) :=
  e.claims.find? fun p => p.1.ref = (queue, id)

def Entry.next (e : Entry κ β) (queue : QueueName) (id : String)
    (live : Option (JobRecord × ℕ)) : Option (JobRecord × ℕ) :=
  match e.claimOf queue id with
  | some p => some p
  | none => if e.call.ended = some (queue, id) then none else live

/-- The delivery that wrote the claimed record of a job, with its claim id. -/
def History.delivery (log : History κ β) (queue : QueueName) (id : String) :
    Option (JobRecord × ℕ) :=
  log.foldl (fun live c => c.label.next queue id live) none

@[simp] theorem History.delivery_append (log : History κ β) (c : CallCommit κ β)
    (queue : QueueName) (id : String) :
    History.delivery (log ++ [c]) queue id = c.label.next queue id (log.delivery queue id) := by
  simp [delivery]

/-- The stored record is the one the delivery wrote, up to a cancellation flag. -/
def WrittenBy (job stored : JobRecord) : Prop :=
  stored = job.stored ∨ stored = { job.stored with cancelRequested := true }

structure Delivered (job : JobRecord) (queue : QueueName) (id : String) : Prop where
  queue : job.queue = queue
  id : job.id = id
  status : job.status = .claimed
  signalWait : job.signalWait = false
  countWait : job.countWait = none

/-- The claimed record of a job is the one that its live delivery wrote. -/
def Recorded (queue : QueueName) (id : String) : Option JobRecord → Option JobRecord → Prop
  | none, stored => stored = none
  | some job, stored => Delivered job queue id ∧ ∃ v, stored = some v ∧ WrittenBy job v

theorem WrittenBy.flag {job v new : JobRecord} (h : WrittenBy job v)
    (hs : job.signalWait = false) (hc : job.countWait = none) {key : RecordKey}
    (hf : JobAction.Flags (JobRecord.decode key v) new) : WrittenBy job new.stored := by
  have hv : v.signalWait = false ∧ v.countWait = none := by
    rcases h with rfl | rfl
    · exact ⟨hs, hc⟩
    · exact ⟨hs, hc⟩
  rw [hf hv.1 hv.2]
  right
  rcases h with rfl | rfl
  · simp only [JobRecord.stored, JobRecord.decode]
    split <;> simp_all
  · simp only [JobRecord.stored, JobRecord.decode]
    split <;> simp_all

variable [DecidableEq κ]

section Actions

variable {s : Store (Val κ β)} {a : JobAction κ β} {as : List (JobAction κ β)}
  {queue : QueueName} {id : String} {job : JobRecord}

def JobAction.ClaimsJob (a : JobAction κ β) (queue : QueueName) (id : String) : Prop :=
  ∃ job, a.claim? = some job ∧ job.queue = queue ∧ job.id = id

theorem StoreInv.claim_action (hi : StoreInv s) (he : a.Enabled s) (hc : a.claim? = some job) :
    Delivered job job.queue job.id ∧ s (.record (.claimed job.queue job.id)) = none ∧
      s.applyBatch a.writes (.record (.claimed job.queue job.id)) = some job.stored := by
  cases a with
  | move source old new key =>
    cases key with
    | claimed q i =>
      cases hc
      obtain ⟨hf, hne, hkey, hid, hq, -, -, hlw⟩ := he
      obtain ⟨hks, hkq, hkid⟩ := JobRecord.storedKey_spec hkey
      have hst : job.status = .claimed := hks.symm
      obtain ⟨hsw, hcw⟩ := hlw (by simp [hst])
      obtain ⟨v, hv, -⟩ := Option.map_eq_some_iff.mp hf
      have hk : RecordKey.claimed job.queue job.id = .claimed q i := by
        rw [← hkq, ← hkid]
        rfl
      rw [hk]
      refine ⟨⟨rfl, rfl, hst, hsw, hcw⟩, ?_, by rw [JobAction.move_record, if_pos rfl]⟩
      cases hr : s (.record (.claimed q i)) with
      | none => rfl
      | some w =>
        refine absurd (hi.unique hv hr ?_) hne
        rw [hkid, hid, JobRecord.id_of_storedKey (hi.storedKey_of_found hf)]
    | _ => cases hc
  | _ => cases hc

omit [DecidableEq κ] in
theorem JobAction.writes_claim (he : a.Enabled s) (hc : a.claim? = some job) :
    .record (.claimed job.queue job.id) ∈ Batch.keys a.writes := by
  cases a with
  | move source old new key =>
    cases key with
    | claimed q i =>
      cases hc
      obtain ⟨-, hq, hid⟩ := JobRecord.storedKey_spec he.2.2.1
      simp only [RecordKey.queue, RecordKey.id] at hq hid
      simp [JobAction.writes, hq, hid]
    | _ => cases hc
  | _ => cases hc

theorem JobAction.claimed_none_of_end (he : a.Enabled s) (hend : a.end? = some (queue, id)) :
    s.applyBatch a.writes (.record (.claimed queue id)) = none := by
  cases a with
  | move source old new key =>
    cases source with
    | claimed q i =>
      cases hend
      rw [JobAction.move_record, if_neg he.2.1, if_pos rfl]
    | _ => cases hend
  | remove key old completed =>
    cases key with
    | claimed q i =>
      cases hend
      rw [JobAction.remove_record, if_pos rfl]
    | _ => cases hend
  | _ => cases hend

omit [DecidableEq κ] in
theorem JobAction.claimed_of_end (he : a.Enabled s) (hend : a.end? = some (queue, id)) :
    (∃ v, s (.record (.claimed queue id)) = some v) ∧
      .record (.claimed queue id) ∈ Batch.keys a.writes := by
  cases a with
  | move source old new key =>
    cases source with
    | claimed q i =>
      cases hend
      obtain ⟨v, hv, -⟩ := Option.map_eq_some_iff.mp he.1
      exact ⟨⟨v, hv⟩, by simp [JobAction.writes]⟩
    | _ => cases hend
  | remove key old completed =>
    cases key with
    | claimed q i =>
      cases hend
      obtain ⟨v, hv, -⟩ := Option.map_eq_some_iff.mp he
      exact ⟨⟨v, hv⟩, by simp [JobAction.writes]⟩
    | _ => cases hend
  | _ => cases hend

theorem JobAction.claimed_none (he : a.Enabled s)
    (hc : ¬ a.ClaimsJob queue id) (h : s (.record (.claimed queue id)) = none) :
    s.applyBatch a.writes (.record (.claimed queue id)) = none := by
  cases a with
  | insert new key =>
    obtain ⟨-, hkey, hwaits, -⟩ := he
    rw [JobAction.insert_record, if_neg, h]
    rintro rfl
    rw [← JobRecord.keyStatus_of_storedKey hkey] at hwaits
    rcases hwaits with hw | hw <;> cases hw
  | move source old new key =>
    obtain ⟨-, -, hkey, -⟩ := he
    rw [JobAction.move_record, if_neg]
    · split
      · rfl
      · exact h
    · rintro rfl
      obtain ⟨-, hq, hid⟩ := JobRecord.storedKey_spec hkey
      exact hc ⟨new, rfl, hq.symm, hid.symm⟩
  | rewrite key old new =>
    obtain ⟨hf, -⟩ := he
    rw [JobAction.rewrite_record, if_neg, h]
    rintro rfl
    rw [JobAction.Found, h] at hf
    cases hf
  | remove key old completed =>
    rw [JobAction.remove_record]
    split
    · rfl
    · exact h
  | history i entry => rw [JobAction.history_of_not_isPlain s i rfl, h]
  | plain write => rw [JobAction.plain_of_not_isPlain s he rfl, h]

theorem StoreInv.writtenBy_action (hi : StoreInv s) (he : a.Enabled s)
    (hend : a.end? ≠ some (queue, id)) (hd : Delivered job queue id) {v : JobRecord}
    (h : s (.record (.claimed queue id)) = some v) (hw : WrittenBy job v) :
    ∃ v', s.applyBatch a.writes (.record (.claimed queue id)) = some v' ∧ WrittenBy job v' := by
  cases a with
  | rewrite key old new =>
    rw [JobAction.rewrite_record]
    split_ifs with hkey
    · subst hkey
      obtain ⟨hf, -, -, hflags⟩ := he
      rw [JobAction.Found, h, Option.map_some, Option.some.injEq] at hf
      subst hf
      exact ⟨_, rfl, hw.flag hd.signalWait hd.countWait hflags⟩
    · exact ⟨v, h, hw⟩
  | remove key old completed =>
    rw [JobAction.remove_record, if_neg]
    · exact ⟨v, h, hw⟩
    · rintro rfl
      exact hend rfl
  | _ => exact ⟨v, hi.claimed_action he h hend (by simp [JobAction.cancel?]), hw⟩

/-- An action that ends no claim of the job leaves the claimed record to its delivery,
or claims the job when it has none. -/
theorem StoreInv.recorded_action (hi : StoreInv s) (he : a.Enabled s)
    (hend : a.end? ≠ some (queue, id)) {live : Option JobRecord}
    (h : Recorded queue id live (s (.record (.claimed queue id)))) :
    (∃ job, a.claim? = some job ∧ job.ref = (queue, id) ∧ live = none ∧
      Recorded queue id (some job) (s.applyBatch a.writes (.record (.claimed queue id)))) ∨
    (¬ a.ClaimsJob queue id ∧
      Recorded queue id live (s.applyBatch a.writes (.record (.claimed queue id)))) := by
  by_cases hc : a.ClaimsJob queue id
  · obtain ⟨job, hc, rfl, rfl⟩ := hc
    obtain ⟨hd, hnone, hput⟩ := hi.claim_action he hc
    refine .inl ⟨job, hc, rfl, ?_, hd, _, hput, .inl rfl⟩
    cases live with
    | none => rfl
    | some old =>
      obtain ⟨-, v, hv, -⟩ := h
      rw [hnone] at hv
      cases hv
  · refine .inr ⟨hc, ?_⟩
    cases live with
    | none => exact JobAction.claimed_none he hc h
    | some job =>
      obtain ⟨hd, v, hv, hw⟩ := h
      exact ⟨hd, hi.writtenBy_action he hend hd hv hw⟩

/-- Actions that end no claim of the job claim it at most once, and only when it has
no delivery yet. -/
theorem StoreInv.recorded_actions (hi : StoreInv s) (he : (jobActions κ β).AllEnabled as s)
    (hend : ∀ a ∈ as, a.end? ≠ some (queue, id)) {live : Option JobRecord}
    (h : Recorded queue id live (s (.record (.claimed queue id)))) :
    Recorded queue id (((as.filterMap (·.claim?)).find? (·.ref = (queue, id))).or live)
      (s.applyBatch ((jobActions κ β).batch as) (.record (.claimed queue id))) ∧
    live.toList.length + ((as.filterMap (·.claim?)).map (·.ref)).count (queue, id) ≤ 1 := by
  induction as generalizing s live with
  | nil =>
    refine ⟨h, ?_⟩
    cases live <;> simp
  | cons a as ih =>
    rw [Actions.batch_cons, Store.applyBatch_append]
    have hi' := StoreInv.action a s hi he.1
    have hend' : ∀ b ∈ as, b.end? ≠ some (queue, id) := fun b hb => hend b (.tail _ hb)
    rcases hi.recorded_action he.1 (hend a (.head _)) h with ⟨job, hc, hjob, rfl, hr⟩ | ⟨hc, hr⟩
    · obtain ⟨ih₁, ih₂⟩ := ih hi' he.2 hend' hr
      simp only [Option.toList_some, List.length_singleton] at ih₂
      have hzero : ((as.filterMap (·.claim?)).map (·.ref)).count (queue, id) = 0 := by omega
      have hnone : (as.filterMap (·.claim?)).find? (·.ref = (queue, id)) = none := by
        rw [List.find?_eq_none]
        intro j hj hjr
        exact List.count_eq_zero.mp hzero (List.mem_map.mpr ⟨j, hj, by simpa using hjr⟩)
      rw [hnone] at ih₁
      simp only [List.filterMap_cons, hc, List.find?_cons, hjob, decide_true, List.map_cons,
        List.count_cons_self, hzero, Option.some_or]
      exact ⟨ih₁, by simp⟩
    · obtain ⟨ih₁, ih₂⟩ := ih hi' he.2 hend' hr
      rw [List.filterMap_cons]
      split
      · exact ⟨ih₁, ih₂⟩
      · rename_i job hjob
        have hne : job.ref ≠ (queue, id) := by
          intro href
          obtain ⟨hq, hid⟩ := Prod.mk.inj href
          exact hc ⟨job, hjob, hq, hid⟩
        simp only [List.find?_cons, hne, decide_false, List.map_cons, List.count_cons_of_ne hne]
        exact ⟨ih₁, ih₂⟩

theorem claimed_none_of_ends (he : (jobActions κ β).AllEnabled as s)
    (hc : ∀ a ∈ as, a.claim? = none)
    (h : s (.record (.claimed queue id)) = none ∨ ∃ a ∈ as, a.end? = some (queue, id)) :
    s.applyBatch ((jobActions κ β).batch as) (.record (.claimed queue id)) = none := by
  induction as generalizing s with
  | nil =>
    rcases h with h | ⟨a, ha, -⟩
    · exact h
    · cases ha
  | cons a as ih =>
    rw [Actions.batch_cons, Store.applyBatch_append]
    refine ih he.2 (fun b hb => hc b (.tail _ hb)) ?_
    have hnc : ¬ a.ClaimsJob queue id := by
      rintro ⟨job, hj, -⟩
      rw [hc a (.head _)] at hj
      cases hj
    rcases h with h | ⟨b, hb, hend⟩
    · exact .inl (JobAction.claimed_none he.1 hnc h)
    · rcases List.mem_cons.mp hb with rfl | hb
      · exact .inl (JobAction.claimed_none_of_end he.1 hend)
      · exact .inr ⟨b, hb, hend⟩

theorem not_end_of_claimed_none (he : (jobActions κ β).AllEnabled as s)
    (hc : ∀ a ∈ as, a.claim? = none) (h : s (.record (.claimed queue id)) = none) :
    ∀ a ∈ as, a.end? ≠ some (queue, id) := by
  induction as generalizing s with
  | nil => simp
  | cons a as ih =>
    have hnc : ¬ a.ClaimsJob queue id := by
      rintro ⟨job, hj, -⟩
      rw [hc a (.head _)] at hj
      cases hj
    intro b hb hend
    rcases List.mem_cons.mp hb with rfl | hb
    · obtain ⟨⟨v, hv⟩, -⟩ := JobAction.claimed_of_end he.1 hend
      rw [h] at hv
      cases hv
    · exact ih he.2 (fun b hb => hc b (.tail _ hb)) (JobAction.claimed_none he.1 hnc h) b hb hend

end Actions

section Commits

variable {log : History κ β} {c : CallCommit κ β} {as : List (JobAction κ β)}
  {queue : QueueName} {id : String}

omit [DecidableEq κ] in
theorem Entry.claimOf_fst {e : Entry κ β} (hl : e.delivered.length = e.call.claimIds.length) :
    (e.claimOf queue id).map Prod.fst = e.delivered.find? (·.ref = (queue, id)) := by
  conv_rhs => rw [← List.map_fst_zip (le_of_eq hl), List.find?_map]
  rfl

section Shape

variable {s : Store (Val κ β)} {delivered : List JobRecord} {ended : Option (QueueName × String)}
  {acked : Option QueueName} {cancels : Option String}

omit [DecidableEq κ] in
theorem Shape.not_end (hs : Shape as delivered ended acked cancels) (h : ended ≠ some (queue, id)) :
    ∀ a ∈ as, a.end? ≠ some (queue, id) := by
  intro a ha hend
  have hmem := List.mem_filterMap.mpr ⟨a, ha, hend⟩
  rw [hs.ended] at hmem
  exact h (by simpa using hmem)

/-- A call delivers a job at most once, and only when it has no delivery yet. -/
theorem Shape.count_ref_le (hs : Shape as delivered ended acked cancels) (hi : StoreInv s)
    (he : (jobActions κ β).AllEnabled as s) {live : Option JobRecord}
    (h : Recorded queue id live (s (.record (.claimed queue id)))) :
    live.toList.length + (delivered.map (·.ref)).count (queue, id) ≤ 1 := by
  by_cases hend : ended = some (queue, id)
  · have hnil : delivered = [] := hs.alone.resolve_right (by simp [hend])
    cases live <;> simp [hnil]
  · have hc := (hi.recorded_actions he (hs.not_end hend) h).2
    rwa [hs.claims] at hc

end Shape

theorem Performs.next_of_ended (hp : Performs log c as)
    (hend : c.label.call.ended = some (queue, id)) (live : Option (JobRecord × ℕ)) :
    c.label.next queue id live = none := by
  have hnil : c.label.delivered = [] := hp.shape.alone.resolve_right (by simp [hend])
  simp [Entry.next, Entry.claimOf, Entry.claims, hnil, hend]

theorem Performs.writes_claimed (hp : Performs log c as)
    (h : c.label.claimOf queue id ≠ none ∨ c.label.call.ended = some (queue, id)) :
    .record (.claimed queue id) ∈ Batch.keys c.writes := by
  rw [hp.writes.keys]
  suffices hs : ∃ a ∈ as, .record (.claimed queue id) ∈ Batch.keys a.writes by
    obtain ⟨a, ha, hk⟩ := hs
    obtain ⟨w, hw, hwk⟩ := List.mem_map.mp hk
    exact List.mem_map.mpr ⟨w, List.mem_flatMap.mpr ⟨a, ha, hw⟩, hwk⟩
  rcases h with h | h
  · obtain ⟨p, hp'⟩ := Option.ne_none_iff_exists'.mp h
    have hmem := (List.of_mem_zip (List.mem_of_find?_eq_some hp')).1
    rw [← hp.shape.claims] at hmem
    obtain ⟨a, ha, hc⟩ := List.mem_filterMap.mp hmem
    obtain ⟨s, he⟩ := hp.enabled.exists_enabled ha
    have href : p.1.ref = (queue, id) := by simpa using List.find?_some hp'
    obtain ⟨hq, hid⟩ := Prod.mk.inj href
    refine ⟨a, ha, ?_⟩
    rw [← hq, ← hid]
    exact JobAction.writes_claim he hc
  · have hmem : (queue, id) ∈ as.filterMap (·.end?) := by
      rw [hp.shape.ended, h]
      exact .head _
    obtain ⟨a, ha, hend⟩ := List.mem_filterMap.mp hmem
    obtain ⟨s, he⟩ := hp.enabled.exists_enabled ha
    exact ⟨a, ha, (JobAction.claimed_of_end he hend).2⟩

theorem Performs.next_of_unwritten (hp : Performs log c as)
    (h : .record (.claimed queue id) ∉ Batch.keys c.writes) (live : Option (JobRecord × ℕ)) :
    c.label.next queue id live = live := by
  have hnone : c.label.claimOf queue id = none :=
    of_not_not fun hc => h (hp.writes_claimed (.inl hc))
  have hend : c.label.call.ended ≠ some (queue, id) := fun hc => h (hp.writes_claimed (.inr hc))
  simp [Entry.next, hnone, hend]

/-- A commit moves the claimed record of a job with its live delivery. -/
theorem Performs.recorded (hi : StoreInv log.store) (hp : Performs log c as)
    (hl : c.label.delivered.length = c.label.call.claimIds.length)
    {live : Option (JobRecord × ℕ)}
    (h : Recorded queue id (live.map Prod.fst) (log.store (.record (.claimed queue id)))) :
    Recorded queue id ((c.label.next queue id live).map Prod.fst)
      (Log.store (log ++ [c]) (.record (.claimed queue id))) := by
  have hfind : (c.label.claimOf queue id).map Prod.fst =
      c.label.delivered.find? (·.ref = (queue, id)) := Entry.claimOf_fst hl
  by_cases hend : c.label.call.ended = some (queue, id)
  · have hnil : c.label.delivered = [] := hp.shape.alone.resolve_right (by simp [hend])
    rw [hp.store_eq, hp.next_of_ended hend, Option.map_none]
    refine claimed_none_of_ends hp.enabled (fun a ha => ?_) (.inr ?_)
    · have hc := hp.shape.claims
      rw [hnil] at hc
      exact List.filterMap_eq_nil_iff.mp hc a ha
    · have hmem : (queue, id) ∈ as.filterMap (·.end?) := by
        rw [hp.shape.ended, hend]
        exact .head _
      exact List.mem_filterMap.mp hmem
  · have hr := (hi.recorded_actions hp.enabled (hp.shape.not_end hend) h).1
    rw [hp.shape.claims, ← hfind, ← hp.store_eq] at hr
    rw [Entry.next]
    cases hc : c.label.claimOf queue id with
    | none =>
      rw [hc] at hr
      simpa [hend] using hr
    | some p =>
      rw [hc] at hr
      exact hr

omit [DecidableEq κ] in
theorem Entry.claimOf_of_mem {e : Entry κ β} (hl : e.delivered.length = e.call.claimIds.length)
    (hnd : (e.delivered.map (·.ref)).Nodup) {p : JobRecord × ℕ} (hp : p ∈ e.claims) :
    e.claimOf p.1.queue p.1.id = some p := by
  obtain ⟨p', hp'⟩ : ∃ p', e.claimOf p.1.queue p.1.id = some p' := by
    rw [← Option.isSome_iff_exists, claimOf, List.find?_isSome]
    exact ⟨p, hp, by simp [JobRecord.ref]⟩
  have hmap : e.claims.map (fun p => p.1.ref) = e.delivered.map (·.ref) := by
    rw [← List.map_fst_zip (le_of_eq hl), List.map_map, claims]
    simp [Function.comp_def]
  rw [← hmap] at hnd
  have href : p'.1.ref = p.1.ref := by simpa [JobRecord.ref] using List.find?_some hp'
  rw [hp', List.inj_on_of_nodup_map hnd (List.mem_of_find?_eq_some hp') hp href]

end Commits

end Taquba
