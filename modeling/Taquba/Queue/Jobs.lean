import Taquba.Queue.User

/-! # The jobs of a store before and after a commit

A commit moves, rewrites and removes the records of the jobs it finds and adds the
records of the jobs it writes. A job keeps its id, its queue and its headers, and
it keeps its dedup key until it loses it. A finished job stays as it is, unless the
call revives or removes it.
-/

namespace Taquba

open Snapshot

variable {κ β : Type}

def RecordKey.isLive (key : RecordKey) : Bool :=
  match key.keyStatus with
  | .pending | .scheduled | .claimed => true
  | .done | .dead => false

/-- The record at the key is of a job with this id and queue, as `old` has it. -/
structure Carried (id : String) (queue : QueueName) (old : JobRecord) (key : RecordKey)
    (job : JobRecord) : Prop where
  id : key.id = id
  queue : key.queue = queue
  headers : job.headers = old.headers
  payloadRef : job.payloadRef = old.payloadRef
  payload : old.payloadRef = none → job.payload = old.payload
  dedupKey : job.dedupKey = old.dedupKey ∨ job.dedupKey = none

abbrev Follows (key : RecordKey) (job : JobRecord) (key' : RecordKey) (job' : JobRecord) : Prop :=
  Carried key.id key.queue job key' job'

abbrev Begins (p : PreparedJob) (key : RecordKey) (job : JobRecord) : Prop :=
  Carried p.job.id p.job.queue p.job key job

section Follows

variable {p : PreparedJob} {key key' key'' : RecordKey} {job job' job'' : JobRecord}

theorem Follows.refl (key : RecordKey) (job : JobRecord) : Follows key job key job :=
  ⟨rfl, rfl, rfl, rfl, fun _ => rfl, .inl rfl⟩

theorem Carried.trans {id : String} {queue : QueueName} {old : JobRecord}
    (h : Carried id queue old key job) (h' : Follows key job key' job') :
    Carried id queue old key' job' where
  id := h'.id.trans h.id
  queue := h'.queue.trans h.queue
  headers := h'.headers.trans h.headers
  payloadRef := h'.payloadRef.trans h.payloadRef
  payload hr := (h'.payload (h.payloadRef.trans hr)).trans (h.payload hr)
  dedupKey := by
    rcases h'.dedupKey with hd | hd
    · rw [hd]
      exact h.dedupKey
    · exact .inr hd

end Follows

/-- How the jobs of a store become those of the next one, when the jobs of `new` may be
added, those with a `revived` id may return from their end and those with a `gone` id
may lose their record. -/
structure Evolves (new : List PreparedJob) (revived gone : String → Prop)
    (s s' : Store (Val κ β)) : Prop where
  back : ∀ key' job', s' (.record key') = some job' →
    (∃ key job, s (.record key) = some job ∧ Follows key job key' job' ∧
      (key'.isLive = true → key.isLive = true ∨ revived key.id)) ∨
    ∃ p ∈ new, Begins p key' job'
  forth : ∀ key job, s (.record key) = some job → gone key.id ∨
    ∃ key' job', s' (.record key') = some job' ∧ Follows key job key' job' ∧
      (key.isLive = false → key' = key ∧ job' = job ∨ revived key.id)

namespace Evolves

variable {new new' : List PreparedJob} {revived gone revived' gone' : String → Prop}
  {s s' s'' : Store (Val κ β)}

theorem of_eq (h : ∀ key, s' (.record key) = s (.record key)) : Evolves new revived gone s s' where
  back key' job' hj := by
    rw [h] at hj
    exact .inl ⟨key', job', hj, .refl _ _, .inl⟩
  forth key job hj := by
    rw [← h] at hj
    exact .inr ⟨key, job, hj, .refl _ _, fun _ => .inl ⟨rfl, rfl⟩⟩

theorem trans (h : Evolves new revived gone s s') (h' : Evolves new revived gone s' s'') :
    Evolves new revived gone s s'' where
  back key'' job'' hj := by
    obtain ⟨key', job', hj', hf', hlive'⟩ | hbegins := h'.back key'' job'' hj
    · obtain ⟨key, job, hj, hf, hlive⟩ | ⟨p, hp, hbegins⟩ := h.back key' job' hj'
      · refine .inl ⟨key, job, hj, hf.trans hf', fun hl => ?_⟩
        rcases hlive' hl with hl | hr
        · exact hlive hl
        · exact .inr (hf.id ▸ hr)
      · exact .inr ⟨p, hp, hbegins.trans hf'⟩
    · exact .inr hbegins
  forth key job hj := by
    obtain hgone | ⟨key', job', hj', hf, hdead⟩ := h.forth key job hj
    · exact .inl hgone
    obtain hgone | ⟨key'', job'', hj'', hf', hdead'⟩ := h'.forth key' job' hj'
    · exact .inl (hf.id ▸ hgone)
    refine .inr ⟨key'', job'', hj'', hf.trans hf', fun hl => ?_⟩
    rcases hdead hl with ⟨rfl, rfl⟩ | hr
    · exact hdead' hl
    · exact .inr hr

end Evolves

/-- What the action may do to the jobs: it takes live records, or those of revived jobs,
and removes those of the jobs that go. -/
def JobAction.Passes (revived gone : String → Prop) : JobAction κ β → Prop
  | .move source _ _ _ | .rewrite source _ _ => source.isLive = true ∨ revived source.id
  | .remove key _ _ => gone key.id
  | _ => True

section Actions

variable [DecidableEq κ] {new : List PreparedJob} {revived gone : String → Prop}
  {s : Store (Val κ β)}

theorem payload_stored {job : JobRecord} (h : job.payloadRef = none) :
    job.stored.payload = job.payload := by
  simp [JobRecord.stored, h]

omit [DecidableEq κ] in
theorem follows_move {source key : RecordKey} {old job stored : JobRecord} (hi : StoreInv s)
    (hst : s (.record source) = some stored) (hold : JobRecord.decode source stored = old)
    (hkey : job.storedKey = some key) (hsame : JobRecord.Same old job)
    (hd : job.dedupKey = old.dedupKey ∨ job.dedupKey = none) :
    Follows source stored key job.stored := by
  obtain ⟨-, hq, hid⟩ := JobRecord.storedKey_spec hkey
  obtain ⟨-, hq', hid'⟩ := JobRecord.storedKey_spec (hi.record_index source stored hst).2
  subst hold
  refine ⟨by rw [hid, hid', hsame.id], by rw [hq, hq', hsame.queue], hsame.headers,
    hsame.payloadRef, fun hr => ?_, hd⟩
  exact (payload_stored (hsame.payloadRef.trans hr)).trans hsame.payload

theorem evolves_insert {job : JobRecord} {key : RecordKey} (hi : StoreInv s)
    (he : JobAction.Enabled (κ := κ) (β := β) (.insert job key) s)
    (hc : JobAction.Carries (κ := κ) (β := β) new (.insert job key)) :
    Evolves new revived gone s (s.applyBatch (JobAction.writes (.insert job key))) where
  back key' job' hj := by
    rw [JobAction.insert_record] at hj
    split_ifs at hj with hk
    · cases hj
      obtain ⟨p, hp, hsame, hdk⟩ := hc
      obtain ⟨-, hq, hid⟩ := JobRecord.storedKey_spec he.2.1
      refine .inr ⟨p, hp, ?_⟩
      rw [hk]
      refine ⟨hid.trans hsame.id, hq.trans hsame.queue, hsame.headers, hsame.payloadRef,
        fun hr => ?_, .inl hdk⟩
      exact (payload_stored (hsame.payloadRef.trans hr)).trans hsame.payload
    · exact .inl ⟨key', job', hj, .refl _ _, .inl⟩
  forth k j hj := by
    refine .inr ⟨k, j, ?_, .refl _ _, fun _ => .inl ⟨rfl, rfl⟩⟩
    exact hi.record_action (a := .insert job key) he hj (by rintro ⟨⟩)

theorem evolves_move {source key : RecordKey} {old job : JobRecord} (hi : StoreInv s)
    (he : JobAction.Enabled (κ := κ) (β := β) (.move source old job key) s)
    (hsame : JobRecord.Same old job) (hp : source.isLive = true ∨ revived source.id) :
    Evolves new revived gone s (s.applyBatch (JobAction.writes (.move source old job key))) := by
  have hen := he
  obtain ⟨hfound, -, hkey, -, -, -, hd, -⟩ := hen
  obtain ⟨stored, hst, hold⟩ := Option.map_eq_some_iff.mp hfound
  have hf : Follows source stored key job.stored :=
    follows_move hi hst hold hkey hsame (hd.imp_right And.left)
  constructor
  · intro key' job' hj
    rw [JobAction.move_record] at hj
    split at hj
    · rename_i hk
      cases hj
      rw [hk]
      exact .inl ⟨source, stored, hst, hf, fun _ => hp⟩
    · obtain ⟨-, hj⟩ := Option.ite_none_left_eq_some.mp hj
      exact .inl ⟨key', job', hj, .refl _ _, .inl⟩
  · intro k j hj
    by_cases hk : k = source
    · subst hk
      obtain rfl : stored = j := Option.some.inj (hst.symm.trans hj)
      refine .inr ⟨key, job.stored, ?_, hf, fun hl => ?_⟩
      · rw [JobAction.move_record, if_pos rfl]
      · exact .inr (hp.resolve_left (by simp [hl]))
    · refine .inr ⟨k, j, ?_, .refl _ _, fun _ => .inl ⟨rfl, rfl⟩⟩
      refine hi.record_action (a := .move source old job key) he hj ?_
      simpa [JobAction.source?] using Ne.symm hk

theorem evolves_rewrite {key : RecordKey} {old job : JobRecord} (hi : StoreInv s)
    (he : JobAction.Enabled (κ := κ) (β := β) (.rewrite key old job) s)
    (hsame : JobRecord.Same old job) (hp : key.isLive = true ∨ revived key.id) :
    Evolves new revived gone s (s.applyBatch (JobAction.writes (.rewrite key old job))) := by
  obtain ⟨hfound, hkey, hd, -⟩ := he
  obtain ⟨stored, hst, hold⟩ := Option.map_eq_some_iff.mp hfound
  have hf : Follows key stored key job.stored := follows_move hi hst hold hkey hsame (.inl hd)
  constructor
  · intro key' job' hj
    rw [JobAction.rewrite_record] at hj
    split_ifs at hj with hk
    · cases hj
      rw [hk]
      exact .inl ⟨key, stored, hst, hf, .inl⟩
    · exact .inl ⟨key', job', hj, .refl _ _, .inl⟩
  · intro k j hj
    by_cases hk : k = key
    · subst hk
      obtain rfl : stored = j := Option.some.inj (hst.symm.trans hj)
      refine .inr ⟨k, job.stored, ?_, hf, fun hl => ?_⟩
      · rw [JobAction.rewrite_record, if_pos rfl]
      · exact .inr (hp.resolve_left (by simp [hl]))
    · refine .inr ⟨k, j, ?_, .refl _ _, fun _ => .inl ⟨rfl, rfl⟩⟩
      rw [JobAction.rewrite_record, if_neg hk, hj]

theorem evolves_remove {key : RecordKey} {old : JobRecord} {completed : Bool}
    (hp : gone key.id) :
    Evolves new revived gone s (s.applyBatch (JobAction.writes (.remove key old completed))) where
  back key' job' hj := by
    rw [JobAction.remove_record] at hj
    obtain ⟨-, hj⟩ := Option.ite_none_left_eq_some.mp hj
    exact .inl ⟨key', job', hj, .refl _ _, .inl⟩
  forth k j hj := by
    by_cases hk : k = key
    · exact .inl (hk ▸ hp)
    · refine .inr ⟨k, j, ?_, .refl _ _, fun _ => .inl ⟨rfl, rfl⟩⟩
      rw [JobAction.remove_record, if_neg hk, hj]

theorem evolves_action {a : JobAction κ β} (hi : StoreInv s) (he : a.Enabled s)
    (hc : a.Carries new) (hp : a.Passes revived gone) :
    Evolves new revived gone s (s.applyBatch a.writes) := by
  cases a with
  | insert job key => exact evolves_insert hi he hc
  | move source old job key => exact evolves_move hi he hc hp
  | rewrite key old job => exact evolves_rewrite hi he hc hp
  | remove key old completed => exact evolves_remove hp
  | history id entry => exact .of_eq fun _ => JobAction.history_of_not_isPlain s id rfl
  | plain write => exact .of_eq fun _ => JobAction.plain_of_not_isPlain s he rfl

/-- The jobs before and after a sequence of actions. -/
theorem evolves_actions {as : List (JobAction κ β)} (hi : StoreInv s)
    (he : (jobActions κ β).AllEnabled as s) (hc : ∀ a ∈ as, a.Carries new)
    (hp : ∀ a ∈ as, a.Passes revived gone) :
    Evolves new revived gone s (s.applyBatch ((jobActions κ β).batch as)) := by
  induction as generalizing s with
  | nil => exact .of_eq fun _ => rfl
  | cons a as ih =>
    rw [Actions.batch_cons, Store.applyBatch_append]
    have ha := evolves_action hi he.1 (hc a (.head _)) (hp a (.head _))
    refine ha.trans (ih (StoreInv.action a s hi he.1) he.2 ?_ ?_)
    · exact fun b hb => hc b (.tail _ hb)
    · exact fun b hb => hp b (.tail _ hb)

end Actions

end Taquba
