import Taquba.Lifecycle.Machine
import Taquba.Txn.ClaimEnds

/-! # The events behind staged writes

The record and the history of a job in a store are a life. Each transition that a
transaction stages takes the jobs it touches through events of their lives and leaves
the lives of all other jobs. A job id has its record through the job index.
-/

namespace Taquba

open Snapshot Transition

variable {κ β : Type}

/-- The record without its payload, which is kept apart when it is offloaded. -/
def JobRecord.bare (job : JobRecord) : JobRecord := { job with payload := [] }

def lifeAt (s : Store (Val κ β)) (id : String) : Life where
  record := (s (.jobIndex id)).bind fun key =>
    (s (.record key)).map fun job => (JobRecord.decode key job).bare
  history := s (.attemptHistory id)

section Bare

variable {job old : JobRecord} {key : RecordKey}

theorem bare_leaveWaits (job : JobRecord) :
    (Txn.leaveWaits job).bare = Txn.leaveWaits job.bare := by
  unfold Txn.leaveWaits JobRecord.bare
  split <;> rfl

theorem JobEvent.apply_bare (event : JobEvent) (old : JobRecord) :
    event.apply old.bare = (event.apply old).bare := by
  cases event <;> simp only [apply, bare_leaveWaits] <;> rfl

theorem JobEvent.entry_bare (event : JobEvent) (old : JobRecord) :
    event.entry old.bare = event.entry old := by
  cases event <;> rfl

theorem JobEvent.Allowed.bare {event : JobEvent} (h : event.Allowed old) :
    event.Allowed old.bare := by
  cases event <;> exact h

theorem bare_decode_stored (h : job.storedKey = some key) :
    (JobRecord.decode key job.stored).bare = job.bare := by
  simp only [JobRecord.bare, JobRecord.decode, JobRecord.stored, JobRecord.keyStatus_of_storedKey h]

end Bare

section Lives

variable [DecidableEq κ] {s : Store (Val κ β)} {source key : RecordKey} {old job : JobRecord}

omit [DecidableEq κ] in
theorem lifeAt_of_index {id : String} (hidx : s (.jobIndex id) = some key)
    (hf : JobAction.Found s key old) : (lifeAt s id).record = some old.bare := by
  obtain ⟨stored, hs, rfl⟩ := Option.map_eq_some_iff.mp hf
  simp [lifeAt, hidx, hs]

omit [DecidableEq κ] in
theorem lifeAt_of_found (hi : StoreInv s) (hf : JobAction.Found s key old) :
    (lifeAt s old.id).record = some old.bare := by
  have hid := JobRecord.id_of_storedKey (hi.storedKey_of_found hf)
  refine lifeAt_of_index ?_ hf
  obtain ⟨stored, hs, -⟩ := Option.map_eq_some_iff.mp hf
  rw [← hid]
  exact (hi.record_index key stored hs).1

omit [DecidableEq κ] in
theorem found_of_lifeAt {id : String} {job : JobRecord} (hi : StoreInv s)
    (h : (lifeAt s id).record = some job) :
    ∃ key old, JobAction.Found s key old ∧ old.id = id ∧ old.bare = job := by
  obtain ⟨key, hidx, h⟩ := Option.bind_eq_some_iff.mp h
  obtain ⟨stored, hs, rfl⟩ := Option.map_eq_some_iff.mp h
  have hf : JobAction.Found s key _ := .of_record hs
  refine ⟨key, _, hf, ?_, rfl⟩
  rw [← JobRecord.id_of_storedKey (hi.storedKey_of_found hf)]
  exact (hi.index_record _ _ hidx).1

omit [DecidableEq κ] in
theorem lifeAt_congr {s' : Store (Val κ β)} {id : String}
    (hidx : s' (.jobIndex id) = s (.jobIndex id))
    (hrec : ∀ key, key.id = id → s' (.record key) = s (.record key))
    (hhist : s' (.attemptHistory id) = s (.attemptHistory id)) (hi : StoreInv s) :
    lifeAt s' id = lifeAt s id := by
  unfold lifeAt
  rw [hidx, hhist]
  cases hk : s (.jobIndex id) with
  | none => rfl
  | some key =>
    obtain ⟨hid, -⟩ := hi.index_record id key hk
    simp only [Option.bind_some, hrec key hid]

theorem attemptHistory_of_move (id : String) :
    s.applyBatch (JobAction.writes (.move source old job key)) (.attemptHistory id) =
      s (.attemptHistory id) := by
  cases hd : old.dedupKey <;> cases hk : job.dedupKey <;>
    simp [JobAction.writes, JobAction.releaseDedup, hd, hk, Store.write_of_ne]

theorem lifeAt_move (hi : StoreInv s)
    (he : JobAction.Enabled (κ := κ) (β := β) (.move source old job key) s) (id : String) :
    lifeAt (s.applyBatch (JobAction.writes (.move source old job key))) id =
      if id = old.id then { lifeAt s id with record := some job.bare } else lifeAt s id := by
  obtain ⟨hf, -, hkey, hjid, -⟩ := he
  have hsid := JobRecord.id_of_storedKey (hi.storedKey_of_found hf)
  have hkid := (JobRecord.id_of_storedKey hkey).trans hjid
  split_ifs with hid
  · simp only [lifeAt, attemptHistory_of_move, JobAction.move_jobIndex, hid, hjid, if_true,
      Option.bind_some, JobAction.move_record, Option.map_some, bare_decode_stored hkey]
  · refine lifeAt_congr ?_ (fun k hk => ?_) (attemptHistory_of_move id) hi
    · rw [JobAction.move_jobIndex, hjid, if_neg hid]
    · rw [JobAction.move_record, if_neg, if_neg]
      · rintro rfl
        exact hid (hk.symm.trans hsid)
      · rintro rfl
        exact hid (hk.symm.trans hkid)

theorem lifeAt_rewrite (hi : StoreInv s)
    (he : JobAction.Enabled (κ := κ) (β := β) (.rewrite key old job) s) (id : String) :
    lifeAt (s.applyBatch (JobAction.writes (.rewrite key old job))) id =
      if id = old.id then { lifeAt s id with record := some job.bare } else lifeAt s id := by
  obtain ⟨hf, hkey, -⟩ := he
  have hsid := JobRecord.id_of_storedKey (hi.storedKey_of_found hf)
  have hhist : s.applyBatch (JobAction.writes (.rewrite key old job)) (.attemptHistory id) =
      s (.attemptHistory id) := by
    simp [JobAction.writes, Store.write_of_ne]
  split_ifs with hid
  · obtain ⟨stored, hs, -⟩ := Option.map_eq_some_iff.mp hf
    have hidx : s (.jobIndex id) = some key := by
      rw [hid, ← hsid]
      exact (hi.record_index key stored hs).1
    simp only [lifeAt, hhist, JobAction.rewrite_jobIndex, hidx, Option.bind_some,
      JobAction.rewrite_record, if_true, Option.map_some, bare_decode_stored hkey]
  · refine lifeAt_congr (JobAction.rewrite_jobIndex ..) (fun k hk => ?_) hhist hi
    rw [JobAction.rewrite_record, if_neg]
    rintro rfl
    exact hid (hk.symm.trans hsid)

theorem lifeAt_insert (hi : StoreInv s)
    (he : JobAction.Enabled (κ := κ) (β := β) (.insert job key) s) (id : String) :
    lifeAt (s.applyBatch (JobAction.writes (.insert job key))) id =
      if id = job.id then { lifeAt s id with record := some job.bare } else lifeAt s id := by
  obtain ⟨hidx, hkey, -⟩ := he
  have hkid := JobRecord.id_of_storedKey hkey
  have hhist : s.applyBatch (JobAction.writes (.insert job key)) (.attemptHistory id) =
      s (.attemptHistory id) := by
    cases hd : job.dedupKey <;>
      simp [JobAction.writes, JobAction.takeDedup, hd, Store.write_of_ne]
  split_ifs with hid
  · simp only [lifeAt, hhist, JobAction.insert_jobIndex, hid, if_true, Option.bind_some,
      JobAction.insert_record, Option.map_some, bare_decode_stored hkey]
  · refine lifeAt_congr ?_ (fun k hk => ?_) hhist hi
    · rw [JobAction.insert_jobIndex, if_neg hid]
    · rw [JobAction.insert_record, if_neg]
      rintro rfl
      exact hid (hk.symm.trans hkid)

theorem lifeAt_remove (hi : StoreInv s) (completed : Bool)
    (he : JobAction.Enabled (κ := κ) (β := β) (.remove key old completed) s) (id : String) :
    lifeAt (s.applyBatch (JobAction.writes (.remove key old completed))) id =
      if id = old.id then {} else lifeAt s id := by
  have hsid := JobRecord.id_of_storedKey (hi.storedKey_of_found (he : JobAction.Found s key old))
  have hhist : s.applyBatch (JobAction.writes (.remove key old completed)) (.attemptHistory id) =
      if id = old.id then none else s (.attemptHistory id) := by
    by_cases hid : id = old.id
    · subst hid
      cases hd : old.dedupKey <;>
        simp [JobAction.writes, JobAction.releaseDedup, hd, Store.write_of_ne, Write.apply]
    · cases hd : old.dedupKey <;>
        simp [JobAction.writes, JobAction.releaseDedup, hd, Store.write_of_ne, hid]
  split_ifs with hid
  · simp only [lifeAt, hhist, JobAction.remove_jobIndex, if_pos hid, Option.bind_none]
  · refine lifeAt_congr ?_ (fun k hk => ?_) (by rw [hhist, if_neg hid]) hi
    · rw [JobAction.remove_jobIndex, if_neg hid]
    · rw [JobAction.remove_record, if_neg]
      rintro rfl
      exact hid (hk.symm.trans hsid)

theorem lifeAt_history (hi : StoreInv s) (i : String) (entry : JobAttempt) (id : String) :
    lifeAt (s.applyBatch (JobAction.writes (.history i entry))) id =
      if id = i then { lifeAt s id with history := Life.append (lifeAt s id).history (some entry) }
      else lifeAt s id := by
  split_ifs with hid
  · subst hid
    simp [lifeAt, JobAction.writes, Store.write_of_ne, Write.apply, Life.append,
      MergeOperator.merge]
  · refine lifeAt_congr ?_ (fun k _ => ?_) ?_ hi
    · simp [JobAction.writes, Store.write_of_ne]
    · simp [JobAction.writes, Store.write_of_ne]
    · simp [JobAction.writes, Store.write_of_ne, hid]

theorem lifeAt_plain (hi : StoreInv s) {w : Σ k : Key κ, Write (Val κ β k)}
    (hw : w.1.isPlain = true) (hh : ∀ i, w.1 ≠ .attemptHistory i) (id : String) :
    lifeAt (s.applyBatch (JobAction.writes (.plain w))) id = lifeAt s id := by
  refine lifeAt_congr (JobAction.plain_of_not_isPlain s hw rfl)
    (fun k _ => JobAction.plain_of_not_isPlain s hw rfl) ?_ hi
  refine Store.applyBatch_of_not_mem ?_
  simp only [JobAction.writes, Batch.keys_cons, Batch.keys_nil, List.mem_singleton]
  exact fun h => hh id h.symm

end Lives

/-- The actions take jobs through these events, in order. An attempt is recorded with the
move that ends it. -/
inductive Events : List (JobAction κ β) → List (String × JobEvent) → Prop where
  | nil : Events [] []
  | insert {as : List (JobAction κ β)} {es : List (String × JobEvent)} {job : JobRecord}
      {key : RecordKey} : Life.Starts job → Events as es →
      Events (.insert job key :: as) ((job.id, .enqueue job.bare) :: es)
  | move {as : List (JobAction κ β)} {es : List (String × JobEvent)} {event : JobEvent}
      {source key : RecordKey} {old : JobRecord} : event.Allowed old → event.entry old = none →
      Events as es → Events (.move source old (event.apply old) key :: as) ((old.id, event) :: es)
  | rewrite {as : List (JobAction κ β)} {es : List (String × JobEvent)} {event : JobEvent}
      {key : RecordKey} {old : JobRecord} : event.Allowed old → event.entry old = none →
      Events as es → Events (.rewrite key old (event.apply old) :: as) ((old.id, event) :: es)
  | ended {as : List (JobAction κ β)} {es : List (String × JobEvent)} {event : JobEvent}
      {source key : RecordKey} {old : JobRecord} {entry : JobAttempt} : event.Allowed old →
      event.entry old = some entry → Events as es →
      Events (.history old.id entry :: .move source old (event.apply old) key :: as)
        ((old.id, event) :: es)
  | revived {as : List (JobAction κ β)} {es : List (String × JobEvent)} {event : JobEvent}
      {source key : RecordKey} {old : JobRecord} {entry : JobAttempt} : event.Allowed old →
      event.entry old = some entry → Events as es →
      Events (.move source old (event.apply old) key :: .history old.id entry :: as)
        ((old.id, event) :: es)
  | remove {as : List (JobAction κ β)} {es : List (String × JobEvent)} {key : RecordKey}
      {old : JobRecord} {completed : Bool} : Events as es →
      Events (.remove key old completed :: as) ((old.id, .remove) :: es)
  | plain {as : List (JobAction κ β)} {es : List (String × JobEvent)}
      {w : Σ k : Key κ, Write (Val κ β k)} : (∀ i, w.1 ≠ .attemptHistory i) → Events as es →
      Events (.plain w :: as) es

def eventsOf (id : String) (es : List (String × JobEvent)) : List JobEvent :=
  (es.filter fun e => e.1 = id).map Prod.snd

theorem mem_eventsOf {id : String} {es : List (String × JobEvent)} {event : JobEvent} :
    event ∈ eventsOf id es ↔ (id, event) ∈ es := by
  simp [eventsOf]

def enqueuedIds (es : List (String × JobEvent)) : List String :=
  es.filterMap fun e =>
    match e.2 with
    | .enqueue _ => some e.1
    | _ => none

theorem mem_enqueuedIds {id : String} {es : List (String × JobEvent)} (h : id ∈ enqueuedIds es) :
    ∃ job, (id, JobEvent.enqueue job) ∈ es := by
  obtain ⟨e, he, hid⟩ := List.mem_filterMap.mp h
  obtain ⟨i, event⟩ := e
  cases event with
  | enqueue job =>
    cases hid
    exact ⟨job, he⟩
  | _ => cases hid

theorem enqueuedIds_cons_of_allowed {event : JobEvent} {old : JobRecord}
    (h : event.Allowed old) (id : String) (es : List (String × JobEvent)) :
    enqueuedIds ((id, event) :: es) = enqueuedIds es := by
  cases event with
  | enqueue | remove => exact h.elim
  | _ => rfl

/-- A write outside the job records, the indexes and the histories. -/
def JobAction.IsAside : JobAction κ β → Prop
  | .plain w => ∀ i, w.1 ≠ .attemptHistory i
  | _ => False

namespace Events

variable {as bs : List (JobAction κ β)} {es fs : List (String × JobEvent)}

theorem append (h : Events as es) (h' : Events bs fs) : Events (as ++ bs) (es ++ fs) := by
  induction h with
  | nil => exact h'
  | insert hs _ ih => exact .insert hs ih
  | move ha hn _ ih => exact .move ha hn ih
  | rewrite ha hn _ ih => exact .rewrite ha hn ih
  | ended ha hn _ ih => exact .ended ha hn ih
  | revived ha hn _ ih => exact .revived ha hn ih
  | remove _ ih => exact .remove ih
  | plain hw _ ih => exact .plain hw ih

theorem of_isAside (h : ∀ a ∈ as, a.IsAside) : Events as [] := by
  induction as with
  | nil => exact .nil
  | cons a as ih =>
    have ha := h a (.head _)
    cases a with
    | plain w => exact .plain ha (ih fun b hb => h b (.tail _ hb))
    | _ => exact ha.elim

theorem insert?_eq (h : Events as es) :
    (as.filterMap (·.insert?)).map Prod.snd = enqueuedIds es := by
  induction h with
  | nil => rfl
  | @insert _ _ job key _ _ ih => exact congrArg (job.id :: ·) ih
  | move ha _ _ ih | rewrite ha _ _ ih | ended ha _ _ ih | revived ha _ _ ih =>
    rw [enqueuedIds_cons_of_allowed ha]
    exact ih
  | remove _ ih => exact ih
  | plain _ _ ih => exact ih

theorem inserts (h : Events as es) : Txn.Inserts as (enqueuedIds es) := by
  intro job key hm
  rw [← h.insert?_eq]
  exact List.mem_map.mpr ⟨_, List.mem_filterMap.mpr ⟨_, hm, rfl⟩, rfl⟩

end Events

section Run

variable [DecidableEq κ] {s s' : Store (Val κ β)} {id i : String} {event : JobEvent}
  {es : List (String × JobEvent)} {as : List (JobAction κ β)}

omit [DecidableEq κ] in
theorem run_eventsOf_cons (s' : Store (Val κ β)) {life : Life}
    (hpos : id = i → Life.step (lifeAt s id) event = some (lifeAt s' id))
    (hneg : id ≠ i → lifeAt s' id = lifeAt s id)
    (h : Life.machine.run (lifeAt s' id) (eventsOf id es) = some life) :
    Life.machine.run (lifeAt s id) (eventsOf id ((i, event) :: es)) = some life := by
  by_cases hid : id = i
  · have hev : eventsOf id ((i, event) :: es) = event :: eventsOf id es := by
      simp [eventsOf, hid]
    rw [hev, Machine.run_cons]
    exact Option.bind_eq_some_iff.mpr ⟨_, hpos hid, h⟩
  · have hev : eventsOf id ((i, event) :: es) = eventsOf id es := by
      simp [eventsOf, Ne.symm hid]
    rw [hev, ← hneg hid]
    exact h

omit [DecidableEq κ] in
theorem step_lifeAt_of_found (hi : StoreInv s) {key : RecordKey} {old : JobRecord}
    (hf : JobAction.Found s key old) (ha : event.Allowed old)
    (hr : (lifeAt s' old.id).record = some (event.apply old).bare)
    (hh : (lifeAt s' old.id).history =
      Life.append (lifeAt s old.id).history (event.entry old)) :
    Life.step (lifeAt s old.id) event = some (lifeAt s' old.id) := by
  rw [Life.step_of_allowed (lifeAt_of_found hi hf) ha.bare, event.apply_bare, event.entry_bare,
    ← hr, ← hh]

/-- Enabled actions run the lives of all jobs through their events. -/
theorem Events.run (h : Events as es) (hi : StoreInv s) (he : (jobActions κ β).AllEnabled as s)
    (id : String) : Life.machine.run (lifeAt s id) (eventsOf id es) =
      some (lifeAt (s.applyBatch ((jobActions κ β).batch as)) id) := by
  induction h generalizing s with
  | nil => rfl
  | @insert as es job key hs _ ih =>
    obtain ⟨he, hrest⟩ := he
    have hi' := StoreInv.action (.insert job key) s hi he
    have hlife := lifeAt_insert hi he id
    rw [Actions.batch_cons, Store.applyBatch_append]
    refine run_eventsOf_cons (s.applyBatch (JobAction.writes (.insert job key)))
      (fun hid => ?_) (fun hid => by rw [hlife, if_neg hid]) (ih hi' hrest)
    subst hid
    have hidx : s (.jobIndex job.id) = none := he.1
    rw [hlife, if_pos rfl]
    exact Life.step_enqueue (by simp [lifeAt, hidx]) hs
  | @move as es event source key old ha hn _ ih =>
    obtain ⟨he, hrest⟩ := he
    have hi' := StoreInv.action (.move source old (event.apply old) key) s hi he
    have hlife := lifeAt_move hi he id
    rw [Actions.batch_cons, Store.applyBatch_append]
    refine run_eventsOf_cons
      (s.applyBatch (JobAction.writes (.move source old (event.apply old) key)))
      (fun hid => ?_) (fun hid => by rw [hlife, if_neg hid]) (ih hi' hrest)
    subst hid
    rw [if_pos rfl] at hlife
    exact step_lifeAt_of_found hi he.1 ha (by rw [hlife]) (by rw [hlife, hn]; rfl)
  | @rewrite as es event key old ha hn _ ih =>
    obtain ⟨he, hrest⟩ := he
    have hi' := StoreInv.action (.rewrite key old (event.apply old)) s hi he
    have hlife := lifeAt_rewrite hi he id
    rw [Actions.batch_cons, Store.applyBatch_append]
    refine run_eventsOf_cons
      (s.applyBatch (JobAction.writes (.rewrite key old (event.apply old))))
      (fun hid => ?_) (fun hid => by rw [hlife, if_neg hid]) (ih hi' hrest)
    subst hid
    rw [if_pos rfl] at hlife
    exact step_lifeAt_of_found hi he.1 ha (by rw [hlife]) (by rw [hlife, hn]; rfl)
  | @ended as es event source key old entry ha hn _ ih =>
    obtain ⟨he₁, he, hrest⟩ := he
    have hi₁ := StoreInv.action (.history old.id entry) s hi he₁
    have hi' := StoreInv.action (.move source old (event.apply old) key) _ hi₁ he
    have hlife := (lifeAt_move hi₁ he id).trans (by rw [lifeAt_history hi old.id entry id])
    rw [Actions.batch_cons, Actions.batch_cons, Store.applyBatch_append, Store.applyBatch_append]
    refine run_eventsOf_cons ((s.applyBatch (JobAction.writes (.history old.id entry))).applyBatch
        (JobAction.writes (.move source old (event.apply old) key)))
      (fun hid => ?_) (fun hid => by rw [hlife, if_neg hid, if_neg hid]) (ih hi' hrest)
    subst hid
    rw [if_pos rfl, if_pos rfl] at hlife
    have hf : JobAction.Found s source old :=
      JobAction.found_congr (JobAction.history_of_not_isPlain s _ rfl) he.1
    exact step_lifeAt_of_found hi hf ha (by rw [hlife]) (by rw [hlife, hn])
  | @revived as es event source key old entry ha hn _ ih =>
    obtain ⟨he, he₁, hrest⟩ := he
    have hi₁ := StoreInv.action (.move source old (event.apply old) key) s hi he
    have hi' := StoreInv.action (.history old.id entry) _ hi₁ he₁
    have hlife := (lifeAt_history hi₁ old.id entry id).trans (by rw [lifeAt_move hi he id])
    rw [Actions.batch_cons, Actions.batch_cons, Store.applyBatch_append, Store.applyBatch_append]
    refine run_eventsOf_cons ((s.applyBatch
        (JobAction.writes (.move source old (event.apply old) key))).applyBatch
        (JobAction.writes (.history old.id entry)))
      (fun hid => ?_) (fun hid => by rw [hlife, if_neg hid, if_neg hid]) (ih hi' hrest)
    subst hid
    rw [if_pos rfl, if_pos rfl] at hlife
    exact step_lifeAt_of_found hi he.1 ha (by rw [hlife]) (by rw [hlife, hn])
  | @remove as es key old completed _ ih =>
    obtain ⟨he, hrest⟩ := he
    have hi' := StoreInv.action (.remove key old completed) s hi he
    have hlife := lifeAt_remove hi completed he id
    rw [Actions.batch_cons, Store.applyBatch_append]
    refine run_eventsOf_cons
      (s.applyBatch (JobAction.writes (.remove key old completed)))
      (fun hid => ?_) (fun hid => by rw [hlife, if_neg hid]) (ih hi' hrest)
    subst hid
    rw [hlife, if_pos rfl]
    exact Life.step_remove (lifeAt_of_found hi (he : JobAction.Found s key old))
  | @plain as es w hw _ ih =>
    obtain ⟨he, hrest⟩ := he
    have hi' := StoreInv.action (.plain w) s hi he
    rw [Actions.batch_cons, Store.applyBatch_append, ← lifeAt_plain hi he hw id]
    exact ih hi' hrest

end Run

namespace Txn

variable [DecidableEq κ] {t t' t'' : Txn κ β} {es fs : List (String × JobEvent)}

def Stages (t t' : Txn κ β) (es : List (String × JobEvent)) : Prop :=
  ∃ as, Extends t t' as ∧ Events as es

namespace Stages

theorem refl (t : Txn κ β) : Stages t t [] := ⟨[], .refl t, .nil⟩

theorem trans (h : Stages t t' es) (h' : Stages t' t'' fs) : Stages t t'' (es ++ fs) := by
  obtain ⟨as, he, hes⟩ := h
  obtain ⟨bs, he', hfs⟩ := h'
  exact ⟨_, he.trans he', hes.append hfs⟩

theorem inv (h : Stages t t' es) (hi : StoreInv t.view) : StoreInv t'.view := by
  obtain ⟨as, he, -⟩ := h
  exact he.inv hi

theorem aside {as : List (JobAction κ β)} (he : Extends t t' as) (h : ∀ a ∈ as, a.IsAside) :
    Stages t t' [] :=
  ⟨as, he, .of_isAside h⟩

theorem freshIds {jobs : List PreparedJob} (h : Stages t t' es) (hi : StoreInv t.view)
    (hf : FreshIds t.view jobs)
    (hne : ∀ p ∈ jobs, p.idOverrideUsed = false → p.job.id ∉ enqueuedIds es) :
    FreshIds t'.view jobs := by
  obtain ⟨as, he, hes⟩ := h
  exact hf.extends hi he hes.inserts hne

end Stages

section Moves

variable {source key : RecordKey} {old job job' : JobRecord} {event : JobEvent}

theorem stages_moveJob (hf : JobAction.Found t.view source old) (hr : Rewrites old job)
    (hs : source.keyStatus ≠ job.status) (h : t.moveJob source job = .ok (t', job'))
    (ha : event.Allowed old) (hj : leaveWaits job = event.apply old)
    (hn : event.entry old = none) : Stages t t' [(old.id, event)] := by
  obtain ⟨key, -, -, he⟩ := extends_moveJob hf hr hs h
  obtain ⟨rfl, -⟩ := moveJob_eq_ok h
  rw [hj] at he
  exact ⟨_, he, .move ha hn .nil⟩

def wakeEvent : Wake → JobEvent
  | .signal payload => .wake (some payload)
  | .count _ | .early => .wake none

end Moves

end Txn

end Taquba
