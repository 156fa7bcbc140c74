import Taquba.Store.Actions

/-! # One record and one index entry for each job

The job index maps exactly the ids that have a record to the key of the record,
and the dedup index maps exactly the dedup keys of the jobs that wait for their
first claim to their ids. Every enabled action keeps both.
-/

namespace Taquba

open Snapshot

variable {κ β : Type}
variable {queue : QueueName}

structure StoreInv (s : Store (Val κ β)) : Prop where
  index_record : ∀ id key, s (.jobIndex id) = some key →
    key.id = id ∧ ∃ job, s (.record key) = some job
  record_index : ∀ key job, s (.record key) = some job →
    s (.jobIndex key.id) = some key ∧ (JobRecord.decode key job).storedKey = some key
  dedup_record : ∀ queue dedupKey id, s (.dedup queue dedupKey) = some id →
    ∃ key job, s (.record key) = some job ∧ key.id = id ∧ key.queue = queue ∧
      job.dedupKey = some dedupKey
  record_dedup : ∀ key job dedupKey, s (.record key) = some job →
    job.dedupKey = some dedupKey →
    (key.keyStatus = .pending ∨ key.keyStatus = .scheduled) ∧
      s (.dedup key.queue dedupKey) = some key.id

theorem storeInv_empty : StoreInv (fun _ => none : Store (Val κ β)) where
  index_record _ _ h := by cases h
  record_index _ _ h := by cases h
  dedup_record _ _ _ h := by cases h
  record_dedup _ _ _ h := by cases h

namespace StoreInv

variable {s : Store (Val κ β)} {key source : RecordKey} {job old : JobRecord}

theorem unique (hi : StoreInv s) {key' : RecordKey} {job' : JobRecord}
    (h : s (.record key) = some job) (h' : s (.record key') = some job')
    (hid : key.id = key'.id) : key = key' := by
  have hk := (hi.record_index key job h).1
  have hk' := (hi.record_index key' job' h').1
  rw [hid, hk'] at hk
  exact (Option.some.inj hk).symm

theorem storedKey_of_found (hi : StoreInv s) (h : JobAction.Found s source old) :
    old.storedKey = some source := by
  obtain ⟨job, hj, rfl⟩ := Option.map_eq_some_iff.mp h
  exact (hi.record_index source job hj).2

theorem dedupWaits_of_found (hi : StoreInv s) (h : JobAction.Found s source old) :
    JobAction.DedupWaits old := by
  obtain ⟨job, hj, rfl⟩ := Option.map_eq_some_iff.mp h
  intro hd
  obtain ⟨dedupKey, hd⟩ := Option.ne_none_iff_exists'.mp hd
  exact (hi.record_dedup source job dedupKey hj hd).1

theorem dedupKey_eq_none (hi : StoreInv s) (h : JobAction.Found s source old)
    (hp : source.keyStatus ≠ .pending) (hs : source.keyStatus ≠ .scheduled) :
    old.dedupKey = none := by
  by_contra hd
  have hst := JobRecord.keyStatus_of_storedKey (hi.storedKey_of_found h)
  rcases hi.dedupWaits_of_found h hd with h | h
  · exact hp (hst.trans h)
  · exact hs (hst.trans h)

theorem claimed_spec (hi : StoreInv s) {id : String}
    (hf : JobAction.Found s (.claimed queue id) job) :
    job.queue = queue ∧ job.id = id ∧ job.dedupKey = none := by
  obtain ⟨-, hq, hid⟩ := JobRecord.storedKey_spec (hi.storedKey_of_found hf)
  exact ⟨hq.symm, hid.symm, hi.dedupKey_eq_none hf (by simp [RecordKey.keyStatus])
    (by simp [RecordKey.keyStatus])⟩

theorem record_eq_none_of_jobIndex (hi : StoreInv s) (h : s (.jobIndex key.id) = none) :
    s (.record key) = none := by
  cases hr : s (.record key) with
  | none => rfl
  | some job =>
    have := (hi.record_index key job hr).1
    simp [h] at this

/-- The invariant reads only the records and the two indexes. -/
theorem congr (hi : StoreInv s) {t : Store (Val κ β)}
    (h : ∀ k : Key κ, k.isPlain = false → t k = s k) : StoreInv t := by
  constructor
  · intro id j hj
    rw [h _ rfl] at hj
    rw [h _ rfl]
    exact hi.index_record id j hj
  · intro j v hj
    rw [h _ rfl] at hj
    rw [h _ rfl]
    exact hi.record_index j v hj
  · intro q d id hd
    rw [h _ rfl] at hd
    obtain ⟨j, v, hv, hrest⟩ := hi.dedup_record q d id hd
    exact ⟨j, v, by rw [h _ rfl, hv], hrest⟩
  · intro j v d hj hd
    rw [h _ rfl] at hj
    rw [h _ rfl]
    exact hi.record_dedup j v d hj hd

end StoreInv

variable [DecidableEq κ]
variable {as : List (JobAction κ β)} {a : JobAction κ β}

section Writes

variable (s : Store (Val κ β))

theorem write_record (k j : RecordKey) (w : Write JobRecord) :
    s.write ⟨.record k, w⟩ (.record j) =
      if j = k then w.apply (V := Val κ β) (k := .record j) (s (.record j))
      else s (.record j) := by
  split
  · subst_vars
    exact s.write_self _ _
  · exact Store.write_of_ne (by simpa)

theorem write_jobIndex (i j : String) (w : Write RecordKey) :
    s.write ⟨.jobIndex i, w⟩ (.jobIndex j) =
      if j = i then w.apply (V := Val κ β) (k := .jobIndex j) (s (.jobIndex j))
      else s (.jobIndex j) := by
  split
  · subst_vars
    exact s.write_self _ _
  · exact Store.write_of_ne (by simpa)

theorem write_dedup (q p : QueueName) (d e : String) (w : Write String) :
    s.write ⟨.dedup q d, w⟩ (.dedup p e) =
      if p = q ∧ e = d then w.apply (V := Val κ β) (k := .dedup p e) (s (.dedup p e))
      else s (.dedup p e) := by
  split_ifs with h
  · obtain ⟨rfl, rfl⟩ := h
    exact s.write_self _ _
  · exact Store.write_of_ne (by simpa using h)

end Writes

namespace JobAction

variable (s : Store (Val κ β)) (job old : JobRecord) (key source j : RecordKey) (i d : String)
  (q : QueueName) (completed : Bool)

theorem insert_record : s.applyBatch (writes (.insert job key)) (.record j) =
    if j = key then some job.stored else s (.record j) := by
  cases hd : job.dedupKey <;>
    simp [writes, takeDedup, hd, Store.write_of_ne, write_record, Write.apply]

theorem insert_jobIndex : s.applyBatch (writes (.insert job key)) (.jobIndex i) =
    if i = job.id then some key else s (.jobIndex i) := by
  cases hd : job.dedupKey <;>
    simp [writes, takeDedup, hd, Store.write_of_ne, write_jobIndex, Write.apply]

theorem insert_dedup : s.applyBatch (writes (.insert job key)) (.dedup q d) =
    if q = job.queue ∧ job.dedupKey = some d then some job.id else s (.dedup q d) := by
  cases hd : job.dedupKey <;>
    simp [writes, takeDedup, hd, Store.write_of_ne, write_dedup, Write.apply, eq_comm]

theorem move_record : s.applyBatch (writes (.move source old job key)) (.record j) =
    if j = key then some job.stored else if j = source then none else s (.record j) := by
  cases hd : old.dedupKey <;> cases hk : job.dedupKey <;>
    simp [writes, releaseDedup, hd, hk, Store.write_of_ne, write_record, Write.apply]

theorem move_jobIndex : s.applyBatch (writes (.move source old job key)) (.jobIndex i) =
    if i = job.id then some key else s (.jobIndex i) := by
  cases hd : old.dedupKey <;> cases hk : job.dedupKey <;>
    simp [writes, releaseDedup, hd, hk, Store.write_of_ne, write_jobIndex, Write.apply]

theorem move_dedup : s.applyBatch (writes (.move source old job key)) (.dedup q d) =
    if q = old.queue ∧ old.dedupKey = some d ∧ job.dedupKey = none then none
    else s (.dedup q d) := by
  cases hd : old.dedupKey <;> cases hk : job.dedupKey <;>
    simp [writes, releaseDedup, hd, hk, Store.write_of_ne, write_dedup, Write.apply, eq_comm]

theorem rewrite_record : s.applyBatch (writes (.rewrite key old job)) (.record j) =
    if j = key then some job.stored else s (.record j) := by
  simp [writes, write_record, Write.apply]

theorem rewrite_jobIndex :
    s.applyBatch (writes (.rewrite key old job)) (.jobIndex i) = s (.jobIndex i) := by
  simp [writes, Store.write_of_ne]

theorem rewrite_dedup :
    s.applyBatch (writes (.rewrite key old job)) (.dedup q d) = s (.dedup q d) := by
  simp [writes, Store.write_of_ne]

theorem remove_record : s.applyBatch (writes (.remove key old completed)) (.record j) =
    if j = key then none else s (.record j) := by
  cases hd : old.dedupKey <;>
    simp [writes, releaseDedup, hd, Store.write_of_ne, write_record, Write.apply]

theorem remove_jobIndex : s.applyBatch (writes (.remove key old completed)) (.jobIndex i) =
    if i = old.id then none else s (.jobIndex i) := by
  cases hd : old.dedupKey <;>
    simp [writes, releaseDedup, hd, Store.write_of_ne, write_jobIndex, Write.apply]

theorem remove_dedup : s.applyBatch (writes (.remove key old completed)) (.dedup q d) =
    if q = old.queue ∧ old.dedupKey = some d then none else s (.dedup q d) := by
  cases hd : old.dedupKey <;>
    simp [writes, releaseDedup, hd, Store.write_of_ne, write_dedup, Write.apply, eq_comm]

theorem plain_of_not_isPlain {w : Σ k : Key κ, Write (Val κ β k)} {k : Key κ}
    (hw : w.1.isPlain = true) (hk : k.isPlain = false) :
    s.applyBatch (writes (.plain w)) k = s k := by
  refine Store.applyBatch_of_not_mem ?_
  simp only [writes, Batch.keys_cons, Batch.keys_nil, List.mem_singleton]
  rintro rfl
  simp [hw] at hk

theorem history_of_not_isPlain {entry : JobAttempt} {k : Key κ} (hk : k.isPlain = false) :
    s.applyBatch (writes (.history i entry)) k = s k := by
  refine Store.applyBatch_of_not_mem ?_
  simp only [writes, Batch.keys_cons, Batch.keys_nil, List.mem_singleton]
  rintro rfl
  simp [Key.isPlain] at hk

end JobAction

namespace StoreInv

variable {s : Store (Val κ β)} {key source : RecordKey} {job old : JobRecord}

theorem insert (hi : StoreInv s) (he : JobAction.Enabled (κ := κ) (β := β) (.insert job key) s) :
    StoreInv (s.applyBatch (JobAction.writes (.insert job key))) := by
  obtain ⟨hidx, hkey, hwaits, hdedup⟩ := he
  obtain ⟨hstatus, hqueue, hid⟩ := JobRecord.storedKey_spec hkey
  have hfree : s (.record key) = none := hi.record_eq_none_of_jobIndex (by rw [hid, hidx])
  have hne : ∀ j v, s (.record j) = some v → j ≠ key := by
    rintro j v hj rfl
    simp [hfree] at hj
  constructor
  · intro id j hj
    rw [JobAction.insert_jobIndex] at hj
    rw [JobAction.insert_record]
    split_ifs at hj with h
    · cases hj
      exact ⟨hid.trans h.symm, job.stored, if_pos rfl⟩
    · obtain ⟨h, v, hv⟩ := hi.index_record id j hj
      exact ⟨h, v, by rw [if_neg (hne j v hv), hv]⟩
  · intro j v hj
    rw [JobAction.insert_record] at hj
    rw [JobAction.insert_jobIndex]
    split_ifs at hj with h
    · cases hj
      subst h
      exact ⟨if_pos hid, JobRecord.storedKey_decode_stored hkey⟩
    · obtain ⟨h, hs⟩ := hi.record_index j v hj
      refine ⟨?_, hs⟩
      rw [if_neg, h]
      intro hc
      rw [hc, hidx] at h
      cases h
  · intro q d id hd
    rw [JobAction.insert_dedup] at hd
    split_ifs at hd with h
    · cases hd
      exact ⟨key, job.stored, by simp [JobAction.insert_record], hid, hqueue.trans h.1.symm, h.2⟩
    · obtain ⟨j, v, hv, hrest⟩ := hi.dedup_record q d id hd
      exact ⟨j, v, by rw [JobAction.insert_record, if_neg (hne j v hv), hv], hrest⟩
  · intro j v d hj hd
    rw [JobAction.insert_record] at hj
    rw [JobAction.insert_dedup]
    split_ifs at hj with h
    · cases hj
      subst h
      rw [JobRecord.stored_dedupKey] at hd
      rw [hstatus, if_pos ⟨hqueue, hd⟩, hid]
      exact ⟨hwaits, rfl⟩
    · obtain ⟨hst, hd'⟩ := hi.record_dedup j v d hj hd
      refine ⟨hst, ?_⟩
      rw [if_neg, hd']
      rintro ⟨hq, hd⟩
      rw [hq, hdedup d hd] at hd'
      cases hd'

theorem move (hi : StoreInv s)
    (he : JobAction.Enabled (κ := κ) (β := β) (.move source old job key) s) :
    StoreInv (s.applyBatch (JobAction.writes (.move source old job key))) := by
  obtain ⟨hfound, hsk, hkey, hid, hqueue, hwaits, hdk, -⟩ := he
  obtain ⟨-, hoqueue, hoid⟩ := JobRecord.storedKey_spec (hi.storedKey_of_found hfound)
  obtain ⟨hstatus, hkqueue, hkid⟩ := JobRecord.storedKey_spec hkey
  obtain ⟨ov, hov, rfl⟩ := Option.map_eq_some_iff.mp hfound
  have hsid : key.id = source.id := by rw [hkid, hid, ← hoid]
  have hfree : s (.record key) = none := by
    cases hr : s (.record key) with
    | none => rfl
    | some v => exact absurd (hi.unique hov hr hsid.symm) hsk
  have hother : ∀ j v, s (.record j) = some v → j.id ≠ job.id → j ≠ key ∧ j ≠ source := by
    intro j v hj hne
    constructor
    · rintro rfl
      exact hne hkid
    · rintro rfl
      exact hne (by rw [← hkid, hsid])
  constructor
  · intro id j hj
    rw [JobAction.move_jobIndex] at hj
    rw [JobAction.move_record]
    split_ifs at hj with h
    · cases hj
      exact ⟨hkid.trans h.symm, job.stored, if_pos rfl⟩
    · obtain ⟨hjid, v, hv⟩ := hi.index_record id j hj
      obtain ⟨h₁, h₂⟩ := hother j v hv (by rw [hjid]; exact h)
      exact ⟨hjid, v, by rw [if_neg h₁, if_neg h₂, hv]⟩
  · intro j v hj
    rw [JobAction.move_record] at hj
    rw [JobAction.move_jobIndex]
    split at hj
    · rename_i h
      cases hj
      subst h
      exact ⟨if_pos hkid, JobRecord.storedKey_decode_stored hkey⟩
    · obtain ⟨hns, hj⟩ := Option.ite_none_left_eq_some.mp hj
      obtain ⟨h, hs⟩ := hi.record_index j v hj
      refine ⟨?_, hs⟩
      rw [if_neg, h]
      intro hc
      exact hns (hi.unique hj hov (by rw [hc, ← hkid, hsid]))
  · intro q d id hd
    rw [JobAction.move_dedup] at hd
    obtain ⟨hrel, hd⟩ := Option.ite_none_left_eq_some.mp hd
    obtain ⟨j, v, hv, hjid, hjq, hjd⟩ := hi.dedup_record q d id hd
    by_cases hjs : j = source
    · subst hjs
      rw [hov] at hv
      cases hv
      have hsame : job.dedupKey = some d := by
        rcases hdk with h | ⟨h, -⟩
        · rw [h]
          exact hjd
        · exact absurd ⟨hjq.symm.trans hoqueue, hjd, h⟩ hrel
      refine ⟨key, job.stored, by simp [JobAction.move_record], hsid.trans hjid, ?_, hsame⟩
      rw [hkqueue, hqueue, ← hoqueue, hjq]
    · have hjk : j ≠ key := by
        rintro rfl
        simp [hfree] at hv
      exact ⟨j, v, by rw [JobAction.move_record, if_neg hjk, if_neg hjs, hv], hjid, hjq, hjd⟩
  · intro j v d hj hd
    rw [JobAction.move_record] at hj
    rw [JobAction.move_dedup]
    split at hj
    · rename_i h
      cases hj
      subst h
      rw [JobRecord.stored_dedupKey] at hd
      have hod : ov.dedupKey = some d := by
        rcases hdk with h | ⟨h, -⟩
        · rw [← hd, h]
          rfl
        · simp [h] at hd
      rw [hstatus, if_neg (by simp [hd])]
      refine ⟨hwaits (by simp [hd]), ?_⟩
      rw [hkqueue, hqueue, ← hoqueue, hsid]
      exact (hi.record_dedup source ov d hov hod).2
    · obtain ⟨hns, hj⟩ := Option.ite_none_left_eq_some.mp hj
      obtain ⟨hst, hd'⟩ := hi.record_dedup j v d hj hd
      refine ⟨hst, ?_⟩
      rw [if_neg, hd']
      rintro ⟨hq, hod, -⟩
      have := (hi.record_dedup source ov d hov hod).2
      rw [hoqueue, ← hq, hd'] at this
      exact hns (hi.unique hj hov (Option.some.inj this))

theorem rewrite (hi : StoreInv s)
    (he : JobAction.Enabled (κ := κ) (β := β) (.rewrite key old job) s) :
    StoreInv (s.applyBatch (JobAction.writes (.rewrite key old job))) := by
  obtain ⟨hfound, hkey, hdk, -⟩ := he
  obtain ⟨ov, hov, rfl⟩ := Option.map_eq_some_iff.mp hfound
  constructor
  · intro id j hj
    rw [JobAction.rewrite_jobIndex] at hj
    obtain ⟨hjid, v, hv⟩ := hi.index_record id j hj
    refine ⟨hjid, ?_⟩
    rw [JobAction.rewrite_record]
    split
    · exact ⟨_, rfl⟩
    · exact ⟨v, hv⟩
  · intro j v hj
    rw [JobAction.rewrite_record] at hj
    rw [JobAction.rewrite_jobIndex]
    split_ifs at hj with h
    · cases hj
      subst h
      exact ⟨(hi.record_index j ov hov).1, JobRecord.storedKey_decode_stored hkey⟩
    · exact hi.record_index j v hj
  · intro q d id hd
    rw [JobAction.rewrite_dedup] at hd
    obtain ⟨j, v, hv, hjid, hjq, hjd⟩ := hi.dedup_record q d id hd
    by_cases hjk : j = key
    · subst hjk
      rw [hov] at hv
      cases hv
      exact ⟨j, job.stored, by simp [JobAction.rewrite_record], hjid, hjq, hdk.trans hjd⟩
    · exact ⟨j, v, by rw [JobAction.rewrite_record, if_neg hjk, hv], hjid, hjq, hjd⟩
  · intro j v d hj hd
    rw [JobAction.rewrite_record] at hj
    rw [JobAction.rewrite_dedup]
    split_ifs at hj with h
    · cases hj
      subst h
      exact hi.record_dedup j ov d hov (hdk.symm.trans hd)
    · exact hi.record_dedup j v d hj hd

theorem remove (hi : StoreInv s) {completed : Bool}
    (he : JobAction.Enabled (κ := κ) (β := β) (.remove key old completed) s) :
    StoreInv (s.applyBatch (JobAction.writes (.remove key old completed))) := by
  have hfound : JobAction.Found s key old := he
  obtain ⟨-, hqueue, hid⟩ := JobRecord.storedKey_spec (hi.storedKey_of_found hfound)
  obtain ⟨ov, hov, rfl⟩ := Option.map_eq_some_iff.mp hfound
  constructor
  · intro id j hj
    rw [JobAction.remove_jobIndex] at hj
    obtain ⟨h, hj⟩ := Option.ite_none_left_eq_some.mp hj
    obtain ⟨hjid, v, hv⟩ := hi.index_record id j hj
    refine ⟨hjid, v, ?_⟩
    rw [JobAction.remove_record, if_neg, hv]
    rintro rfl
    exact h (hjid.symm.trans hid)
  · intro j v hj
    rw [JobAction.remove_record] at hj
    obtain ⟨hne, hj⟩ := Option.ite_none_left_eq_some.mp hj
    obtain ⟨h, hs⟩ := hi.record_index j v hj
    refine ⟨?_, hs⟩
    rw [JobAction.remove_jobIndex, if_neg, h]
    intro hc
    exact hne (hi.unique hj hov (hc.trans hid.symm))
  · intro q d id hd
    rw [JobAction.remove_dedup] at hd
    obtain ⟨hrel, hd⟩ := Option.ite_none_left_eq_some.mp hd
    obtain ⟨j, v, hv, hjid, hjq, hjd⟩ := hi.dedup_record q d id hd
    refine ⟨j, v, ?_, hjid, hjq, hjd⟩
    rw [JobAction.remove_record, if_neg, hv]
    rintro rfl
    rw [hov] at hv
    cases hv
    exact hrel ⟨hjq.symm.trans hqueue, hjd⟩
  · intro j v d hj hd
    rw [JobAction.remove_record] at hj
    obtain ⟨hne, hj⟩ := Option.ite_none_left_eq_some.mp hj
    obtain ⟨hst, hd'⟩ := hi.record_dedup j v d hj hd
    refine ⟨hst, ?_⟩
    rw [JobAction.remove_dedup, if_neg, hd']
    rintro ⟨hq, hod⟩
    have := (hi.record_dedup key ov d hov hod).2
    rw [hqueue, ← hq, hd'] at this
    exact hne (hi.unique hj hov (Option.some.inj this))

/-- Every enabled action keeps the records and the indexes in agreement. -/
theorem action (a : JobAction κ β) (s : Store (Val κ β)) (hi : StoreInv s) (he : a.Enabled s) :
    StoreInv (s.applyBatch a.writes) := by
  cases a with
  | insert job key => exact hi.insert he
  | move source old job key => exact hi.move he
  | rewrite key old job => exact hi.rewrite he
  | remove key old completed => exact hi.remove he
  | history id entry => exact hi.congr fun k hk => JobAction.history_of_not_isPlain s id hk
  | plain write => exact hi.congr fun k hk => JobAction.plain_of_not_isPlain s he hk

theorem jobIndex_eq_none_action {i : String} (hi : StoreInv s) (he : a.Enabled s)
    (h : s (.jobIndex i) = none) (hne : ∀ job key, a = .insert job key → job.id ≠ i) :
    s.applyBatch a.writes (.jobIndex i) = none := by
  cases a with
  | insert job key => rw [JobAction.insert_jobIndex, if_neg (hne job key rfl).symm, h]
  | move source old job key =>
    rw [JobAction.move_jobIndex, if_neg, h]
    rintro rfl
    obtain ⟨hf, -, -, hid, -⟩ := he
    have hsid := JobRecord.id_of_storedKey (hi.storedKey_of_found hf)
    obtain ⟨v, hv, -⟩ := Option.map_eq_some_iff.mp hf
    have := (hi.record_index source v hv).1
    rw [hsid, ← hid, h] at this
    cases this
  | rewrite key old job => rw [JobAction.rewrite_jobIndex, h]
  | remove key old completed =>
    rw [JobAction.remove_jobIndex]
    split
    · rfl
    · exact h
  | history id entry => rw [JobAction.history_of_not_isPlain s id rfl, h]
  | plain write => rw [JobAction.plain_of_not_isPlain s he rfl, h]

theorem jobIndex_eq_none_actions {i : String} (hi : StoreInv s)
    (he : (jobActions κ β).AllEnabled as s) (h : s (.jobIndex i) = none)
    (hne : ∀ job key, .insert job key ∈ as → job.id ≠ i) :
    s.applyBatch ((jobActions κ β).batch as) (.jobIndex i) = none := by
  induction as generalizing s with
  | nil => exact h
  | cons a as ih =>
    rw [Actions.batch_cons, Store.applyBatch_append]
    refine ih (StoreInv.action a s hi he.1) he.2 ?_ fun job key hm => hne job key (.tail _ hm)
    exact hi.jobIndex_eq_none_action he.1 h fun job key ha => hne job key (ha ▸ .head _)

theorem jobIndex_ne_none_action {i : String} (he : a.Enabled s) (h : s (.jobIndex i) ≠ none)
    (hne : a.remove? ≠ some i) : s.applyBatch a.writes (.jobIndex i) ≠ none := by
  cases a with
  | insert job key =>
    rw [JobAction.insert_jobIndex]
    split
    · simp
    · exact h
  | move source old job key =>
    rw [JobAction.move_jobIndex]
    split
    · simp
    · exact h
  | rewrite key old job => rwa [JobAction.rewrite_jobIndex]
  | remove key old completed =>
    rw [JobAction.remove_jobIndex, if_neg]
    · exact h
    · rintro rfl
      exact hne rfl
  | history id entry => rwa [JobAction.history_of_not_isPlain s id rfl]
  | plain write => rwa [JobAction.plain_of_not_isPlain s he rfl]

theorem jobIndex_ne_none_actions {i : String} (he : (jobActions κ β).AllEnabled as s)
    (h : s (.jobIndex i) ≠ none) (hne : ∀ a ∈ as, a.remove? ≠ some i) :
    s.applyBatch ((jobActions κ β).batch as) (.jobIndex i) ≠ none := by
  induction as generalizing s with
  | nil => exact h
  | cons a as ih =>
    rw [Actions.batch_cons, Store.applyBatch_append]
    apply ih he.2
    · exact jobIndex_ne_none_action he.1 h (hne a (.head _))
    · exact fun b hb => hne b (.tail _ hb)

/-- An action that takes another record leaves this one: a job has one record. -/
theorem record_action (hi : StoreInv s) (he : a.Enabled s) (h : s (.record key) = some job)
    (hs : a.source? ≠ some key) : s.applyBatch a.writes (.record key) = some job := by
  cases a with
  | insert new target =>
    obtain ⟨hidx, hkey, -⟩ := he
    rw [JobAction.insert_record, if_neg, h]
    rintro rfl
    rw [← JobRecord.id_of_storedKey hkey] at hidx
    rw [hi.record_eq_none_of_jobIndex hidx] at h
    cases h
  | move source old new target =>
    obtain ⟨hf, hne, hkey, hid, -⟩ := he
    obtain ⟨v, hv, -⟩ := Option.map_eq_some_iff.mp hf
    rw [JobAction.move_record, if_neg, if_neg, h]
    · rintro rfl
      exact hs rfl
    · rintro rfl
      refine hne (hi.unique hv h ?_)
      rw [JobRecord.id_of_storedKey hkey, hid, JobRecord.id_of_storedKey (hi.storedKey_of_found hf)]
  | rewrite target old new =>
    rw [JobAction.rewrite_record, if_neg, h]
    rintro rfl
    exact hs rfl
  | remove target old completed =>
    rw [JobAction.remove_record, if_neg, h]
    rintro rfl
    exact hs rfl
  | history id entry => rw [JobAction.history_of_not_isPlain s id rfl, h]
  | plain write => rw [JobAction.plain_of_not_isPlain s he rfl, h]

theorem record_actions (hi : StoreInv s) (he : (jobActions κ β).AllEnabled as s)
    (h : s (.record key) = some job) (hs : ∀ a ∈ as, a.source? ≠ some key) :
    s.applyBatch ((jobActions κ β).batch as) (.record key) = some job := by
  induction as generalizing s with
  | nil => exact h
  | cons a as ih =>
    rw [Actions.batch_cons, Store.applyBatch_append]
    refine ih (StoreInv.action a s hi he.1) he.2 ?_ fun b hb => hs b (.tail _ hb)
    exact hi.record_action he.1 h (hs a (.head _))

/-- Only the end of its claim and its cancel write the record of a claimed job. -/
theorem claimed_action {i : String} (hi : StoreInv s) (he : a.Enabled s)
    (h : s (.record (.claimed queue i)) = some job) (hend : a.end? ≠ some (queue, i))
    (hcancel : a.cancel? ≠ some i) :
    s.applyBatch a.writes (.record (.claimed queue i)) = some job := by
  refine hi.record_action he h fun hs => ?_
  cases a with
  | move source old new key =>
    cases hs
    exact hend rfl
  | rewrite key old new =>
    cases hs
    have hid := JobRecord.id_of_storedKey (hi.storedKey_of_found he.1)
    exact hcancel (congrArg some hid.symm)
  | remove key old completed =>
    cases hs
    exact hend rfl
  | insert | history | plain => cases hs

theorem claimed_actions {i : String} (hi : StoreInv s) (he : (jobActions κ β).AllEnabled as s)
    (h : s (.record (.claimed queue i)) = some job) (hend : ∀ a ∈ as, a.end? ≠ some (queue, i))
    (hcancel : ∀ a ∈ as, a.cancel? ≠ some i) :
    s.applyBatch ((jobActions κ β).batch as) (.record (.claimed queue i)) = some job := by
  induction as generalizing s with
  | nil => exact h
  | cons a as ih =>
    rw [Actions.batch_cons, Store.applyBatch_append]
    refine ih (StoreInv.action a s hi he.1) he.2 ?_ (fun b hb => hend b (.tail _ hb))
      fun b hb => hcancel b (.tail _ hb)
    exact hi.claimed_action he.1 h (hend a (.head _)) (hcancel a (.head _))

end StoreInv

end Taquba
