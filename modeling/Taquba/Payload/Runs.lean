import Taquba.Payload.Machine

/-! # A live record keeps its payload object

A name is given to one object, which one call wrote for one job. No record refers to the
objects of a call whose transaction has not committed, and no surviving state has a
record that refers to an object on a list of objects to delete. So every record of every
surviving state has its object, unless a call with offloaded payloads deleted them after
an error of a commit that was applied.
-/

namespace Taquba

open Snapshot Transition

variable {κ β : Type} [DecidableEq κ] [DecidableEq β]
variable {call : Call κ β} {r : String} {snap : ℕ}

omit [DecidableEq κ] [DecidableEq β] in
theorem PreparedEffects.subperm_finish (effects : PreparedEffects κ β)
    (results : Option (List EnqueueResult)) :
    (writtenJobs effects.preparedJobs (results.getD []) ++ effects.finish results).Subperm
      effects.preparedJobs := by
  cases results with
  | some results => exact Taquba.subperm_written_discarded _ _
  | none =>
    have hnil : writtenJobs effects.preparedJobs [] = [] := by
      cases effects.preparedJobs <;> rfl
    simpa [hnil, PreparedEffects.finish] using List.Subperm.refl effects.preparedJobs

namespace Call

/-- Each new job of the call is written or discarded, and not both. -/
theorem subperm_written_discarded (call : Call κ β) (s : Store (Val κ β)) :
    (call.written s ++ call.discarded s).Subperm call.prepared := by
  cases call with
  | enqueue leases prepared effects =>
    rcases h : (Txn.begin s).writeJobTxn leases prepared effects with
      _ | ⟨t, (_ | ⟨_, results⟩) | _⟩ <;> simp only [written, discarded, h]
    case ok.commit.ok =>
      refine ((List.subperm_cons prepared).mpr (effects.subperm_finish (some results))).trans ?_
      exact (List.perm_append_singleton prepared effects.preparedJobs).symm.subperm
    all_goals exact List.nil_subperm
  | commitEffects leases effects =>
    rcases h : (Txn.begin s).commitEffects leases effects with _ | ⟨t, results | _⟩ <;>
      simp only [written, discarded, h]
    case ok.commit => exact effects.subperm_finish (some results)
    all_goals exact List.nil_subperm
  | settle leases effectLeases queue id claimId settlement effects now =>
    rcases h : (Txn.begin s).settleClaim leases effectLeases queue id claimId settlement effects now
      with _ | ⟨t, ⟨_, _, results⟩ | _⟩ <;> simp only [written, discarded, h]
    case ok.commit => exact effects.subperm_finish results
    all_goals exact List.nil_subperm
  | cancel leases id effects =>
    rcases h : (Txn.begin s).cancel leases id effects with _ | ⟨t, ⟨_, results⟩ | _⟩ <;>
      simp only [written, discarded, h]
    case ok.commit => exact effects.subperm_finish results
    all_goals exact List.nil_subperm
  | applyEnqueue queue entryId appliedAt prepared =>
    rcases h : (Txn.begin s).applyEnqueue queue entryId appliedAt prepared with
      _ | ⟨t, (result | _) | _⟩ <;> simp only [written, discarded, h]
    case ok.commit.enqueue => exact Taquba.subperm_written_discarded [prepared] [result]
    all_goals exact List.nil_subperm
  | _ => exact List.nil_subperm

theorem written_subset (call : Call κ β) (s : Store (Val κ β)) : call.written s ⊆ call.prepared :=
  List.Subset.trans (List.subset_append_left _ _) (call.subperm_written_discarded s).subset

theorem discarded_subset (call : Call κ β) (s : Store (Val κ β)) :
    call.discarded s ⊆ call.prepared :=
  List.Subset.trans (List.subset_append_right _ _) (call.subperm_written_discarded s).subset

theorem not_mem_written (h : (payloadRefs call.prepared).Nodup) {s : Store (Val κ β)}
    (hr : r ∈ payloadRefs (call.discarded s)) : r ∉ payloadRefs (call.written s) := by
  obtain ⟨l, hl, hsub⟩ := call.subperm_written_discarded s
  have hn : (payloadRefs l).Nodup := h.sublist (hsub.filterMap _)
  have hperm : (payloadRefs (call.written s ++ call.discarded s)).Nodup :=
    (hl.filterMap _).nodup_iff.mp hn
  rw [payloadRefs_append] at hperm
  exact fun hw => (List.disjoint_of_nodup_append hperm) hw hr

omit [DecidableEq κ] [DecidableEq β] in
theorem prepared_eq_nil (h : call.handling ≠ .awaited) (h' : call.handling ≠ .deferred) :
    call.prepared = [] := by
  cases call <;> first | rfl | exact absurd rfl h | exact absurd rfl h'

theorem removedRef_eq_none (h : call.handling = .deferred) (s : Store (Val κ β)) :
    call.removedRef s = none := by
  cases call <;> first | rfl | cases h

end Call

namespace Payload

/-- A record of the state after the first `m` commits refers to the object. -/
def State.RefersAt (s : State κ β) (m : ℕ) (r id : String) : Prop :=
  Refers (Log.store (s.queue.log.take m)) r id

def Task.deletes : Task → List String
  | .preparing _ _ => []
  | .applied _ finish _ => finish
  | .batch refs _ | .deleting refs => refs

/-- The number of commits from which on no record refers to the objects to delete. -/
def Task.since (durable : ℕ) : Task → ℕ
  | .applied _ _ (some count) => count
  | .batch _ count => count
  | _ => durable

/-- The objects of the offloaded jobs are there, and no record refers to them yet. -/
structure Prepared (s : State κ β) (ready : List PreparedJob) : Prop where
  nodup : (payloadRefs ready).Nodup
  named : ∀ r ∈ payloadRefs ready, r ∈ s.named
  present : ∀ r ∈ payloadRefs ready, s.objects r ≠ none
  unused : ∀ r ∈ payloadRefs ready, ∀ m id, ¬ s.RefersAt m r id

/-- No record refers to the object after `n` commits or more, and none ever will. -/
structure Gone (s : State κ β) (n : ℕ) (r : String) : Prop where
  named : r ∈ s.named
  unreferenced : ∀ m id, n ≤ m → ¬ s.RefersAt m r id
  unowned : ∀ i ready todo, s.tasks i = some (.preparing ready todo) → r ∉ payloadRefs ready

structure Inv (s : State κ β) : Prop where
  queue : (Queue.machine κ β).Reachable s.queue
  durable_le : s.durable ≤ s.queue.log.length
  named : ∀ m r id, s.RefersAt m r id → r ∈ s.named
  ids : ∀ m m' r id id', s.RefersAt m r id → s.RefersAt m' r id' → id = id'
  present : ∀ m r id, s.durable ≤ m → s.RefersAt m r id → s.objects r ≠ none
  prepared : ∀ i ready todo, s.tasks i = some (.preparing ready todo) → Prepared s ready
  todo : ∀ i ready todo, s.tasks i = some (.preparing ready todo) →
    ∀ p ∈ todo, p.job.payloadRef = none
  disjoint : ∀ i j ready todo ready' todo', s.tasks i = some (.preparing ready todo) →
    s.tasks j = some (.preparing ready' todo') → i ≠ j →
    ∀ r ∈ payloadRefs ready, r ∉ payloadRefs ready'
  gone : ∀ i task, s.tasks i = some task → ∀ r ∈ task.deletes, Gone s (task.since s.durable) r

section Tasks

variable {s : State κ β} {i : ℕ} {task : Task}

omit [DecidableEq κ] [DecidableEq β] in
theorem setTask_eq_some {j : ℕ} {t : Option Task} (h : (s.setTask i t).tasks j = some task) :
    (j = i ∧ t = some task) ∨ (j ≠ i ∧ s.tasks j = some task) := by
  simp only [State.setTask, Function.update_apply] at h
  split at h
  · exact .inl ⟨‹_›, h⟩
  · exact .inr ⟨‹_›, h⟩

omit [DecidableEq β] in
theorem Gone.full {n n' : ℕ} (h : Gone s n r) (hn : s.queue.log.length ≤ n') : Gone s n' r := by
  refine ⟨h.named, fun m id hm hr => h.unreferenced (max n m) id (le_max_left _ _) ?_, h.unowned⟩
  simp only [State.RefersAt] at hr ⊢
  rw [List.take_of_length_le (by omega)] at hr ⊢
  exact hr

omit [DecidableEq β] in
theorem Gone.mono {n n' : ℕ} (h : Gone s n r) (hn : n ≤ n') : Gone s n' r :=
  ⟨h.named, fun m id hm => h.unreferenced m id (le_trans hn hm), h.unowned⟩

theorem Inv.setTask (hi : Inv s) {t : Option Task}
    (ht : ∀ ready todo, t ≠ some (.preparing ready todo))
    (hgone : ∀ task, t = some task → ∀ r ∈ task.deletes,
      Gone (s.setTask i t) (task.since s.durable) r) : Inv (s.setTask i t) := by
  have hold : ∀ {j ready todo}, (s.setTask i t).tasks j = some (.preparing ready todo) →
      s.tasks j = some (.preparing ready todo) := by
    intro j ready todo h
    rcases setTask_eq_some h with ⟨-, h⟩ | ⟨-, h⟩
    · exact absurd h (ht ready todo)
    · exact h
  refine { hi with prepared := ?_, todo := ?_, disjoint := ?_, gone := ?_ }
  · intro j ready todo h
    have := hi.prepared j ready todo (hold h)
    exact { this with }
  · exact fun j ready todo h => hi.todo j ready todo (hold h)
  · exact fun j k ready todo ready' todo' h h' =>
      hi.disjoint j k ready todo ready' todo' (hold h) (hold h')
  · intro j task h r hr
    rcases setTask_eq_some h with ⟨rfl, ht'⟩ | ⟨-, h⟩
    · exact hgone task ht' r hr
    · have hg := hi.gone j task h r hr
      exact ⟨hg.named, hg.unreferenced, fun k ready todo hk => hg.unowned k ready todo (hold hk)⟩

end Tasks

section Commit

/-- The objects of new jobs that no task holds, to write their records or to delete
them. -/
structure Loose (s : State κ β) (jobs : List PreparedJob) : Prop extends Prepared s jobs where
  unowned : ∀ r ∈ payloadRefs jobs, ∀ i ready todo,
    s.tasks i = some (.preparing ready todo) → r ∉ payloadRefs ready
  kept : ∀ r ∈ payloadRefs jobs, ∀ i task, s.tasks i = some task → r ∉ task.deletes

variable {s : State κ β} {q : Queue.State κ β} {c : CallCommit κ β}
  {as : List (JobAction κ β)} {call : Call κ β} {snapshot : Store (Val κ β)}
  {delivered : List JobRecord} {r : String}

omit [DecidableEq β] in
theorem Loose.nil (s : State κ β) : Loose s [] := by
  constructor
  · constructor <;> simp
  · simp
  · simp

/-- The task of a call that commits gives up the objects it offloaded. -/
theorem Inv.loose (hi : Inv s) {i : ℕ} {ready todo : List PreparedJob}
    (h : s.tasks i = some (.preparing ready todo)) : Loose (s.setTask i none) ready := by
  have hprep := hi.prepared i ready todo h
  refine ⟨{ hprep with }, ?_, ?_⟩
  · intro r hr j ready' todo' hj
    rcases setTask_eq_some hj with ⟨-, hj⟩ | ⟨hne, hj⟩
    · cases hj
    · exact hi.disjoint i j _ _ _ _ h hj (Ne.symm hne) r hr
  · intro r hr j task hj hd
    rcases setTask_eq_some hj with ⟨-, hj⟩ | ⟨-, hj⟩
    · cases hj
    · exact (hi.gone j task hj r hd).unowned i ready todo h hr

/-- The references of a commit: those before it, and those of the written jobs. -/
theorem refersAt_commit (hi : Inv s) (hlog : q.log = s.queue.log ++ [c])
    (hp : Performs s.queue.log c as) (ht : call.Traces snapshot delivered as) {m : ℕ}
    {id : String} (h : { s with queue := q }.RefersAt m r id) :
    s.RefersAt m r id ∨
      ∃ p ∈ call.written snapshot, p.job.payloadRef = some r ∧ p.job.id = id := by
  simp only [State.RefersAt, hlog] at h ⊢
  rcases Nat.lt_or_ge s.queue.log.length m with hm | hm
  · rw [List.take_of_length_le (by simp; omega)] at h
    rw [List.take_of_length_le (by omega)]
    exact hp.refers (Queue.inv_reachable hi.queue).sound.storeInv ht h
  · rw [List.take_append_of_le_length hm] at h
    exact .inl h

theorem Inv.commit (hi : Inv s) (hq : (Queue.machine κ β).Reachable q)
    (hlog : q.log = s.queue.log ++ [c]) (hp : Performs s.queue.log c as)
    (ht : call.Traces snapshot delivered as) (hl : Loose s call.prepared) :
    Inv { s with queue := q } := by
  have hrefers : ∀ {m r id}, { s with queue := q }.RefersAt m r id → s.RefersAt m r id ∨
      ∃ p ∈ call.written snapshot, p.job.payloadRef = some r ∧ p.job.id = id :=
    fun h => refersAt_commit hi hlog hp ht h
  have hnew : ∀ {r p}, p ∈ call.written snapshot → p.job.payloadRef = some r →
      r ∈ payloadRefs call.prepared :=
    fun hp hr => mem_payloadRefs.mpr ⟨_, call.written_subset _ hp, hr⟩
  refine ⟨hq, ?_, ?_, ?_, ?_, ?_, hi.todo, hi.disjoint, ?_⟩
  · have := hi.durable_le
    simp only [hlog, List.length_append, List.length_singleton]
    omega
  · intro m r id h
    rcases hrefers h with h | ⟨p, hp, hr, -⟩
    · exact hi.named m r id h
    · exact hl.named r (hnew hp hr)
  · intro m m' r id id' h h'
    rcases hrefers h with h | ⟨p, hp, hr, rfl⟩
    · rcases hrefers h' with h' | ⟨p', hp', hr', -⟩
      · exact hi.ids m m' r id id' h h'
      · exact absurd h (hl.unused r (hnew hp' hr') m id)
    · rcases hrefers h' with h' | ⟨p', hp', hr', rfl⟩
      · exact absurd h' (hl.unused r (hnew hp hr) m' id')
      · exact id_eq_of_nodup_payloadRefs hl.nodup (call.written_subset _ hp)
          (call.written_subset _ hp') hr hr'
  · intro m r id hm h
    rcases hrefers h with h | ⟨p, hp, hr, -⟩
    · exact hi.present m r id hm h
    · exact hl.present r (hnew hp hr)
  · intro j ready todo h
    have hprep := hi.prepared j ready todo h
    refine { hprep with unused := fun r hr m id hm => ?_ }
    rcases hrefers hm with hm | ⟨p, hp, hpr, -⟩
    · exact hprep.unused r hr m id hm
    · exact hl.unowned r (hnew hp hpr) j ready todo h hr
  · intro j task h r hr
    have hg := hi.gone j task h r hr
    refine ⟨hg.named, fun m id hm hrm => ?_, hg.unowned⟩
    rcases hrefers hrm with hrm | ⟨p, hp, hpr, -⟩
    · exact hg.unreferenced m id hm hrm
    · exact hl.kept r (hnew hp hpr) j task h hr

theorem gone_discarded (hi : Inv s) (hlog : q.log = s.queue.log ++ [c])
    (hp : Performs s.queue.log c as) (ht : call.Traces snapshot delivered as)
    (hl : Loose s call.prepared) (hr : r ∈ payloadRefs (call.discarded snapshot)) (n : ℕ) :
    Gone { s with queue := q } n r := by
  have hmem : r ∈ payloadRefs call.prepared := by
    obtain ⟨p, hp, hpr⟩ := mem_payloadRefs.mp hr
    exact mem_payloadRefs.mpr ⟨p, call.discarded_subset _ hp, hpr⟩
  refine ⟨hl.named r hmem, fun m id _ hm => ?_, hl.unowned r hmem⟩
  rcases refersAt_commit hi hlog hp ht hm with hm | ⟨p, hp, hpr, -⟩
  · exact hl.unused r hmem m id hm
  · exact Call.not_mem_written hl.nodup hr (mem_payloadRefs.mpr ⟨p, hp, hpr⟩)

omit [DecidableEq β] in
theorem refersAt_of_found {m : ℕ} {key : RecordKey} {job : JobRecord}
    (hf : JobAction.Found (Log.store (s.queue.log.take m)) key job)
    (hr : job.payloadRef = some r) : s.RefersAt m r key.id := by
  obtain ⟨v, hv, rfl⟩ := Option.map_eq_some_iff.mp hf
  exact ⟨key, v, hv, hr, rfl⟩

theorem refersAt_of_removed (hi : Inv s) (hg : call.Given s.queue.log snap)
    (ht : call.Traces (Log.store (s.queue.log.take snap)) delivered as) {job : JobRecord}
    (hremoved : call.removed (Log.store (s.queue.log.take snap)) = some job)
    (hr : job.payloadRef = some r) : ∃ m, s.RefersAt m r job.id := by
  have hstore : ∀ m, StoreInv (Log.store (s.queue.log.take m)) := fun m =>
    ((Queue.inv_reachable hi.queue).sound.take m).storeInv
  have hkey : ∀ {m key job}, JobAction.Found (Log.store (s.queue.log.take m)) key job →
      key.id = job.id :=
    fun hf => JobRecord.id_of_storedKey ((hstore _).storedKey_of_found hf)
  obtain ⟨key, old, completed, -, hid, ⟨href, hf⟩ | hsweep⟩ := ht.removes job hremoved
  · have := refersAt_of_found hf (href.trans hr)
    rw [hkey hf, hid] at this
    exact ⟨snap, this⟩
  · subst hsweep
    obtain ⟨-, n, -, hf⟩ := hg
    have := refersAt_of_found hf hr
    rw [hkey hf] at this
    exact ⟨n, this⟩

/-- No record refers to the object of the job that the call removed, from its commit
on. -/
theorem gone_removed (hi : Inv s) (hg : call.Given s.queue.log snap)
    (hlog : q.log = s.queue.log ++ [c]) (hp : Performs s.queue.log c as)
    (ht : call.Traces (Log.store (s.queue.log.take snap)) delivered as) (hl : Loose s call.prepared)
    (hr : r ∈ call.removedRef (Log.store (s.queue.log.take snap))) :
    Gone { s with queue := q } q.log.length r := by
  obtain ⟨job, hremoved, href⟩ := Option.bind_eq_some_iff.mp hr
  obtain ⟨m, hm⟩ := refersAt_of_removed hi hg ht hremoved href
  refine ⟨hi.named m r _ hm, fun n id hn h => ?_, fun j ready todo hj hmem =>
    (hi.prepared j ready todo hj).unused r hmem m _ hm⟩
  have honly : ∀ i, Refers (Log.store s.queue.log) r i → i = job.id := by
    intro i h
    refine hi.ids s.queue.log.length m r i job.id ?_ hm
    rw [State.RefersAt, List.take_length]
    exact h
  have hnew : r ∉ payloadRefs (call.written (Log.store (s.queue.log.take snap))) := by
    intro hw
    obtain ⟨p, hp, hpr⟩ := mem_payloadRefs.mp hw
    exact hl.unused r (mem_payloadRefs.mpr ⟨p, call.written_subset _ hp, hpr⟩) m _ hm
  rw [State.RefersAt, List.take_of_length_le hn] at h
  change Refers (Log.store q.log) r id at h
  rw [hlog] at h
  exact hp.not_refers_of_removed (Queue.inv_reachable hi.queue).sound.storeInv ht hremoved honly
    hnew h

end Commit

section Step

variable {threshold : Option ℕ} {s s' : State κ β}

/-- No call that offloaded payloads sees an error after its commit was applied. -/
def FaultFree (s : State κ β) : Label κ β → Prop
  | .fail i => ∀ discard finish awaited, s.tasks i = some (.applied discard finish awaited) →
    discard = []
  | _ => True

theorem inv_reopen (hi : Inv s) {q : Queue.State κ β} {kept : ℕ} {todo : List JobRecord}
    (hkept : s.durable ≤ kept) (hq : Queue.step s.queue (.reopen kept todo) = some q) :
    Inv { s with queue := q, tasks := fun _ => none } := by
  have hreach : (Queue.machine κ β).Reachable q := hi.queue.next (a := .reopen kept todo) hq
  have hlog := Queue.log_of_reopen hq
  have hrefers : ∀ {m r id}, { s with queue := q, tasks := fun _ => none }.RefersAt m r id →
      s.RefersAt (min m kept) r id := by
    intro m r id h
    simpa only [State.RefersAt, hlog, List.take_take] using h
  have hdurable := hi.durable_le
  refine ⟨hreach, ?_, fun m r id h => hi.named _ r id (hrefers h),
    fun m m' r id id' h h' => hi.ids _ _ r id id' (hrefers h) (hrefers h'),
    fun m r id hm h => hi.present _ r id (le_min hm hkept) (hrefers h), ?_, ?_, ?_, ?_⟩
  · simp only [hlog, List.length_take]
    omega
  all_goals
    intro i
    simp

theorem inv_preparing (hi : Inv s) {i : ℕ} {ready todo : List PreparedJob}
    (hprep : Prepared s ready) (htodo : ∀ p ∈ todo, p.job.payloadRef = none)
    (hdisjoint : ∀ j ready' todo', j ≠ i → s.tasks j = some (.preparing ready' todo') →
      ∀ r ∈ payloadRefs ready, r ∉ payloadRefs ready')
    (hkept : ∀ j task, j ≠ i → s.tasks j = some task → ∀ r ∈ task.deletes,
      r ∉ payloadRefs ready) :
    Inv (s.setTask i (some (.preparing ready todo))) := by
  refine { hi with prepared := ?_, todo := ?_, disjoint := ?_, gone := ?_ }
  · intro j ready' todo' h
    rcases setTask_eq_some h with ⟨-, h⟩ | ⟨-, h⟩
    · cases h
      exact { hprep with }
    · have := hi.prepared j ready' todo' h
      exact { this with }
  · intro j ready' todo' h
    rcases setTask_eq_some h with ⟨-, h⟩ | ⟨-, h⟩
    · cases h
      exact htodo
    · exact hi.todo j ready' todo' h
  · intro j k ready₁ todo₁ ready₂ todo₂ h h' hne r hr hr'
    rcases setTask_eq_some h with ⟨hj, h⟩ | ⟨hj, h⟩ <;>
      rcases setTask_eq_some h' with ⟨hk, h'⟩ | ⟨hk, h'⟩
    · exact hne (hj.trans hk.symm)
    · cases h
      exact hdisjoint k ready₂ todo₂ hk h' r hr hr'
    · cases h'
      exact hdisjoint j ready₁ todo₁ hj h r hr' hr
    · exact hi.disjoint j k _ _ _ _ h h' hne r hr hr'
  · intro j task h r hr
    rcases setTask_eq_some h with ⟨-, h⟩ | ⟨hj, h⟩
    · cases h
      cases hr
    · have hg := hi.gone j task h r hr
      refine ⟨hg.named, hg.unreferenced, fun k ready' todo' hk => ?_⟩
      rcases setTask_eq_some hk with ⟨-, hk⟩ | ⟨-, hk⟩
      · cases hk
        exact hkept j task hj h r hr
      · exact hg.unowned k ready' todo' hk

section Preparing

variable {i : ℕ} {name : String} {ready todo : List PreparedJob} {p : PreparedJob}

theorem inv_offload (hi : Inv s) (htask : s.tasks i = some (.preparing ready (p :: todo)))
    (hname : name ∉ s.named) :
    Inv ({ s with
      objects := Function.update s.objects name (some p.job.payload)
      named := name :: s.named }.setTask i
        (some (.preparing (ready ++ [offloaded p name]) todo))) := by
  have hprep := hi.prepared i ready _ htask
  have htodo := hi.todo i ready _ htask
  have hrefs : payloadRefs (ready ++ [offloaded p name]) = payloadRefs ready ++ [name] := by
    simp [payloadRefs, offloaded]
  have hi₀ : Inv { s with
      objects := Function.update s.objects name (some p.job.payload)
      named := name :: s.named } := by
    have hobj : ∀ r, s.objects r ≠ none →
        Function.update s.objects name (some p.job.payload) r ≠ none := by
      intro r hr
      rw [Function.update_apply]
      split
      · simp
      · exact hr
    refine ⟨hi.queue, hi.durable_le, fun m r id h => .tail _ (hi.named m r id h), hi.ids,
      fun m r id hm h => hobj r (hi.present m r id hm h), ?_, hi.todo, hi.disjoint, ?_⟩
    · intro j ready' todo' hj
      have := hi.prepared j ready' todo' hj
      exact ⟨this.nodup, fun r hr => .tail _ (this.named r hr),
        fun r hr => hobj r (this.present r hr), this.unused⟩
    · intro j task hj r hr
      have := hi.gone j task hj r hr
      exact ⟨.tail _ this.named, this.unreferenced, this.unowned⟩
  have hprep₀ := hi₀.prepared i ready _ htask
  refine inv_preparing hi₀ ⟨?_, ?_, ?_, ?_⟩ (fun q hq => htodo q (.tail _ hq)) ?_ ?_
  · rw [hrefs, ← List.concat_eq_append]
    exact hprep.nodup.concat fun hm => hname (hprep.named name hm)
  all_goals rw [hrefs]
  · intro r hr
    rcases List.mem_append.mp hr with hr | hr
    · exact hprep₀.named r hr
    · exact List.mem_singleton.mp hr ▸ .head _
  · intro r hr
    rcases List.mem_append.mp hr with hr | hr
    · exact hprep₀.present r hr
    · simp [List.mem_singleton.mp hr]
  · intro r hr m id hm
    rcases List.mem_append.mp hr with hr | hr
    · exact hprep₀.unused r hr m id hm
    · exact hname (List.mem_singleton.mp hr ▸ hi.named m r id hm)
  · intro j ready' todo' hj hjt r hr hr'
    rcases List.mem_append.mp hr with hr | hr
    · exact hi.disjoint i j _ _ _ _ htask hjt (Ne.symm hj) r hr hr'
    · exact hname (List.mem_singleton.mp hr ▸ (hi.prepared j _ _ hjt).named r hr')
  · intro j task hj hjt r hr hr'
    rcases List.mem_append.mp hr' with hr' | hr'
    · exact (hi.gone j task hjt r hr).unowned i _ _ htask hr'
    · exact hname (List.mem_singleton.mp hr' ▸ (hi.gone j task hjt r hr).named)

theorem inv_inline (hi : Inv s) (htask : s.tasks i = some (.preparing ready (p :: todo))) :
    Inv (s.setTask i (some (.preparing (ready ++ [p]) todo))) := by
  have hprep := hi.prepared i ready _ htask
  have htodo := hi.todo i ready _ htask
  have hnone := htodo p (.head _)
  have hrefs : payloadRefs (ready ++ [p]) = payloadRefs ready := by
    simp [payloadRefs, hnone]
  refine inv_preparing hi ⟨?_, ?_, ?_, ?_⟩ (fun q hq => htodo q (.tail _ hq)) ?_ ?_
  all_goals rw [hrefs]
  · exact hprep.nodup
  · exact hprep.named
  · exact hprep.present
  · exact hprep.unused
  · exact fun j ready' todo' hj hjt => hi.disjoint i j _ _ _ _ htask hjt (Ne.symm hj)
  · exact fun j task hj hjt r hr => (hi.gone j task hjt r hr).unowned i _ _ htask

end Preparing

omit [DecidableEq κ] [DecidableEq β] in
theorem setTask_queue (q : Queue.State κ β) (i : ℕ) (t t' : Option Task) :
    ({ s.setTask i t with queue := q } : State κ β).setTask i t' =
      { s with queue := q }.setTask i t' := by
  simp [State.setTask]

theorem Inv.deletes (hi : Inv s) {i : ℕ} {task : Task}
    (htask : ∀ ready todo, task ≠ .preparing ready todo)
    (hgone : ∀ r ∈ task.deletes, r ∈ s.named ∧
      (∀ m id, task.since s.durable ≤ m → ¬ s.RefersAt m r id) ∧
      ∀ j ready todo, j ≠ i → s.tasks j = some (.preparing ready todo) → r ∉ payloadRefs ready) :
    Inv (s.setTask i (some task)) := by
  refine hi.setTask (fun ready todo h => htask ready todo (Option.some.inj h)) ?_
  rintro task' ⟨⟩ r hr
  obtain ⟨hnamed, hunref, hun⟩ := hgone r hr
  refine ⟨hnamed, hunref, fun j ready todo hj => ?_⟩
  rcases setTask_eq_some hj with ⟨-, hj⟩ | ⟨hne, hj⟩
  · exact absurd (Option.some.inj hj) (htask ready todo)
  · exact hun j ready todo hne hj

omit [DecidableEq β] in
theorem Gone.spec {n : ℕ} (h : Gone s n r) (i : ℕ) : r ∈ s.named ∧
    (∀ m id, n ≤ m → ¬ s.RefersAt m r id) ∧
    ∀ j ready todo, j ≠ i → s.tasks j = some (.preparing ready todo) → r ∉ payloadRefs ready :=
  ⟨h.named, h.unreferenced, fun j ready todo _ => h.unowned j ready todo⟩

theorem inv_abandon (hi : Inv s) (i : ℕ) : Inv (s.setTask i none) :=
  hi.setTask (by simp) (by simp)

theorem inv_commit (hi : Inv s) {i : ℕ} {q : Queue.State κ β}
    (htask : s.tasks i = some (.preparing call.prepared []))
    (hhandling : call.handling = .awaited ∨ call.handling = .deferred)
    (hq : Queue.step s.queue (.commit call snap) = some q) :
    Inv ({ s with queue := q }.setTask i (some (.applied (payloadRefs call.prepared)
      (call.finish (Log.store (s.queue.log.take snap)))
      (if call.handling = Handling.awaited then some q.log.length else none)))) := by
  obtain ⟨hg, hreach, c, as, hlog, -, -, hp, ht⟩ := Queue.commit_traces hi.queue hq
  have hi₀ := inv_abandon hi i
  have hl := hi.loose htask
  have hi₁ := hi₀.commit hreach hlog hp ht hl
  rw [← setTask_queue q i none]
  refine hi₁.deletes (by simp) fun r hr => ?_
  rcases List.mem_append.mp hr with hr | hr
  · exact (gone_discarded hi₀ hlog hp ht hl hr _).spec i
  · have hgone := gone_removed hi₀ hg hlog hp ht hl (Option.mem_toList.mp hr)
    rcases hhandling with hh | hh
    · simp only [hh, if_true]
      exact hgone.spec i
    · rw [Call.removedRef_eq_none hh] at hr
      cases hr

omit [DecidableEq β] in
theorem Loose.of_batched (s : State κ β) (h : call.handling = .batched) :
    Loose s call.prepared := by
  rw [Call.prepared_eq_nil (by simp [h]) (by simp [h])]
  exact .nil s

theorem inv_delete (hi : Inv s) {i : ℕ} {refs : List String}
    (htask : s.tasks i = some (.deleting (r :: refs))) :
    Inv ({ s with objects := Function.update s.objects r none }.setTask i
      (some (.deleting refs))) := by
  have hgone := hi.gone i _ htask
  have hr := hgone r (.head _)
  have hobj : ∀ r', r' ≠ r → s.objects r' ≠ none →
      Function.update s.objects r none r' ≠ none := by
    intro r' hne hr'
    rwa [Function.update_of_ne hne]
  have hi₀ : Inv { s with objects := Function.update s.objects r none } := by
    refine { hi with present := ?_, prepared := ?_, gone := ?_ }
    · intro m r' id hm h
      refine hobj r' ?_ (hi.present m r' id hm h)
      rintro rfl
      exact hr.unreferenced m id hm h
    · intro j ready todo hj
      have hprep := hi.prepared j ready todo hj
      refine { hprep with present := fun r' hr' => hobj r' ?_ (hprep.present r' hr') }
      rintro rfl
      exact hr.unowned j ready todo hj hr'
    · intro j task hj r' hr'
      have hg := hi.gone j task hj r' hr'
      exact { hg with }
  exact hi₀.deletes (by simp) fun r' hr' => (hi₀.gone i _ htask r' (.tail _ hr')).spec i

theorem inv_durable (hi : Inv s) {count : ℕ} (hle : s.durable ≤ count)
    (hlen : count ≤ s.queue.log.length) : Inv { s with durable := count } := by
  refine ⟨hi.queue, hlen, hi.named, hi.ids,
    fun m r id hm => hi.present m r id (le_trans hle hm), ?_, hi.todo, hi.disjoint, ?_⟩
  · intro j ready todo hj
    have hprep := hi.prepared j ready todo hj
    exact { hprep with }
  · intro j task hj r hr
    have hsince : task.since s.durable ≤ task.since count := by
      cases task with
      | applied discard finish awaited => cases awaited <;> simp [Task.since, hle]
      | preparing | batch | deleting => simp [Task.since, hle]
    have hg := (hi.gone j task hj r hr).mono hsince
    exact { hg with }

theorem inv_step (hi : Inv s) {l : Label κ β} (hf : FaultFree s l)
    (h : step threshold s l = some s') : Inv s' := by
  cases step_cases h with
  | other hnever hq =>
    obtain ⟨-, hreach, c, as, hlog, -, -, hp, ht⟩ := Queue.commit_traces hi.queue hq
    refine hi.commit hreach hlog hp ht ?_
    rw [Call.prepared_eq_nil (by simp [hnever]) (by simp [hnever])]
    exact .nil s
  | requeue hq =>
    obtain ⟨hreach, job, snap, c, as, hlog, -, hp, ht⟩ := Queue.requeue_traces hi.queue hq
    exact hi.commit hreach hlog hp ht (.nil s)
  | reopen hkept hq => exact inv_reopen hi hkept hq
  | start _ hjobs => exact inv_preparing hi (Loose.nil s).toPrepared hjobs (by simp) (by simp)
  | offload htask _ hname => exact inv_offload hi htask hname
  | inline htask => exact inv_inline hi htask
  | @giveUp i ready todo htask =>
    have hprep := hi.prepared i ready todo htask
    refine hi.deletes (by simp) fun r hr => ⟨hprep.named r hr, fun m id _ => hprep.unused r hr m id,
      fun j ready' todo' hj hjt => ?_⟩
    exact hi.disjoint i j _ _ _ _ htask hjt (Ne.symm hj) r hr
  | commit htask hhandling hq => exact inv_commit hi htask hhandling hq
  | @acknowledge i _ _ awaited htask hdurable =>
    refine hi.deletes (by simp) fun r hr => ?_
    have hg := hi.gone i _ htask r hr
    cases awaited with
    | none => exact hg.spec i
    | some count => exact (hg.mono (hdurable count rfl)).spec i
  | fail htask =>
    refine hi.deletes (by simp) fun r hr => ?_
    rw [hf _ _ _ htask] at hr
    cases hr
  | @remove i _ _ _ hbatched _ hq =>
    have hl := Loose.of_batched s hbatched
    obtain ⟨hg, hreach, c, as, hlog, -, -, hp, ht⟩ := Queue.commit_traces hi.queue hq
    refine (hi.commit hreach hlog hp ht hl).deletes (by simp) fun r hr => ?_
    exact (gone_removed hi hg hlog hp ht hl (Option.mem_toList.mp hr)).spec i
  | @removeNext i _ _ _ _ _ hbatched htask hq =>
    have hl := Loose.of_batched s hbatched
    obtain ⟨hg, hreach, c, as, hlog, -, -, hp, ht⟩ := Queue.commit_traces hi.queue hq
    have hi₁ := hi.commit hreach hlog hp ht hl
    refine hi₁.deletes (by simp) fun r hr => ?_
    rcases List.mem_append.mp hr with hr | hr
    · exact ((hi₁.gone i _ htask r hr).full le_rfl).spec i
    · exact (gone_removed hi hg hlog hp ht hl (Option.mem_toList.mp hr)).spec i
  | @flush i _ _ htask hdurable =>
    exact hi.deletes (by simp) fun r hr => ((hi.gone i _ htask r hr).mono hdurable).spec i
  | delete htask => exact inv_delete hi htask
  | @deleteFailed i _ _ htask =>
    exact hi.deletes (by simp) fun r' hr' => (hi.gone i _ htask r' (.tail _ hr')).spec i
  | abandon i => exact inv_abandon hi i
  | durable hle hlen => exact inv_durable hi hle hlen

theorem inv_reachable (h : (machine κ β threshold).ReachableVia FaultFree s) : Inv s := by
  refine h.invariant ?_ fun s l s' hi hf hstep => inv_step hi hf hstep
  rintro _ rfl
  refine ⟨.initial rfl, le_rfl, ?_, ?_, ?_, ?_, ?_, ?_, ?_⟩
  all_goals simp [State.RefersAt, Refers]

/-- Only the delete of a listed object removes one. -/
theorem delete_of_objects {l : Label κ β} (h : step threshold s l = some s')
    (hr : s.objects r ≠ none) (hr' : s'.objects r = none) :
    ∃ i refs, l = .delete i ∧ s.tasks i = some (.deleting (r :: refs)) := by
  cases step_cases h with
  | @delete i r' refs htask =>
    by_cases hne : r = r'
    · subst hne
      exact ⟨i, refs, rfl, htask⟩
    · refine absurd ?_ hr
      simpa only [State.setTask, Function.update_of_ne hne] using hr'
  | offload =>
    simp only [State.setTask, Function.update_apply] at hr'
    split at hr'
    · cases hr'
    · exact absurd hr' hr
  | _ => exact absurd hr' hr

/-- In every state of a run in which no call with offloaded payloads sees an error after
its commit was applied, each record of each store that can survive has its object, and a
step deletes an object only if no such record refers to it. -/
theorem payload_present_of_faultFree (h : (machine κ β threshold).ReachableVia FaultFree s) :
    (∀ n key job r, s.durable ≤ n → JobAction.Found (Log.store (s.queue.log.take n)) key job →
      job.payloadRef = some r → s.objects r ≠ none) ∧
    ∀ l s' r, step threshold s l = some s' → s.objects r ≠ none → s'.objects r = none →
      ∀ n key job, s.durable ≤ n → JobAction.Found (Log.store (s.queue.log.take n)) key job →
        job.payloadRef ≠ some r := by
  have hi := inv_reachable h
  constructor
  · intro n key job r hn hf hr
    exact hi.present n r key.id hn (refersAt_of_found hf hr)
  · rintro l s' r hstep hr hr' n key job hn hf hjr
    obtain ⟨i, refs, -, htask⟩ := delete_of_objects hstep hr hr'
    exact (hi.gone i _ htask r (.head _)).unreferenced n key.id hn (refersAt_of_found hf hjr)

end Step

section Runs

/-- The job of `emails` is enqueued with its payload in an object. -/
def enqueueOffloaded : List (Label ℕ ℕ) :=
  [.start 0 [Queue.welcome], .offload 0 "payloads/1",
    .commit 0 (.enqueue (fun _ _ => none) (offloaded Queue.welcome "payloads/1") {}) 0]

def Held (s : State ℕ ℕ) : Prop :=
  (s.queue.log.store (.record (.pending Queue.emails ⟨0, 5, "a"⟩))).bind (·.payloadRef) =
    some "payloads/1"

instance (s : State ℕ ℕ) : Decidable (Held s) := inferInstanceAs (Decidable (_ = _))

/-- The commit is durable, its wait returns an error, and the call deletes the object of
the record. -/
theorem live_payload_deleted :
    ∃ s key job, (machine ℕ ℕ (some 0)).run {}
        (enqueueOffloaded ++ [.durable 1, .fail 0, .delete 0]) = some s ∧
      JobAction.Found s.queue.log.store key job ∧ job.payloadRef = some "payloads/1" ∧
      s.objects "payloads/1" = none := by
  obtain ⟨s, hs, hheld, hobj⟩ : ∃ s, (machine ℕ ℕ (some 0)).run {}
      (enqueueOffloaded ++ [.durable 1, .fail 0, .delete 0]) = some s ∧ Held s ∧
      s.objects "payloads/1" = none :=
    Machine.exists_of_run_any (by decide +kernel)
  obtain ⟨stored, hst, href⟩ := Option.bind_eq_some_iff.mp hheld
  exact ⟨s, _, _, hs, Option.map_eq_some_iff.mpr ⟨stored, hst, rfl⟩, href, hobj⟩

theorem payload_present_of_faultFree_enqueue :
    ∃ s, (machine ℕ ℕ (some 0)).run {} (enqueueOffloaded ++ [.durable 1, .acknowledge 0]) = some s ∧
      Held s ∧ s.objects "payloads/1" ≠ none := by
  obtain ⟨s, hs, hheld, hdurable⟩ : ∃ s, (machine ℕ ℕ (some 0)).run {}
      (enqueueOffloaded ++ [.durable 1, .acknowledge 0]) = some s ∧ Held s ∧
      s.durable = s.queue.log.length :=
    Machine.exists_of_run_any (by decide +kernel)
  have hreach : (machine ℕ ℕ (some 0)).ReachableVia FaultFree s := by
    refine Machine.ReachableVia.run (.init rfl) hs fun l hl t => ?_
    simp only [enqueueOffloaded, List.cons_append, List.nil_append, List.mem_cons,
      List.not_mem_nil, or_false] at hl
    rcases hl with rfl | rfl | rfl | rfl | rfl <;> trivial
  obtain ⟨stored, hst, href⟩ := Option.bind_eq_some_iff.mp hheld
  have hfound : JobAction.Found (Log.store (s.queue.log.take s.queue.log.length))
      (.pending Queue.emails ⟨0, 5, "a"⟩)
      (JobRecord.decode (.pending Queue.emails ⟨0, 5, "a"⟩) stored) := by
    rw [List.take_length]
    exact Option.map_eq_some_iff.mpr ⟨stored, hst, rfl⟩
  exact ⟨s, hs, hheld,
    (payload_present_of_faultFree hreach).1 _ _ _ "payloads/1" hdurable.le hfound href⟩

end Runs

end Payload

end Taquba
