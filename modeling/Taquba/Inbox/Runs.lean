import Taquba.Inbox.Invariant

/-! # Inbox entries apply once

Each step of a pass, of the queue, of a sender and of the sweep keeps what the pass and
the sweep know. A commit that applies an entry finds no record of it, so the records a
sweep found are still there when it deletes them, and a record has the expiry entry of
its time.
-/

namespace Taquba.Inbox

open Snapshot Transition

variable {κ β : Type} {settings : Settings κ β} [DecidableEq κ]
variable {c : CallCommit κ β} {q : Queue.State κ β}
  {entries : List (ℕ × QueueName × String)} {location : Location} {snap : ℕ}

section Steps

variable [DecidableEq β] {s s' : State κ β}

theorem Inv.paired (hi : Inv settings s) (n : ℕ) :
    InboxPaired (Log.store (s.queue.log.take n)) := by
  refine (hi.lawful.take n).invariant (I := InboxPaired) (fun _ _ _ => by simp) ?_
  intro log c hl hp
  rw [← Log.store_append_singleton]
  exact hp.commit hl

theorem inv_pass {pass : Option Phase} (hi : Inv settings s)
    (h : ∀ phase ∈ pass, PassInv settings s phase) : Inv settings { s with pass } where
  __ := hi
  pass phase hp := (h phase hp).follows (.of_log (List.prefix_refl _) le_rfl rfl rfl) hi.flushed
    fun _ _ hn => hn

/-- A new commit is lawful when the entry it applies has no record, and the entries it
sweeps have theirs. -/
theorem inboxLawful_commit (hreach : (Queue.machine κ β).Reachable q)
    (hlog : q.log = s.queue.log ++ [c]) (happ : ∀ a, c.label.call.application = some a →
      s.store (.inboxRecord a.queue a.id) = none)
    (hsweep : ∀ entries, c.label.call = .sweepInboxRecords entries → ∀ e ∈ entries,
      ∃ record, s.store (.inboxRecord e.2.1 e.2.2) = some record ∧ record.appliedAtMs = e.1) :
    InboxLawful s.queue.log c := by
  have hat : Queue.Attempted (q.log.take s.queue.log.length) c := by
    refine (Queue.attempted_reachable hreach).get ?_
    simp [hlog]
  exact ⟨hat.inboxWrites, happ, hsweep⟩

omit [DecidableEq β] in
theorem SweepInv.commit (h : SweepInv s entries) (hl : InboxLawful s.queue.log c)
    (hlog : s'.queue.log = s.queue.log ++ [c])
    (hs : ∀ swept, c.label.call = .sweepInboxRecords swept → ∀ e ∈ swept, ∀ e' ∈ entries,
      e.2 ≠ e'.2) : SweepInv s' entries := by
  refine ⟨h.1, fun e he => ?_⟩
  obtain ⟨record, hr, hat⟩ := h.2 e he
  refine ⟨record, ?_, hat⟩
  rw [State.store, hlog]
  exact hl.keeps_record hr fun swept hc e' he' => hs swept hc e' he' e he

theorem inv_other {sweep : Option (List (ℕ × QueueName × String))} (hi : Inv settings s)
    (hreach : (Queue.machine κ β).Reachable q) (hlog : q.log = s.queue.log ++ [c])
    (hl : InboxLawful s.queue.log c) (happ : c.label.call.application = none)
    (hsweep : ∀ entries ∈ sweep, SweepInv { s with queue := q } entries) :
    Inv settings { s with queue := q, sweep } where
  queue := hreach
  lawful := by
    rw [show ({ s with queue := q, sweep } : State κ β).queue.log = _ from hlog]
    exact hi.lawful.append hl
  flushed := by
    have hlen := hi.flushed
    simp only [hlog, List.length_append]
    omega
  sent := hi.sent
  pass phase hp := by
    have hf : Follows settings s { s with queue := q, sweep } :=
      .of_log (by rw [hlog]; exact List.prefix_append _ _) le_rfl rfl rfl
    refine (hi.pass phase hp).follows hf hi.flushed fun queue id hn => ?_
    rw [State.store, hlog]
    exact hl.writes.keeps_none hn fun a ha => by simp [happ] at ha
  sweep := hsweep

/-- The commit of an application settles its entry. -/
theorem inv_applied {b : Batch} {slot : Slot} {rest : List Slot} {appliedAt : ℕ}
    {effect : InboxEffect} {reported : Bool} (hi : Inv settings s) (hb : BatchInv settings s b)
    (hslots : b.slots = slot :: rest)
    (hnone : s.store (.inboxRecord slot.entry.queue slot.entry.id) = none)
    (hstep : Queue.step s.queue (.commit
      (Application.call ⟨slot.entry.queue, slot.entry.id, appliedAt, effect⟩) snap) = some q) :
    Inv settings { s with queue := q, pass := b.afterCommit slot rest reported } := by
  obtain ⟨-, hreach, c, -, hlog, hcall, -⟩ := Queue.commit_traces hi.queue hstep
  have happ : c.label.call.application =
      some ⟨slot.entry.queue, slot.entry.id, appliedAt, effect⟩ := by
    rw [hcall]
    exact Application.application_call _
  have hnosweep : ∀ entries, c.label.call ≠ .sweepInboxRecords entries := by
    intro entries hs
    rw [hs] at happ
    cases happ
  have hl : InboxLawful s.queue.log c := by
    refine inboxLawful_commit hreach hlog (fun a ha => ?_) fun entries hs => ?_
    · rw [happ] at ha
      cases ha
      exact hnone
    · exact absurd hs (hnosweep entries)
  have hf : Follows settings s { s with queue := q, pass := b.afterCommit slot rest reported } :=
    .of_log (by rw [hlog]; exact List.prefix_append _ _) le_rfl rfl rfl
  have hb' := hb.follows hf
  refine ⟨hreach, ?_, ?_, hi.sent, ?_, fun entries he => ?_⟩
  · rw [show ({ s with queue := q } : State κ β).queue.log = _ from hlog]
    exact hi.lawful.append hl
  · have hlen := hi.flushed
    simp only [hlog, List.length_append]
    omega
  · intro phase hp
    change phase ∈ b.afterCommit slot rest reported at hp
    unfold Batch.afterCommit at hp
    split at hp
    · refine passInv_settleHead hb' hslots (settled_of_record ?_ ?_) phase hp
      · exact (hb'.slots slot (hslots ▸ .head _)).listed
      · rw [State.store, hlog]
        exact hl.writes.recorded happ s.queue.log
    · exact passInv_failHead hb' phase hp
  · exact (hi.sweep entries he).commit hl hlog fun swept hs => absurd hs (hnosweep swept)

theorem inv_send {body : List UInt8} (hi : Inv settings s)
    (hfresh : ¬ (location ∈ s.sent ∧ (location.stem.bind settings.ulid).isSome)) :
    Inv settings { s with
      objects := Function.update s.objects location (some body)
      sent := location :: s.sent } := by
  have hne : ∀ l, Gone settings s l → l ≠ location := by
    rintro l hg rfl
    exact hfresh ⟨hg.sent, hg.ordered⟩
  have hf : Follows settings s { s with
      objects := Function.update s.objects location (some body)
      sent := location :: s.sent } :=
    { log := List.prefix_refl _
      flushed := le_rfl
      sent := List.subset_cons_self _ _
      gone := fun l hg => ⟨.tail _ hg.sent, hg.ordered, by
        simpa [Function.update_of_ne (hne l hg)] using hg.missing⟩ }
  refine { hi with sent := fun l hl => ?_, pass := fun phase hp => ?_ }
  · by_cases he : l = location
    · exact he ▸ .head _
    · exact .tail _ (hi.sent l (by simpa [Function.update_of_ne he] using hl))
  · exact (hi.pass phase hp).follows hf hi.flushed fun _ _ hn => hn

omit [DecidableEq κ] [DecidableEq β] in
theorem gone_update (location : Location) {l : Location} (h : Gone settings s l) :
    Gone settings { s with objects := Function.update s.objects location none } l := by
  refine ⟨h.sent, h.ordered, ?_⟩
  by_cases he : l = location
  · simp [he]
  · simpa [Function.update_of_ne he] using h.missing

theorem sent_update (hi : Inv settings s) {l : Location}
    (h : Function.update s.objects location none l ≠ none) : l ∈ s.sent := by
  by_cases he : l = location
  · simp [he] at h
  · rw [Function.update_of_ne he] at h
    exact hi.sent l h

omit [DecidableEq κ] [DecidableEq β] in
theorem Follows.remove (location : Location) :
    Follows settings s { s with objects := Function.update s.objects location none } where
  log := List.prefix_refl _
  flushed := le_rfl
  sent := List.Subset.refl _
  gone _ := gone_update location

theorem inv_remove (location : Location) (hi : Inv settings s) :
    Inv settings { s with objects := Function.update s.objects location none } := by
  refine { hi with sent := fun l => sent_update hi, pass := fun phase hp => ?_ }
  exact (hi.pass phase hp).follows (.remove location) hi.flushed fun _ _ hn => hn

theorem inv_withSweep {sweep : Option (List (ℕ × QueueName × String))} (hi : Inv settings s)
    (h : ∀ entries ∈ sweep, SweepInv s entries) : Inv settings { s with sweep } where
  __ := hi
  pass phase hp := (hi.pass phase hp).follows (.of_log (List.prefix_refl _) le_rfl rfl rfl)
    hi.flushed fun _ _ hn => hn
  sweep := h

omit [DecidableEq β] in
theorem SweepInv.eq_of_snd (h : SweepInv s entries) {e e' : ℕ × QueueName × String}
    (he : e ∈ entries) (he' : e' ∈ entries) (heq : e.2 = e'.2) : e = e' := by
  obtain ⟨record, hr, hat⟩ := h.2 e he
  obtain ⟨record', hr', hat'⟩ := h.2 e' he'
  rw [heq, hr'] at hr
  cases hr
  exact Prod.ext (hat.symm.trans hat') heq

omit [DecidableEq β] in
theorem SweepInv.drop (h : SweepInv s entries) (n : ℕ) : SweepInv s (entries.drop n) :=
  ⟨h.1.sublist (List.drop_sublist n entries), fun e he => h.2 e (List.mem_of_mem_drop he)⟩

theorem inv_sweep (hi : Inv settings s) (hsweep : s.sweep = some entries)
    (hstep : Queue.step s.queue
      (.commit (.sweepInboxRecords (entries.take inboxSweepBatch)) snap) = some q) :
    Inv settings { s with queue := q, sweep := some (entries.drop inboxSweepBatch) } := by
  have hinv := hi.sweep _ hsweep
  obtain ⟨-, hreach, c, -, hlog, hcall, -⟩ := Queue.commit_traces hi.queue hstep
  have happ : c.label.call.application = none := by
    rw [hcall]
    rfl
  have hl : InboxLawful s.queue.log c := by
    refine inboxLawful_commit hreach hlog (fun a ha => ?_) fun swept hs e' he' => ?_
    · rw [happ] at ha
      cases ha
    · rw [hcall] at hs
      cases hs
      exact hinv.2 e' (List.mem_of_mem_take he')
  refine inv_other hi hreach hlog hl happ ?_
  rintro _ ⟨⟩
  refine (hinv.drop inboxSweepBatch).commit hl hlog fun swept hs e₁ h₁ e₂ h₂ heq => ?_
  rw [hcall] at hs
  cases hs
  have he := hinv.eq_of_snd (List.mem_of_mem_take h₁) (List.mem_of_mem_drop h₂) heq
  subst he
  exact List.disjoint_take_drop hinv.1 le_rfl h₁ h₂

theorem inv_not_isInbox (hi : Inv settings s) (hreach : (Queue.machine κ β).Reachable q)
    (hlog : q.log = s.queue.log ++ [c]) (hc : c.label.call.isInbox = false) :
    Inv settings { s with queue := q } := by
  have happ : c.label.call.application = none := by
    cases ha : c.label.call.application with
    | none => rfl
    | some a =>
      rw [Call.eq_of_application ha] at hc
      obtain ⟨queue, id, appliedAt, effect⟩ := a
      cases effect <;> cases hc
  have hnosweep : ∀ entries, c.label.call ≠ .sweepInboxRecords entries := by
    intro entries hs
    rw [hs] at hc
    cases hc
  have hl : InboxLawful s.queue.log c := by
    refine inboxLawful_commit hreach hlog (fun a ha => ?_) fun entries hs => ?_
    · rw [happ] at ha
      cases ha
    · exact absurd hs (hnosweep entries)
  exact inv_other hi hreach hlog hl happ fun entries he =>
    (hi.sweep entries he).commit hl hlog fun swept hs => absurd hs (hnosweep swept)

theorem inv_settleStep {b : Batch} {label : Label κ β} (hi : Inv settings s)
    (hb : BatchInv settings s b) (hh : HeadInv settings s b)
    (h : SettleStep settings s b label s') : Inv settings s' := by
  cases h with
  | check hslot =>
    refine inv_pass hi ?_
    rintro _ ⟨⟩
    refine passInv_setFetch hb hh hslot (fun hc => ?_) fun hm => ?_
    · split_ifs at hc with hdone
      simpa using fun hr => hdone (.inl hr)
    · split_ifs at hm
      cases hm
  | read hslot hreads hfetch =>
    refine inv_pass hi ?_
    rintro _ ⟨⟩
    refine passInv_setFetch hb hh hslot (by simp) fun hm => ?_
    have hinv := hb.slots _ (List.mem_of_getElem? hslot)
    obtain ⟨body, hp⟩ := hinv.listed.parsed
    simp only [Fetch.done.injEq, Option.some.injEq] at hm
    exact ⟨hinv.listed.sent, ordered_of_rejection hp (hinv.checked hfetch),
      readObject_eq_missing hm⟩
  | settle hhead hslots => exact inv_pass hi (passInv_settleEntry hb hslots rfl)
  | @readHead slot rest _ _ _ hhead hslots =>
    have hinv := hb.slots slot (hslots ▸ .head _)
    obtain ⟨hnone, hread⟩ := hh slot rest hslots
    obtain ⟨body, hp⟩ := hinv.listed.parsed
    refine inv_pass hi (passInv_afterRead hb hslots (hnone (by simp [hhead])) fun hm => ?_)
    exact ⟨hinv.listed.sent, ordered_of_rejection hp (hread _ hhead), readObject_eq_missing hm⟩
  | apply hhead hslots heffect hqueue =>
    exact inv_applied hi hb hslots ((hh _ _ hslots).1 (by simp [hhead])) hqueue
  | refuse hhead hslots =>
    exact inv_pass hi (passInv_withHead hb hslots ((hh _ _ hslots).1 (by simp [hhead])) (by simp))
  | reject hhead hslots hqueue =>
    exact inv_applied hi hb hslots ((hh _ _ hslots).1 (by simp [hhead])) hqueue
  | fail => exact inv_pass hi (passInv_failHead hb)

theorem mem_sortEntries {found : List PendingEntry} {entry : PendingEntry} :
    entry ∈ sortEntries found ↔ entry ∈ found :=
  List.mem_insertionSort _

theorem inv_endFlush {later : List PendingEntry} {settled : List Location} {failed : Bool}
    {commits : ℕ} (hi : Inv settings s)
    (hpass : s.pass = some (.flushing later settled failed commits)) :
    Inv settings { s with
      flushed := max s.flushed commits
      pass := some (.deleting later settled failed) } := by
  obtain ⟨hlater, hc, hs⟩ := hi.pass _ hpass
  have hf : Follows settings s { s with
      flushed := max s.flushed commits
      pass := some (.deleting later settled failed) } :=
    .of_log (List.prefix_refl _) (Nat.le_max_left _ _) rfl rfl
  refine { hi with flushed := Nat.max_le.mpr ⟨hi.flushed, hc⟩, pass := ?_ }
  rintro _ ⟨⟩
  exact ⟨fun entry he => (hlater entry he).follows hf,
    fun location hm => (hs location hm).follows hf (Nat.le_max_right _ _) hc⟩

theorem inv_delete {later : List PendingEntry} {rest : List Location} {failed deleted : Bool}
    (hi : Inv settings s) (hpass : s.pass = some (.deleting later (location :: rest) failed)) :
    Inv settings { s with
      objects := if deleted then Function.update s.objects location none else s.objects
      pass := some (.deleting later rest failed) } := by
  obtain ⟨hlater, hs⟩ := hi.pass _ hpass
  cases deleted with
  | true =>
    refine inv_pass (inv_remove location hi) ?_
    rintro _ ⟨⟩
    exact ⟨fun entry he => (hlater entry he).follows (.remove location),
      fun l hm => (hs l (.tail _ hm)).follows (.remove location) le_rfl hi.flushed⟩
  | false =>
    refine inv_pass hi ?_
    rintro _ ⟨⟩
    exact ⟨hlater, fun l hm => hs l (.tail _ hm)⟩

theorem inv_crash {kept : ℕ} {todo : List JobRecord} (hi : Inv settings s)
    (hstep : Queue.step s.queue (.reopen kept todo) = some q) :
    Inv settings
      { s with queue := q, flushed := q.log.length, pass := none, sweep := none } := by
  refine ⟨hi.queue.next (a := .reopen kept todo) hstep, ?_, le_rfl, hi.sent, ?_, ?_⟩
  · rw [show ({ s with queue := q } : State κ β).queue.log = _ from Queue.log_of_reopen hstep]
    exact hi.lawful.take kept
  · rintro _ ⟨⟩
  · rintro _ ⟨⟩

theorem inv_step {label : Label κ β} (hi : Inv settings s)
    (h : step settings s label = some s') : Inv settings s' := by
  cases step_cases h with
  | send hfresh => exact inv_send hi hfresh
  | remove => exact inv_remove _ hi
  | lock =>
    refine inv_pass hi ?_
    rintro _ ⟨⟩
    rintro _ ⟨⟩
  | scan hnone hnodup hall =>
    refine inv_withSweep hi ?_
    rintro _ ⟨⟩
    refine ⟨hnodup, fun e he => ?_⟩
    have hpaired := hi.paired s.queue.log.length
    rw [List.take_length] at hpaired
    exact (hpaired e.1 e.2.1 e.2.2).mp (Option.isSome_iff_ne_none.mp (hall e he).1)
  | sweep hsweep hqueue => exact inv_sweep hi hsweep hqueue
  | failSweep hsweep =>
    refine inv_withSweep hi ?_
    rintro _ ⟨⟩
    exact (hi.sweep _ hsweep).drop inboxSweepBatch
  | endSweep => exact inv_withSweep hi (by rintro _ ⟨⟩)
  | commit hcall hqueue =>
    obtain ⟨-, hreach, c, -, hlog, hc, -⟩ := Queue.commit_traces hi.queue hqueue
    exact inv_not_isInbox hi hreach hlog (hc ▸ hcall)
  | requeue hqueue =>
    obtain ⟨hreach, job, snap, c, -, hlog, hc, -⟩ := Queue.requeue_traces hi.queue hqueue
    refine inv_not_isInbox hi hreach hlog ?_
    rw [hc]
    rfl
  | crash hkept hqueue => exact inv_crash hi hqueue
  | list hpass hbody =>
    refine inv_pass hi ?_
    rintro _ ⟨⟩
    intro entry he
    rcases List.mem_append.mp he with he | he
    · exact hi.pass _ hpass entry he
    · have hparse := Option.mem_toList.mp he
      obtain ⟨rfl, -⟩ := parse_eq_some hparse
      exact ⟨hi.sent _ (by simp [hbody]), _, hparse⟩
  | listed hpass =>
    refine inv_pass hi ?_
    rintro _ ⟨⟩
    exact fun entry he => hi.pass _ hpass entry (mem_sortEntries.mp he)
  | batch hpass hne hslots =>
    have hlater := hi.pass _ hpass
    refine inv_pass hi ?_
    rintro _ ⟨⟩
    refine ⟨⟨fun entry he => hlater entry (List.mem_of_mem_drop he), fun slot hs => ?_, ?_⟩,
      fun slot rest _ => ⟨fun hne => absurd rfl hne, by simp⟩⟩
    · obtain ⟨entry, he, rfl⟩ := List.mem_map.mp (hslots ▸ hs)
      exact ⟨hlater entry (List.mem_of_mem_take he), by simp, by simp⟩
    · rintro _ ⟨⟩
  | settling hpass h => exact inv_settleStep hi (hi.pass _ hpass).1 (hi.pass _ hpass).2 h
  | beginFlush hpass =>
    obtain ⟨hlater, hs⟩ := hi.pass _ hpass
    refine inv_pass hi ?_
    rintro _ ⟨⟩
    exact ⟨hlater, le_rfl, hs⟩
  | endFlush hpass => exact inv_endFlush hi hpass
  | endBatch hpass => exact inv_pass hi (passInv_afterBatch (hi.pass _ hpass).1)
  | delete hpass => exact inv_delete hi hpass
  | _ => exact inv_pass hi (by rintro _ ⟨⟩)

theorem inv_reachable (h : (machine settings).Reachable s) : Inv settings s := by
  refine h.invariant ?_ fun s a s' => inv_step
  rintro _ rfl
  refine ⟨.initial (T := Queue.machine κ β) rfl, .nil, le_rfl, ?_, ?_, ?_⟩
  · exact fun location h => absurd rfl h
  · rintro _ ⟨⟩
  · rintro _ ⟨⟩

section Frame

/-- What a step does to the queue and to the objects: it takes at most one step of the
queue, and it changes at most one object. -/
structure Frame (s : State κ β) (label : Label κ β) (s' : State κ β) : Prop where
  queue : s'.queue = s.queue ∨ ∃ l, Queue.step s.queue l = some s'.queue ∧
    ∀ kept todo, l = .reopen kept todo → s.flushed ≤ kept
  objects : s'.objects = s.objects ∨
    (∃ location body, s'.objects = Function.update s.objects location (some body)) ∨
    ∃ location, s'.objects = Function.update s.objects location none ∧
      (label = .remove location ∨
        ∃ later rest failed, s.pass = some (.deleting later (location :: rest) failed))

variable {label : Label κ β}

theorem Frame.of_eq (hq : s'.queue = s.queue) (ho : s'.objects = s.objects) : Frame s label s' :=
  ⟨.inl hq, .inl ho⟩

theorem Frame.of_commit {call : Call κ β}
    (h : Queue.step s.queue (.commit call snap) = some s'.queue) (ho : s'.objects = s.objects) :
    Frame s label s' :=
  ⟨.inr ⟨.commit call snap, h, by simp⟩, .inl ho⟩

theorem step_frame (h : step settings s label = some s') : Frame s label s' := by
  cases step_cases h with
  | @send location body => exact ⟨.inl rfl, .inr (.inl ⟨location, body, rfl⟩)⟩
  | @remove location => exact ⟨.inl rfl, .inr (.inr ⟨location, rfl, .inl rfl⟩)⟩
  | sweep hsweep hqueue => exact .of_commit hqueue rfl
  | commit hcall hqueue => exact .of_commit hqueue rfl
  | @requeue now _ hqueue => exact ⟨.inr ⟨.requeue now, hqueue, by simp⟩, .inl rfl⟩
  | @crash kept todo _ hkept hqueue =>
    refine ⟨.inr ⟨.reopen kept todo, hqueue, ?_⟩, .inl rfl⟩
    rintro _ _ ⟨⟩
    exact hkept
  | settling hpass h =>
    cases h with
    | apply hhead hslots heffect hqueue => exact .of_commit hqueue rfl
    | reject hhead hslots hqueue => exact .of_commit hqueue rfl
    | _ => exact .of_eq rfl rfl
  | @delete later location rest failed deleted hpass =>
    cases deleted with
    | true => exact ⟨.inl rfl, .inr (.inr ⟨location, rfl, .inr ⟨later, rest, failed, hpass⟩⟩)⟩
    | false => exact .of_eq rfl rfl
  | _ => exact .of_eq rfl rfl

theorem flushed_survive (hi : Inv settings s) (h : step settings s label = some s') :
    s.queue.log.take s.flushed <+: s'.queue.log := by
  obtain hq | ⟨l, hq, hl⟩ := (step_frame h).queue
  · rw [hq]
    exact List.take_prefix _ _
  · obtain ⟨_, _, _, _, -, -, -, -, hlog⟩ | ⟨kept, todo, he, hlog⟩ :=
      Queue.step_cases (Queue.inv_reachable hi.queue) hq
    · rw [hlog]
      exact (List.take_prefix _ _).trans (List.prefix_append _ _)
    · rw [hlog]
      exact List.take_prefix_take_left (hl kept todo he)

/-- An object is deleted by someone else, or its entry has a flushed record. -/
theorem recorded_of_deleted (hi : Inv settings s) (h : step settings s label = some s')
    (hl : label ≠ .remove location) (hthere : s.objects location ≠ none)
    (hgone : s'.objects location = none) : Recorded s.queue.log s.flushed location := by
  obtain hobj | ⟨l, body, hobj⟩ | ⟨l, hobj, hwhy⟩ := (step_frame h).objects
  · rw [hobj] at hgone
    exact absurd hgone hthere
  · rw [hobj] at hgone
    by_cases he : location = l
    · simp [he] at hgone
    · rw [Function.update_of_ne he] at hgone
      exact absurd hgone hthere
  · obtain rfl : location = l := by
      by_contra hne
      rw [hobj, Function.update_of_ne hne] at hgone
      exact hthere hgone
    rcases hwhy with hwhy | ⟨later, rest, failed, hp⟩
    · exact absurd hwhy hl
    · obtain ⟨-, hs⟩ := hi.pass _ hp
      rcases hs location (.head _) with hr | hg
      · exact hr
      · exact absurd hg.missing hthere

end Frame

end Steps

section Once

variable [DecidableEq β] {s : State κ β}

/-- The commits that apply an entry and the inbox keys of the store. -/
structure ExactlyOnce (s : State κ β) : Prop where
  /-- An application finds no record of its entry. -/
  once : ∀ (n : ℕ) (c : CallCommit κ β) (a : Application),
    s.queue.log[n]? = some c → c.label.call.application = some a →
    Log.store (s.queue.log.take n) (.inboxRecord a.queue a.id) = none
  /-- An application is one commit, with the writes of its effect and of its record. -/
  together : ∀ (n : ℕ) (c : CallCommit κ β) (a : Application),
    s.queue.log[n]? = some c → c.label.call.application = some a →
    ∃ t outcome, a.effect.stage a.queue
        (Txn.begin (Log.store ((s.queue.log.take n).take c.label.snap))) = .ok (t, outcome) ∧
      c.writes = t.writes ++ InboxRecord.writes ⟨a.appliedAt, outcome⟩ a.queue a.id
  /-- No other commit writes a record. -/
  alone : ∀ c ∈ s.queue.log, ∀ queue id record,
    (⟨.inboxRecord queue id, .put record⟩ : Σ k : Key κ, Write (Val κ β k)) ∈ c.writes →
    ∃ a, c.label.call.application = some a ∧ a.queue = queue ∧ a.id = id ∧
      a.appliedAt = record.appliedAtMs
  /-- The records and the expiry entries are paired, after every commit. -/
  paired : ∀ n, InboxPaired (Log.store (s.queue.log.take n))

theorem Inv.together (hi : Inv settings s) {n : ℕ} {a : Application} (hn : s.queue.log[n]? = some c)
    (ha : c.label.call.application = some a) :
    ∃ t outcome, a.effect.stage a.queue
        (Txn.begin (Log.store ((s.queue.log.take n).take c.label.snap))) = .ok (t, outcome) ∧
      c.writes = t.writes ++ InboxRecord.writes ⟨a.appliedAt, outcome⟩ a.queue a.id := by
  obtain ⟨t, delivered, ht, hw⟩ := (Queue.attempted_reachable hi.queue).get hn
  rw [Call.eq_of_application ha] at ht
  obtain ⟨t₁, outcome, hstage, -, hwrites⟩ := Application.writes_of_attempt ht
  exact ⟨t₁, outcome, hstage, hw.trans hwrites⟩

/-- In every run with passes that hold the lock, that fail or are dropped at any step, with
crashes that keep the flushed commits, failed deletes and one sweep at a time, an inbox
entry is applied only without a record of it, in one commit with its record; a pass
deletes an object only after a commit with a record of its entry was flushed, and what is
flushed survives; and each record has its expiry entry. -/
theorem inbox_entries_apply_once (h : (machine settings).Reachable s) :
    ExactlyOnce s ∧ ∀ label s', step settings s label = some s' →
      s.queue.log.take s.flushed <+: s'.queue.log ∧
      ∀ location, label ≠ .remove location → s.objects location ≠ none →
        s'.objects location = none → Recorded s.queue.log s.flushed location := by
  have hi := inv_reachable h
  refine ⟨⟨?_, fun n c a => hi.together, ?_, hi.paired⟩, fun label s' hstep => ⟨?_, ?_⟩⟩
  · intro n c a hn ha
    exact (hi.lawful.get hn).applies a ha
  · intro c hc queue id record hput
    obtain ⟨n, hn⟩ := List.getElem?_of_mem hc
    exact (hi.lawful.get hn).writes.application_of_put hput
  · exact flushed_survive hi hstep
  · intro location hl hthere hgone
    exact recorded_of_deleted hi hstep hl hthere hgone

end Once

/-- An inbox for the queue of the emails, whose orders are read as two digits. -/
def emailInbox : Settings ℕ ℕ where
  configs := plainConfigs
  queues := ["emails"]
  retentionMs := 100
  ulid text := if text = "01" then some 1 else if text = "02" then some 2 else none
  decodeEnqueue body := .ok (body, {})
  decodeCancel _ := .ok "job-1"
  decodeSignal _ := .error "no signal"
  message _ := "refused"

/-- Two entries of one id, of different kinds. -/
def firstSend : Location := ⟨"emails", "enqueue", some "01", "a"⟩

def secondSend : Location := ⟨"emails", "cancel", some "02", "a"⟩

/-- A pass up to the check of the first record. -/
def readBoth : List (Label ℕ ℕ) :=
  [.lock, .list secondSend, .list firstSend, .listed, .batch, .check 0, .check 1, .read 0 none,
    .read 1 none]

/-- The first application is lost in a crash. The next pass applies the first entry again
and settles the second without an effect, and the delete of one of the objects fails. -/
def appliedAgain : List (Label ℕ ℕ) :=
  [.send firstSend [1], .send secondSend [2]] ++ readBoth ++
    [.settle 10 false, .apply 0 "job-1" none 10 true, .crash 0 []] ++ readBoth ++
    [.settle 20 false, .apply 0 "job-2" none 20 true, .settle 21 false, .beginFlush,
      .endFlush true]

theorem inbox_entries_apply_once_again :
    ∃ s s', (machine emailInbox).run {} appliedAgain = some s ∧
      step emailInbox s (.delete true) = some s' ∧ s.objects firstSend = some [1] ∧
      s'.objects firstSend = none ∧ s'.objects secondSend = some [2] ∧ ExactlyOnce s ∧
      Recorded s.queue.log s.flushed firstSend := by
  obtain ⟨s, hs, hfirst, hdelete⟩ : ∃ s, (machine emailInbox).run {} appliedAgain = some s ∧
      (s.objects firstSend = some [1] ∧
        (step emailInbox s (.delete true)).any (fun s' => s'.objects firstSend = none ∧
          s'.objects secondSend = some [2]) = true) :=
    Machine.exists_of_run_any (by decide +kernel)
  cases hstep : step emailInbox s (.delete true) with
  | none => simp [hstep] at hdelete
  | some s' =>
    simp only [hstep, Option.any_some, decide_eq_true_eq] at hdelete
    obtain ⟨hgone, hleft⟩ := hdelete
    obtain ⟨honce, hsteps⟩ := inbox_entries_apply_once
      (Machine.reachable_of_run hs rfl)
    exact ⟨s, s', hs, hstep, hfirst, hgone, hleft, honce,
      (hsteps _ s' hstep).2 firstSend (by simp) (by simp [hfirst]) hgone⟩

end Taquba.Inbox
