import Taquba.Inbox.Order.Invariant

/-! # Inbox entries commit in send order

Each step of a listing, of a pass, of the senders and of the writer keeps what the pass
leaves to settle. A listing that reads positions while sends continue can miss one of two
objects and find the later one, so the process puts at most one object while it runs.
-/

namespace Taquba.Inbox.Order

open Snapshot Transition

variable {κ β : Type} [DecidableEq κ] [DecidableEq β] {settings : Settings κ β} {s s' : State κ β}
variable {label : Inbox.Label κ β} {location : Location} {inbox : Inbox.State κ β}
  {body : List UInt8}

section Work

theorem inv_work (hi : Inv settings s) (hreach : (Inbox.machine settings).Reachable inbox)
    (hrecorded : ∀ l ∈ inbox.sent, inbox.objects l = none →
      Recorded inbox.queue.log inbox.flushed l) (hsent : inbox.sent = s.inbox.sent)
    (hlisting : ∀ found, inbox.pass ≠ some (.listing found))
    (hmove : WorkMove s.inbox label inbox) :
    Inv settings { s with inbox, applied := s.commits label ++ s.applied } := by
  have hlist {applied : List (ℕ × Location)} (hnoted : Noted inbox.queue.log applied)
      (horder : InSendOrder s.mine applied)
      (hsettled : SettledInv inbox.queue.log inbox.objects s.mine applied)
      (happlied : ∀ p ∈ applied, p.2 ∈ s.inbox.sent)
      (hwork : WorkInv inbox.queue.log inbox.objects s.mine inbox.left inbox.settled) :
      Inv settings { s with inbox, applied } := by
    have hsends := hi.sends
    rw [← hsent] at hsends happlied
    exact ⟨hreach, hrecorded, { hsends with noted := happlied }, hnoted, horder, hsettled,
      fun found hp => absurd hp (hlisting found), hwork⟩
  have hquiet (hlabel : label.commits = false) (hlog : inbox.queue.log = s.inbox.queue.log)
      (hobjects : ∀ l, inbox.objects l ≠ none → s.inbox.objects l ≠ none)
      (hwork : WorkInv inbox.queue.log inbox.objects s.mine inbox.left inbox.settled) :
      Inv settings { s with inbox, applied := s.commits label ++ s.applied } := by
    rw [commits_of_not hlabel]
    refine hlist ?_ hi.inOrder ?_ hi.sends.noted hwork
    · rw [hlog]
      exact hi.noted
    · exact hi.settled.keep (fun l _ => hobjects l) (fun _ _ => by rw [hlog])
        fun l _ _ hs => by rwa [← hlog]
  cases hmove with
  | stay hlabel hlog hobjects hleft hsettled =>
    refine hquiet hlabel hlog (fun l => by rw [hobjects]; exact id) ?_
    rw [hlog, hobjects]
    rcases hleft with hleft | hleft
    · rw [hleft]
      exact hi.work.keep (fun _ _ => id) (fun _ _ => id) (fun _ _ _ => id) hsettled
    · rw [hleft]
      exact .nil
  | skip slot later hlabel hlog hobjects hslot hleft hleft' hsettled hwhy =>
    refine hquiet hlabel hlog (fun l => by rw [hobjects]; exact id) ?_
    have hwork := hi.work
    rw [hleft] at hwork
    have hlisted := listed_left (Inbox.inv_reachable hi.inbox) slot.entry
      (by rw [hleft]; exact .head _)
    obtain ⟨body, hparse⟩ := hlisted.parsed
    obtain ⟨-, hname, hentryId, -⟩ := parse_eq_some hparse
    have hthere := hwork.there slot.entry (.head _)
    have hr : HasRecord s.inbox.queue.log slot.entry.location := by
      rcases hwhy with hr | hfetch | hgone
      · rw [hasRecord_iff hname, ← hentryId]
        exact hr
      · obtain ⟨b, hp, hmem⟩ := hslot
        have hslotInv := ((Inbox.inv_reachable hi.inbox).pass _ hp).1.slots slot hmem
        exact absurd (hslotInv.missing hfetch).missing hthere
      · exact absurd hgone hthere
    rw [hlog, hobjects, hleft']
    exact hwork.tail hr (fun _ => id) hsettled
  | commit entry later a c hlabel hpass hlog hcall hqueue hid hobjects hleft hleft' hsettled =>
    obtain ⟨hnoted, horder, hset, hr, hkeep⟩ := hi.commit hreach hlog hcall hqueue hid hleft
    have hcommits : s.commits label = [(s.inbox.queue.log.length, entry.location)] := by
      obtain ⟨b, slot, rest, hp, hslots, rfl⟩ := hpass
      simp [State.commits, hp, hlabel, hslots]
    rw [hcommits]
    have hwork := hi.work
    rw [hleft] at hwork
    rw [← hobjects] at hset
    refine hlist hnoted horder hset ?_ ?_
    · intro p hp
      rcases List.mem_cons.mp hp with rfl | hp
      · exact (listed_left (Inbox.inv_reachable hi.inbox) entry (by rw [hleft]; exact .head _)).sent
      · exact hi.sends.noted p hp
    · rw [hobjects]
      rcases hleft' with hleft' | hleft'
      · rw [hleft']
        exact hwork.tail hr hkeep hsettled
      · rw [hleft']
        exact .nil
  | delete location hlabel hlog hobjects hleft hmem hsettled =>
    have hobj : ∀ l, inbox.objects l ≠ none → s.inbox.objects l ≠ none := by
      intro l hne
      rw [hobjects] at hne
      by_cases hl : l = location
      · simp [hl] at hne
      · rwa [Function.update_of_ne hl] at hne
    refine hquiet hlabel hlog hobj ?_
    rw [hlog, hleft]
    refine hi.work.keep (fun e he hthere => ?_) (fun l _ => hobj l) (fun _ _ _ => id) hsettled
    rw [hobjects, Function.update_of_ne]
    · exact hthere
    · rintro rfl
      exact hi.work.settled e he hmem

end Work

section Listing

theorem inv_lock (hi : Inv settings s) (h : step settings s .lock = some s') :
    Inv settings s' := by
  obtain ⟨inbox, hinbox, rfl⟩ := Option.map_eq_some_iff.mp h
  have hreach := hi.reach hinbox
  cases step_cases hinbox with
  | settling hpass h => cases h
  | lock =>
    refine { hi with inbox := hreach, sends := ?_, listing := ?_, work := .nil }
    · exact { hi.sends with recent := List.nil_prefix }
    · rintro found ⟨⟩
      refine ⟨Nat.zero_le _, fun l _ _ _ hcursor => ?_, by simp, by simp, .nil⟩
      refine absurd ?_ hcursor
      cases hpath : l.path with
      | nil => simp [Location.path] at hpath
      | cons c cs => exact List.nil_lt_cons _ _

theorem inv_skip {position : List Char} (hi : Inv settings s)
    (h : step settings s (.skip position) = some s') : Inv settings s' := by
  obtain ⟨⟨hlt, hclear, hat⟩, ⟨⟩⟩ := Option.ite_none_right_eq_some.mp h
  refine { hi with listing := ?_ }
  intro found hp
  have hl := hi.listing found hp
  refine { hl with finds := fun l hm hs hne hcursor => ?_, read := fun e he hcursor => ?_ }
  · refine hl.finds l hm hs hne fun hbefore => hne ?_
    have hsent := hi.sends.mem l hm
    rcases lt_trichotomy l.path position with hpos | hpos | hpos
    · exact hclear l hsent hbefore hpos
    · exact hat l hsent hpos
    · exact absurd hpos hcursor
  · exact hl.read e he (hlt.trans hcursor)

theorem inv_list (hi : Inv settings s) (h : step settings s (.list location) = some s') :
    Inv settings s' := by
  obtain ⟨⟨hlt, hclear⟩, h⟩ := Option.ite_none_right_eq_some.mp h
  obtain ⟨inbox, hinbox, rfl⟩ := Option.map_eq_some_iff.mp h
  have hreach := hi.reach hinbox
  cases step_cases hinbox with
  | settling hpass h => cases h
  | @list found _ body hpass hbody =>
    have hl := hi.listing found hpass
    have hloc : location ∈ s.inbox.sent :=
      (Inbox.inv_reachable hi.inbox).sent location (by simp [hbody])
    have hfound : ∀ e ∈ found ++ (PendingEntry.parse settings location body).toList,
        e ∈ found ∨ e.location = location := by
      intro e he
      rcases List.mem_append.mp he with he | he
      · exact .inl he
      · exact .inr (parse_eq_some (Option.mem_toList.mp he)).1
    refine { hi with inbox := hreach, listing := ?_, work := .nil }
    rintro found' ⟨⟩
    refine ⟨hl.one, fun l hm hs hne hcursor => ?_, fun e he hcursor => ?_, fun e he => ?_, ?_⟩
    · have hsent := hi.sends.mem l hm
      rw [List.map_append]
      rcases lt_trichotomy l.path location.path with hpos | hpos | hpos
      · refine List.mem_append_left _ (hl.finds l hm hs hne fun hbefore => hne ?_)
        exact hclear l hsent hbefore hpos
      · obtain rfl := hi.sends.paths l hsent location hloc hpos
        refine List.mem_append_right _ ?_
        obtain ⟨entry, hparse⟩ := Option.isSome_iff_exists.mp (hi.sends.parsed l hm body)
        simp [hparse, (parse_eq_some hparse).1]
      · exact absurd hpos hcursor
    · rcases hfound e he with he | heq
      · exact hl.read e he (hlt.trans hcursor)
      · rw [heq] at hcursor
        exact lt_irrefl _ hcursor
    · rcases hfound e he with he | heq
      · exact hl.there e he
      · rw [heq, hbody]
        simp
    · rw [List.map_append]
      refine hl.nodup.append ?_ ?_
      · cases PendingEntry.parse settings location body <;> simp
      · intro l hl₁ hl₂
        obtain ⟨e, he, rfl⟩ := List.mem_map.mp hl₁
        obtain ⟨e', he', heq⟩ := List.mem_map.mp hl₂
        have hloc' := (parse_eq_some (Option.mem_toList.mp he')).1
        refine hl.read e he ?_
        rwa [← heq, hloc']

theorem inv_listed (hi : Inv settings s) (h : step settings s .listed = some s') :
    Inv settings s' := by
  obtain ⟨hend, h⟩ := Option.ite_none_right_eq_some.mp h
  obtain ⟨inbox, hinbox, rfl⟩ := Option.map_eq_some_iff.mp h
  have hreach := hi.reach hinbox
  cases step_cases hinbox with
  | settling hpass h => cases h
  | @listed found hpass =>
    have hl := hi.listing found hpass
    refine { hi with inbox := hreach, listing := ?_, work := ?_ }
    · rintro found' ⟨⟩
    have hperm : (sortEntries found).Perm found := List.perm_insertionSort _ _
    refine ⟨fun e he => hl.there e (hperm.mem_iff.mp he), ?_, by rintro e _ ⟨⟩,
      pairwise_sortEntries found, fun e he l hsub => ?_⟩
    · exact (hperm.map _).nodup_iff.mpr hl.nodup
    · have hmine : l ∈ s.mine := hsub.subset (by simp)
      have hsince : l ∉ s.since := fun hmem =>
        hi.sends.not_mem_of_length hl.one hsub hmem
      by_cases hnone : s.inbox.objects l = none
      · exact .inr (.inl hnone)
      · refine .inl ((hperm.map _).mem_iff.mpr (hl.finds l hmine hsince hnone fun hlt => ?_))
        exact hnone (hend l (hi.sends.mem l hmine) hlt)

end Listing

section Runs

theorem inv_pass (hi : Inv settings s) (h : step settings s (.pass label) = some s') :
    Inv settings s' := by
  obtain ⟨⟨hofPass, hlists⟩, h⟩ := Option.ite_none_right_eq_some.mp h
  obtain ⟨inbox, hinbox, rfl⟩ := Option.map_eq_some_iff.mp h
  have hlist : ∀ location, label ≠ .list location := by
    rintro location rfl
    exact hlists rfl
  have hlisted : label ≠ .listed := by
    rintro rfl
    exact hlists rfl
  refine inv_work hi (hi.reach hinbox) (hi.keepsRecorded ?_ hinbox)
    (sent_of_ofPass hofPass hinbox) ?_
    (work_of_ofPass (Inbox.inv_reachable hi.inbox).queue hofPass hlist hlisted hinbox)
  · rintro location rfl
    cases hofPass
  · intro found hp
    cases not_listing_step hofPass hlist hlisted hinbox _ hp

/-- A step of the writer makes at most one commit, which applies no entry. -/
theorem writer_moves {s s' : Inbox.State κ β} (hreach : (Queue.machine κ β).Reachable s.queue)
    (hl : label.ofWriter = true) (h : Inbox.step settings s label = some s') :
    s'.objects = s.objects ∧ s'.sent = s.sent ∧ s'.pass = s.pass ∧
      (s'.queue.log = s.queue.log ∨ ∃ c, s'.queue.log = s.queue.log ++ [c] ∧
        c.label.call.application = none ∧ ∀ e ∈ c.label.call.sweeps,
          ∃ snap entries, label = .sweep snap ∧ s.sweep = some entries ∧
            e ∈ entries.take inboxSweepBatch) := by
  cases step_cases h with
  | @commit call snap _ hcall hqueue =>
    obtain ⟨-, -, c, -, hlog, rfl, -⟩ := Queue.commit_traces hreach hqueue
    refine ⟨rfl, rfl, rfl, .inr ⟨c, hlog, ?_, ?_⟩⟩
    · revert hcall
      cases c.label.call <;> simp [Call.isInbox, Call.application]
    · revert hcall
      cases c.label.call <;> simp [Call.isInbox, Call.application, Call.sweeps]
  | requeue hqueue =>
    obtain ⟨call, snap, t, delivered, hcall, -, -, -, hlog⟩ | ⟨_, _, he, -⟩ :=
      Queue.step_cases (Queue.inv_reachable hreach) hqueue
    · obtain he | ⟨job, now', -, rfl⟩ := hcall
      · cases he
      · refine ⟨rfl, rfl, rfl, .inr ⟨_, hlog, rfl, ?_⟩⟩
        rintro e ⟨⟩
    · cases he
  | sweep hsweep hqueue =>
    obtain ⟨-, -, c, -, hlog, hcall, -⟩ := Queue.commit_traces hreach hqueue
    refine ⟨rfl, rfl, rfl, .inr ⟨c, hlog, by rw [hcall]; rfl, fun e' he' => ?_⟩⟩
    rw [hcall] at he'
    exact ⟨_, _, rfl, hsweep, he'⟩
  | scan | failSweep | endSweep => exact ⟨rfl, rfl, rfl, .inl rfl⟩
  | settling hpass h => cases h <;> cases hl
  | _ => cases hl

theorem Inv.put (hi : Inv settings s) (hpath : s.OwnPath location)
    (h : Inbox.step settings s.inbox (.send location body) = some inbox) :
    Inv settings { s with inbox } ∧ inbox.sent = location :: s.inbox.sent ∧
      inbox.pass = s.inbox.pass ∧ inbox.queue = s.inbox.queue ∧
      ¬ (location ∈ s.inbox.sent ∧ (location.stem.bind settings.ulid).isSome) := by
  have hreach := hi.reach h
  have hrecorded := hi.keepsRecorded (by simp) h
  simp only [Inbox.step, Option.ite_none_left_eq_some] at h
  obtain ⟨hnew, ⟨⟩⟩ := h
  have hmine : ∀ l ∈ s.mine, l ≠ location := by
    rintro l hl rfl
    exact hnew ⟨hi.sends.mem l hl, hi.sends.ordered l hl⟩
  have hobjects : ∀ l ∈ s.mine,
      Function.update s.inbox.objects location (some body) l ≠ none →
      s.inbox.objects l ≠ none := by
    intro l hl hne
    rwa [Function.update_of_ne (hmine l hl)] at hne
  have hthere : ∀ l, s.inbox.objects l ≠ none →
      Function.update s.inbox.objects location (some body) l ≠ none := by
    intro l hne
    by_cases hl : l = location
    · simp [hl]
    · rwa [Function.update_of_ne hl]
  refine ⟨⟨hreach, hrecorded, ?_, hi.noted, hi.inOrder, ?_, ?_, ?_⟩, rfl, rfl, rfl, hnew⟩
  · refine { hi.sends with
      paths := ?_
      mem := fun l hl => .tail _ (hi.sends.mem l hl)
      noted := fun p hp => .tail _ (hi.sends.noted p hp) }
    intro l hl l' hl' heq
    rcases List.mem_cons.mp hl with rfl | hm
    · rcases List.mem_cons.mp hl' with rfl | hm'
      · rfl
      · exact (hpath l' hm' heq.symm).symm
    · rcases List.mem_cons.mp hl' with rfl | hm'
      · exact hpath l hm heq
      · exact hi.sends.paths l hm l' hm' heq
  · exact hi.settled.keep hobjects (fun _ _ => rfl) fun _ _ _ => id
  · intro found hp
    have hl := hi.listing found hp
    exact ⟨hl.one, fun l hm hs hne => hl.finds l hm hs (hobjects l hm hne), hl.read,
      fun e he => hthere _ (hl.there e he), hl.nodup⟩
  · exact hi.work.keep (fun e _ => hthere _) hobjects (fun _ _ _ => id)
      (List.Subset.refl _)

theorem Inv.own (hi : Inv settings s) (hsent : location ∈ s.inbox.sent)
    (hparsed : (PendingEntry.parse settings location body).isSome)
    (hlater : s.Later settings location) (hswept : ¬ Swept s.inbox.queue.log location)
    (hone : s.inbox.pass.any Phase.isListing = true → s.since = [])
    (happlied : ∀ p ∈ s.applied, p.2 ≠ location)
    (hleft : ∀ e ∈ s.inbox.left, e.location ≠ location) :
    Inv settings { s with mine := location :: s.mine, since := location :: s.since } := by
  obtain ⟨o, ho, hlt⟩ := hlater
  refine ⟨hi.inbox, hi.recorded, ⟨hi.sends.paths, ?_, ?_, ?_, ?_, ?_, hi.sends.noted⟩, hi.noted,
    ⟨?_, ?_⟩, ⟨?_, ?_⟩, ?_, ?_⟩
  · intro l hl
    rcases List.mem_cons.mp hl with rfl | hl
    · exact hsent
    · exact hi.sends.mem l hl
  · intro l hl body'
    rcases List.mem_cons.mp hl with rfl | hl
    · exact parse_isSome hparsed body'
    · exact hi.sends.parsed l hl body'
  · intro l hl
    rcases List.mem_cons.mp hl with rfl | hl
    · exact Option.isSome_iff_exists.mpr ⟨o, ho⟩
    · exact hi.sends.ordered l hl
  · refine List.pairwise_cons.mpr ⟨fun l hl => ?_, hi.sends.orders⟩
    obtain ⟨o', ho'⟩ := Option.isSome_iff_exists.mp (hi.sends.ordered l hl)
    exact ⟨o, ho, o', ho', hlt l hl o' ho'⟩
  · exact List.cons_prefix_cons.mpr ⟨rfl, hi.sends.recent⟩
  · have hfilter : s.applied.filter (·.2 ∈ location :: s.mine) =
        s.applied.filter (·.2 ∈ s.mine) := by
      refine List.filter_congr fun p hp => ?_
      simp [happlied p hp]
    rw [hfilter]
    exact hi.inOrder.order.imp (.cons _)
  · intro p hp l hl
    exact hi.inOrder.first p hp l (List.sublist_pair_cons hl (happlied p hp))
  · intro l hl hne
    rcases List.mem_cons.mp hl with rfl | hl
    · exact hswept
    · exact hi.settled.unswept l hl hne
  · intro p hp l hl
    exact hi.settled.before p hp l (List.sublist_pair_cons hl (happlied p hp))
  · intro found hp
    have hl := hi.listing found hp
    have hsince : s.since = [] := hone (by rw [show s.inbox.pass = _ from hp]; rfl)
    refine { hl with one := by rw [hsince]; rfl, finds := fun l hm hs hne => ?_ }
    rcases List.mem_cons.mp hm with rfl | hm
    · exact absurd (.head _) hs
    · exact hl.finds l hm (fun hmem => hs (.tail _ hmem)) hne
  · exact { hi.work with
      ahead := fun e he l hl => hi.work.ahead e he l (List.sublist_pair_cons hl (hleft e he)) }

theorem inv_send (hi : Inv settings s) (hc : Apart s (.send location body))
    (h : step settings s (.send location body) = some s') : Inv settings s' := by
  simp only [step, Option.ite_none_right_eq_some, Option.map_eq_some_iff] at h
  obtain ⟨⟨hpath, hparsed, hlater⟩, inbox, hinbox, rfl⟩ := h
  obtain ⟨hput, hsent, hpass, hqueue, hnew⟩ := hi.put hpath hinbox
  obtain ⟨hone, hswept⟩ := hc.1 location rfl
  have hfresh : location ∉ s.inbox.sent := by
    obtain ⟨o, ho, -⟩ := hlater
    exact fun hmem => hnew ⟨hmem, Option.isSome_iff_exists.mpr ⟨o, ho⟩⟩
  refine hput.own (by rw [hsent]; exact .head _) hparsed hlater ?_ ?_ ?_ ?_
  · rwa [hqueue]
  · rwa [hpass]
  · rintro p hp rfl
    exact hfresh (hi.sends.noted p hp)
  · rintro e he rfl
    refine hfresh (listed_left (Inbox.inv_reachable hi.inbox) e ?_).sent
    simpa [Inbox.State.left, hpass] using he

theorem Inv.append {c : CallCommit κ β} (hi : Inv settings s)
    (hreach : (Inbox.machine settings).Reachable inbox)
    (hrecorded : ∀ l ∈ inbox.sent, inbox.objects l = none →
      Recorded inbox.queue.log inbox.flushed l) (hobjects : inbox.objects = s.inbox.objects)
    (hsent : inbox.sent = s.inbox.sent) (hpass : inbox.pass = s.inbox.pass)
    (hlog : inbox.queue.log = s.inbox.queue.log ++ [c]) (happ : c.label.call.application = none)
    (hsweeps : ∀ e ∈ c.label.call.sweeps, ∀ l ∈ s.mine, s.inbox.objects l ≠ none →
      ¬ (e.2.1.name = l.queue ∧ e.2.2 = l.id)) : Inv settings { s with inbox } := by
  have hc : InboxLawful s.inbox.queue.log c := by
    have hget := (Inbox.inv_reachable hreach).lawful.get (n := s.inbox.queue.log.length) (c := c)
      (by simp [hlog])
    rwa [hlog, List.take_left] at hget
  have hsends := hi.sends
  rw [← hsent] at hsends
  refine ⟨hreach, hrecorded, hsends, ⟨hi.noted.places, ?_, ?_⟩, hi.inOrder, ?_, ?_, ?_⟩
  · intro p hp
    obtain ⟨c', a', hc', ha', hsame⟩ := hi.noted.commits p hp
    refine ⟨c', a', ?_, ha', hsame⟩
    rw [hlog, List.getElem?_append_left (hi.noted.lt p hp), hc']
  · intro n c' a' hn ha'
    rw [hlog] at hn
    rcases Log.getElem?_append_singleton.mp hn with hn | ⟨rfl, rfl⟩
    · exact hi.noted.complete n c' a' hn ha'
    · rw [happ] at ha'
      cases ha'
  · refine hi.settled.keep (fun l _ => by rw [hobjects]; exact id) (fun p hp => ?_) ?_
    · rw [hlog, List.take_append_of_le_length (hi.noted.lt p hp).le]
    · rintro l hl hne ⟨c', hc', e, he, heq⟩
      rw [hlog] at hc'
      rcases List.mem_append.mp hc' with hc' | hc'
      · exact ⟨c', hc', e, he, heq⟩
      · rw [List.mem_singleton.mp hc'] at he
        rw [hobjects] at hne
        exact absurd heq (hsweeps e he l hl hne)
  · intro found hp
    rw [hobjects]
    exact hi.listing found (hpass ▸ hp)
  · rw [hobjects, hlog, show inbox.left = s.inbox.left by simp [Inbox.State.left, hpass],
      show inbox.settled = s.inbox.settled by simp [Inbox.State.settled, hpass]]
    refine hi.work.keep (fun _ _ => id) (fun _ _ => id) (fun l hl hne hr => ?_)
      (List.Subset.refl _)
    exact hr.append hc fun e he => hsweeps e he l hl hne

theorem inv_writer (hi : Inv settings s) (hc : Apart s (.writer label))
    (h : step settings s (.writer label) = some s') : Inv settings s' := by
  simp only [step, Option.ite_none_right_eq_some, Option.map_eq_some_iff] at h
  obtain ⟨hwriter, inbox, hinbox, rfl⟩ := h
  have hreach := hi.reach hinbox
  have hrecorded := hi.keepsRecorded (by rintro location rfl; cases hwriter) hinbox
  obtain ⟨hobjects, hsent, hpass, hmove⟩ :=
    writer_moves (Inbox.inv_reachable hi.inbox).queue hwriter hinbox
  rcases hmove with hlog | ⟨c, hlog, happ, hsweeps⟩
  · have hsends := hi.sends
    rw [← hsent] at hsends
    refine ⟨hreach, hrecorded, hsends, ?_, hi.inOrder, ?_, ?_, ?_⟩
    · rw [hlog]
      exact hi.noted
    · rw [hlog, hobjects]
      exact hi.settled
    · intro found hp
      rw [hobjects]
      exact hi.listing found (hpass ▸ hp)
    · rw [hobjects, hlog, show inbox.left = s.inbox.left by simp [Inbox.State.left, hpass],
        show inbox.settled = s.inbox.settled by simp [Inbox.State.settled, hpass]]
      exact hi.work
  · refine hi.append hreach hrecorded hobjects hsent hpass hlog happ fun e he => ?_
    obtain ⟨snap, entries, rfl, hentries, hmem⟩ := hsweeps e he
    exact hc.2 rfl entries hentries e hmem

theorem inv_crash {kept : ℕ} {todo : List JobRecord} (hi : Inv settings s)
    (h : step settings s (.crash kept todo) = some s') : Inv settings s' := by
  simp only [step] at h
  obtain ⟨inbox, hinbox, rfl⟩ := Option.map_eq_some_iff.mp h
  have hreach := hi.reach hinbox
  have hrecorded := hi.keepsRecorded (by simp) hinbox
  simp only [Inbox.step, Option.ite_none_right_eq_some, Option.map_eq_some_iff] at hinbox
  obtain ⟨-, q, hq, rfl⟩ := hinbox
  have hlog := Queue.log_of_reopen hq
  have hmem {p : ℕ × Location} (hp : p ∈ s.applied.filter (·.1 < kept)) :
      p ∈ s.applied ∧ p.1 < kept := by
    simpa using List.mem_filter.mp hp
  have hsub : (s.applied.filter (·.1 < kept)).Sublist s.applied := List.filter_sublist
  refine ⟨hreach, hrecorded, ?_, ⟨hi.noted.places.sublist hsub, ?_, ?_⟩, ⟨?_, ?_⟩, ⟨?_, ?_⟩, ?_,
    .nil⟩
  · exact { hi.sends with noted := fun p hp => hi.sends.noted p (hmem hp).1 }
  · intro p hp
    obtain ⟨hp, hlt⟩ := hmem hp
    obtain ⟨c, a, hc, ha, hsame⟩ := hi.noted.commits p hp
    refine ⟨c, a, ?_, ha, hsame⟩
    rw [show ({ s.inbox with queue := q } : Inbox.State κ β).queue.log = _ from hlog,
      List.getElem?_take_of_lt hlt, hc]
  · intro n c a hn ha
    rw [show ({ s.inbox with queue := q } : Inbox.State κ β).queue.log = _ from hlog] at hn
    have hlt : n < kept := by
      have hlen := (List.getElem?_eq_some_iff.mp hn).1
      rw [List.length_take] at hlen
      omega
    rw [List.getElem?_take_of_lt hlt] at hn
    obtain ⟨l, hl⟩ := hi.noted.complete n c a hn ha
    exact ⟨l, List.mem_filter.mpr ⟨hl, by simpa using hlt⟩⟩
  · exact hi.inOrder.order.sublist (hsub.filter _)
  · exact fun p hp => hi.inOrder.first p (hmem hp).1
  · rintro l hl hne ⟨c, hc, hswept⟩
    rw [show ({ s.inbox with queue := q } : Inbox.State κ β).queue.log = _ from hlog] at hc
    exact hi.settled.unswept l hl hne ⟨c, List.mem_of_mem_take hc, hswept⟩
  · intro p hp l hl
    obtain ⟨hp, hlt⟩ := hmem hp
    rw [show ({ s.inbox with queue := q } : Inbox.State κ β).queue.log = _ from hlog,
      List.take_take, min_eq_left hlt.le]
    exact hi.settled.before p hp l hl
  · rintro found ⟨⟩

theorem inv_step {label : Label κ β} (hi : Inv settings s) (hc : Apart s label)
    (h : step settings s label = some s') : Inv settings s' := by
  cases label with
  | send location body => exact inv_send hi hc h
  | other location body =>
    simp only [step, Option.ite_none_right_eq_some, Option.map_eq_some_iff] at h
    obtain ⟨hpath, inbox, hinbox, rfl⟩ := h
    exact (hi.put hpath hinbox).1
  | lock => exact inv_lock hi h
  | skip position => exact inv_skip hi h
  | list location => exact inv_list hi h
  | listed => exact inv_listed hi h
  | pass label => exact inv_pass hi h
  | drop =>
    simp only [step] at h
    obtain ⟨inbox, hinbox, rfl⟩ := Option.map_eq_some_iff.mp h
    have hreach := hi.reach hinbox
    cases hinbox
    refine { hi with inbox := hreach, listing := ?_, work := .nil }
    rintro found ⟨⟩
  | writer label => exact inv_writer hi hc h
  | crash kept todo => exact inv_crash hi h

theorem inv_reachable (h : (machine settings).ReachableVia Apart s) : Inv settings s := by
  refine h.invariant ?_ fun s a s' hi hc => inv_step hi hc
  rintro _ rfl
  refine ⟨.initial (T := Inbox.machine settings) rfl, ?_, ?_, ⟨.nil, ?_, ?_⟩, ⟨.nil, ?_⟩,
    ⟨?_, ?_⟩, ?_, .nil⟩
  · rintro _ ⟨⟩
  · exact ⟨by rintro _ ⟨⟩, by rintro _ ⟨⟩, by rintro _ ⟨⟩, by rintro _ ⟨⟩, .nil, List.nil_prefix,
      by rintro _ ⟨⟩⟩
  · rintro _ ⟨⟩
  · rintro n c a ⟨⟩
  · rintro _ ⟨⟩
  · rintro _ ⟨⟩
  · rintro _ ⟨⟩
  · rintro _ ⟨⟩

end Runs

/-- In every run in which the process puts at most one object during a listing and reuses
no id with a swept record, and in which no sweep deletes a record of an id that an object
of the process has, the entries of the process commit in send order, and of several
entries with one queue and id the first one commits. -/
theorem inbox_entries_commit_in_send_order (h : (machine settings).ReachableVia Apart s) :
    InSendOrder s.mine s.applied ∧ Noted s.inbox.queue.log s.applied :=
  ⟨(inv_reachable h).inOrder, (inv_reachable h).noted⟩

def firstSent : Location := ⟨"emails", "enqueue", some "01", "a"⟩

def secondSent : Location := ⟨"emails", "enqueue", some "02", "b"⟩

/-- A listing has read the position of the first object when both are put. -/
def overtaken : List (Label ℕ ℕ) :=
  .lock :: .skip firstSent.path :: .send firstSent [1] :: .send secondSent [2] ::
    .list secondSent :: .listed :: ([.batch, .check 0, .read 0 none, .settle 10 false,
      .apply 0 "job-1" none 10 true, .beginFlush, .endFlush true, .delete true, .delete true,
      .batch].map Label.pass ++ .lock :: .list firstSent :: .listed :: [.batch, .check 0,
      .read 0 none, .settle 20 false, .apply 1 "job-2" none 20 true].map Label.pass)

theorem inbox_entries_commit_in_send_order_fails :
    ∃ s, (machine emailInbox).Reachable s ∧ s.mine = [secondSent, firstSent] ∧
      s.applied = [(1, firstSent), (0, secondSent)] ∧ ¬ InSendOrder s.mine s.applied := by
  obtain ⟨s, hs, hmine, happlied⟩ : ∃ s, (machine emailInbox).run {} overtaken = some s ∧
      (s.mine = [secondSent, firstSent] ∧ s.applied = [(1, firstSent), (0, secondSent)]) :=
    Machine.exists_of_run_any (by decide +kernel)
  refine ⟨s, Machine.reachable_of_run hs rfl, hmine, happlied, ?_⟩
  intro h
  have horder := h.order
  rw [hmine, happlied] at horder
  revert horder
  decide

/-- The second object is put while the listing runs. -/
def sentDuringListing : List (Label ℕ ℕ) :=
  .send firstSent [1] :: .lock :: .list firstSent :: .send secondSent [2] :: .list secondSent ::
    .listed :: [.batch, .check 0, .check 1, .read 0 none, .read 1 none, .settle 10 false,
      .apply 0 "job-1" none 10 true, .settle 11 false, .apply 1 "job-2" none 11 true].map Label.pass

theorem inbox_entries_commit_in_send_order_listing :
    ∃ s, (machine emailInbox).runVia Apart {} sentDuringListing = some s ∧
      s.applied = [(1, secondSent), (0, firstSent)] ∧ InSendOrder s.mine s.applied ∧
      Noted s.inbox.queue.log s.applied := by
  obtain ⟨s, hs, happlied⟩ : ∃ s, (machine emailInbox).runVia Apart {} sentDuringListing = some s ∧
      (s.applied = [(1, secondSent), (0, firstSent)]) :=
    Machine.exists_of_runVia_any (by decide +kernel)
  obtain ⟨horder, hnoted⟩ := inbox_entries_commit_in_send_order
    (.runVia (.init (T := machine emailInbox) rfl) hs)
  exact ⟨s, hs, happlied, horder, hnoted⟩

end Taquba.Inbox.Order
