import Taquba.Inbox.Order
import Taquba.Lists

/-! # What a pass leaves to settle

The sorted entries that a pass has still to settle contain every entry of the process that
was sent before one of them and is not settled. An entry is settled when its object is gone
or its record exists, and the record stays as long as the object does. So a commit finds
every earlier entry of the process settled.
-/

namespace Taquba.Inbox

open Snapshot Transition

instance : Ord EntryKind := ⟨EntryKind.compare⟩

instance : Std.TransOrd EntryKind where
  eq_swap {a b} := by
    cases a <;> cases b <;> first | rfl | exact Std.OrientedOrd.eq_swap (α := String)
  isLE_trans {a b c} hab hbc := by
    cases a <;> cases b <;> cases c <;>
      first | rfl | contradiction | exact Std.TransOrd.isLE_trans (α := String) hab hbc

instance : Std.TransCmp PendingEntry.passOrder :=
  inferInstanceAs (Std.TransCmp (compareLex (compareOn (Option.isNone ∘ PendingEntry.order))
    (compareLex (compareOn PendingEntry.order) (compareLex (compareOn PendingEntry.id)
      (compareLex (compareOn (QueueName.name ∘ PendingEntry.queue))
        (compareOn PendingEntry.kind))))))

/-- `b` has no earlier order than `a`, and an entry without an order comes last. -/
def PendingEntry.NotAfter (a b : PendingEntry) : Prop :=
  ∀ o ∈ b.order, ∃ o' ∈ a.order, o' ≤ o

/-- The order of a pass is first by the order of the sends. -/
theorem notAfter_of_passOrder {a b : PendingEntry} (h : (a.passOrder b).isLE = true) :
    a.NotAfter b := by
  unfold PendingEntry.passOrder at h
  intro o ho
  cases ha : a.order with
  | none => simp [ha, Option.mem_def.mp ho, compare] at h
  | some o' =>
    refine ⟨o', rfl, not_lt.mp fun hlt => ?_⟩
    have hgt : compare (some o') (some o) = .gt := compare_gt_iff_gt.mpr hlt
    simp [ha, Option.mem_def.mp ho, hgt] at h

theorem pairwise_sortEntries (entries : List PendingEntry) :
    (sortEntries entries).Pairwise PendingEntry.NotAfter := by
  have htotal : Std.Total fun a b : PendingEntry => (a.passOrder b).isLE = true := by
    refine ⟨fun a b => ?_⟩
    have hswap : a.passOrder b = (b.passOrder a).swap := Std.OrientedCmp.eq_swap
    rw [hswap]
    cases b.passOrder a <;> simp
  have htrans : IsTrans PendingEntry fun a b => (a.passOrder b).isLE = true :=
    ⟨fun _ _ _ => Std.TransCmp.isLE_trans⟩
  exact (List.pairwise_insertionSort _ entries).imp notAfter_of_passOrder

variable {κ β : Type} [DecidableEq κ]
variable {label : Inbox.Label κ β} {inbox : Inbox.State κ β}

section Records

variable {log : History κ β} {c : CallCommit κ β} {l l' : Location}

def HasRecord (log : History κ β) (l : Location) : Prop :=
  ∃ queue : QueueName, queue.name = l.queue ∧ log.store (.inboxRecord queue l.id) ≠ none

theorem hasRecord_iff {queue : QueueName} (hq : queue.name = l.queue) :
    HasRecord log l ↔ log.store (.inboxRecord queue l.id) ≠ none := by
  constructor
  · rintro ⟨queue', hq', hr⟩
    have heq : queue' = queue := by
      cases queue
      cases queue'
      cases hq.trans hq'.symm
      rfl
    rwa [← heq]
  · exact fun hr => ⟨queue, hq, hr⟩

theorem HasRecord.sameId (h : HasRecord log l) (hs : l'.SameId l) : HasRecord log l' := by
  obtain ⟨queue, hq, hr⟩ := h
  refine ⟨queue, hq.trans hs.1.symm, ?_⟩
  rwa [hs.2]

theorem HasRecord.append (h : HasRecord log l) (hl : InboxLawful log c)
    (hs : ∀ e ∈ c.label.call.sweeps, ¬ (e.2.1.name = l.queue ∧ e.2.2 = l.id)) :
    HasRecord (log ++ [c]) l := by
  obtain ⟨queue, hq, hr⟩ := h
  obtain ⟨record, hrecord⟩ := Option.ne_none_iff_exists'.mp hr
  refine ⟨queue, hq, ?_⟩
  rw [hl.keeps_record hrecord fun entries hcall e he heq => ?_]
  · simp
  · rw [hcall] at hs
    exact hs e he ⟨by rw [heq, hq], by rw [heq]⟩

theorem HasRecord.persists {n : ℕ} (h : HasRecord (log.take n) l) (hl : log.Lawful InboxLawful)
    (hs : ¬ Order.Swept log l) : HasRecord log l := by
  refine hl.invariant_since (I := fun log => HasRecord log l) h fun log' c _ hc hmem hr => ?_
  refine hr.append hc fun e he heq => hs ⟨c, List.mem_of_mem_drop hmem, e, he, heq⟩

theorem Recorded.hasRecord {n : ℕ} (h : Recorded log n l) : ∃ m, HasRecord (log.take m) l := by
  obtain ⟨queue, hq, m, -, hr⟩ := h
  exact ⟨m, queue, hq, hr⟩

end Records

omit [DecidableEq κ] in
theorem parse_isSome {settings : Settings κ β} {location : Location} {body : List UInt8}
    (h : (PendingEntry.parse settings location body).isSome) (body' : List UInt8) :
    (PendingEntry.parse settings location body').isSome := by
  unfold PendingEntry.parse at h ⊢
  split_ifs with hkind
  · simp [hkind] at h
  · rw [if_neg hkind] at h
    split
    · rfl
    · rename_i hnone
      split at h
      · rename_i queue hq hform
        exact (hnone queue hq hform).elim
      · cases h

namespace Order

variable {settings : Settings κ β}

def SentAfter (settings : Settings κ β) (l l' : Location) : Prop :=
  ∃ o ∈ l.stem.bind settings.ulid, ∃ o' ∈ l'.stem.bind settings.ulid, o' < o

structure SendsInv (settings : Settings κ β) (sent mine since : List Location)
    (applied : List (ℕ × Location)) : Prop where
  paths : ∀ l ∈ sent, ∀ l' ∈ sent, l.path = l'.path → l = l'
  mem : ∀ l ∈ mine, l ∈ sent
  parsed : ∀ l ∈ mine, ∀ body, (PendingEntry.parse settings l body).isSome
  ordered : ∀ l ∈ mine, (l.stem.bind settings.ulid).isSome
  orders : mine.Pairwise (SentAfter settings)
  recent : since <+: mine
  noted : ∀ p ∈ applied, p.2 ∈ sent

/-- An entry that was sent before an applied one is settled: its object is gone, or it had
its record then. -/
structure SettledInv (log : History κ β) (objects : Objects) (mine : List Location)
    (applied : List (ℕ × Location)) : Prop where
  unswept : ∀ l ∈ mine, objects l ≠ none → ¬ Swept log l
  before : ∀ p ∈ applied, ∀ l, [p.2, l].Sublist mine →
    objects l = none ∨ HasRecord (log.take p.1) l

structure ListingInv (objects : Objects) (mine since : List Location) (cursor : List Char)
    (found : List PendingEntry) : Prop where
  one : since.length ≤ 1
  finds : ∀ l ∈ mine, l ∉ since → objects l ≠ none → ¬ cursor < l.path →
    l ∈ found.map (·.location)
  read : ∀ e ∈ found, ¬ cursor < e.location.path
  there : ∀ e ∈ found, objects e.location ≠ none
  nodup : (found.map (·.location)).Nodup

/-- What a pass has still to settle: an entry that was sent before one of these is one of
them or is settled. -/
structure WorkInv (log : History κ β) (objects : Objects) (mine : List Location)
    (left : List PendingEntry) (settled : List Location) : Prop where
  there : ∀ e ∈ left, objects e.location ≠ none
  nodup : (left.map (·.location)).Nodup
  settled : ∀ e ∈ left, e.location ∉ settled
  sorted : left.Pairwise PendingEntry.NotAfter
  ahead : ∀ e ∈ left, ∀ l, [e.location, l].Sublist mine →
    l ∈ left.map (·.location) ∨ objects l = none ∨ HasRecord log l

section Keep

variable {log log' : History κ β} {objects objects' : Objects} {mine since : List Location}
  {applied : List (ℕ × Location)} {left : List PendingEntry} {settled sent : List Location}
  {s : Inbox.State κ β}

theorem WorkInv.nil : WorkInv log objects mine [] settled :=
  ⟨by simp, by simp, by simp, .nil, by simp⟩

theorem WorkInv.keep {settled' : List Location} (h : WorkInv log objects mine left settled)
    (hthere : ∀ e ∈ left, objects e.location ≠ none → objects' e.location ≠ none)
    (hobjects : ∀ l ∈ mine, objects' l ≠ none → objects l ≠ none)
    (hlog : ∀ l ∈ mine, objects' l ≠ none → HasRecord log l → HasRecord log' l)
    (hsettled : settled' ⊆ settled) : WorkInv log' objects' mine left settled' where
  there e he := hthere e he (h.there e he)
  __ := h
  settled e he hm := h.settled e he (hsettled hm)
  ahead e he l hl := by
    have hmine : l ∈ mine := hl.subset (by simp)
    rcases h.ahead e he l hl with hleft | hnone | hr
    · exact .inl hleft
    · refine .inr (.inl ?_)
      by_contra hne
      exact hobjects l hmine hne hnone
    · by_cases hne : objects' l = none
      · exact .inr (.inl hne)
      · exact .inr (.inr (hlog l hmine hne hr))

theorem WorkInv.tail {e : PendingEntry} {settled' : List Location}
    (h : WorkInv log objects mine (e :: left) settled) (hr : HasRecord log' e.location)
    (hlog : ∀ l, HasRecord log l → HasRecord log' l)
    (hsettled : settled' ⊆ e.location :: settled) : WorkInv log' objects mine left settled' where
  there e' he := h.there e' (.tail _ he)
  nodup := (List.nodup_cons.mp h.nodup).2
  settled e' he hm := by
    rcases List.mem_cons.mp (hsettled hm) with heq | hm
    · exact (List.nodup_cons.mp h.nodup).1 (List.mem_map.mpr ⟨e', he, heq⟩)
    · exact h.settled e' (.tail _ he) hm
  sorted := (List.pairwise_cons.mp h.sorted).2
  ahead e' he l hl := by
    rcases h.ahead e' (.tail _ he) l hl with hleft | hnone | hrecord
    · rcases List.mem_cons.mp hleft with rfl | hleft
      · exact .inr (.inr hr)
      · exact .inl hleft
    · exact .inr (.inl hnone)
    · exact .inr (.inr (hlog l hrecord))

theorem SettledInv.keep (h : SettledInv log objects mine applied)
    (hobjects : ∀ l ∈ mine, objects' l ≠ none → objects l ≠ none)
    (htake : ∀ p ∈ applied, log'.take p.1 = log.take p.1)
    (hswept : ∀ l ∈ mine, objects' l ≠ none → Swept log' l → Swept log l) :
    SettledInv log' objects' mine applied where
  unswept l hl hne hs := h.unswept l hl (hobjects l hl hne) (hswept l hl hne hs)
  before p hp l hl := by
    rw [htake p hp]
    refine (h.before p hp l hl).imp_left fun hnone => ?_
    by_contra hne
    exact hobjects l (hl.subset (by simp)) hne hnone

theorem WorkInv.head {e : PendingEntry} (h : WorkInv log objects mine (e :: left) settled)
    (hsends : SendsInv settings sent mine since applied)
    (hlisted : ∀ e' ∈ e :: left, Listed settings s e') {l : Location}
    (hl : [e.location, l].Sublist mine) : objects l = none ∨ HasRecord log l := by
  refine (h.ahead e (.head _) l hl).resolve_left fun hmem => ?_
  obtain ⟨e', he', rfl⟩ := List.mem_map.mp hmem
  obtain ⟨o, ho, o', ho', hlt⟩ := (List.pairwise_cons.mp (hsends.orders.sublist hl)).1 _ (.head _)
  have horder {e' : PendingEntry} (he' : e' ∈ e :: left) :
      e'.order = e'.location.stem.bind settings.ulid := by
    obtain ⟨body, hp⟩ := (hlisted e' he').parsed
    exact (parse_eq_some hp).2.2.2
  rcases List.mem_cons.mp he' with rfl | hlater
  · rw [Option.mem_def] at ho ho'
    rw [ho] at ho'
    cases ho'
    exact lt_irrefl _ hlt
  · obtain ⟨o'', ho'', hle⟩ := (List.pairwise_cons.mp h.sorted).1 e' hlater o'
      (by rw [horder he']; exact ho')
    rw [horder (.head _), Option.mem_def] at ho''
    rw [Option.mem_def, ho''] at ho
    cases ho
    omega

omit [DecidableEq κ] in
theorem SendsInv.nodup (h : SendsInv settings sent mine since applied) : mine.Nodup := by
  refine h.orders.imp ?_
  rintro l _ ⟨o, ho, o', ho', hlt⟩ rfl
  rw [Option.mem_def] at ho ho'
  rw [ho] at ho'
  cases ho'
  exact lt_irrefl _ hlt

omit [DecidableEq κ] in
/-- One send since the listing began is not before another send of the process. -/
theorem SendsInv.not_mem_of_length (h : SendsInv settings sent mine since applied)
    (hone : since.length ≤ 1) {l l' : Location} (hsub : [l', l].Sublist mine) : l ∉ since := by
  intro hmem
  have hnodup := h.nodup
  obtain ⟨rest, rfl⟩ := h.recent
  obtain ⟨l₁, l₂, heq, h₁, h₂⟩ := List.sublist_append_iff.mp hsub
  cases l₂ with
  | nil =>
    rw [List.append_nil] at heq
    have hlen := h₁.length_le
    rw [← heq] at hlen
    simp only [List.length_cons, List.length_nil] at hlen
    omega
  | cons x l₂ =>
    have hlast : l ∈ x :: l₂ := by
      have hget : ([l', l] : List Location).getLast? = some l := rfl
      rw [heq, List.getLast?_append_of_ne_nil _ (by simp)] at hget
      exact List.mem_of_getLast? hget
    exact (List.nodup_append.mp hnodup).2.2 l hmem l (h₂.subset hlast) rfl

omit [DecidableEq κ] in
theorem commits_of_not {s : State κ β} (h : label.commits = false) : s.commits label = [] := by
  unfold State.commits
  split
  · simp [h]
  · rfl

omit [DecidableEq κ] in
theorem Noted.lt {log : History κ β} {applied : List (ℕ × Location)} (h : Noted log applied) :
    ∀ p ∈ applied, p.1 < log.length := by
  intro p hp
  obtain ⟨c, a, hc, -⟩ := h.commits p hp
  exact (List.getElem?_eq_some_iff.mp hc).1

theorem Noted.hasRecord {log : History κ β} {applied : List (ℕ × Location)}
    (h : Noted log applied) (hl : log.Lawful InboxLawful) {p : ℕ × Location} (hp : p ∈ applied) :
    HasRecord (log.take (p.1 + 1)) p.2 := by
  obtain ⟨c, a, hc, ha, hq, hid⟩ := h.commits p hp
  refine ⟨a.queue, hq, ?_⟩
  obtain ⟨hlt, hget⟩ := List.getElem?_eq_some_iff.mp hc
  rw [List.take_add_one, hc, ← hid]
  exact (hl.get hc).writes.recorded ha _

end Keep

variable [DecidableEq β] {s s' : State κ β}

structure Inv (settings : Settings κ β) (s : State κ β) : Prop where
  inbox : (Inbox.machine settings).Reachable s.inbox
  recorded : ∀ l ∈ s.inbox.sent, s.inbox.objects l = none →
    Recorded s.inbox.queue.log s.inbox.flushed l
  sends : SendsInv settings s.inbox.sent s.mine s.since s.applied
  noted : Noted s.inbox.queue.log s.applied
  inOrder : InSendOrder s.mine s.applied
  settled : SettledInv s.inbox.queue.log s.inbox.objects s.mine s.applied
  listing : ∀ found, s.inbox.pass = some (.listing found) →
    ListingInv s.inbox.objects s.mine s.since s.cursor found
  work : WorkInv s.inbox.queue.log s.inbox.objects s.mine s.inbox.left s.inbox.settled

section Work

theorem Inv.reach (hi : Inv settings s) (h : Inbox.step settings s.inbox label = some inbox) :
    (Inbox.machine settings).Reachable inbox :=
  hi.inbox.next h

theorem Inv.keepsRecorded (hi : Inv settings s) (hl : ∀ location, label ≠ .remove location)
    (h : Inbox.step settings s.inbox label = some inbox) :
    ∀ l ∈ inbox.sent, inbox.objects l = none → Recorded inbox.queue.log inbox.flushed l :=
  recorded_step (Inbox.inv_reachable hi.inbox) h hl hi.recorded

theorem listed_left {s : Inbox.State κ β} (hi : Inbox.Inv settings s) :
    ∀ e ∈ s.left, Listed settings s e := by
  intro e he
  cases hp : s.pass with
  | none => simp [State.left, hp] at he
  | some phase =>
    have hphase := hi.pass phase hp
    simp only [Inbox.State.left, hp, Option.elim_some] at he
    cases phase with
    | listing found => cases he
    | between later => exact hphase e he
    | settling b =>
      rcases List.mem_append.mp he with he | he
      · obtain ⟨slot, hs, rfl⟩ := List.mem_map.mp he
        exact (hphase.1.slots slot hs).listed
      · exact hphase.1.later e he
    | closing later settled failed | flushing later settled failed commits
    | deleting later settled failed =>
      cases failed with
      | true => cases he
      | false => exact hphase.1 e he

/-- What a commit of the first entry adds. -/
theorem Inv.commit {entry : PendingEntry} {later : List PendingEntry} {a : Application}
    {c : CallCommit κ β} (hi : Inv settings s)
    (hreach : (Inbox.machine settings).Reachable inbox)
    (hlog : inbox.queue.log = s.inbox.queue.log ++ [c]) (hcall : c.label.call = a.call)
    (hqueue : a.queue = entry.queue) (hid : a.id = entry.id)
    (hleft : s.inbox.left = entry :: later) :
    Noted inbox.queue.log ((s.inbox.queue.log.length, entry.location) :: s.applied) ∧
      InSendOrder s.mine ((s.inbox.queue.log.length, entry.location) :: s.applied) ∧
      SettledInv inbox.queue.log s.inbox.objects s.mine
        ((s.inbox.queue.log.length, entry.location) :: s.applied) ∧
      HasRecord inbox.queue.log entry.location ∧
      ∀ l, HasRecord s.inbox.queue.log l → HasRecord inbox.queue.log l := by
  have happ : c.label.call.application = some a := by
    rw [hcall]
    exact Application.application_call a
  have hlawful := (Inbox.inv_reachable hreach).lawful
  have hlawful' := (Inbox.inv_reachable hi.inbox).lawful
  have hsweeps : c.label.call.sweeps = [] := by
    rw [Call.eq_of_application happ]
    obtain ⟨queue, id, appliedAt, effect⟩ := a
    cases effect <;> rfl
  have hc : InboxLawful s.inbox.queue.log c := by
    have hget := hlawful.get (n := s.inbox.queue.log.length) (c := c) (by simp [hlog])
    rwa [hlog, List.take_left] at hget
  have hlisted := listed_left (Inbox.inv_reachable hi.inbox)
  rw [hleft] at hlisted
  have hwork := hi.work
  rw [hleft] at hwork
  obtain ⟨body, hparse⟩ := (hlisted entry (.head _)).parsed
  obtain ⟨-, hname, hentryId, -⟩ := parse_eq_some hparse
  have hnone : ¬ HasRecord s.inbox.queue.log entry.location := by
    rw [hasRecord_iff hname, ← hentryId, ← hqueue, ← hid, hc.applies a happ]
    simp
  have hthere := hwork.there entry (.head _)
  have hnever (hmine : entry.location ∈ s.mine) (n : ℕ) :
      ¬ HasRecord (s.inbox.queue.log.take n) entry.location := fun hr =>
    hnone (hr.persists hlawful' (hi.settled.unswept _ hmine hthere))
  refine ⟨⟨?_, ?_, ?_⟩, ⟨?_, ?_⟩, ⟨?_, ?_⟩, ?_, ?_⟩
  · exact List.pairwise_cons.mpr ⟨hi.noted.lt, hi.noted.places⟩
  · intro p hp
    rcases List.mem_cons.mp hp with rfl | hp
    · refine ⟨c, a, by simp [hlog], happ, ?_, ?_⟩
      · rw [hqueue, hname]
      · rw [hid, hentryId]
    · obtain ⟨c', a', hc', ha', hsame⟩ := hi.noted.commits p hp
      refine ⟨c', a', ?_, ha', hsame⟩
      rw [hlog, List.getElem?_append_left (hi.noted.lt p hp), hc']
  · intro n c' a' hn ha'
    rw [hlog] at hn
    rcases Log.getElem?_append_singleton.mp hn with hn | ⟨rfl, rfl⟩
    · obtain ⟨l, hl⟩ := hi.noted.complete n c' a' hn ha'
      exact ⟨l, .tail _ hl⟩
    · exact ⟨entry.location, .head _⟩
  · rw [List.filter_cons]
    split_ifs with hmine
    · simp only [decide_eq_true_eq] at hmine
      refine List.pairwise_cons.mpr ⟨fun p hp => ?_, hi.inOrder.order⟩
      obtain ⟨hp, hpm⟩ := List.mem_filter.mp hp
      simp only [decide_eq_true_eq] at hpm
      rcases List.sublist_pair_total hmine hpm with heq | hsub | hsub
      · have hr := hi.noted.hasRecord hlawful' hp
        rw [← heq] at hr
        exact absurd hr (hnever hmine _)
      · exact hsub
      · exact ((hi.settled.before p hp _ hsub).elim hthere (hnever hmine _)).elim
    · exact hi.inOrder.order
  · intro p hp l hl hsame
    rcases List.mem_cons.mp hp with rfl | hp
    · have hmine : entry.location ∈ s.mine := hl.subset (by simp)
      rcases hwork.head hi.sends hlisted hl with hgone | hr
      · obtain ⟨m, hr⟩ := (hi.recorded l (hi.sends.mem l (hl.subset (by simp))) hgone).hasRecord
        exact hnever hmine m (hr.sameId hsame)
      · exact hnone (hr.sameId hsame)
    · exact hi.inOrder.first p hp l hl hsame
  · intro l hl hne
    rintro ⟨c', hc', e, he, heq⟩
    rw [hlog] at hc'
    rcases List.mem_append.mp hc' with hc' | hc'
    · exact hi.settled.unswept l hl hne ⟨c', hc', e, he, heq⟩
    · rw [List.mem_singleton.mp hc', hsweeps] at he
      cases he
  · intro p hp l hl
    rcases List.mem_cons.mp hp with rfl | hp
    · rw [hlog, List.take_left]
      exact hwork.head hi.sends hlisted hl
    · rw [hlog, List.take_append_of_le_length (hi.noted.lt p hp).le]
      exact hi.settled.before p hp l hl
  · refine ⟨a.queue, by rw [hqueue, hname], ?_⟩
    rw [hlog, ← hentryId, ← hid]
    exact hc.writes.recorded happ _
  · intro l hr
    rw [hlog]
    exact hr.append hc (by simp [hsweeps])

end Work

end Order

end Taquba.Inbox
