import Taquba.Inbox.Runs

/-! # What the steps of an inbox do

A step in the settlement of a batch changes what is read of its entries, settles the first
of them, with or without a commit, or fails. A pass settles the entries of its sorted
listing from the front, and it deletes objects of settled entries only. The sends are
recorded once and for all, and what is flushed stays flushed. Where only passes delete
objects, an object that is no more has a flushed record.
-/

namespace Taquba.Inbox

open Snapshot Transition

variable {κ β : Type} [DecidableEq κ] [DecidableEq β] {settings : Settings κ β}
  {s s' : State κ β} {label : Label κ β}
variable {later : List PendingEntry} {failed : Bool}

def Label.ofPass : Label κ β → Bool
  | .list _ | .listed | .batch | .check _ | .read _ _ | .settle _ _ | .readHead _ _
  | .apply _ _ _ _ _ | .refuse _ _ _ | .reject _ _ | .fail | .beginFlush | .endFlush _
  | .delete _ => true
  | _ => false

def Label.ofWriter : Label κ β → Bool
  | .queue _ | .scan _ _ | .sweep _ | .endSweep => true
  | _ => false

def Label.commits : Label κ β → Bool
  | .apply _ _ _ _ _ | .reject _ _ => true
  | _ => false

inductive SettleMove (s : State κ β) (b : Batch) : Label κ β → State κ β → Prop
  | stay {label : Label κ β} (b' : Batch) (hlabel : label.commits = false)
      (hslots : b'.slots.map (·.entry) = b.slots.map (·.entry)) (hlater : b'.later = b.later)
      (hsettled : b'.settled = b.settled) :
      SettleMove s b label { s with pass := some (.settling b') }
  | skip {label : Label κ β} (slot : Slot) (rest : List Slot) (hlabel : label.commits = false)
      (hslots : b.slots = slot :: rest)
      (hwhy : s.store (.inboxRecord slot.entry.queue slot.entry.id) ≠ none ∨
        slot.fetch = .done (some .missing) ∨ s.objects slot.entry.location = none) :
      SettleMove s b label { s with pass := b.settleHead slot rest }
  | commit {label : Label κ β} (slot : Slot) (rest : List Slot) (a : Application) (snap : ℕ)
      (queue : Queue.State κ β) (reported : Bool) (hlabel : label.commits = true)
      (hslots : b.slots = slot :: rest) (hqueue : a.queue = slot.entry.queue)
      (hid : a.id = slot.entry.id)
      (hstep : Queue.step s.queue (.commit a.call snap) = some queue) :
      SettleMove s b label { s with queue, pass := b.afterCommit slot rest reported }
  | fail {label : Label κ β} (hlabel : label.commits = false) :
      SettleMove s b label { s with pass := b.failHead }

section Settle

variable {b : Batch} {slot : Slot} {rest : List Slot}

theorem SettleMove.withHead {head : Settling} (hlabel : label.commits = false) :
    SettleMove s b label { s with pass := b.withHead head } :=
  .stay _ hlabel rfl rfl rfl

theorem SettleMove.setFetch {i : ℕ} {fetch : Fetch} (hlabel : label.commits = false)
    (hslot : b.slots[i]? = some slot) : SettleMove s b label { s with
      pass := some (.settling { b with slots := b.slots.set i { slot with fetch } }) } := by
  refine .stay _ hlabel (List.ext_getElem? fun j => ?_) rfl rfl
  rw [List.getElem?_map, List.getElem?_map, List.getElem?_set]
  split
  · rename_i hij
    subst hij
    obtain ⟨hlt, hget⟩ := List.getElem?_eq_some_iff.mp hslot
    simp [hlt, hget]
  · rfl

theorem SettleMove.afterRead {now : ℕ} {unreadable : Bool} {read : Read}
    (hlabel : label.commits = false) (hslots : b.slots = slot :: rest)
    (hmissing : read = .missing →
      slot.fetch = .done (some .missing) ∨ s.objects slot.entry.location = none) :
    SettleMove s b label { s with pass := b.afterRead settings slot rest now unreadable read } := by
  cases read with
  | body body =>
    simp only [Batch.afterRead]
    split
    · exact .withHead hlabel
    · exact .withHead hlabel
  | rejected rejection => exact .withHead hlabel
  | missing => exact .skip slot rest hlabel hslots (.inr (hmissing rfl))
  | failed detail =>
    simp only [Batch.afterRead]
    split
    · exact .withHead hlabel
    · exact .fail hlabel

theorem SettleMove.settleEntry {prefetched : Option Read} {now : ℕ} {unreadable : Bool}
    (hlabel : label.commits = false) (hslots : b.slots = slot :: rest)
    (hfetch : slot.fetch = .done prefetched) : SettleMove s b label
      { s with pass := b.settleEntry settings s slot rest prefetched now unreadable } := by
  unfold Batch.settleEntry
  split_ifs with hsome
  · exact .skip slot rest hlabel hslots (.inl (Option.isSome_iff_ne_none.mp hsome))
  · split
    · exact .withHead hlabel
    · split
      · refine .afterRead hlabel hslots fun hm => .inl ?_
        rw [hfetch, hm]
      · exact .withHead hlabel

theorem SettleStep.move (h : SettleStep settings s b label s') : SettleMove s b label s' := by
  cases h with
  | check hslot => exact .setFetch rfl hslot
  | read hslot => exact .setFetch rfl hslot
  | settle hhead hslots => exact .settleEntry rfl hslots rfl
  | readHead hhead hslots =>
    exact .afterRead rfl hslots fun hm => .inr (readObject_eq_missing hm)
  | apply hhead hslots heffect hqueue => exact .commit _ _ _ _ _ _ rfl hslots rfl rfl hqueue
  | refuse => exact .withHead rfl
  | reject hhead hslots hqueue => exact .commit _ _ _ _ _ _ rfl hslots rfl rfl hqueue
  | fail => exact .fail rfl

theorem SettleMove.fixed (h : SettleMove s b label s') :
    s'.objects = s.objects ∧ s'.sent = s.sent ∧ s'.flushed = s.flushed := by
  cases h with
  | _ => exact ⟨rfl, rfl, rfl⟩

end Settle

theorem pass_of_writer (hl : label.ofWriter = true) (h : step settings s label = some s') :
    s'.pass = s.pass := by
  cases step_cases h with
  | scan | sweep | failSweep | endSweep | commit | requeue | send | remove => rfl
  | settling hpass h => cases h <;> cases hl
  | _ => cases hl

/-- Only a send adds a location, whose object is there after it, and what is flushed
stays. -/
theorem step_fixed (hi : Inv settings s) (h : step settings s label = some s') :
    (s'.sent = s.sent ∨ ∃ location, s'.sent = location :: s.sent ∧
      s'.objects location ≠ none) ∧ s.flushed ≤ s'.flushed := by
  cases step_cases h with
  | send => exact ⟨.inr ⟨_, rfl, by simp⟩, le_rfl⟩
  | @crash kept todo queue hkept hqueue =>
    refine ⟨.inl rfl, ?_⟩
    rw [show ({ s with queue, flushed := queue.log.length } : State κ β).flushed =
      queue.log.length from rfl, Queue.log_of_reopen hqueue, List.length_take]
    exact le_min hkept hi.flushed
  | settling hpass h =>
    obtain ⟨-, hsent, hflushed⟩ := h.move.fixed
    exact ⟨.inl hsent, hflushed.ge⟩
  | endFlush => exact ⟨.inl rfl, Nat.le_max_left _ _⟩
  | _ => exact ⟨.inl rfl, le_rfl⟩

theorem sent_of_ofPass (hl : label.ofPass = true) (h : step settings s label = some s') :
    s'.sent = s.sent := by
  cases step_cases h with
  | send => cases hl
  | settling hpass h => exact h.move.fixed.2.1
  | _ => rfl

theorem Recorded.step {location : Location} (hi : Inv settings s)
    (h : step settings s label = some s') (hr : Recorded s.queue.log s.flushed location) :
    Recorded s'.queue.log s'.flushed location := by
  have htake : Recorded (s.queue.log.take s.flushed) s.flushed location := by
    obtain ⟨queue, hq, m, hm, hrecord⟩ := hr
    refine ⟨queue, hq, m, hm, ?_⟩
    rwa [List.take_take, min_eq_left hm]
  refine htake.mono (flushed_survive hi h) (step_fixed hi h).2 ?_
  rw [List.length_take]
  exact le_min le_rfl hi.flushed

/-- Without removals by others, an object that is no more has a flushed record. -/
theorem recorded_step (hi : Inv settings s) (h : step settings s label = some s')
    (hl : ∀ location, label ≠ .remove location)
    (hr : ∀ location ∈ s.sent, s.objects location = none →
      Recorded s.queue.log s.flushed location) :
    ∀ location ∈ s'.sent, s'.objects location = none →
      Recorded s'.queue.log s'.flushed location := by
  intro location hsent hnone
  have hmem : location ∈ s.sent := by
    obtain hs | ⟨l, hs, hobj⟩ := (step_fixed hi h).1
    · rwa [hs] at hsent
    · rw [hs] at hsent
      rcases List.mem_cons.mp hsent with rfl | hm
      · exact absurd hnone hobj
      · exact hm
  refine Recorded.step hi h ?_
  by_cases hthere : s.objects location = none
  · exact hr location hmem hthere
  · exact recorded_of_deleted hi h (hl location) hthere hnone

def Phase.isListing : Phase → Bool
  | .listing _ => true
  | _ => false

/-- The entries that a pass has still to settle, once its listing is sorted. -/
def Phase.left : Phase → List PendingEntry
  | .listing _ => []
  | .between later => later
  | .settling b => b.slots.map (·.entry) ++ b.later
  | .closing later _ failed | .flushing later _ failed _ | .deleting later _ failed =>
    if failed then [] else later

/-- The locations of the settled entries of the batch, with objects that are still to be
deleted. -/
def Phase.settled : Phase → List Location
  | .listing _ | .between _ => []
  | .settling b => b.settled
  | .closing _ settled _ | .flushing _ settled _ _ | .deleting _ settled _ => settled

def State.left (s : State κ β) : List PendingEntry := s.pass.elim [] Phase.left

def State.settled (s : State κ β) : List Location := s.pass.elim [] Phase.settled

inductive WorkMove (s : State κ β) (label : Label κ β) (s' : State κ β) : Prop
  | stay (hlabel : label.commits = false) (hlog : s'.queue.log = s.queue.log)
      (hobjects : s'.objects = s.objects) (hleft : s'.left = s.left ∨ s'.left = [])
      (hsettled : s'.settled ⊆ s.settled)
  | skip (slot : Slot) (later : List PendingEntry) (hlabel : label.commits = false)
      (hlog : s'.queue.log = s.queue.log) (hobjects : s'.objects = s.objects)
      (hslot : ∃ b, s.pass = some (.settling b) ∧ slot ∈ b.slots)
      (hleft : s.left = slot.entry :: later) (hleft' : s'.left = later)
      (hsettled : s'.settled ⊆ slot.entry.location :: s.settled)
      (hwhy : s.store (.inboxRecord slot.entry.queue slot.entry.id) ≠ none ∨
        slot.fetch = .done (some .missing) ∨ s.objects slot.entry.location = none)
  | commit (entry : PendingEntry) (later : List PendingEntry) (a : Application)
      (c : CallCommit κ β) (hlabel : label.commits = true)
      (hpass : ∃ b slot rest, s.pass = some (.settling b) ∧ b.slots = slot :: rest ∧
        slot.entry = entry)
      (hlog : s'.queue.log = s.queue.log ++ [c]) (hcall : c.label.call = a.call)
      (hqueue : a.queue = entry.queue) (hid : a.id = entry.id)
      (hobjects : s'.objects = s.objects) (hleft : s.left = entry :: later)
      (hleft' : s'.left = later ∨ s'.left = [])
      (hsettled : s'.settled ⊆ entry.location :: s.settled)
  | delete (location : Location) (hlabel : label.commits = false)
      (hlog : s'.queue.log = s.queue.log)
      (hobjects : s'.objects = Function.update s.objects location none)
      (hleft : s'.left = s.left) (hmem : location ∈ s.settled)
      (hsettled : s'.settled ⊆ s.settled)

section Work

variable {b : Batch} {slot : Slot} {rest : List Slot}

theorem left_closeBatch {settled : List Location} :
    (closeBatch later settled failed).elim [] Phase.left = if failed then [] else later := by
  unfold closeBatch afterBatch
  split
  · cases failed <;> rfl
  · rfl

theorem settled_closeBatch {settled : List Location} :
    (closeBatch later settled failed).elim [] Phase.settled ⊆ settled := by
  unfold closeBatch afterBatch
  split
  · cases failed <;> exact List.nil_subset _
  · exact List.Subset.refl _

theorem left_settleHead : (b.settleHead slot rest).elim [] Phase.left =
    rest.map (·.entry) ++ b.later := by
  unfold Batch.settleHead
  simp only
  split_ifs with hrest
  · rw [left_closeBatch, hrest]
    rfl
  · rfl

theorem settled_settleHead : (b.settleHead slot rest).elim [] Phase.settled ⊆
    slot.entry.location :: b.settled := by
  have hmem : b.settled ++ [slot.entry.location] ⊆ slot.entry.location :: b.settled := by
    intro l hl
    rcases List.mem_append.mp hl with hl | hl
    · exact .tail _ hl
    · rw [List.mem_singleton.mp hl]
      exact .head _
  unfold Batch.settleHead
  simp only
  split
  · exact List.Subset.trans settled_closeBatch hmem
  · exact hmem

theorem SettleMove.work (hreach : (Queue.machine κ β).Reachable s.queue)
    (hpass : s.pass = some (.settling b)) (h : SettleMove s b label s') : WorkMove s label s' := by
  have hleft : s.left = b.slots.map (·.entry) ++ b.later := by simp [State.left, hpass, Phase.left]
  have hsettled : s.settled = b.settled := by simp [State.settled, hpass, Phase.settled]
  cases h with
  | stay b' hlabel hslots hlater hsame =>
    refine .stay hlabel rfl rfl (.inl ?_) ?_
    · rw [hleft, ← hslots, ← hlater]
      rfl
    · rw [hsettled, ← hsame]
      exact List.Subset.refl _
  | skip slot rest hlabel hslots hwhy =>
    refine .skip slot (rest.map (·.entry) ++ b.later) hlabel rfl rfl ⟨b, hpass, ?_⟩ ?_
      left_settleHead ?_ hwhy
    · rw [hslots]
      exact .head _
    · rw [hleft, hslots]
      rfl
    · rw [hsettled]
      exact settled_settleHead
  | commit slot rest a snap queue reported hlabel hslots hqueue hid hstep =>
    obtain ⟨-, -, c, -, hlog, hcall, -⟩ := Queue.commit_traces hreach hstep
    refine .commit slot.entry (rest.map (·.entry) ++ b.later) a c hlabel
      ⟨b, slot, rest, hpass, hslots, rfl⟩ hlog hcall hqueue hid rfl ?_ ?_ ?_
    · rw [hleft, hslots]
      rfl
    · cases reported with
      | true => exact .inl left_settleHead
      | false => exact .inr left_closeBatch
    · rw [hsettled]
      cases reported with
      | true => exact settled_settleHead
      | false => exact List.Subset.trans settled_closeBatch (List.subset_cons_self _ _)
  | fail hlabel =>
    refine .stay hlabel rfl rfl (.inr left_closeBatch) ?_
    rw [hsettled]
    exact settled_closeBatch

theorem work_of_ofPass (hreach : (Queue.machine κ β).Reachable s.queue) (hl : label.ofPass = true)
    (hlist : ∀ location, label ≠ .list location) (hlisted : label ≠ .listed)
    (h : step settings s label = some s') : WorkMove s label s' := by
  have hstay {phase : Phase} {pass : Option Phase} {flushed : ℕ} (hpass : s.pass = some phase)
      (hlabel : label.commits = false)
      (hleft : pass.elim [] Phase.left = phase.left ∨ pass.elim [] Phase.left = [])
      (hsettled : pass.elim [] Phase.settled ⊆ phase.settled) :
      WorkMove s label { s with pass, flushed } := by
    refine .stay hlabel rfl rfl ?_ ?_
    · rw [show s.left = phase.left by simp [State.left, hpass]]
      exact hleft
    · rw [show s.settled = phase.settled by simp [State.settled, hpass]]
      exact hsettled
  cases step_cases h with
  | list => exact absurd rfl (hlist _)
  | listed => exact absurd rfl hlisted
  | abort hpass => exact hstay hpass rfl (.inr rfl) (List.nil_subset _)
  | finish hpass => exact hstay hpass rfl (.inr rfl) (List.nil_subset _)
  | batch hpass hne hslots =>
    refine hstay hpass rfl (.inl ?_) (List.nil_subset _)
    simp [hslots, Phase.left, Function.comp_def]
  | settling hpass h => exact h.move.work hreach hpass
  | beginFlush hpass => exact hstay hpass rfl (.inl rfl) (List.Subset.refl _)
  | endFlush hpass => exact hstay hpass rfl (.inl rfl) (List.Subset.refl _)
  | failFlush hpass => exact hstay hpass rfl (.inr rfl) (List.nil_subset _)
  | @endBatch later failed _ hpass =>
    cases failed with
    | true => exact hstay hpass rfl (.inr rfl) (List.nil_subset _)
    | false => exact hstay hpass rfl (.inl rfl) (List.nil_subset _)
  | @delete later location rest failed deleted hpass =>
    cases deleted with
    | true =>
      have hsettled : s.settled = location :: rest := by
        simp [State.settled, hpass, Phase.settled]
      refine .delete location rfl rfl rfl (by simp [State.left, hpass, Phase.left]) ?_ ?_
      · rw [hsettled]
        exact .head _
      · rw [hsettled]
        exact List.subset_cons_self _ _
    | false => exact hstay hpass rfl (.inl rfl) (List.subset_cons_self _ _)
  | _ => cases hl

end Work

section Listing

theorem isListing_afterBatch : ∀ phase ∈ afterBatch later failed, phase.isListing = false := by
  cases failed with
  | true => rintro _ ⟨⟩
  | false =>
    rintro _ ⟨⟩
    rfl

theorem isListing_closeBatch {settled : List Location} :
    ∀ phase ∈ closeBatch later settled failed, phase.isListing = false := by
  unfold closeBatch
  split
  · exact isListing_afterBatch
  · rintro _ ⟨⟩
    rfl

theorem isListing_settleHead {b : Batch} {slot : Slot} {rest : List Slot} :
    ∀ phase ∈ b.settleHead slot rest, phase.isListing = false := by
  unfold Batch.settleHead
  simp only
  split
  · exact isListing_closeBatch
  · rintro _ ⟨⟩
    rfl

theorem SettleMove.isListing {b : Batch} (h : SettleMove s b label s') :
    ∀ phase ∈ s'.pass, phase.isListing = false := by
  cases h with
  | stay b' =>
    rintro _ ⟨⟩
    rfl
  | skip slot rest => exact isListing_settleHead
  | commit slot rest a snap queue reported =>
    cases reported with
    | true => exact isListing_settleHead
    | false => exact isListing_closeBatch
  | fail => exact isListing_closeBatch

theorem isListing_step {phase : Phase} (hpass : s.pass = some phase) (hl : label.ofPass = true)
    (hlisted : label ≠ .listed) (h : step settings s label = some s') :
    ∀ phase' ∈ s'.pass, phase'.isListing = phase.isListing := by
  cases step_cases h with
  | listed => exact absurd rfl hlisted
  | settling hp h =>
    obtain rfl := Option.some.inj (hpass.symm.trans hp)
    exact h.move.isListing
  | endBatch hp =>
    obtain rfl := Option.some.inj (hpass.symm.trans hp)
    exact isListing_afterBatch
  | abort | finish | failFlush => rintro _ ⟨⟩
  | list hp | batch hp | beginFlush hp | endFlush hp | delete hp =>
    obtain rfl := Option.some.inj (hpass.symm.trans hp)
    rintro _ ⟨⟩
    rfl
  | _ => cases hl

theorem not_listing_step (hl : label.ofPass = true) (hlist : ∀ location, label ≠ .list location)
    (hlisted : label ≠ .listed) (h : step settings s label = some s') :
    ∀ phase ∈ s'.pass, phase.isListing = false := by
  cases step_cases h with
  | list => exact absurd rfl (hlist _)
  | listed => exact absurd rfl hlisted
  | settling hpass h => exact h.move.isListing
  | endBatch => exact isListing_afterBatch
  | abort | finish | failFlush => rintro _ ⟨⟩
  | batch | beginFlush | endFlush | delete =>
    rintro _ ⟨⟩
    rfl
  | _ => cases hl

end Listing

end Taquba.Inbox
