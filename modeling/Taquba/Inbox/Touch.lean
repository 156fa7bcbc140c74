import Taquba.Inbox.Moves

/-! # The touch poll

The pass task sends a HEAD for the touch object and runs a pass when the object changed,
when the interval is over or when its last pass failed. A send puts its entry and then
overwrites the touch object, and two touches have different metadata. A listing returns
every object that was there when it began.
-/

namespace Taquba.Inbox

open Transition

variable {κ β : Type}
variable {inbox : Inbox.State κ β} {label : Inbox.Label κ β} {ok : Bool}

namespace Touch

/-- The pass task. `touched` is the touch object at the HEAD before the last pass, and
`passed` says that the last pass succeeded. -/
inductive Task where
  | closed
  | opening (touched : Option ℕ)
  | idle (touched : Option ℕ) (passed : Bool)
  | stepping (touched : Option ℕ)
  deriving DecidableEq

def Task.touched : Task → Option ℕ
  | .closed => none
  | .opening touched | .idle touched _ | .stepping touched => touched

def Task.passing : Task → Bool
  | .opening _ | .stepping _ => true
  | _ => false

/-- The task after its pass. A failed first pass fails the open. -/
def Task.afterPass (ok : Bool) : Task → Task
  | .opening touched => if ok then .idle touched true else .closed
  | .stepping touched => .idle touched ok
  | task => task

theorem afterPass_eq_idle {task : Task} {touched : Option ℕ}
    (h : task.afterPass ok = .idle touched true) :
    (ok = true ∧ task.touched = touched) ∨ task = .idle touched true := by
  cases task with
  | closed => cases h
  | opening seen =>
    cases ok with
    | true =>
      cases h
      exact .inl ⟨rfl, rfl⟩
    | false => cases h
  | idle seen passed => exact .inr h
  | stepping seen =>
    cases h
    exact .inl ⟨rfl, rfl⟩

/-- The inbox with the number of touches so far, the touch of each send that completed it,
and the pass task. `manual` says that the pass that holds the lock is not one of the task;
`before` has the locations of the objects when its listing began, `found` those that it
listed, and `listed` those that the successful passes listed. -/
structure State (κ β : Type) where
  inbox : Inbox.State κ β := {}
  touches : ℕ := 0
  completed : List (Location × ℕ) := []
  task : Task := .closed
  manual : Bool := false
  before : List Location := []
  found : List Location := []
  listed : List Location := []

inductive Label (κ β : Type) where
  | put (location : Location) (body : List UInt8)
  /-- The write of the touch object, at the end of a send or in an attempt that fails. -/
  | touch (sent : Option Location)
  /-- The HEAD of the opening or of a step. -/
  | head (ok : Bool) (elapsed : Bool)
  | lock (manual : Bool)
  | pass (label : Inbox.Label κ β)
  | drop
  | stop
  | writer (label : Inbox.Label κ β)
  | crash (kept : ℕ) (todo : List JobRecord)

/-- The metadata of the touch object, which is there after the first touch. -/
def State.touchMeta (s : State κ β) : Option ℕ :=
  if s.touches = 0 then none else some s.touches

/-- The touch object at a HEAD, or the one that was seen before when the HEAD fails. -/
def State.seenTouch (s : State κ β) (ok : Bool) (before : Option ℕ) : Option ℕ :=
  if ok then s.touchMeta else before

def State.endPass (s : State κ β) (ok : Bool) : State κ β :=
  { s with
    listed := if ok then s.found ++ s.listed else s.listed
    task := if s.manual then s.task else s.task.afterPass ok }

/-- The listing that ends has every object that was there when it began. -/
def State.complete (s : State κ β) (label : Inbox.Label κ β) : Bool :=
  match s.inbox.pass, label with
  | some (.listing found), .listed =>
    s.before.all fun location => location ∈ found.map (·.location)
  | _, _ => true

/-- What a step of the pass that holds the lock shows. A pass succeeds after its last
batch. -/
def State.observe (s : State κ β) (label : Inbox.Label κ β) (inbox : Inbox.State κ β) :
    State κ β :=
  match s.inbox.pass, label with
  | some (.listing found), .listed => { s with inbox, found := found.map (·.location) }
  | some (.between []), .batch => State.endPass { s with inbox } true
  | _, _ =>
    if inbox.pass = none then State.endPass { s with inbox } false else { s with inbox }

theorem touchMeta_getD {s : State κ β} : s.touchMeta.getD 0 = s.touches := by
  unfold State.touchMeta
  split_ifs with h
  · exact h.symm
  · rfl

theorem seenTouch_le {s : State κ β} {before : Option ℕ} (h : before.getD 0 ≤ s.touches) :
    (s.seenTouch ok before).getD 0 ≤ s.touches := by
  cases ok with
  | true => exact touchMeta_getD.le
  | false => exact h

variable [DecidableEq κ] [DecidableEq β] (settings : Settings κ β)

def step (s : State κ β) : Label κ β → Option (State κ β)
  | .put location body =>
    if (PendingEntry.parse settings location body).isSome ∧
        (location.stem.bind settings.ulid).isSome then
      (Inbox.step settings s.inbox (.send location body)).map fun inbox => { s with inbox }
    else none
  | .touch sent =>
    if ∀ location ∈ sent, location ∈ s.inbox.sent then
      some { s with
        touches := s.touches + 1
        completed := sent.toList.map (fun location => (location, s.touches + 1)) ++ s.completed }
    else none
  | .head ok elapsed =>
    match s.task with
    | .closed => some { s with task := .opening (s.seenTouch ok none) }
    | .idle touched passed =>
      if passed = false ∨ elapsed = true ∨ s.seenTouch ok touched ≠ touched then
        some { s with task := .stepping (s.seenTouch ok touched) }
      else some s
    | _ => none
  | .lock manual =>
    if manual ∨ s.task.passing then
      (Inbox.step settings s.inbox .lock).map fun inbox =>
        { s with inbox, manual, before := inbox.sent.filter fun l => (inbox.objects l).isSome }
    else none
  | .pass label =>
    if label.ofPass ∧ s.complete label then
      (Inbox.step settings s.inbox label).map (s.observe label)
    else none
  | .drop =>
    (Inbox.step settings s.inbox .drop).map fun inbox =>
      { s with inbox, task := if s.manual then s.task else .closed }
  | .stop =>
    if s.inbox.pass = none ∨ s.manual then some { s with task := .closed } else none
  | .writer label =>
    if label.ofWriter then
      (Inbox.step settings s.inbox label).map fun inbox => { s with inbox }
    else none
  | .crash kept todo =>
    (Inbox.step settings s.inbox (.crash kept todo)).map fun inbox =>
      { s with inbox, task := .closed }

/-- The runs of an inbox with senders and its pass task. -/
def machine : Machine (State κ β) (Label κ β) where
  init s := s = {}
  step := step settings

variable {settings} {s s' : State κ β}

/-- The entries whose send ended with one of the first touches are among the locations, or
their records are flushed. -/
def Covers (s : State κ β) (touched : Option ℕ) (locations : List Location) : Prop :=
  ∀ p ∈ s.completed, p.2 ≤ touched.getD 0 →
    p.1 ∈ locations ∨ Recorded s.inbox.queue.log s.inbox.flushed p.1

/-- What the listing of the pass has or has still to find. -/
def State.target (s : State κ β) (phase : Phase) : List Location :=
  if phase.isListing then s.before else s.found

variable (settings s) in
structure Inv : Prop where
  inbox : (Inbox.machine settings).Reachable s.inbox
  recorded : ∀ location ∈ s.inbox.sent, s.inbox.objects location = none →
    Recorded s.inbox.queue.log s.inbox.flushed location
  completed : ∀ p ∈ s.completed, p.1 ∈ s.inbox.sent ∧ p.2 ≤ s.touches
  seen : s.task.touched.getD 0 ≤ s.touches
  idle : ∀ touched, s.task = .idle touched true → Covers s touched s.listed
  pass : ∀ phase, s.inbox.pass = some phase → s.manual = false →
    s.task.passing = true ∧ Covers s s.task.touched (s.target phase)

omit [DecidableEq β] in
theorem Covers.of_recorded {touched : Option ℕ} {locations locations' : List Location}
    (h : Covers s touched locations) (hcompleted : s'.completed = s.completed)
    (hrecorded : ∀ location, Recorded s.inbox.queue.log s.inbox.flushed location →
      Recorded s'.inbox.queue.log s'.inbox.flushed location)
    (hsub : ∀ location ∈ locations, location ∈ locations') : Covers s' touched locations' := by
  intro p hp hle
  exact (h p (hcompleted ▸ hp) hle).imp (hsub p.1) (hrecorded p.1)

structure Kept (settings : Settings κ β) (s : State κ β) (inbox : Inbox.State κ β) : Prop where
  reachable : (Inbox.machine settings).Reachable inbox
  objects : ∀ location ∈ inbox.sent, inbox.objects location = none →
    Recorded inbox.queue.log inbox.flushed location
  sent : ∀ p ∈ s.completed, p.1 ∈ inbox.sent ∧ p.2 ≤ s.touches
  recorded : ∀ location, Recorded s.inbox.queue.log s.inbox.flushed location →
    Recorded inbox.queue.log inbox.flushed location

theorem Inv.kept (hi : Inv settings s) (hl : ∀ location, label ≠ .remove location)
    (h : Inbox.step settings s.inbox label = some inbox) : Kept settings s inbox := by
  have hinv := inv_reachable hi.inbox
  refine ⟨hi.inbox.next h, recorded_step hinv h hl hi.recorded, fun p hp => ?_,
    fun _ => Recorded.step hinv h⟩
  obtain ⟨hsent, hle⟩ := hi.completed p hp
  refine ⟨?_, hle⟩
  obtain hs | ⟨location, hs, -⟩ := (step_fixed hinv h).1
  · rwa [hs]
  · rw [hs]
    exact .tail _ hsent

/-- A step of the inbox outside the pass. -/
theorem Kept.inv (hk : Kept settings s inbox) (hi : Inv settings s)
    (hpass : inbox.pass = s.inbox.pass) : Inv settings { s with inbox } where
  inbox := hk.reachable
  recorded := hk.objects
  completed := hk.sent
  seen := hi.seen
  idle touched ht := (hi.idle touched ht).of_recorded rfl hk.recorded fun _ => id
  pass phase hp hm := by
    obtain ⟨hpassing, hc⟩ := hi.pass phase (hpass ▸ hp) hm
    exact ⟨hpassing, hc.of_recorded rfl hk.recorded fun _ => id⟩

theorem Kept.closed (hk : Kept settings s inbox) (hpass : inbox.pass = none) :
    Inv settings { s with inbox, task := .closed } where
  inbox := hk.reachable
  recorded := hk.objects
  completed := hk.sent
  seen := Nat.zero_le _
  idle := by rintro touched ⟨⟩
  pass phase hp := by
    rw [show ({ s with inbox, task := .closed } : State κ β).inbox.pass = none from hpass] at hp
    cases hp

theorem inv_touch {sent : Option Location} (hi : Inv settings s)
    (h : step settings s (.touch sent) = some s') : Inv settings s' := by
  simp only [step, Option.ite_none_right_eq_some] at h
  obtain ⟨hsent, ⟨⟩⟩ := h
  have hcovers {touched : Option ℕ} {locations : List Location}
      (hc : Covers s touched locations) (hseen : touched.getD 0 ≤ s.touches) :
      ∀ p ∈ sent.toList.map (fun location => (location, s.touches + 1)) ++ s.completed,
        p.2 ≤ touched.getD 0 →
        p.1 ∈ locations ∨ Recorded s.inbox.queue.log s.inbox.flushed p.1 := by
    intro p hp hle
    rcases List.mem_append.mp hp with hp | hp
    · obtain ⟨location, -, rfl⟩ := List.mem_map.mp hp
      simp only at hle
      omega
    · exact hc p hp hle
  refine ⟨hi.inbox, hi.recorded, fun p hp => ?_, Nat.le_succ_of_le hi.seen, ?_, ?_⟩
  · rcases List.mem_append.mp hp with hp | hp
    · obtain ⟨location, hl, rfl⟩ := List.mem_map.mp hp
      exact ⟨hsent location (Option.mem_toList.mp hl), le_rfl⟩
    · exact (hi.completed p hp).imp_right Nat.le_succ_of_le
  · intro touched ht
    refine hcovers (hi.idle touched ht) ?_
    have hseen := hi.seen
    rwa [show s.task = _ from ht] at hseen
  · intro phase hp hm
    exact (hi.pass phase hp hm).imp_right fun hc => hcovers hc hi.seen

theorem inv_head {elapsed : Bool} (hi : Inv settings s)
    (h : step settings s (.head ok elapsed) = some s') : Inv settings s' := by
  have hbegin {task : Task} (hseen : task.touched.getD 0 ≤ s.touches)
      (hidle : ∀ touched, task ≠ .idle touched true) (hpassing : s.task.passing = false) :
      Inv settings { s with task } := by
    refine { hi with seen := hseen, idle := ?_, pass := ?_ }
    · intro touched ht
      exact absurd ht (hidle touched)
    · intro phase hp hm
      have := (hi.pass phase hp hm).1
      rw [hpassing] at this
      cases this
  simp only [step] at h
  split at h
  · rename_i htask
    cases h
    exact hbegin (seenTouch_le (Nat.zero_le _)) (by simp) (by rw [htask]; rfl)
  · rename_i touched passed htask
    split at h
    · cases h
      have hseen := hi.seen
      rw [htask] at hseen
      exact hbegin (seenTouch_le hseen) (by simp) (by rw [htask]; rfl)
    · cases h
      exact hi
  · cases h

theorem inv_lock {manual : Bool} (hi : Inv settings s)
    (h : step settings s (.lock manual) = some s') : Inv settings s' := by
  obtain ⟨hguard, h⟩ := Option.ite_none_right_eq_some.mp h
  obtain ⟨inbox, hinbox, rfl⟩ := Option.map_eq_some_iff.mp h
  have hk := hi.kept (by simp) hinbox
  cases step_cases hinbox with
  | settling hpass h => cases h
  | lock =>
    refine ⟨hk.reachable, hk.objects, hk.sent, hi.seen, hi.idle, ?_⟩
    rintro phase ⟨⟩ hm
    refine ⟨hguard.resolve_left (by simpa using hm), fun p hp hle => ?_⟩
    have hsent := (hi.completed p hp).1
    by_cases hnone : s.inbox.objects p.1 = none
    · exact .inr (hi.recorded p.1 hsent hnone)
    · refine .inl (List.mem_filter.mpr ⟨hsent, ?_⟩)
      exact Option.isSome_iff_ne_none.mpr hnone

theorem Kept.endPass (hk : Kept settings s inbox) (hi : Inv settings s) (hpass : inbox.pass = none)
    (hc : ok = true → s.manual = false → Covers s s.task.touched s.found) :
    Inv settings (State.endPass { s with inbox } ok) := by
  have hpass' : ∀ phase, (State.endPass { s with inbox } ok).inbox.pass = some phase → False := by
    intro phase hp
    rw [show (State.endPass { s with inbox } ok).inbox.pass = none from hpass] at hp
    cases hp
  refine ⟨hk.reachable, hk.objects, hk.sent, ?_, ?_, fun phase hp => (hpass' phase hp).elim⟩
  · have hseen := hi.seen
    simp only [State.endPass]
    split
    · exact hseen
    · revert hseen
      cases s.task <;> cases ok <;> simp [Task.afterPass, Task.touched]
  · intro touched ht
    have hstay (h : s.task = .idle touched true) :
        Covers (State.endPass { s with inbox } ok) touched
          (State.endPass { s with inbox } ok).listed := by
      refine (hi.idle touched h).of_recorded rfl hk.recorded fun location hl => ?_
      cases ok with
      | true => exact List.mem_append_right _ hl
      | false => exact hl
    simp only [State.endPass] at ht
    split_ifs at ht with hm
    · exact hstay ht
    · rcases afterPass_eq_idle ht with ⟨rfl, htouched⟩ | hidle
      · refine (htouched ▸ hc rfl (by simpa using hm)).of_recorded rfl hk.recorded ?_
        exact fun location hl => List.mem_append_left _ hl
      · exact hstay hidle

theorem inv_listed {found : List PendingEntry} (hi : Inv settings s)
    (hlisting : s.inbox.pass = some (.listing found)) (hcomplete : s.complete .listed = true)
    (h : Inbox.step settings s.inbox .listed = some inbox) :
    Inv settings { s with inbox, found := found.map (·.location) } := by
  have hk := hi.kept (by simp) h
  cases step_cases h with
  | settling hpass h => cases h
  | listed hpass =>
    cases hlisting.symm.trans hpass
    refine ⟨hk.reachable, hk.objects, hk.sent, hi.seen, hi.idle, ?_⟩
    rintro phase ⟨⟩ hm
    obtain ⟨hpassing, hc⟩ := hi.pass _ hlisting hm
    refine ⟨hpassing, hc.of_recorded rfl hk.recorded fun location hl => ?_⟩
    simp only [State.complete, hlisting, List.all_eq_true, decide_eq_true_eq] at hcomplete
    exact hcomplete location hl

theorem pass_of_ofPass {s s' : Inbox.State κ β} (hl : label.ofPass = true)
    (h : Inbox.step settings s label = some s') :
    ∃ phase, s.pass = some phase ∧ (label = .listed → phase.isListing = true) := by
  cases step_cases h with
  | listed hp => exact ⟨_, hp, fun _ => rfl⟩
  | settling hp h => exact ⟨_, hp, by rintro rfl; cases h⟩
  | list hp | abort hp | finish hp | batch hp | beginFlush hp | endFlush hp | failFlush hp
  | endBatch hp | delete hp => exact ⟨_, hp, by simp⟩
  | _ => cases hl

theorem inv_pass (hi : Inv settings s) (h : step settings s (.pass label) = some s') :
    Inv settings s' := by
  simp only [step, Option.ite_none_right_eq_some, Option.map_eq_some_iff] at h
  obtain ⟨⟨hofPass, hcomplete⟩, inbox, hinbox, rfl⟩ := h
  have hk := hi.kept (by rintro location rfl; cases hofPass) hinbox
  obtain ⟨phase, hp, hphase⟩ := pass_of_ofPass hofPass hinbox
  unfold State.observe
  split
  · rename_i found hlisting
    exact inv_listed hi hlisting hcomplete hinbox
  · rename_i hbetween
    refine hk.endPass hi ?_ fun _ hm => (hi.pass _ hbetween hm).2
    cases step_cases hinbox with
    | settling hpass h => cases h
    | finish => rfl
    | batch hpass hne => exact absurd (by cases hbetween.symm.trans hpass; rfl) hne
  · rename_i hlisted hbatch
    split_ifs with hnone
    · refine hk.endPass hi hnone ?_
      rintro ⟨⟩
    · refine ⟨hk.reachable, hk.objects, hk.sent, hi.seen, ?_, ?_⟩
      · intro touched ht
        exact (hi.idle touched ht).of_recorded rfl hk.recorded fun _ => id
      · intro phase' hp' hm
        obtain ⟨hpassing, hc⟩ := hi.pass _ hp hm
        have hsame : phase'.isListing = phase.isListing := by
          refine isListing_step hp hofPass ?_ hinbox phase' hp'
          rintro rfl
          cases phase with
          | listing found => exact hlisted found hp rfl
          | _ => cases hphase rfl
        refine ⟨hpassing, hc.of_recorded rfl hk.recorded fun location hl => ?_⟩
        unfold State.target at hl ⊢
        rwa [hsame]

theorem inv_step {label : Label κ β} (hi : Inv settings s)
    (h : step settings s label = some s') : Inv settings s' := by
  cases label with
  | put location body =>
    simp only [step, Option.ite_none_right_eq_some, Option.map_eq_some_iff] at h
    obtain ⟨-, inbox, hinbox, rfl⟩ := h
    have hk := hi.kept (by simp) hinbox
    refine hk.inv hi ?_
    simp only [Inbox.step, Option.ite_none_left_eq_some] at hinbox
    obtain ⟨-, ⟨⟩⟩ := hinbox
    rfl
  | touch sent => exact inv_touch hi h
  | head ok elapsed => exact inv_head hi h
  | lock manual => exact inv_lock hi h
  | pass label => exact inv_pass hi h
  | drop =>
    simp only [step] at h
    obtain ⟨inbox, hinbox, rfl⟩ := Option.map_eq_some_iff.mp h
    have hk := hi.kept (by simp) hinbox
    cases hinbox
    split
    · refine ⟨hk.reachable, hk.objects, hk.sent, hi.seen, hi.idle, ?_⟩
      rintro phase ⟨⟩
    · exact hk.closed rfl
  | stop =>
    simp only [step, Option.ite_none_right_eq_some] at h
    obtain ⟨hguard, ⟨⟩⟩ := h
    refine { hi with seen := Nat.zero_le _, idle := by rintro touched ⟨⟩, pass := ?_ }
    intro phase hp hm
    rcases hguard with hnone | hmanual
    · rw [show s.inbox.pass = _ from hp] at hnone
      cases hnone
    · rw [show s.manual = _ from hm] at hmanual
      cases hmanual
  | writer label =>
    simp only [step, Option.ite_none_right_eq_some, Option.map_eq_some_iff] at h
    obtain ⟨hwriter, inbox, hinbox, rfl⟩ := h
    have hk := hi.kept (by rintro location rfl; cases hwriter) hinbox
    exact hk.inv hi (pass_of_writer hwriter hinbox)
  | crash kept todo =>
    simp only [step] at h
    obtain ⟨inbox, hinbox, rfl⟩ := Option.map_eq_some_iff.mp h
    have hk := hi.kept (by simp) hinbox
    refine hk.closed ?_
    simp only [Inbox.step, Option.ite_none_right_eq_some, Option.map_eq_some_iff] at hinbox
    obtain ⟨-, q, -, rfl⟩ := hinbox
    rfl

theorem inv_reachable (h : (machine settings).Reachable s) : Inv settings s := by
  refine h.invariant ?_ fun s a s' => inv_step
  rintro _ rfl
  refine ⟨.initial (T := Inbox.machine settings) rfl, ?_, ?_, le_rfl, ?_, ?_⟩
  · rintro _ ⟨⟩
  · rintro _ ⟨⟩
  · rintro _ ⟨⟩
  · rintro _ ⟨⟩

/-- In every run, whenever a step of the task ends without a pass after a successful HEAD,
each entry whose send completed its touch before was listed by a successful pass, or a
pass settled it, with a flushed record. -/
theorem touch_poll_misses_no_entry (h : (machine settings).Reachable s) {elapsed : Bool}
    (hstep : step settings s (.head true elapsed) = some s')
    (hquiet : s'.task.passing = false) :
    ∀ p ∈ s.completed, p.1 ∈ s.listed ∨ Recorded s.inbox.queue.log s.inbox.flushed p.1 := by
  have hi := inv_reachable h
  simp only [step] at hstep
  split at hstep
  · cases hstep
    cases hquiet
  · rename_i touched passed htask
    split_ifs at hstep with hdue
    · cases hstep
      cases hquiet
    · simp only [not_or, ne_eq, Decidable.not_not, Bool.not_eq_false] at hdue
      obtain ⟨hpassed, -, hsame⟩ := hdue
      intro p hp
      refine hi.idle touched (hpassed ▸ htask) p hp ?_
      rw [← hsame]
      exact (hi.completed p hp).2.trans touchMeta_getD.ge
  · cases hstep

/-- Two entries of different ids. -/
def firstEntry : Location := ⟨"emails", "enqueue", some "01", "a"⟩

def secondEntry : Location := ⟨"emails", "enqueue", some "02", "b"⟩

def failedPass : List (Inbox.Label ℕ ℕ) :=
  [.list firstEntry, .list secondEntry, .listed, .batch, .check 0, .check 1, .read 0 none,
    .read 1 (some "timeout"), .settle 10 false, .apply 0 "job-1" none 10 true, .settle 11 false,
    .beginFlush, .endFlush true, .delete true, .delete true]

def nextPass : List (Inbox.Label ℕ ℕ) :=
  [.list secondEntry, .listed, .batch, .check 0, .read 0 none, .settle 20 false,
    .apply 1 "job-2" none 20 true, .beginFlush, .endFlush true, .delete true, .delete true, .batch]

/-- The failed pass deletes the first object, and the next pass, which succeeds, lists the
second entry only. -/
def settledByFailedPass : List (Label ℕ ℕ) :=
  .head true false :: .lock false :: .pass .listed :: .pass .batch :: .put firstEntry [1] ::
    .touch (some firstEntry) :: .put secondEntry [2] :: .touch (some secondEntry) ::
    .head true false :: .lock false :: (failedPass.map Label.pass ++
      .head true false :: .lock false :: nextPass.map Label.pass)

theorem settledByFailedPass_quiet :
    ∃ s s', (machine emailInbox).run {} settledByFailedPass = some s ∧
      step emailInbox s (.head true false) = some s' ∧ s'.task.passing = false ∧
      s.completed = [(secondEntry, 2), (firstEntry, 1)] ∧ s.listed = [secondEntry] := by
  obtain ⟨s, hs, hquiet, hcompleted, hlisted⟩ :
      ∃ s, (machine emailInbox).run {} settledByFailedPass = some s ∧
      ((step emailInbox s (.head true false)).any (fun s' => !s'.task.passing) = true ∧
        s.completed = [(secondEntry, 2), (firstEntry, 1)] ∧ s.listed = [secondEntry]) :=
    Machine.exists_of_run_any (by decide +kernel)
  cases hstep : step emailInbox s (.head true false) with
  | none => simp [hstep] at hquiet
  | some s' =>
    simp only [hstep, Option.any_some, Bool.not_eq_true'] at hquiet
    exact ⟨s, s', hs, hstep, hquiet, hcompleted, hlisted⟩

/-- The first entry is in the listing of no successful pass when the step ends without
one. -/
theorem touch_poll_lists_no_settled_entry :
    ∃ s s', (machine emailInbox).Reachable s ∧
      step emailInbox s (.head true false) = some s' ∧ s'.task.passing = false ∧
      ∃ p ∈ s.completed, p.1 ∉ s.listed := by
  obtain ⟨s, s', hs, hstep, hquiet, hcompleted, hlisted⟩ := settledByFailedPass_quiet
  refine ⟨s, s', Machine.reachable_of_run hs rfl, hstep, hquiet,
    (firstEntry, 1), ?_, ?_⟩
  · simp [hcompleted]
  · rw [hlisted]
    decide

theorem touch_poll_misses_no_entry_settled :
    ∃ s s', (machine emailInbox).run {} settledByFailedPass = some s ∧
      step emailInbox s (.head true false) = some s' ∧ s'.task.passing = false ∧
      s.completed = [(secondEntry, 2), (firstEntry, 1)] ∧
      ∀ p ∈ s.completed, p.1 ∈ s.listed ∨ Recorded s.inbox.queue.log s.inbox.flushed p.1 := by
  obtain ⟨s, s', hs, hstep, hquiet, hcompleted, -⟩ := settledByFailedPass_quiet
  exact ⟨s, s', hs, hstep, hquiet, hcompleted, touch_poll_misses_no_entry
    (Machine.reachable_of_run hs rfl) hstep hquiet⟩

end Touch

end Taquba.Inbox
