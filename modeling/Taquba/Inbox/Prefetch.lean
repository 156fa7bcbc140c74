import Taquba.Clock.Duration
import Taquba.Inbox.Machine

/-! # The prefetch window of a batch

The settlement of a batch starts reads ahead in batch order, up to a number of entries and
a number of bytes of their listed sizes, but always one. It then awaits the oldest read,
settles the entry and goes on. A failed read or settlement ends it. The byte counter has
64 bits.
-/

namespace Taquba.Inbox.Prefetch

open Clock Transition

inductive Phase where
  | filling
  | awaiting
  | settling
  | failed
  | done
  | panicked
  deriving DecidableEq

/-- The entries from the current one on, those from the cursor `next` on, the reads
outstanding with the entries that they read, the byte counter, the entries so far with the
read that was awaited for each, and the settled entries. -/
structure State where
  left : List PendingEntry
  ahead : List PendingEntry
  reads : List PendingEntry := []
  reading : ℕ := 0
  awaited : List (PendingEntry × PendingEntry) := []
  settled : List PendingEntry := []
  phase : Phase

/-- One turn of the loop that starts reads, the end of the awaited read, and the end of the
settlement of its entry. -/
inductive Label where
  | fill
  | await (ok : Bool)
  | settle (ok : Bool)

def State.panic (s : State) : State := { s with phase := .panicked }

/-- The loop over the batch begins or ends. -/
def nextEntry (left : List PendingEntry) : Phase := if left = [] then .done else .filling

variable (checks : Bool)

/-- Whether the window is full for the next entry, `none` for a panic of the sum. -/
def State.full (s : State) (next : PendingEntry) : Option Bool :=
  if inboxPrefetch ≤ s.reads.length then some true
  else (addU64 checks s.reading next.size).map fun sum => decide (inboxPrefetchBytes < sum)

def State.push (s : State) (next : PendingEntry) (ahead : List PendingEntry) : State :=
  match addU64 checks s.reading next.size with
  | none => s.panic
  | some reading => { s with reads := s.reads ++ [next], reading, ahead }

def State.fill (s : State) : State :=
  match s.ahead with
  | [] => { s with phase := .awaiting }
  | next :: ahead =>
    match s.full checks next with
    | none => s.panic
    | some full =>
      if full = true ∧ s.reads ≠ [] then { s with phase := .awaiting } else s.push checks next ahead

/-- The oldest read ends. A missing read is a failed `expect`. -/
def State.await (s : State) (ok : Bool) (entry : PendingEntry) : State :=
  match s.reads with
  | [] => s.panic
  | read :: reads =>
    let s := { s with reads, awaited := s.awaited ++ [(entry, read)] }
    if ok then
      match subU64 checks s.reading entry.size with
      | none => s.panic
      | some reading => { s with reading, phase := .settling }
    else { s with phase := .failed }

def State.settle (s : State) (ok : Bool) (entry : PendingEntry) (left : List PendingEntry) :
    State :=
  if ok then { s with left, settled := s.settled ++ [entry], phase := nextEntry left }
  else { s with phase := .failed }

def step (s : State) : Label → Option State
  | .fill => if s.phase = .filling then some (s.fill checks) else none
  | .await ok =>
    match s.phase, s.left with
    | .awaiting, entry :: _ => some (s.await checks ok entry)
    | _, _ => none
  | .settle ok =>
    match s.phase, s.left with
    | .settling, entry :: left => some (s.settle ok entry left)
    | _, _ => none

def machine (batch : List PendingEntry) : Machine State Label where
  init s := s = { left := batch, ahead := batch, phase := nextEntry batch }
  step := step checks

/-- The listed sizes of entries in all. -/
def sizes (entries : List PendingEntry) : ℕ := (entries.map (·.size)).sum

def State.outstanding (s : State) : ℕ := sizes s.reads

/-- The sum of the counter for `window` and the size of `next` fits in 64 bits, or without
overflow checks wraps to a sum that is over the limit as well. -/
def SumFits (window : List PendingEntry) (next : PendingEntry) : Prop :=
  sizes window + next.size < 2 ^ 64 ∨ checks = false ∧ window ≠ [] ∧
    inboxPrefetchBytes < (sizes window + next.size) % 2 ^ 64

/-- Every window that the limits allow fits with the entry after it. -/
def Fits (batch : List PendingEntry) : Prop :=
  ∀ before window next after, batch = before ++ window ++ next :: after →
    window.length < inboxPrefetch → (sizes window ≤ inboxPrefetchBytes ∨ window.length ≤ 1) →
    SumFits checks window next

/-- The window has no room for `next`, in unbounded numbers. -/
def State.Full (s : State) (next : PendingEntry) : Prop :=
  (inboxPrefetch ≤ s.reads.length ∨ inboxPrefetchBytes < s.outstanding + next.size) ∧ s.reads ≠ []

instance (s : State) (next : PendingEntry) : Decidable (s.Full next) :=
  inferInstanceAs (Decidable (_ ∧ _))

def Phase.rank : Phase → ℕ
  | .filling => 3
  | .awaiting => 2
  | .settling => 1
  | _ => 0

def State.rank (s : State) : ℕ := 4 * s.left.length + s.ahead.length + s.phase.rank

/-- The settlement does not panic, the read awaited for an entry is that of the entry, each entry
is read once, in order, the byte counter is the size of the reads outstanding, which keep to the
limits or are one, and the batch ends with every entry settled in order or at the first
failure. -/
structure Window (batch : List PendingEntry) (s : State) : Prop where
  noPanic : s.phase ≠ .panicked
  ownRead : s.awaited.map Prod.fst = s.awaited.map Prod.snd
  once : s.awaited.map Prod.snd ++ s.reads <+: batch
  counter : s.phase ≠ .failed → s.reading = s.outstanding
  count : s.reads.length ≤ inboxPrefetch
  bytes : s.outstanding ≤ inboxPrefetchBytes ∨ s.reads.length ≤ 1
  inOrder : s.settled <+: batch
  complete : s.phase = .done → s.settled = batch
  stopped : s.phase = .failed → s.awaited.length = s.settled.length + 1
  progress : s.phase ≠ .done → s.phase ≠ .failed → ∃ l, (step checks s l).isSome
  terminates : ∀ l s', step checks s l = some s' → s'.rank < s.rank

def PhaseInv (s : State) : Prop :=
  match s.phase with
  | .filling => s.awaited.length = s.settled.length ∧ s.left ≠ []
  | .awaiting => s.awaited.length = s.settled.length ∧ s.left ≠ [] ∧ s.reads ≠ []
  | .settling => s.awaited.length = s.settled.length + 1 ∧ s.left ≠ []
  | .failed => s.awaited.length = s.settled.length + 1
  | .done => s.left = []
  | .panicked => False

/-- The reads that were started are those of the first entries, in order, and the oldest one
outstanding is that of the current entry. -/
structure Inv (batch : List PendingEntry) (s : State) : Prop where
  started : s.awaited.map Prod.snd ++ s.reads ++ s.ahead = batch
  entries : s.settled ++ s.left = batch
  awaited : s.awaited.map Prod.fst = batch.take s.awaited.length
  reading : s.phase ≠ .failed → s.reading = s.outstanding
  count : s.reads.length ≤ inboxPrefetch
  bytes : s.outstanding ≤ inboxPrefetchBytes ∨ s.reads.length ≤ 1
  phase : PhaseInv s

theorem inv_init (batch : List PendingEntry) :
    Inv batch { left := batch, ahead := batch, phase := nextEntry batch } := by
  refine ⟨rfl, rfl, rfl, fun _ => rfl, Nat.zero_le _, .inl (Nat.zero_le _), ?_⟩
  unfold PhaseInv nextEntry
  by_cases hb : batch = [] <;> simp [hb]

section Steps

variable {checks} {batch ahead left : List PendingEntry} {s s' : State} {next entry : PendingEntry}

@[simp] theorem sizes_append (a b : List PendingEntry) : sizes (a ++ b) = sizes a + sizes b := by
  simp [sizes]

@[simp] theorem sizes_singleton (entry : PendingEntry) : sizes [entry] = entry.size := by
  simp [sizes]

theorem step_cases {l : Label} (hs : step checks s l = some s') :
    (l = .fill ∧ s.phase = .filling ∧ s' = s.fill checks) ∨
    (∃ ok entry left, l = .await ok ∧ s.phase = .awaiting ∧ s.left = entry :: left ∧
      s' = s.await checks ok entry) ∨
    ∃ ok entry left, l = .settle ok ∧ s.phase = .settling ∧ s.left = entry :: left ∧
      s' = s.settle ok entry left := by
  cases l with
  | fill =>
    by_cases hp : s.phase = .filling
    · exact .inl ⟨rfl, hp, by simpa [step, hp] using hs.symm⟩
    · simp [step, hp] at hs
  | await ok =>
    cases hl : s.left with
    | nil => cases hp : s.phase <;> simp [step, hp, hl] at hs
    | cons entry left =>
      cases hp : s.phase <;> simp [step, hp, hl] at hs
      exact .inr (.inl ⟨ok, entry, left, rfl, rfl, rfl, hs.symm⟩)
  | settle ok =>
    cases hl : s.left with
    | nil => cases hp : s.phase <;> simp [step, hp, hl] at hs
    | cons entry left =>
      cases hp : s.phase <;> simp [step, hp, hl] at hs
      exact .inr (.inr ⟨ok, entry, left, rfl, rfl, rfl, hs.symm⟩)

theorem fill_nil (ha : s.ahead = []) : s.fill checks = { s with phase := .awaiting } := by
  unfold State.fill
  split
  · rfl
  · simp_all

/-- With a sum that fits, a turn of the loop does as with unbounded numbers. -/
theorem fill_eq (ha : s.ahead = next :: ahead) (hreading : s.reading = s.outstanding)
    (hfits : s.reads.length < inboxPrefetch → SumFits checks s.reads next) :
    s.fill checks =
      if s.Full next then { s with phase := .awaiting }
      else { s with
        reads := s.reads ++ [next], reading := s.outstanding + next.size, ahead } := by
  by_cases hcount : inboxPrefetch ≤ s.reads.length
  · have hr : s.reads ≠ [] := by
      intro hr
      simp [hr, inboxPrefetch] at hcount
    rw [if_pos ⟨.inl hcount, hr⟩]
    simp [State.fill, ha, State.full, hcount, hr]
  · rcases hfits (not_le.mp hcount) with hlt | ⟨rfl, hr, hfull⟩
    · have hsum : addU64 checks s.reading next.size = some (s.outstanding + next.size) := by
        rw [hreading]
        exact addU64_of_lt _ hlt
      simp [State.fill, ha, State.full, hcount, hsum, State.push, State.Full]
    · have hover : inboxPrefetchBytes < s.outstanding + next.size :=
        hfull.trans_le (Nat.mod_le _ _)
      have hsum : s.full false next = some true := by
        rw [State.full, if_neg hcount, hreading, addU64_unchecked, Option.map_some]
        exact congrArg some (decide_eq_true hfull)
      rw [if_pos ⟨.inr hover, hr⟩]
      simp [State.fill, ha, hsum, hr]

/-- A turn of the loop that keeps the counter has a sum that fits. -/
theorem sumFits_of_fill (ha : s.ahead = next :: ahead) (hreading : s.reading = s.outstanding)
    (hcount : s.reads.length < inboxPrefetch) (hp : s.phase = .filling)
    (hpanic : (s.fill checks).phase ≠ .panicked)
    (hcounter : (s.fill checks).phase ≠ .failed →
      (s.fill checks).reading = (s.fill checks).outstanding) :
    SumFits checks s.reads next := by
  by_cases hlt : sizes s.reads + next.size < 2 ^ 64
  · exact .inl hlt
  cases checks with
  | true =>
    have hsum : addU64 true s.reading next.size = none := by
      rw [hreading, addU64, State.outstanding, if_neg hlt, if_pos rfl]
    simp [State.fill, ha, State.full, not_le.mpr hcount, hsum, State.panic] at hpanic
  | false =>
    have hsum : addU64 false s.reading next.size = some ((sizes s.reads + next.size) % 2 ^ 64) := by
      rw [hreading, addU64_unchecked]
      rfl
    by_cases hfull : s.reads ≠ [] ∧ inboxPrefetchBytes < (sizes s.reads + next.size) % 2 ^ 64
    · exact .inr ⟨rfl, hfull⟩
    · have hpush : s.fill false = { s with
          reads := s.reads ++ [next], reading := (sizes s.reads + next.size) % 2 ^ 64, ahead } := by
        simp only [State.fill, ha, State.full, if_neg (not_le.mpr hcount), hsum, Option.map_some,
          decide_eq_true_eq, State.push]
        rw [if_neg fun h => hfull ⟨h.2, h.1⟩]
      rw [hpush] at hcounter
      have hwrap : (sizes s.reads + next.size) % 2 ^ 64 = sizes s.reads + next.size := by
        simpa [State.outstanding, hp] using hcounter
      exact absurd (hwrap ▸ Nat.mod_lt _ (by decide)) hlt

/-- The sum of a turn in this state fits. -/
def State.Fits (checks : Bool) (s : State) : Prop :=
  ∀ next ahead, s.ahead = next :: ahead → s.reads.length < inboxPrefetch →
    SumFits checks s.reads next

theorem Inv.fits (h : Inv batch s) (hfits : Fits checks batch) : s.Fits checks := by
  intro next ahead ha hcount
  exact hfits (s.awaited.map Prod.snd) s.reads next ahead (by rw [← ha, h.started]) hcount h.bytes

theorem inv_awaiting (h : Inv batch s) (hp : s.phase = .filling) (hr : s.reads ≠ []) :
    Inv batch { s with phase := .awaiting } := by
  have hphase := h.phase
  simp only [PhaseInv, hp] at hphase
  exact ⟨h.started, h.entries, h.awaited, fun _ => h.reading (by simp [hp]), h.count, h.bytes,
    hphase.1, hphase.2, hr⟩

/-- A read that has room, or the only one, is started. -/
theorem inv_push (h : Inv batch s) (hp : s.phase = .filling) (ha : s.ahead = next :: ahead)
    (hroom : ¬ s.Full next) :
    Inv batch
      { s with reads := s.reads ++ [next], reading := s.outstanding + next.size, ahead } := by
  have hphase := h.phase
  simp only [PhaseInv, hp] at hphase
  refine ⟨?_, h.entries, h.awaited, ?_, ?_, ?_, ?_⟩
  · simp [← h.started, ha]
  · simp [State.outstanding]
  · by_cases hr : s.reads = []
    · simp [hr, inboxPrefetch]
    · simp only [State.Full, hr, ne_eq, not_false_eq_true, and_true, not_or] at hroom
      simpa using hroom.1
  · by_cases hr : s.reads = []
    · simp [hr]
    · simp only [State.Full, hr, ne_eq, not_false_eq_true, and_true, not_or, not_lt] at hroom
      left
      simpa [State.outstanding] using hroom.2
  · simpa [PhaseInv, hp] using hphase

theorem inv_fill (h : Inv batch s) (hfits : s.Fits checks) (hp : s.phase = .filling) :
    Inv batch (s.fill checks) := by
  have hphase := h.phase
  simp only [PhaseInv, hp] at hphase
  cases ha : s.ahead with
  | nil =>
    rw [fill_nil ha]
    refine inv_awaiting h hp fun hr => ?_
    have hs := congrArg List.length h.started
    have he := congrArg List.length h.entries
    have hl := List.length_pos_iff.mpr hphase.2
    simp [ha, hr] at hs he
    omega
  | cons next ahead =>
    rw [fill_eq ha (h.reading (by simp [hp])) (hfits next ahead ha)]
    by_cases hfull : s.Full next
    · rw [if_pos hfull]
      exact inv_awaiting h hp hfull.2
    · rw [if_neg hfull]
      exact inv_push h hp ha hfull

theorem Inv.read_eq {read : PendingEntry} {reads : List PendingEntry} (h : Inv batch s)
    (hp : s.phase = .awaiting) (hr : s.reads = read :: reads) (hl : s.left = entry :: left) :
    read = entry := by
  have hphase := h.phase
  simp only [PhaseInv, hp] at hphase
  have hs := congrArg (·[s.settled.length]?) (h.started.trans h.entries.symm)
  simpa [hr, hl, hphase.1, List.append_assoc] using hs

theorem inv_await (h : Inv batch s) (hp : s.phase = .awaiting) (hl : s.left = entry :: left)
    (ok : Bool) : Inv batch (s.await checks ok entry) := by
  have hphase := h.phase
  simp only [PhaseInv, hp] at hphase
  obtain ⟨hlen, hleft, hreads⟩ := hphase
  obtain ⟨read, reads, hr⟩ := List.exists_cons_of_ne_nil hreads
  obtain rfl := h.read_eq hp hr hl
  have hsum : s.reading = read.size + sizes reads := by
    rw [h.reading (by simp [hp]), State.outstanding, hr]
    rfl
  have hstarted : (s.awaited ++ [(read, read)]).map Prod.snd ++ reads ++ s.ahead = batch := by
    simp [← h.started, hr]
  have hawaited : (s.awaited ++ [(read, read)]).map Prod.fst =
      batch.take (s.awaited ++ [(read, read)]).length := by
    have hget : batch[s.awaited.length]? = some read := by
      rw [← h.entries, hl, hlen]
      simp
    simp [List.take_add_one, hget, h.awaited]
  have hcount : reads.length ≤ inboxPrefetch := by
    have := h.count
    simp only [hr, List.length_cons] at this
    omega
  have hbytes : sizes reads ≤ inboxPrefetchBytes ∨ reads.length ≤ 1 := by
    have := h.bytes
    simp only [State.outstanding, sizes, hr, List.map_cons, List.sum_cons,
      List.length_cons] at this ⊢
    omega
  cases ok with
  | false =>
    simp only [State.await, hr]
    exact ⟨hstarted, h.entries, hawaited, fun hne => absurd rfl hne, hcount, hbytes, by
      simp [PhaseInv, hlen]⟩
  | true =>
    have hsub : subU64 checks s.reading read.size = some (sizes reads) := by
      rw [hsum, subU64, if_pos (Nat.le_add_right _ _), Nat.add_sub_cancel_left]
    simp only [State.await, hr, hsub, if_true]
    exact ⟨hstarted, h.entries, hawaited, fun _ => rfl, hcount, hbytes, by
      simp [PhaseInv, hlen, hleft]⟩

theorem inv_settle (h : Inv batch s) (hp : s.phase = .settling) (hl : s.left = entry :: left)
    (ok : Bool) : Inv batch (s.settle ok entry left) := by
  have hphase := h.phase
  have hreading := h.reading (by simp [hp])
  simp only [PhaseInv, hp] at hphase
  unfold State.settle
  cases ok with
  | false =>
    exact { h with reading := fun _ => hreading, phase := hphase.1 }
  | true =>
    refine { h with entries := ?_, reading := fun _ => hreading, phase := ?_ }
    · simp [← h.entries, hl]
    · unfold PhaseInv nextEntry
      by_cases he : left = [] <;> simp [he, hphase.1]

theorem inv_step {l : Label} (h : Inv batch s) (hfits : s.phase = .filling → s.Fits checks)
    (hs : step checks s l = some s') : Inv batch s' := by
  obtain ⟨-, hp, rfl⟩ | ⟨ok, entry, left, -, hp, hl, rfl⟩ | ⟨ok, entry, left, -, hp, hl, rfl⟩ :=
    step_cases hs
  · exact inv_fill h (hfits hp) hp
  · exact inv_await h hp hl ok
  · exact inv_settle h hp hl ok

theorem rank_fill (hp : s.phase = .filling) : (s.fill checks).rank < s.rank := by
  unfold State.fill State.push State.panic
  split
  · simp [State.rank, hp, Phase.rank]
  · split
    · simp [State.rank, hp, Phase.rank]
    · split
      · simp [State.rank, hp, Phase.rank]
      · split <;> simp [State.rank, Phase.rank, *]

theorem rank_await (hp : s.phase = .awaiting) (ok : Bool) (entry : PendingEntry) :
    (s.await checks ok entry).rank < s.rank := by
  unfold State.await State.panic
  split
  · simp [State.rank, hp, Phase.rank]
  · dsimp only
    split
    · split <;> simp [State.rank, hp, Phase.rank]
    · simp [State.rank, hp, Phase.rank]

theorem rank_settle (hp : s.phase = .settling) (hl : s.left = entry :: left) (ok : Bool) :
    (s.settle ok entry left).rank < s.rank := by
  unfold State.settle nextEntry
  split
  · split <;> simp [State.rank, hp, hl, Phase.rank]
    omega
  · simp [State.rank, hp, Phase.rank]

theorem rank_step {l : Label} (hs : step checks s l = some s') : s'.rank < s.rank := by
  obtain ⟨-, hp, rfl⟩ | ⟨ok, entry, left, -, hp, hl, rfl⟩ | ⟨ok, entry, left, -, hp, hl, rfl⟩ :=
    step_cases hs
  · exact rank_fill hp
  · exact rank_await hp ok entry
  · exact rank_settle hp hl ok

/-- A batch that has neither ended nor failed takes a further step. -/
theorem Inv.progress (h : Inv batch s) (hd : s.phase ≠ .done) (hf : s.phase ≠ .failed) :
    ∃ l, (step checks s l).isSome := by
  have hphase := h.phase
  unfold PhaseInv at hphase
  cases hp : s.phase with
  | filling => exact ⟨.fill, by simp [step, hp]⟩
  | awaiting =>
    simp only [hp] at hphase
    obtain ⟨entry, left, hl⟩ := List.exists_cons_of_ne_nil hphase.2.1
    exact ⟨.await true, by simp [step, hp, hl]⟩
  | settling =>
    simp only [hp] at hphase
    obtain ⟨entry, left, hl⟩ := List.exists_cons_of_ne_nil hphase.2
    exact ⟨.settle true, by simp [step, hp, hl]⟩
  | failed => exact absurd hp hf
  | done => exact absurd hp hd
  | panicked => simp [hp] at hphase

theorem Inv.window (h : Inv batch s) : Window checks batch s := by
  have hphase := h.phase
  unfold PhaseInv at hphase
  refine ⟨?_, ?_, ⟨s.ahead, h.started⟩, h.reading, h.count, h.bytes, ⟨s.left, h.entries⟩,
    ?_, ?_, h.progress, fun l s' => rank_step⟩
  · intro hp
    simp [hp] at hphase
  · rw [h.awaited]
    nth_rewrite 1 [← h.started]
    rw [List.append_assoc, List.take_left' (List.length_map _)]
  · intro hp
    simp only [hp] at hphase
    simpa [hphase] using h.entries
  · intro hp
    simpa [hp] using hphase

theorem inv_reachable (hfits : Fits checks batch) (h : (machine checks batch).Reachable s) :
    Inv batch s := by
  refine h.invariant (I := Inv batch) ?_ ?_
  · rintro s rfl
    exact inv_init batch
  · intro s l s' hi hs
    exact inv_step hi (fun _ => hi.fits hfits) hs

/-- The loop starts as many reads as the unbounded loop of a pass does. -/
theorem reads_of_fills (h : Inv batch s) (hfits : Fits checks batch) (hp : s.phase = .filling) :
    ∃ n s', (machine checks batch).run s (List.replicate n .fill) = some s' ∧
      s'.phase = .awaiting ∧
      s'.reads.length = Inbox.fill s.ahead s.reads.length s.outstanding := by
  have hstep : (machine checks batch).step s .fill = some (s.fill checks) := if_pos hp
  generalize ha : s.ahead = ahead
  induction ahead generalizing s with
  | nil =>
    refine ⟨1, _, by rw [List.replicate_one, Machine.run_cons, hstep]; rfl, ?_⟩
    rw [fill_nil ha]
    exact ⟨rfl, rfl⟩
  | cons next ahead ih =>
    have hfill := fill_eq ha (h.reading (by simp [hp])) (h.fits hfits next ahead ha)
    have hcond : s.Full next ↔ (inboxPrefetch ≤ s.reads.length ∨
        inboxPrefetchBytes < s.outstanding + next.size) ∧ s.reads.length ≠ 0 := by
      rw [State.Full, ne_eq, ne_eq, List.length_eq_zero_iff]
    rw [Inbox.fill]
    by_cases hfull : s.Full next
    · rw [if_pos hfull] at hfill
      refine ⟨1, _, by rw [List.replicate_one, Machine.run_cons, hstep]; rfl, ?_⟩
      rw [hfill, if_pos (hcond.mp hfull)]
      exact ⟨rfl, rfl⟩
    · rw [if_neg hfull] at hfill
      obtain ⟨n, s', hrun, hs'⟩ := ih (inv_push h hp ha hfull) hp (if_pos hp) rfl
      refine ⟨n + 1, s', ?_, ?_⟩
      · rw [List.replicate_succ, Machine.run_cons, hstep, hfill]
        exact hrun
      · rw [if_neg (mt hcond.mpr hfull)]
        simpa [State.outstanding] using hs'

end Steps

/-- The number of entries whose reads were started. -/
def State.started (s : State) : ℕ := s.awaited.length + s.reads.length

section Converse

variable {checks} {batch before window after : List PendingEntry} {s s' : State}
  {next : PendingEntry}

theorem Inv.drop_started (h : Inv batch s) : s.ahead = batch.drop s.started := by
  rw [← h.started, State.started, List.drop_left' (by simp)]

theorem Inv.fits_of_fill (h : Inv batch s) (hp : s.phase = .filling)
    (hw : Window checks batch (s.fill checks)) : s.Fits checks := fun _ _ ha hcount =>
  sumFits_of_fill ha (h.reading (by simp [hp])) hcount hp hw.noPanic hw.counter

variable (hw : ∀ s, (machine checks batch).Reachable s → Window checks batch s)
include hw

theorem inv_of_window (h : (machine checks batch).Reachable s) :
    Inv batch s ∧ (s.phase = .filling → s.Fits checks) := by
  have hfits : ∀ {s}, (machine checks batch).Reachable s → Inv batch s →
      s.phase = .filling → s.Fits checks := fun h hi hp =>
    hi.fits_of_fill hp (hw _ (h.next (a := .fill) (if_pos hp)))
  induction h with
  | init hs =>
    subst hs
    exact ⟨inv_init batch, hfits (.initial rfl) (inv_init batch)⟩
  | @step s s' l h _ hs ih =>
    have hi := inv_step ih.1 ih.2 hs
    exact ⟨hi, hfits (Machine.Reachable.next h hs) hi⟩

/-- From a state that has started at most `j` reads, the turns of the loop reach one that looks
at entry `j` with room for it in number, or end with a full window. -/
theorem exists_fills {j : ℕ} (hj : j < batch.length) (h : (machine checks batch).Reachable s)
    (hp : s.phase = .filling) (hle : s.started ≤ j) :
    ∃ s', (machine checks batch).Reachable s' ∧ s'.awaited = s.awaited ∧ s'.started ≤ j ∧
      ((s'.phase = .filling ∧ s'.started = j ∧ s'.reads.length < inboxPrefetch) ∨
        (s'.phase = .awaiting ∧ (inboxPrefetch ≤ s'.reads.length ∨ s'.started < j) ∧
          ∀ next ahead, s'.ahead = next :: ahead → s'.Full next)) := by
  obtain ⟨n, hn⟩ : ∃ n, n = j - s.started := ⟨_, rfl⟩
  induction n using Nat.strong_induction_on generalizing s with
  | h n ih =>
    by_cases hat : s.started = j ∧ s.reads.length < inboxPrefetch
    · exact ⟨s, h, rfl, hle, .inl ⟨hp, hat⟩⟩
    obtain ⟨hi, hfits⟩ := inv_of_window hw h
    obtain ⟨next, ahead, ha⟩ : ∃ next ahead, s.ahead = next :: ahead := by
      refine List.exists_cons_of_ne_nil ?_
      rw [hi.drop_started, ne_eq, List.drop_eq_nil_iff]
      omega
    have hfill := fill_eq ha (hi.reading (by simp [hp])) (hfits hp next ahead ha)
    have hnext : (machine checks batch).Reachable (s.fill checks) :=
      h.next (a := .fill) (if_pos hp)
    by_cases hfull : s.Full next
    · rw [hfill, if_pos hfull] at hnext
      refine ⟨_, hnext, rfl, hle, .inr ⟨rfl, ?_, ?_⟩⟩
      · change inboxPrefetch ≤ s.reads.length ∨ s.started < j
        omega
      · rintro next' ahead' ha'
        cases ha.symm.trans ha'
        exact hfull
    · rw [hfill, if_neg hfull] at hnext
      have hlt : s.reads.length < inboxPrefetch := by
        by_contra hge
        refine hfull ⟨.inl (not_lt.mp hge), fun hr => ?_⟩
        simp [hr, inboxPrefetch] at hge
      have hstarted : State.started { s with
          reads := s.reads ++ [next], reading := s.outstanding + next.size, ahead } =
            s.started + 1 := by
        simp [State.started, Nat.add_assoc]
      have hrun := ih (n - 1) (by omega) hnext hp (by omega) (by omega)
      exact hrun

/-- The loop over the batch comes to entry `i` with at most `j` reads started, or has looked at
entry `j` before. -/
theorem exists_turn {i j : ℕ} (hj : j < batch.length) (hi : i ≤ j) :
    (∃ s, (machine checks batch).Reachable s ∧ s.phase = .filling ∧ s.started = j ∧
      s.reads.length < inboxPrefetch ∧ s.awaited.length ≤ i) ∨
    ∃ s, (machine checks batch).Reachable s ∧ s.phase = .filling ∧ s.started ≤ j ∧
      s.awaited.length = i := by
  induction i with
  | zero =>
    have hne : batch ≠ [] := List.ne_nil_of_length_pos (by omega)
    exact .inr ⟨_, .initial rfl, if_neg hne, Nat.zero_le _, rfl⟩
  | succ i ih =>
    obtain ⟨s, h, hp, hat, hlt, hle⟩ | ⟨s, h, hp, hle, hlen⟩ := ih (by omega)
    · exact .inl ⟨s, h, hp, hat, hlt, hle.trans (Nat.le_succ i)⟩
    obtain ⟨s, h, hsame, hle, ⟨hp, hat, hlt⟩ | ⟨hp, -, -⟩⟩ := exists_fills hw hj h hp hle
    · exact .inl ⟨s, h, hp, hat, hlt, by rw [hsame]; omega⟩
    rw [← hsame] at hlen
    have hinv := (inv_of_window hw h).1
    have hphase := hinv.phase
    simp only [PhaseInv, hp] at hphase
    obtain ⟨hsettled, hleft, hreads⟩ := hphase
    obtain ⟨entry, left, hl⟩ := List.exists_cons_of_ne_nil hleft
    obtain ⟨read, reads, hr⟩ := List.exists_cons_of_ne_nil hreads
    have hawait : (machine checks batch).Reachable (s.await checks true entry) :=
      h.next (a := .await true) (by simp [machine, step, hp, hl])
    have hnoPanic := (hw _ hawait).noPanic
    cases hsub : subU64 checks s.reading entry.size with
    | none => simp [State.await, hr, hsub, State.panic] at hnoPanic
    | some reading =>
      have hs : s.await checks true entry = { s with
          reads, reading, awaited := s.awaited ++ [(entry, read)], phase := .settling } := by
        simp [State.await, hr, hsub]
      rw [hs] at hawait
      have hsettle := hawait.next (a := .settle true) (by simp [machine, step, hl]; rfl)
      have hleft : left ≠ [] := by
        have := congrArg List.length hinv.entries
        simp only [hl, List.length_append, List.length_cons] at this
        refine List.ne_nil_of_length_pos ?_
        omega
      simp only [State.started, hr, List.length_cons] at hle
      exact .inr ⟨_, hsettle, if_neg hleft, by simp [State.settle, State.started]; omega,
        by simp [State.settle, hlen]⟩

theorem sumFits_at (hnext : next.size < 2 ^ 64) (hbatch : batch = before ++ window ++ next :: after)
    (h : (machine checks batch).Reachable s) (hp : s.phase = .filling)
    (hat : s.started = before.length + window.length) (hlt : s.reads.length < inboxPrefetch)
    (hle : s.awaited.length ≤ before.length) : SumFits checks window next := by
  obtain ⟨hi, hfits⟩ := inv_of_window hw h
  obtain ⟨hreads, ha⟩ := List.append_inj (hi.started.trans hbatch)
    (by simpa [State.started] using hat)
  have hsum := hfits hp next after ha hlt
  have hread : s.reads = before.drop s.awaited.length ++ window := by
    have := congrArg (List.drop s.awaited.length) hreads
    rwa [List.drop_left' (by simp), List.drop_append_of_le_length hle] at this
  by_cases hdrop : before.drop s.awaited.length = []
  · rwa [hread, hdrop, List.nil_append] at hsum
  by_cases hwindow : window = []
  · exact .inl (by simpa [hwindow, sizes] using hnext)
  have hbytes : s.outstanding ≤ inboxPrefetchBytes := by
    refine hi.bytes.resolve_right ?_
    have := List.length_pos_iff.mpr hdrop
    have := List.length_pos_iff.mpr hwindow
    rw [hread, List.length_append]
    omega
  have hsizes : sizes window ≤ s.outstanding := by
    rw [State.outstanding, hread, sizes_append]
    omega
  left
  rcases hsum with hsum | ⟨-, -, hsum⟩
  · exact (Nat.add_le_add_right hsizes _).trans_lt hsum
  · change inboxPrefetchBytes < (s.outstanding + next.size) % 2 ^ 64 at hsum
    omega

theorem fits_of_window (hsizes : ∀ entry ∈ batch, entry.size < 2 ^ 64) : Fits checks batch := by
  intro before window next after hbatch hlt hroom
  have hnext : next.size < 2 ^ 64 := hsizes next (by simp [hbatch])
  have hj : before.length + window.length < batch.length := by
    simp only [hbatch, List.length_append, List.length_cons]
    omega
  obtain ⟨s, h, hp, hat, hcount, hle⟩ | ⟨s, h, hp, hle, hlen⟩ :=
    exists_turn hw hj (Nat.le_add_right before.length window.length)
  · exact sumFits_at hw hnext hbatch h hp hat hcount hle
  obtain ⟨s, h, hsame, hle, ⟨hp, hat, hcount⟩ | ⟨hp, hstop, hfull⟩⟩ := exists_fills hw hj h hp hle
  · exact sumFits_at hw hnext hbatch h hp hat hcount (by rw [hsame, hlen])
  · rw [← hsame] at hlen
    have hi := (inv_of_window hw h).1
    have hstarted := hi.started.trans hbatch
    rw [List.append_assoc, List.append_assoc] at hstarted
    obtain ⟨-, hrest⟩ := List.append_inj hstarted (by simpa using hlen)
    have hshort : s.reads.length < window.length := by
      simp only [State.started] at hstop
      simp only [State.started] at hle
      omega
    obtain ⟨c, hc, ha⟩ | ⟨c, hc, -⟩ := List.append_eq_append_iff.mp hrest
    · obtain ⟨e, c, rfl⟩ := List.exists_cons_of_ne_nil (l := c) fun hnil => by
        simp [hc, hnil] at hshort
      obtain ⟨hover, hreads⟩ := hfull e _ ha
      have := List.length_pos_iff.mpr hreads
      have hsum : sizes window = s.outstanding + e.size + sizes c := by
        rw [hc, State.outstanding, sizes_append]
        simp [sizes, Nat.add_assoc]
      have hlong : ¬ window.length ≤ 1 := by
        rw [hc, List.length_append, List.length_cons]
        omega
      have hle := hroom.resolve_right hlong
      omega
    · simp [hc] at hshort

end Converse

theorem fits_of_lt {batch : List PendingEntry} (h : ∀ entry ∈ batch, entry.size < 2 ^ 63) :
    Fits checks batch := by
  rintro before window next after hbatch - hroom
  left
  have hnext : next.size < 2 ^ 63 := h next (by simp [hbatch])
  have hwindow : sizes window < 2 ^ 63 := by
    rcases hroom with hle | hone
    · exact hle.trans_lt (by decide)
    · cases window with
      | nil => simp [sizes]
      | cons read window =>
        obtain rfl := List.eq_nil_of_length_eq_zero (Nat.le_zero.mp (Nat.le_of_succ_le_succ hone))
        simpa using h read (by simp [hbatch])
  omega

/-- Every run of a batch keeps the window exactly when every window that the limits allow fits
with the entry after it. -/
theorem prefetch_window_holds (batch : List PendingEntry)
    (hsizes : ∀ entry ∈ batch, entry.size < 2 ^ 64) :
    (∀ s, (machine checks batch).Reachable s → Window checks batch s) ↔ Fits checks batch :=
  ⟨fun hw => fits_of_window hw hsizes, fun hfits _ h => (inv_reachable hfits h).window⟩

def smallEntry (size : ℕ) : PendingEntry where
  queue := ⟨"parcels", by decide⟩
  id := "a"
  kind := .enqueue
  size := size
  order := some 1
  location := ⟨"parcels", "enqueue", some "1", "a"⟩

theorem prefetch_window_holds_done :
    ∃ s, (machine true [smallEntry 10, smallEntry 20]).Reachable s ∧
      s.settled = [smallEntry 10, smallEntry 20] := by
  obtain ⟨s, hs, hp⟩ : ∃ s, (machine true [smallEntry 10, smallEntry 20]).run
      { left := [smallEntry 10, smallEntry 20], ahead := [smallEntry 10, smallEntry 20],
        phase := .filling }
      [.fill, .fill, .fill, .await true, .settle true, .fill, .await true, .settle true] = some s ∧
      s.phase = .done :=
    Machine.exists_of_run_any (by decide +kernel)
  have hr := Machine.reachable_of_run hs rfl
  have hfits : Fits true [smallEntry 10, smallEntry 20] := fits_of_lt true (by decide)
  exact ⟨s, hr, ((prefetch_window_holds true _ (by decide)).mpr hfits s hr).complete hp⟩

/-- Two entries of 2⁶³ listed bytes overflow the counter: it panics with overflow checks, and
without them both are read at once while it is zero. -/
theorem prefetch_window_holds_fails :
    (∃ s, (machine true [smallEntry (2 ^ 63), smallEntry (2 ^ 63)]).Reachable s ∧
      s.phase = .panicked) ∧
    ∃ s, (machine false [smallEntry (2 ^ 63), smallEntry (2 ^ 63)]).Reachable s ∧
      s.reads.length = 2 ∧ s.reading = 0 ∧ s.outstanding = 2 ^ 64 := by
  have hpanic : ∃ s, (machine true [smallEntry (2 ^ 63), smallEntry (2 ^ 63)]).run
      { left := [smallEntry (2 ^ 63), smallEntry (2 ^ 63)],
        ahead := [smallEntry (2 ^ 63), smallEntry (2 ^ 63)], phase := .filling }
      [.fill, .fill] = some s ∧ s.phase = .panicked :=
    Machine.exists_of_run_any (by decide +kernel)
  have hwrap : ∃ s, (machine false [smallEntry (2 ^ 63), smallEntry (2 ^ 63)]).run
      { left := [smallEntry (2 ^ 63), smallEntry (2 ^ 63)],
        ahead := [smallEntry (2 ^ 63), smallEntry (2 ^ 63)], phase := .filling }
      [.fill, .fill] = some s ∧ (s.reads.length = 2 ∧ s.reading = 0 ∧ s.outstanding = 2 ^ 64) :=
    Machine.exists_of_run_any (by decide +kernel)
  obtain ⟨s, hs, hp⟩ := hpanic
  obtain ⟨s', hs', hp'⟩ := hwrap
  exact ⟨⟨s, Machine.reachable_of_run hs rfl, hp⟩,
    s', Machine.reachable_of_run hs' rfl, hp'⟩

end Taquba.Inbox.Prefetch
