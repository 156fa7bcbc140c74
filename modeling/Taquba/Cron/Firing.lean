import Mathlib.Data.List.Chain
import Taquba.Cron.Registry

/-! # The firings of a schedule

A tick enqueues the next firing of a schedule when it is due. Under backfill the transaction of
the enqueue also stores the firing as the watermark, from which a schedule without a next
firing goes on. The clock has nanoseconds; jobs and watermarks have milliseconds.
-/

namespace Taquba.Cron.Firing

open Clock Transition

inductive Watermark where
  | absent
  | malformed
  | stored (ms : ℤ)

/-- What becomes of a call that writes. A call that fails may have `applied` its write. -/
inductive Fate where
  | done
  | failed
  | applied
  deriving DecidableEq

/-- The next firing of the schedule and its watermark, the firings whose job has a dedup entry,
and the firings of all its jobs. A tick without a next firing is `opened` with the number of
firings before it and its clock reading. -/
structure State where
  nextFire : Option ℤ := none
  watermark : Watermark := .absent
  live : List ℤ := []
  fired : List ℤ := []
  opened : List (ℕ × ℤ) := []

/-- The first occurrence of an expression after a time, and the start of a lookback. -/
structure Calendar where
  nextTimeAfter : String → ℤ → Option ℤ
  lookbackFloor : ℤ → Duration → Option ℤ

variable (cal : Calendar) (schedule : Schedule)

def Calendar.next (t : ℤ) : Option ℤ := cal.nextTimeAfter schedule.expression t

namespace State

variable (s : State)

/-- The time after which the first occurrence is searched. -/
def initialAnchor (now : ℤ) : ℤ :=
  match schedule.backfill with
  | none => now
  | some backfill =>
    match s.watermark with
    | .absent =>
      match backfill.start with
      | .currentTime => now
      | .lookback => (cal.lookbackFloor now backfill.lookback).getD now
    | .malformed => now
    | .stored ms =>
      match cal.lookbackFloor now backfill.lookback with
      | some floor => if ms * milli < floor then floor else ms * milli
      | none => ms * milli

/-- Enqueue the firing, and say whether the calls succeeded. A job that is still enqueued is
found by its dedup key, and then the watermark is written by a call of its own. -/
def fire (fireAt : ℤ) (enqueue put : Fate) : State × Bool :=
  let ms := fireAt / milli
  let watermark := if schedule.backfill.isSome then .stored ms else s.watermark
  if ms ∈ s.live then
    if enqueue ≠ .done then (s, false)
    else if schedule.backfill.isNone then (s, true)
    else (if put = .failed then s else { s with watermark }, put = .done)
  else if enqueue = .failed then (s, false)
  else ({ s with watermark, live := ms :: s.live, fired := s.fired ++ [ms] }, enqueue = .done)

def opens (now : ℤ) : State :=
  if s.nextFire = none then { s with opened := (s.fired.length, now) :: s.opened } else s

def tickEntry (now : ℤ) (read : Bool) (enqueue put : Fate) : State :=
  if s.nextFire = none ∧ schedule.backfill.isSome ∧ read = false then s
  else
    let s := s.opens now
    match s.nextFire <|> cal.next schedule (s.initialAnchor cal schedule now) with
    | none => { s with nextFire := none }
    | some fireAt =>
      if now < fireAt then { s with nextFire := some fireAt }
      else
        let fired := s.fire schedule fireAt enqueue put
        { fired.1 with
          nextFire :=
            if schedule.backfill.isNone then cal.next schedule now
            else if fired.2 then cal.next schedule fireAt else some fireAt }

end State

/-- A tick, the claim of the job of a firing, which releases its dedup key, and a new entry for
the schedule, by a restart or a new registration. -/
inductive Label where
  | tick (now : ℤ) (read : Bool) (enqueue put : Fate)
  | claim (ms : ℤ)
  | reset

def step (s : State) : Label → Option State
  | .tick now read enqueue put => some (s.tickEntry cal schedule now read enqueue put)
  | .claim ms => some { s with live := s.live.erase ms }
  | .reset => some { s with nextFire := none }

def machine (watermark : Watermark) : Machine State Label where
  init s := s = { watermark }
  step := step cal schedule

/-- In a `clean` run an enqueue that fails wrote nothing. -/
def Clean (clean : Bool) (_ : State) : Label → Prop
  | .tick _ _ enqueue _ => clean = true → enqueue ≠ .applied
  | _ => True

/-- The firing `t` may come after `last`: it is the next occurrence, or the first one after the
start of the lookback of a tick that was `opened` in between, if `last` is before that. In a run
that is not clean it may be `last`. -/
def Follows (clean : Bool) (opened : ℤ → Prop) (last t : ℤ) : Prop :=
  (clean = false ∧ t = last) ∨ cal.next schedule (last * milli) = some (t * milli) ∨
    ∃ backfill now floor, schedule.backfill = some backfill ∧ opened now ∧
      cal.lookbackFloor now backfill.lookback = some floor ∧ last * milli < floor ∧
      cal.next schedule floor = some (t * milli)

/-- The ticks that were opened after `n` firings. -/
def State.OpenedAt (s : State) (n : ℕ) (now : ℤ) : Prop := (n, now) ∈ s.opened

/-- Every firing follows the one before it, and the first one follows `first`. -/
def InOrder (clean : Bool) (first : ℤ) (s : State) : Prop :=
  ∀ n last t, (first :: s.fired)[n]? = some last → s.fired[n]? = some t →
    Follows cal schedule clean (s.OpenedAt n) last t

/-- Occurrences are later than what they are searched from, and whole milliseconds. -/
structure Calendar.Lawful : Prop where
  lt : ∀ expression t u, cal.nextTimeAfter expression t = some u → t < u
  whole : ∀ expression t u, cal.nextTimeAfter expression t = some u → ∃ ms, u = ms * milli

/-- The firings go from `first` to `last`, which is the watermark, and the next one follows. -/
structure Inv (clean : Bool) (first : ℤ) (s : State) (last : ℤ) : Prop where
  live : ∀ ms ∈ s.live, ms ∈ s.fired
  inOrder : InOrder cal schedule clean first s
  last_eq : (first :: s.fired)[s.fired.length]? = some last
  le : ∀ ms ∈ s.fired, ms ≤ last
  watermark : s.watermark = .stored last
  next : ∀ u, s.nextFire = some u →
    ∃ t, u = t * milli ∧ Follows cal schedule clean (s.OpenedAt s.fired.length) last t

variable {cal schedule} {clean : Bool} {first last t now : ℤ} {s : State} {enqueue put : Fate}
  {opened opened' : ℤ → Prop}

theorem Follows.lt (hcal : cal.Lawful) (h : Follows cal schedule clean opened last t) :
    last < t ∨ clean = false ∧ t = last := by
  obtain h | h | ⟨_, _, floor, -, -, -, hlt, h⟩ := h
  · exact .inr h
  · have := hcal.lt _ _ _ h
    simp only [milli] at this
    omega
  · have := hcal.lt _ _ _ h
    simp only [milli] at this hlt
    omega

theorem Follows.le (hcal : cal.Lawful) (h : Follows cal schedule clean opened last t) :
    last ≤ t := by
  obtain h | ⟨-, rfl⟩ := h.lt hcal
  · exact h.le
  · exact le_rfl

theorem Follows.mono (h : Follows cal schedule clean opened last t)
    (ho : ∀ now, opened now → opened' now) : Follows cal schedule clean opened' last t := by
  obtain h | h | ⟨backfill, now, floor, hb, hnow, h⟩ := h
  · exact .inl h
  · exact .inr (.inl h)
  · exact .inr (.inr ⟨backfill, now, floor, hb, ho now hnow, h⟩)

theorem Inv.withNext (hi : Inv cal schedule clean first s last) (nextFire : Option ℤ)
    (h : ∀ u, nextFire = some u →
      ∃ t, u = t * milli ∧ Follows cal schedule clean (s.OpenedAt s.fired.length) last t) :
    Inv cal schedule clean first { s with nextFire } last :=
  { hi with next := h }

theorem Inv.opens (hi : Inv cal schedule clean first s last) (now : ℤ) :
    Inv cal schedule clean first (s.opens now) last := by
  unfold State.opens
  by_cases hn : s.nextFire = none
  · rw [if_pos hn]
    refine { hi with inOrder := fun n l t hl ht => ?_, next := ?_ }
    · exact (hi.inOrder n l t hl ht).mono fun _ => List.mem_cons_of_mem _
    · intro u hu
      cases hn.symm.trans hu
  · rw [if_neg hn]
    exact hi

/-- The firing of a tick follows the last one: it is the next firing, or the first occurrence
after the watermark or after the start of the lookback of a tick that is opened here. -/
theorem Inv.follows_opens (hi : Inv cal schedule clean first s last) (hcal : cal.Lawful)
    (hb : schedule.backfill.isSome = true) {u : ℤ}
    (h : ((s.opens now).nextFire <|>
      cal.next schedule ((s.opens now).initialAnchor cal schedule now)) = some u) :
    ∃ t, u = t * milli ∧
      Follows cal schedule clean ((s.opens now).OpenedAt (s.opens now).fired.length) last t := by
  cases hn : s.nextFire with
  | some v =>
    have hs : s.opens now = s := if_neg (by simp [hn])
    rw [hs, hn] at h
    cases h
    rw [hs]
    exact hi.next _ hn
  | none =>
    have hs : s.opens now = { s with opened := (s.fired.length, now) :: s.opened } := if_pos hn
    rw [hs, hn] at h
    rw [hs]
    change cal.next schedule _ = some u at h
    obtain ⟨t, rfl⟩ := hcal.whole _ _ _ h
    refine ⟨t, rfl, .inr ?_⟩
    obtain ⟨backfill, hb⟩ := Option.isSome_iff_exists.mp hb
    simp only [State.initialAnchor, hb, hi.watermark] at h
    cases hfloor : cal.lookbackFloor now backfill.lookback with
    | none =>
      rw [hfloor] at h
      exact .inl h
    | some floor =>
      simp only [hfloor] at h
      by_cases hlt : last * milli < floor
      · rw [if_pos hlt] at h
        exact .inr ⟨backfill, now, floor, hb, List.mem_cons_self, hfloor, hlt, h⟩
      · rw [if_neg hlt] at h
        exact .inl h

theorem InOrder.append (h : InOrder cal schedule clean first s)
    (hlast : (first :: s.fired)[s.fired.length]? = some last)
    (ht : Follows cal schedule clean (s.OpenedAt s.fired.length) last t) {s' : State}
    (hfired : s'.fired = s.fired ++ [t]) (hopened : s'.opened = s.opened) :
    InOrder cal schedule clean first s' := by
  intro n l t' hl ht'
  unfold State.OpenedAt
  rw [hopened]
  rw [hfired] at ht'
  rw [hfired, ← List.cons_append] at hl
  rcases Nat.lt_trichotomy n s.fired.length with hlt | rfl | hgt
  · rw [List.getElem?_append_left hlt] at ht'
    rw [List.getElem?_append_left (by simp; omega)] at hl
    exact h n l t' hl ht'
  · rw [List.getElem?_append_left (by simp), hlast] at hl
    rw [List.getElem?_concat_length] at ht'
    cases hl
    cases ht'
    exact ht
  · rw [List.getElem?_eq_none (by simp; omega)] at ht'
    cases ht'

/-- A firing becomes the last one, or its calls fail and it may still follow the last one. -/
theorem Inv.fire (hi : Inv cal schedule clean first s last) (hcal : cal.Lawful)
    (hb : schedule.backfill.isSome = true)
    (ht : Follows cal schedule clean (s.OpenedAt s.fired.length) last t)
    (hclean : clean = true → enqueue ≠ .applied) {s' : State} {ok : Bool}
    (h : s.fire schedule (t * milli) enqueue put = (s', ok)) :
    ∃ last', Inv cal schedule clean first { s' with nextFire := none } last' ∧
      if ok then last' = t
      else Follows cal schedule clean (s'.OpenedAt s'.fired.length) last' t := by
  have hsame := hi.withNext none (by simp)
  have hms : t * (milli : ℤ) / milli = t := Int.mul_ediv_cancel _ (by decide)
  simp only [State.fire, hms, hb, if_true] at h
  by_cases hlive : t ∈ s.live
  · rw [if_pos hlive] at h
    obtain rfl : t = last := le_antisymm (hi.le t (hi.live t hlive)) (ht.le hcal)
    have hstay : s' = s ∨ s' = { s with watermark := .stored t } := by
      repeat' split at h
      all_goals cases h
      all_goals simp
    rcases hstay with rfl | rfl
    · exact ⟨t, hsame, by split <;> first | rfl | exact ht⟩
    · exact ⟨t, { hi with watermark := rfl, next := by simp },
        by split <;> first | rfl | exact ht⟩
  · rw [if_neg hlive] at h
    by_cases hfailed : enqueue = .failed
    · rw [if_pos hfailed] at h
      cases h
      exact ⟨last, hsame, ht⟩
    · rw [if_neg hfailed] at h
      cases h
      refine ⟨t, ⟨?_, hi.inOrder.append hi.last_eq ht rfl rfl, by simp, ?_, rfl, by simp⟩, ?_⟩
      · intro ms hms
        rcases List.mem_cons.mp hms with rfl | hms
        · simp
        · simp [hi.live ms hms]
      · intro ms hms
        rcases List.mem_append.mp hms with hms | hms
        · exact (hi.le ms hms).trans (ht.le hcal)
        · exact (List.mem_singleton.mp hms).le
      · split
        · rfl
        · refine .inl ⟨?_, rfl⟩
          cases enqueue <;> simp_all

theorem inv_tick (hcal : cal.Lawful) (hb : schedule.backfill.isSome = true)
    (hi : Inv cal schedule clean first s last) (hclean : clean = true → enqueue ≠ .applied)
    (read : Bool) :
    ∃ last, Inv cal schedule clean first (s.tickEntry cal schedule now read enqueue put) last := by
  unfold State.tickEntry
  by_cases hread : s.nextFire = none ∧ schedule.backfill.isSome ∧ read = false
  · rw [if_pos hread]
    exact ⟨last, hi⟩
  rw [if_neg hread]
  have ho := hi.opens now
  dsimp only
  cases hfire : (s.opens now).nextFire <|>
      cal.next schedule ((s.opens now).initialAnchor cal schedule now) with
  | none => exact ⟨last, ho.withNext none (by simp)⟩
  | some fireAt =>
    obtain ⟨t, rfl, ht⟩ := hi.follows_opens hcal hb hfire
    by_cases hdue : now < t * milli
    · simp only [if_pos hdue]
      refine ⟨last, ho.withNext _ fun u hu => ?_⟩
      cases hu
      exact ⟨t, rfl, ht⟩
    · simp only [if_neg hdue, Option.isNone_eq_false_iff.mpr hb]
      rcases hf : (s.opens now).fire schedule (t * milli) enqueue put with ⟨s', ok⟩
      obtain ⟨last', hk, hok⟩ := ho.fire hcal hb ht hclean hf
      refine ⟨last', hk.withNext _ fun u hu => ?_⟩
      cases ok with
      | true =>
        obtain rfl : last' = t := hok
        obtain ⟨t', rfl⟩ := hcal.whole _ _ _ hu
        exact ⟨t', rfl, .inr (.inl hu)⟩
      | false =>
        cases hu
        exact ⟨t, rfl, hok⟩

theorem inv_step (hcal : cal.Lawful) (hb : schedule.backfill.isSome = true) {l : Label} {s' : State}
    (hi : ∃ last, Inv cal schedule clean first s last) (hl : Clean clean s l)
    (h : step cal schedule s l = some s') : ∃ last, Inv cal schedule clean first s' last := by
  obtain ⟨last, hi⟩ := hi
  cases l with
  | claim ms =>
    cases h
    exact ⟨last, fun m hm => hi.live m (List.mem_of_mem_erase hm), hi.inOrder, hi.last_eq, hi.le,
      hi.watermark, hi.next⟩
  | reset =>
    cases h
    exact ⟨last, hi.withNext none (by simp)⟩
  | tick now read enqueue put =>
    cases h
    exact inv_tick hcal hb hi hl read

/-- Under backfill the jobs of a schedule are those of its occurrences after the watermark, in
order and without a gap, except for occurrences before the lookback of a tick that found no next
firing, and the watermark is the last of them. If an enqueue that fails never wrote, no
occurrence has two jobs. -/
theorem backfill_fires_in_order (hcal : cal.Lawful) (hb : schedule.backfill.isSome = true)
    (h : (machine cal schedule (.stored first)).ReachableVia (Clean clean) s) :
    InOrder cal schedule clean first s ∧
      (∃ last, (first :: s.fired).getLast? = some last ∧ s.watermark = .stored last) ∧
      (clean = true → (first :: s.fired).Pairwise (· < ·)) := by
  obtain ⟨last, hi⟩ := h.invariant (I := fun s => ∃ last, Inv cal schedule clean first s last)
    (by rintro _ rfl; exact ⟨first, by simp, by simp [InOrder], rfl, by simp, rfl, by simp⟩)
    fun s l s' => inv_step hcal hb
  refine ⟨hi.inOrder, ⟨last, ?_, hi.watermark⟩, fun hclean => ?_⟩
  · rw [List.getLast?_eq_getElem?]
    exact hi.last_eq
  · refine List.isChain_iff_pairwise.mp (List.isChain_iff_getElem.mpr fun n hn => ?_)
    have hfollows := hi.inOrder n _ _ (List.getElem?_eq_getElem (by omega))
      (List.getElem?_eq_getElem (by simpa using hn))
    simpa [hclean] using hfollows.lt hcal

/-- An expression that fires every minute, without a bound on the lookback. -/
def everyMinute : Calendar where
  nextTimeAfter _ t := some ((t / 60000000000 + 1) * 60000 * milli)
  lookbackFloor _ _ := none

def minutely : Schedule where
  name := "m"
  expression := "* * * * *"
  queue := "reports"
  payload := []
  backfill := some ⟨.max, .currentTime⟩

/-- Two firings are due. The enqueue of the second one fails although it was applied, and its
job is claimed before the retry. -/
def replay : List Label :=
  [.tick 130000000000 true .done .done, .reset, .tick 130000000000 true .applied .done,
    .claim 120000, .tick 131000000000 true .done .done]

theorem backfill_fires_in_order_of_replay :
    ∃ s, (machine everyMinute minutely (.stored 0)).ReachableVia (Clean false) s ∧
      s.fired = [60000, 120000, 120000] ∧
      InOrder everyMinute minutely false 0 s := by
  obtain ⟨s, hs, hfired⟩ :
      ∃ s, (machine everyMinute minutely (.stored 0)).run { watermark := .stored 0 }
      replay = some s ∧ s.fired = [60000, 120000, 120000] :=
    Machine.exists_of_run_any (by decide +kernel)
  have hreach : (machine everyMinute minutely (.stored 0)).ReachableVia (Clean false) s := by
    refine .run (.init rfl) hs fun l _ t => ?_
    cases l <;> simp [Clean]
  have hcal : everyMinute.Lawful := by
    constructor
    · rintro _ t u ⟨⟩
      simp only [milli]
      omega
    · rintro _ t u ⟨⟩
      exact ⟨_, rfl⟩
  exact ⟨s, hreach, hfired, (backfill_fires_in_order hcal rfl hreach).1⟩

end Taquba.Cron.Firing
