import Mathlib.Data.List.Nodup
import Mathlib.Data.List.Perm.Subperm
import Taquba.Clock.Duration
import Taquba.Transition.Machine
import Taquba.Txn.Trace

/-! # The schedules of a cron scheduler

Handles register, replace and remove schedules. An entry of the registry has an identity of
its own, which a replacement by an equal schedule keeps. The scheduler takes over the
entries when the version of the registry moved, and keeps the next firing of the entries
whose identity it has.
-/

namespace Taquba.Cron

open Clock Transition

inductive BackfillStart where
  | currentTime
  | lookback
  deriving DecidableEq, Repr

structure Backfill where
  lookback : Duration
  start : BackfillStart
  deriving DecidableEq

/-- A map of headers, as the list of its entries in the order of the names. -/
structure Headers where
  entries : List (String × String)
  sorted : (entries.map Prod.fst).Pairwise (· < ·)
  deriving DecidableEq

def Headers.empty : Headers := ⟨[], .nil⟩

/-- A schedule. An expression is compared by its text. -/
structure Schedule where
  name : String
  expression : String
  queue : String
  payload : List UInt8
  headers : Headers := .empty
  priority : Option ℕ := none
  maxAttempts : Option ℕ := none
  backfill : Option Backfill := none
  deriving DecidableEq

inductive Error where
  | duplicateName (name : String)
  | reservedHeader (header : String)
  | unboundedStart (name : String)
  | stopped
  deriving DecidableEq, Repr

structure Entry where
  id : ℕ
  schedule : Schedule
  deriving DecidableEq

structure Registry where
  entries : List Entry := []
  version : ℕ := 0
  stopped : Bool := false
  nextId : ℕ := 0

def reservedHeaderPrefix : List Char := "cron.".toList

/-- The checks of one schedule. `bounded` says that a lookback has a floor. -/
def validate (bounded : Duration → Bool) (schedule : Schedule) : Except Error Unit :=
  match schedule.headers.entries.find? fun h => reservedHeaderPrefix.isPrefixOf h.1.toList with
  | some header => .error (.reservedHeader header.1)
  | none =>
    if schedule.backfill.any fun b => b.start = .lookback ∧ bounded b.lookback = false then
      .error (.unboundedStart schedule.name)
    else .ok ()

/-- The checks of a set: each schedule in order, and its name against those before it. -/
def validateAll (bounded : Duration → Bool) : (before after : List Schedule) → Except Error Unit
  | _, [] => .ok ()
  | before, schedule :: after => do
    validate bounded schedule
    if before.any fun s => s.name = schedule.name then .error (.duplicateName schedule.name)
    else validateAll bounded (before ++ [schedule]) after

namespace Registry

variable (bounded : Duration → Bool) (r : Registry)

def schedules : List Schedule := r.entries.map Entry.schedule

def register (schedule : Schedule) : Except Error Registry := do
  validate bounded schedule
  if r.stopped then .error .stopped
  else if r.schedules.any fun s => s.name = schedule.name then
    .error (.duplicateName schedule.name)
  else
    return { r with
      entries := r.entries ++ [⟨r.nextId, schedule⟩]
      version := r.version + 1
      nextId := r.nextId + 1 }

def equal (schedule : Schedule) : Option Entry := r.entries.find? fun e => e.schedule = schedule

/-- The entries of the new schedules, with new identities from `n` on. -/
def place : (n : ℕ) → List Schedule → List Entry
  | _, [] => []
  | n, schedule :: rest =>
    match r.equal schedule with
    | some entry => entry :: place n rest
    | none => ⟨n, schedule⟩ :: place (n + 1) rest

def replaceAll (schedules : List Schedule) : Except Error (Registry × Bool) := do
  validateAll bounded [] schedules
  if r.stopped then .error .stopped
  else
    let kept := schedules.countP fun s => (r.equal s).isSome
    if kept = schedules.length ∧ kept = r.entries.length then return (r, false)
    else
      return ({ r with
        entries := r.place r.nextId schedules
        version := r.version + 1
        nextId := r.nextId + schedules.length }, true)

def unschedule (name : String) : Registry × Bool :=
  let entries := r.entries.filter fun e => e.schedule.name ≠ name
  if entries.length < r.entries.length then ({ r with entries, version := r.version + 1 }, true)
  else (r, false)

end Registry

structure ActiveEntry where
  entry : Entry
  nextFire : Option ℤ := none

def ActiveEntry.tick (id : ℕ) (nextFire : Option ℤ) (a : ActiveEntry) : ActiveEntry :=
  if a.entry.id = id then { a with nextFire } else a

@[simp] theorem ActiveEntry.tick_entry (id : ℕ) (nextFire : Option ℤ) (a : ActiveEntry) :
    (a.tick id nextFire).entry = a.entry := by
  unfold ActiveEntry.tick
  split <;> rfl

/-- The registry, the entries of the scheduler and the version that they reflect.
`unchanged` are the schedules that were registered in every state since the last sync. -/
structure State where
  registry : Registry := {}
  active : List ActiveEntry := []
  synced : ℕ := 0
  unchanged : List Schedule := []

/-- The entries that stay, and a new one for each entry that is not among them. -/
def syncEntries (entries : List Entry) (active : List ActiveEntry) : List ActiveEntry :=
  let kept := active.filter fun a => entries.any fun e => e.id = a.entry.id
  entries.foldl (fun active e =>
    if active.any fun a => a.entry.id = e.id then active else active ++ [⟨e, none⟩]) kept

def State.sync (s : State) : State :=
  if s.registry.version = s.synced then { s with unchanged := s.registry.schedules }
  else
    { s with
      active := syncEntries s.registry.entries s.active
      synced := s.registry.version
      unchanged := s.registry.schedules }

/-- The calls on the registry, a sync, the next firing that a tick leaves for an entry, and
the end of the scheduler. -/
inductive Label where
  | register (schedule : Schedule)
  | replaceAll (schedules : List Schedule)
  | unschedule (name : String)
  | sync
  | tick (id : ℕ) (nextFire : Option ℤ)
  | stop

def State.withRegistry (s : State) (r : Registry) : State :=
  { s with registry := r, unchanged := s.unchanged.filter fun schedule => schedule ∈ r.schedules }

variable (bounded : Duration → Bool)

def step (s : State) : Label → Option State
  | .register schedule =>
    match s.registry.register bounded schedule with
    | .ok r => some (s.withRegistry r)
    | .error _ => some s
  | .replaceAll schedules =>
    match s.registry.replaceAll bounded schedules with
    | .ok (r, _) => some (s.withRegistry r)
    | .error _ => some s
  | .unschedule name => some (s.withRegistry (s.registry.unschedule name).1)
  | .sync => some s.sync
  | .tick id nextFire => some { s with active := s.active.map (ActiveEntry.tick id nextFire) }
  | .stop => some { s with registry := { s.registry with stopped := true } }

def machine : Machine State Label where
  init s := s = {}
  step := step bounded

/-- Names and identities are unique, and identities are below the next one. -/
structure Registry.WellFormed (r : Registry) : Prop where
  names : (r.schedules.map Schedule.name).Nodup
  ids : (r.entries.map Entry.id).Nodup
  fresh : ∀ e ∈ r.entries, e.id < r.nextId

/-- One call on the registry keeps it well formed. An entry of a schedule that stays keeps its
identity, and another one has a new identity. A call that changes nothing keeps the version. -/
structure Registry.Moves (r r' : Registry) : Prop where
  wellFormed : r'.WellFormed
  nextId : r.nextId ≤ r'.nextId
  version : r' = r ∨ r.version < r'.version
  entries : ∀ e ∈ r'.entries, e ∈ r.entries ∨ (r.nextId ≤ e.id ∧ e.schedule ∉ r.schedules)

namespace Registry

variable {bounded} {r r' : Registry} {schedule : Schedule} {schedules : List Schedule}

theorem WellFormed.schedules_nodup (h : r.WellFormed) : r.schedules.Nodup := h.names.of_map _

theorem mem_schedules {e : Entry} (h : e ∈ r.entries) : e.schedule ∈ r.schedules :=
  List.mem_map_of_mem h

theorem WellFormed.eq_of_id (h : r.WellFormed) {e e' : Entry} (he : e ∈ r.entries)
    (he' : e' ∈ r.entries) (hs : e.id = e'.id) : e = e' :=
  List.inj_on_of_nodup_map h.ids he he' hs

theorem Moves.refl (h : r.WellFormed) : r.Moves r := ⟨h, le_rfl, .inl rfl, fun _ he => .inl he⟩

theorem equal_eq_some {e : Entry} (h : r.equal schedule = some e) :
    e ∈ r.entries ∧ e.schedule = schedule :=
  ⟨List.mem_of_find?_eq_some h, by simpa using List.find?_some h⟩

theorem isSome_equal : (r.equal schedule).isSome ↔ schedule ∈ r.schedules := by
  simp [equal, schedules, List.find?_isSome]

theorem register_moves (hr : r.WellFormed) (h : r.register bounded schedule = .ok r') :
    r.Moves r' := by
  obtain ⟨_, -, h⟩ := Except.bind_eq_ok.mp h
  split at h
  · cases h
  · split_ifs at h with hname
    cases h
    have hnew : ∀ s ∈ r.schedules, s.name ≠ schedule.name := by simpa using hname
    refine ⟨⟨?_, ?_, ?_⟩, Nat.le_succ _, .inr (Nat.lt_succ_self _), ?_⟩
    · simp only [schedules, List.map_append, List.map_cons, List.map_nil]
      refine List.nodup_append.mpr ⟨hr.names, List.nodup_singleton _, ?_⟩
      intro a ha b hb
      obtain ⟨s, hs, rfl⟩ := List.mem_map.mp ha
      rw [List.mem_singleton.mp hb]
      exact hnew s hs
    · simp only [List.map_append, List.map_cons, List.map_nil]
      refine List.nodup_append.mpr ⟨hr.ids, List.nodup_singleton _, ?_⟩
      intro a ha b hb
      obtain ⟨e, he, rfl⟩ := List.mem_map.mp ha
      rw [List.mem_singleton.mp hb]
      exact (hr.fresh e he).ne
    · intro e he
      rcases List.mem_append.mp he with he | he
      · exact (hr.fresh e he).trans (Nat.lt_succ_self _)
      · rw [List.mem_singleton.mp he]
        exact Nat.lt_succ_self _
    · intro e he
      rcases List.mem_append.mp he with he | he
      · exact .inl he
      · rw [List.mem_singleton.mp he]
        exact .inr ⟨le_rfl, fun hs => hnew _ hs rfl⟩

theorem unschedule_moves (hr : r.WellFormed) (name : String) : r.Moves (r.unschedule name).1 := by
  unfold unschedule
  dsimp only
  split
  · have hsub : List.Sublist (r.entries.filter fun e => e.schedule.name ≠ name) r.entries :=
      List.filter_sublist
    exact ⟨⟨((hsub.map _).map _).nodup hr.names, (hsub.map _).nodup hr.ids,
      fun e he => hr.fresh e (hsub.mem he)⟩, le_rfl, .inr (Nat.lt_succ_self _),
      fun e he => .inl (hsub.mem he)⟩
  · exact .refl hr

theorem mem_place {n : ℕ} {e : Entry} (h : e ∈ r.place n schedules) : e.schedule ∈ schedules ∧
    (e ∈ r.entries ∨ (n ≤ e.id ∧ e.id < n + schedules.length ∧ e.schedule ∉ r.schedules)) := by
  induction schedules generalizing n with
  | nil => cases h
  | cons schedule rest ih =>
    simp only [place] at h
    split at h
    · rename_i entry hentry
      rcases List.mem_cons.mp h with rfl | h
      · obtain ⟨hmem, rfl⟩ := equal_eq_some hentry
        exact ⟨List.mem_cons_self, .inl hmem⟩
      · obtain ⟨hs, hold | ⟨hn, hlt, hnew⟩⟩ := ih h
        · exact ⟨List.mem_cons_of_mem _ hs, .inl hold⟩
        · exact ⟨List.mem_cons_of_mem _ hs, .inr ⟨hn, by simp only [List.length_cons]; omega, hnew⟩⟩
    · rename_i hentry
      rcases List.mem_cons.mp h with rfl | h
      · refine ⟨List.mem_cons_self, .inr ⟨le_rfl, by simp, fun hs => ?_⟩⟩
        have := isSome_equal.mpr hs
        simp [hentry] at this
      · obtain ⟨hs, hold | ⟨hn, hlt, hnew⟩⟩ := ih h
        · exact ⟨List.mem_cons_of_mem _ hs, .inl hold⟩
        · exact ⟨List.mem_cons_of_mem _ hs,
            .inr ⟨by omega, by simp only [List.length_cons]; omega, hnew⟩⟩

theorem schedules_place (n : ℕ) (schedules : List Schedule) :
    (r.place n schedules).map Entry.schedule = schedules := by
  induction schedules generalizing n with
  | nil => rfl
  | cons schedule rest ih =>
    simp only [place]
    split
    · rename_i entry hentry
      rw [List.map_cons, ih, (equal_eq_some hentry).2]
    · rw [List.map_cons, ih]

theorem nodup_place (hr : r.WellFormed) {n : ℕ} (hn : r.nextId ≤ n) (hs : schedules.Nodup) :
    ((r.place n schedules).map Entry.id).Nodup := by
  induction schedules generalizing n with
  | nil => exact List.nodup_nil
  | cons schedule rest ih =>
    obtain ⟨hnot, hrest⟩ := List.nodup_cons.mp hs
    simp only [place]
    split
    · rename_i entry hentry
      obtain ⟨hmem, rfl⟩ := equal_eq_some hentry
      refine List.nodup_cons.mpr ⟨fun hid => ?_, ih hn hrest⟩
      obtain ⟨e, he, hid⟩ := List.mem_map.mp hid
      obtain ⟨hes, hold | ⟨hge, -⟩⟩ := mem_place he
      · rw [hr.eq_of_id hold hmem hid] at hes
        exact hnot hes
      · have := hr.fresh entry hmem
        omega
    · refine List.nodup_cons.mpr ⟨fun hid => ?_, ih (by omega) hrest⟩
      obtain ⟨e, he, hid⟩ := List.mem_map.mp hid
      obtain ⟨-, hold | ⟨hge, -⟩⟩ := mem_place he
      · have := hr.fresh e hold
        simp only at hid
        omega
      · simp only at hid
        omega

theorem names_of_validateAll {before : List Schedule}
    (h : validateAll bounded before schedules = .ok ())
    (hb : (before.map Schedule.name).Nodup) : ((before ++ schedules).map Schedule.name).Nodup := by
  induction schedules generalizing before with
  | nil => simpa using hb
  | cons schedule rest ih =>
    obtain ⟨_, -, h⟩ := Except.bind_eq_ok.mp h
    split_ifs at h with hname
    have hnew : ∀ s ∈ before, s.name ≠ schedule.name := by simpa using hname
    have := ih h (by
      rw [List.map_append]
      refine List.nodup_append.mpr ⟨hb, List.nodup_singleton _, ?_⟩
      intro a ha b hb'
      obtain ⟨s, hs, rfl⟩ := List.mem_map.mp ha
      rw [List.mem_singleton.mp hb']
      exact hnew s hs)
    simpa using this

/-- A replacement installs the given set and reports whether it differs. -/
theorem replaceAll_spec (hr : r.WellFormed) {changed : Bool}
    (h : r.replaceAll bounded schedules = .ok (r', changed)) :
    r.Moves r' ∧ (∀ s, s ∈ r'.schedules ↔ s ∈ schedules) ∧
      (changed = true ↔ ¬ ∀ s, s ∈ r.schedules ↔ s ∈ schedules) := by
  obtain ⟨_, hvalid, h⟩ := Except.bind_eq_ok.mp h
  have hnames : (schedules.map Schedule.name).Nodup := by
    simpa using names_of_validateAll hvalid List.nodup_nil
  have hnodup : schedules.Nodup := hnames.of_map _
  have hlength : r.schedules.length = r.entries.length := List.length_map _
  have hkept : (schedules.countP fun s => (r.equal s).isSome) = schedules.length ↔
      schedules ⊆ r.schedules := by
    rw [List.countP_eq_length]
    exact forall₂_congr fun s _ => isSome_equal
  split at h
  · cases h
  · dsimp only at h
    split at h
    · rename_i hsame
      cases h
      have hperm : schedules.Perm r.schedules :=
        (List.subperm_of_subset hnodup (hkept.mp hsame.1)).perm_of_length_le (by omega)
      refine ⟨.refl hr, fun s => hperm.symm.mem_iff, ?_⟩
      simp [hperm.mem_iff]
    · rename_i hdiff
      cases h
      refine ⟨⟨⟨?_, nodup_place hr le_rfl hnodup, ?_⟩, Nat.le_add_right _ _,
        .inr (Nat.lt_succ_self _), ?_⟩, ?_, ?_⟩
      · rw [Registry.schedules, schedules_place]
        exact hnames
      · intro e he
        obtain ⟨-, hold | ⟨-, hlt, -⟩⟩ := mem_place he
        · exact (hr.fresh e hold).trans_le (Nat.le_add_right _ _)
        · exact hlt
      · intro e he
        obtain ⟨-, hold | ⟨hge, -, hnew⟩⟩ := mem_place he
        · exact .inl hold
        · exact .inr ⟨hge, hnew⟩
      · intro s
        rw [Registry.schedules, schedules_place]
      · refine iff_of_true rfl fun hset => hdiff ?_
        have hperm := (List.perm_ext_iff_of_nodup hr.schedules_nodup hnodup).mpr hset
        have hcount := hkept.mpr fun s hs => (hset s).mpr hs
        exact ⟨hcount, by rw [hcount, ← hperm.length_eq, hlength]⟩

end Registry

section Sync

variable {entries : List Entry} {active : List ActiveEntry}

/-- A sync keeps the entries that are registered and appends the new ones. -/
theorem syncEntries_eq (h : (entries.map Entry.id).Nodup) (active : List ActiveEntry) :
    syncEntries entries active =
      (active.filter fun a => entries.any fun e => e.id = a.entry.id) ++
        (entries.filter fun e => !active.any fun a => a.entry.id = e.id).map (⟨·, none⟩) := by
  have hfold : ∀ (entries : List Entry) (acc : List ActiveEntry), (entries.map Entry.id).Nodup →
      entries.foldl (fun active e =>
        if active.any fun a => a.entry.id = e.id then active else active ++ [⟨e, none⟩]) acc =
        acc ++ (entries.filter fun e => !acc.any fun a => a.entry.id = e.id).map (⟨·, none⟩) := by
    intro entries
    induction entries with
    | nil => simp
    | cons e entries ih =>
      intro acc hn
      obtain ⟨hnot, hn⟩ := List.nodup_cons.mp hn
      rw [List.foldl_cons]
      split_ifs with hany
      · rw [ih acc hn, List.filter_cons_of_neg (by simp [hany])]
      · rw [ih _ hn, List.filter_cons_of_pos (by simp [hany]), List.map_cons, List.append_assoc,
          List.singleton_append]
        congr 3
        refine List.filter_congr fun e' he' => ?_
        have hne : e.id ≠ e'.id := fun hid => hnot (hid ▸ List.mem_map_of_mem he')
        simp [hne]
  rw [syncEntries, hfold entries _ h]
  congr 2
  refine List.filter_congr fun e he => ?_
  have hany : (∃ a ∈ active, (∃ e' ∈ entries, e'.id = a.entry.id) ∧ a.entry.id = e.id) ↔
      ∃ a ∈ active, a.entry.id = e.id := by
    constructor
    · rintro ⟨a, ha, -, hid⟩
      exact ⟨a, ha, hid⟩
    · rintro ⟨a, ha, hid⟩
      exact ⟨a, ha, ⟨e, he, hid.symm⟩, hid⟩
  rw [Bool.eq_iff_iff]
  simpa using not_congr hany

end Sync

/-- The scheduler has at most one entry for each identity. Its entries of registered identities
are the registered ones, and those are the entries of the schedules that did not change since
the last sync. -/
structure Inv (s : State) : Prop where
  registry : s.registry.WellFormed
  ids : (s.active.map (·.entry.id)).Nodup
  fresh : ∀ a ∈ s.active, a.entry.id < s.registry.nextId
  same : ∀ a ∈ s.active, ∀ e ∈ s.registry.entries, e.id = a.entry.id → e = a.entry
  registered : ∀ schedule ∈ s.unchanged, schedule ∈ s.registry.schedules
  unchanged : ∀ e ∈ s.registry.entries, e.schedule ∈ s.unchanged ↔ ∃ a ∈ s.active, a.entry = e
  synced_le : s.synced ≤ s.registry.version
  synced : s.synced = s.registry.version →
    (∀ e ∈ s.registry.entries, ∃ a ∈ s.active, a.entry = e) ∧
      ∀ a ∈ s.active, a.entry ∈ s.registry.entries

section Steps

variable {bounded} {s s' : State} {r : Registry} {l : Label}

theorem inv_init : Inv {} := by
  refine ⟨⟨List.nodup_nil, List.nodup_nil, ?_⟩, List.nodup_nil, ?_, ?_, ?_, ?_, le_rfl, ?_⟩ <;>
    simp

theorem inv_withRegistry (h : Inv s) (hm : s.registry.Moves r) : Inv (s.withRegistry r) := by
  refine ⟨hm.wellFormed, h.ids, fun a ha => (h.fresh a ha).trans_le hm.nextId, ?_, ?_, ?_, ?_, ?_⟩
  · intro a ha e he hid
    rcases hm.entries e he with hold | ⟨hge, -⟩
    · exact h.same a ha e hold hid
    · have := h.fresh a ha
      omega
  · intro schedule hs
    exact of_decide_eq_true (List.mem_filter.mp hs).2
  · intro e he
    have hmem : e.schedule ∈ r.schedules := Registry.mem_schedules he
    simp only [State.withRegistry, List.mem_filter, hmem, decide_true, and_true]
    rcases hm.entries e he with hold | ⟨hge, hnew⟩
    · exact h.unchanged e hold
    · refine iff_of_false (fun hs => hnew (h.registered _ hs)) ?_
      rintro ⟨a, ha, rfl⟩
      have := h.fresh a ha
      omega
  · rcases hm.version with rfl | hlt
    · exact h.synced_le
    · exact h.synced_le.trans hlt.le
  · intro heq
    rcases hm.version with rfl | hlt
    · exact h.synced heq
    · have := h.synced_le
      simp only [State.withRegistry] at heq
      omega

/-- The entries after a sync: those of registered identities, and new ones without a firing. -/
theorem Inv.mem_syncEntries (h : Inv s) {a : ActiveEntry} :
    a ∈ syncEntries s.registry.entries s.active ↔ a.entry ∈ s.registry.entries ∧
      (a ∈ s.active ∨ (a.nextFire = none ∧ ∀ b ∈ s.active, b.entry ≠ a.entry)) := by
  rw [syncEntries_eq h.registry.ids, List.mem_append, List.mem_filter, List.mem_map]
  constructor
  · rintro (⟨ha, hid⟩ | ⟨e, he, rfl⟩)
    · obtain ⟨e, he, hid⟩ := by simpa using hid
      exact ⟨h.same a ha e he hid ▸ he, .inl ha⟩
    · obtain ⟨he, hnew⟩ := List.mem_filter.mp he
      have hnew : ∀ b ∈ s.active, b.entry.id ≠ e.id := by simpa using hnew
      exact ⟨he, .inr ⟨rfl, fun b hb hbe => hnew b hb (by rw [hbe])⟩⟩
  · rintro ⟨he, ha | ⟨hnone, hnew⟩⟩
    · exact .inl ⟨ha, by simpa using ⟨a.entry, he, rfl⟩⟩
    · refine .inr ⟨a.entry, List.mem_filter.mpr ⟨he, ?_⟩, ?_⟩
      · have : ∀ b ∈ s.active, b.entry.id ≠ a.entry.id :=
          fun b hb hid => hnew b hb (h.same b hb _ he hid.symm).symm
        simpa using this
      · rw [← hnone]

theorem Inv.mem_sync (h : Inv s) {a : ActiveEntry} :
    a ∈ s.sync.active ↔ a.entry ∈ s.registry.entries ∧
      (a ∈ s.active ∨ (a.nextFire = none ∧ ∀ b ∈ s.active, b.entry ≠ a.entry)) := by
  unfold State.sync
  split_ifs with hv
  · obtain ⟨hall, hreg⟩ := h.synced hv.symm
    constructor
    · exact fun ha => ⟨hreg a ha, .inl ha⟩
    · rintro ⟨he, ha | ⟨-, hnew⟩⟩
      · exact ha
      · obtain ⟨b, hb, hbe⟩ := hall _ he
        exact absurd hbe (hnew b hb)
  · exact h.mem_syncEntries

theorem Inv.ids_sync (h : Inv s) : (s.sync.active.map (·.entry.id)).Nodup := by
  unfold State.sync
  split
  · exact h.ids
  · simp only [syncEntries_eq h.registry.ids, List.map_append, List.map_map]
    refine List.nodup_append.mpr ⟨(List.filter_sublist.map _).nodup h.ids,
      (List.filter_sublist.map Entry.id).nodup h.registry.ids, ?_⟩
    intro i hi j hj
    obtain ⟨a, ha, rfl⟩ := List.mem_map.mp hi
    obtain ⟨e, he, rfl⟩ := List.mem_map.mp hj
    have hnew : ∀ b ∈ s.active, b.entry.id ≠ e.id := by simpa using (List.mem_filter.mp he).2
    exact hnew a (List.mem_filter.mp ha).1

theorem Inv.exists_sync (h : Inv s) {e : Entry} (he : e ∈ s.registry.entries) :
    ∃ a ∈ s.sync.active, a.entry = e := by
  by_cases hold : ∃ a ∈ s.active, a.entry = e
  · obtain ⟨a, ha, rfl⟩ := hold
    exact ⟨a, h.mem_sync.mpr ⟨he, .inl ha⟩, rfl⟩
  · have hnew : ∀ b ∈ s.active, b.entry ≠ e := fun b hb hbe => hold ⟨b, hb, hbe⟩
    exact ⟨⟨e, none⟩, h.mem_sync.mpr ⟨he, .inr ⟨rfl, hnew⟩⟩, rfl⟩

theorem inv_sync (h : Inv s) : Inv s.sync := by
  have hregistry : s.sync.registry = s.registry := by
    unfold State.sync
    split <;> rfl
  have hunchanged : s.sync.unchanged = s.registry.schedules := by
    unfold State.sync
    split <;> rfl
  have hsynced : s.sync.synced = s.registry.version := by
    unfold State.sync
    split_ifs with hv
    · exact hv.symm
    · rfl
  have hmem : ∀ a ∈ s.sync.active, a.entry ∈ s.registry.entries := fun a ha => (h.mem_sync.mp ha).1
  refine ⟨hregistry ▸ h.registry, h.ids_sync, ?_, ?_, ?_, ?_, ?_, ?_⟩
  · intro a ha
    rw [hregistry]
    exact h.registry.fresh _ (hmem a ha)
  · intro a ha e he hid
    rw [hregistry] at he
    exact h.registry.eq_of_id he (hmem a ha) hid
  · rw [hunchanged, hregistry]
    exact fun _ hs => hs
  · intro e he
    rw [hregistry] at he
    rw [hunchanged]
    exact iff_of_true (Registry.mem_schedules he) (h.exists_sync he)
  · rw [hsynced, hregistry]
  · rw [hregistry]
    exact fun _ => ⟨fun e he => h.exists_sync he, hmem⟩

theorem inv_tick (h : Inv s) (id : ℕ) (nextFire : Option ℤ) :
    Inv { s with active := s.active.map (ActiveEntry.tick id nextFire) } := by
  refine ⟨h.registry, ?_, ?_, ?_, h.registered, ?_, h.synced_le, ?_⟩
  · simpa [Function.comp_def] using h.ids
  · simpa using h.fresh
  · simpa using h.same
  · simpa using h.unchanged
  · simpa using h.synced

theorem inv_step (h : Inv s) (hs : step bounded s l = some s') : Inv s' := by
  cases l with
  | register schedule =>
    simp only [step] at hs
    split at hs
    · cases hs
      exact inv_withRegistry h (Registry.register_moves h.registry ‹_›)
    · cases hs
      exact h
  | replaceAll schedules =>
    simp only [step] at hs
    split at hs
    · cases hs
      exact inv_withRegistry h (Registry.replaceAll_spec h.registry ‹_›).1
    · cases hs
      exact h
  | unschedule name =>
    cases hs
    exact inv_withRegistry h (Registry.unschedule_moves h.registry name)
  | sync =>
    cases hs
    exact inv_sync h
  | tick id nextFire =>
    cases hs
    exact inv_tick h id nextFire
  | stop =>
    cases hs
    exact { h with registry := ⟨h.registry.names, h.registry.ids, h.registry.fresh⟩ }

end Steps

theorem inv_reachable {s : State} (h : (machine bounded).Reachable s) : Inv s := by
  refine h.invariant ?_ fun s l s' hi hs => inv_step hi hs
  rintro s rfl
  exact inv_init

def nightly : Schedule where
  name := "nightly"
  expression := "0 0 * * *"
  queue := "reports"
  payload := []

end Taquba.Cron
