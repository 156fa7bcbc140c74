import Taquba.Lists

/-! # The bound of a time-ordered key space

A process keeps a lower bound on the times of the live keys of a key space. A
writer lowers it after its commit. A scan takes the bound, leaves the maximum in
its place, reads the keys from the old bound in time order up to the first that
is not due, and removes or retains each due key. At its end it lowers the bound
to the earliest time it retained, or to where it began when it did not complete.
-/

namespace Taquba.TimeBound

/-- A time in milliseconds; the maximum of the clock is `⊤`. -/
abbrev Bound := WithTop ℕ

def isDue (bound : Bound) (now retention : ℕ) : Prop := bound + (retention : Bound) ≤ (now : Bound)

instance (bound : Bound) (now retention : ℕ) : Decidable (isDue bound now retention) :=
  inferInstanceAs (Decidable (_ ≤ _))

variable {K : Type*}

/-- One scan from the bound it took. `todo` are the due keys that it read and has
still to remove or retain, and `unread` says that keys may be left to read. `seen`
are the keys it read, `since` those that commits wrote after the first `snap`, which
the store had when the scan began. -/
structure Scan (K : Type*) where
  now : ℕ
  retention : ℕ
  start : Bound
  snap : ℕ
  retained : Bound := ⊤
  todo : List K := []
  unread : Bool := true
  seen : Finset K := ∅
  since : Finset K := ∅

/-- The bound, the scans in progress and the live keys whose writer has not lowered
the bound yet. -/
structure State (K : Type*) where
  bound : Bound := 0
  unnoted : Finset K := ∅
  scans : List (Scan K) := []

section Scans

variable [DecidableEq K] (time : K → ℕ)

namespace Scan

/-- Record a key that the scan leaves in the key space. -/
def retain (scan : Scan K) (atMs : ℕ) : Scan K :=
  { scan with retained := min scan.retained atMs }

/-- Read the next keys of the key space; `last` says that no key follows them. The
first key that is not due ends the reading. -/
def page (scan : Scan K) (keys : List K) (last : Bool) : Scan K :=
  let isDue := fun k => decide (isDue (time k) scan.now scan.retention)
  let scan' := { scan with
    todo := scan.todo ++ keys.takeWhile isDue
    seen := scan.seen ∪ keys.toFinset }
  match keys.dropWhile isDue with
  | k :: _ => { scan'.retain (time k) with unread := false }
  | [] => { scan' with unread := !last }

/-- A key that the scan read is out of the way. -/
def settle (scan : Scan K) (k : K) : Scan K :=
  { scan with todo := scan.todo.erase k }

def touch (inserted : Finset K) (scan : Scan K) : Scan K :=
  { scan with since := scan.since ∪ inserted }

/-- The scan will remove the key, or lower the bound to its time. -/
def Covers (scan : Scan K) (k : K) : Prop :=
  scan.start ≤ time k ∧ (scan.retained ≤ time k ∨
    k ∉ scan.since ∧ (k ∈ scan.todo ∨ scan.unread = true ∧ k ∉ scan.seen))

end Scan

namespace State

def lower (s : State K) (atMs : ℕ) : State K :=
  { s with
    bound := min s.bound atMs
    unnoted := s.unnoted.filter (time · < atMs) }

/-- A commit wrote the keys `touched`, of which `inserted` are live after it. -/
def commit (s : State K) (touched inserted : Finset K) : State K :=
  { s with
    unnoted := (s.unnoted \ touched) ∪ inserted
    scans := s.scans.map (Scan.touch inserted) }

def begin (s : State K) (now retention snap : ℕ) : State K :=
  { s with
    bound := ⊤
    scans := s.scans ++ [{ now, retention, start := s.bound, snap }] }

def setScan (s : State K) (i : ℕ) (scan : Scan K) : State K :=
  { s with scans := s.scans.set i scan }

def finish (s : State K) (i : ℕ) (left : Bound) : State K :=
  { s with bound := min s.bound left, scans := s.scans.eraseIdx i }

end State

end Scans

section Invariant

variable {time : K → ℕ} {Live Live' : K → Prop} {s : State K} {scan scan' : Scan K} {k : K}

/-- The bound is at or below every live key whose writer lowered it, unless a scan in
progress has the key. -/
def Inv (time : K → ℕ) (Live : K → Prop) (s : State K) : Prop :=
  ∀ k, Live k → k ∉ s.unnoted → s.bound ≤ time k ∨ ∃ scan ∈ s.scans, scan.Covers time k

theorem inv_init (time : K → ℕ) (Live : K → Prop) : Inv time Live {} :=
  fun _ _ _ => .inl (WithTop.coe_le_coe.mpr (Nat.zero_le _))

/-- With every writer's note applied and no scan in progress, the bound is at or below
every live key. -/
theorem Inv.bound_le (hi : Inv time Live s) (hn : s.unnoted = ∅) (hs : s.scans = [])
    (hk : Live k) : s.bound ≤ time k := by
  rcases hi k hk (by simp [hn]) with h | ⟨scan, hmem, -⟩
  · exact h
  · simp [hs] at hmem

variable {i : ℕ}

theorem Inv.lower (hi : Inv time Live s) (atMs : ℕ) : Inv time Live (s.lower time atMs) := by
  intro k hk hn
  by_cases hle : atMs ≤ time k
  · exact .inl ((min_le_right _ _).trans (WithTop.coe_le_coe.mpr hle))
  · have hn' : k ∉ s.unnoted := fun h =>
      hn (Finset.mem_filter.mpr ⟨h, Nat.lt_of_not_le hle⟩)
    rcases hi k hk hn' with h | h
    · exact .inl ((min_le_left _ _).trans h)
    · exact .inr h

theorem Inv.begin (hi : Inv time Live s) (now retention snap : ℕ) :
    Inv time Live (s.begin now retention snap) := by
  intro k hk hn
  rcases hi k hk hn with h | ⟨scan, hs, hc⟩
  · refine .inr ⟨_, List.mem_append_right _ (List.mem_singleton.mpr rfl), h, .inr ⟨?_, .inr ?_⟩⟩
    · simp
    · simp
  · exact .inr ⟨scan, List.mem_append_left _ hs, hc⟩

theorem Inv.setScan (hi : Inv time Live s) (hs : s.scans[i]? = some scan)
    (h : ∀ k, Live k → scan.Covers time k → scan'.Covers time k) :
    Inv time Live (s.setScan i scan') := by
  intro k hk hn
  rcases hi k hk hn with hb | ⟨c, hc, hcov⟩
  · exact .inl hb
  · rcases List.mem_set_of_mem hc hs with rfl | hc'
    · exact .inr ⟨scan', List.mem_set (List.getElem?_eq_some_iff.mp hs).1 _, h k hk hcov⟩
    · exact .inr ⟨c, hc', hcov⟩

theorem Inv.finish (hi : Inv time Live s) (hs : s.scans[i]? = some scan) {left : Bound}
    (h : ∀ k, scan.Covers time k → left ≤ time k) : Inv time Live (s.finish i left) := by
  intro k hk hn
  rcases hi k hk hn with hb | ⟨c, hc, hcov⟩
  · exact .inl ((min_le_left _ _).trans hb)
  · rcases List.mem_eraseIdx_of_mem hc hs with rfl | hc'
    · exact .inl ((min_le_right _ _).trans (h k hcov))
    · exact .inr ⟨c, hc', hcov⟩

theorem Scan.Covers.retained_le (h : scan.Covers time k) (hu : scan.unread = false)
    (ht : scan.todo = []) : scan.retained ≤ time k := by
  rcases h.2 with h | ⟨-, h⟩
  · exact h
  · simp [hu, ht] at h

variable [DecidableEq K]

theorem Inv.commit {touched inserted : Finset K} (hi : Inv time Live s)
    (hin : ∀ k ∈ touched, Live' k → k ∈ inserted) (hout : ∀ k ∉ touched, Live' k → Live k) :
    Inv time Live' (s.commit touched inserted) := by
  intro k hk hn
  simp only [State.commit, Finset.mem_union, Finset.mem_sdiff, not_or, not_and, not_not] at hn
  have ht : k ∉ touched := fun h => hn.2 (hin k h hk)
  rcases hi k (hout k ht hk) (fun h => ht (hn.1 h)) with h | ⟨scan, hs, hstart, hc⟩
  · exact .inl h
  · refine .inr ⟨_, List.mem_map_of_mem hs, hstart, hc.imp_right ?_⟩
    rintro ⟨hsince, hc⟩
    exact ⟨by simpa [Scan.touch] using ⟨hsince, hn.2⟩, hc⟩

namespace Scan

theorem Covers.settle (h : scan.Covers time k) {j : K} (hj : k ∉ scan.since → k ≠ j) :
    (scan.settle j).Covers time k := by
  refine ⟨h.1, h.2.imp_right ?_⟩
  rintro ⟨hsince, hc⟩
  exact ⟨hsince, hc.imp_left (List.mem_erase_of_ne (hj hsince)).mpr⟩

theorem Covers.retain (h : scan.Covers time k) (j : K) :
    ((scan.retain (time j)).settle j).Covers time k := by
  by_cases hj : k = j
  · subst hj
    exact ⟨h.1, .inl (min_le_right _ _)⟩
  · have hr : (scan.retain (time j)).Covers time k :=
      ⟨h.1, h.2.imp_left (min_le_left _ _).trans⟩
    exact hr.settle fun _ => hj

theorem Covers.page (h : scan.Covers time k) {keys : List K} {last : Bool}
    (hsort : keys.Pairwise (time · ≤ time ·))
    (hrest : k ∉ scan.since → scan.unread = true → k ∉ scan.seen → k ∉ keys →
      last = false ∧ ∀ j ∈ keys, time j ≤ time k) :
    (scan.page time keys last).Covers time k := by
  have hsplit := keys.takeWhile_append_dropWhile
    (p := fun k => decide (isDue (time k) scan.now scan.retention))
  unfold Scan.page
  simp only
  generalize keys.takeWhile _ = due at hsplit ⊢
  cases hdrop : keys.dropWhile _ with
  | nil =>
    rw [hdrop, List.append_nil] at hsplit
    subst hsplit
    refine ⟨h.1, h.2.imp_right ?_⟩
    rintro ⟨hsince, hc⟩
    refine ⟨hsince, ?_⟩
    rcases hc with hc | ⟨hu, hseen⟩
    · exact .inl (List.mem_append_left _ hc)
    · by_cases hk : k ∈ due
      · exact .inl (List.mem_append_right _ hk)
      · obtain ⟨rfl, -⟩ := hrest hsince hu hseen hk
        exact .inr ⟨rfl, by simp [hseen, hk]⟩
  | cons j rest =>
    rw [hdrop] at hsplit
    rw [← hsplit] at hsort hrest
    have hj : k ∈ j :: rest → (time j : Bound) ≤ time k := by
      intro hk
      rcases List.mem_cons.mp hk with rfl | hk
      · exact le_rfl
      · have := List.rel_of_pairwise_cons (List.pairwise_append.mp hsort).2.1 hk
        exact WithTop.coe_le_coe.mpr this
    refine ⟨h.1, ?_⟩
    rcases h.2 with hr | ⟨hsince, hc | ⟨hu, hseen⟩⟩
    · exact .inl ((min_le_left _ _).trans hr)
    · exact .inr ⟨hsince, .inl (List.mem_append_left _ hc)⟩
    · by_cases hk : k ∈ due
      · exact .inr ⟨hsince, .inl (List.mem_append_right _ hk)⟩
      · refine .inl ((min_le_right _ _).trans ?_)
        by_cases hk' : k ∈ j :: rest
        · exact hj hk'
        · have hle := (hrest hsince hu hseen (by simpa using ⟨hk, by simpa using hk'⟩)).2 j
            (by simp)
          exact WithTop.coe_le_coe.mpr hle

end Scan

end Invariant

end Taquba.TimeBound
