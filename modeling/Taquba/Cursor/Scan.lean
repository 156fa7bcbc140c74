import Taquba.Cursor.Basic

/-! # The candidate scan of a claim

A claim takes keys of its snapshot in order, from the bound, until it has
`maxJobs` of them or the pending keys run out. The candidates are an initial
segment of what the bound yields, and a drained scan took all of it.
-/

namespace Taquba.Cursor

variable {K : Type*}

/-- Take up to `n` keys of an iterator; the flag is set when it ran out first. -/
def collect : ℕ → List K → List K × Bool
  | 0, _ => ([], false)
  | _ + 1, [] => ([], true)
  | n + 1, k :: ks => (k :: (collect n ks).1, (collect n ks).2)

theorem collect_fst (n : ℕ) (ks : List K) : (collect n ks).1 = ks.take n := by
  induction n generalizing ks with
  | zero => simp [collect]
  | succ n ih => cases ks <;> simp [collect, ih]

theorem collect_snd (n : ℕ) (ks : List K) : (collect n ks).2 = decide (ks.length < n) := by
  induction n generalizing ks with
  | zero => simp [collect]
  | succ n ih => cases ks <;> simp [collect, ih]

variable [LinearOrder K]

/-- The keys of the snapshot that a scan from the bound yields, in key order. -/
def iter (sf : Option (ScanFrom K)) (snapshot : Finset K) : List K :=
  (snapshot.filter (Yields sf)).sort

/-- The candidates of a claim of up to `maxJobs` jobs, and whether it drained. -/
def scan (sf : Option (ScanFrom K)) (maxJobs : ℕ) (snapshot : Finset K) : List K × Bool :=
  collect maxJobs (iter sf snapshot)

variable {sf : Option (ScanFrom K)} {n : ℕ} {snapshot : Finset K} {k : K}

@[simp] theorem mem_iter : k ∈ iter sf snapshot ↔ k ∈ snapshot ∧ Yields sf k := by
  simp [iter]

theorem pairwise_iter (sf : Option (ScanFrom K)) (snapshot : Finset K) :
    (iter sf snapshot).Pairwise (· < ·) :=
  (snapshot.filter (Yields sf)).sortedLT_sort.pairwise

theorem nodup_candidates (sf : Option (ScanFrom K)) (n : ℕ) (snapshot : Finset K) :
    (scan sf n snapshot).1.Nodup := by
  rw [scan, collect_fst]
  exact ((pairwise_iter sf snapshot).imp ne_of_lt).sublist (List.take_sublist _ _)

theorem mem_of_mem_candidates (h : k ∈ (scan sf n snapshot).1) : k ∈ snapshot ∧ Yields sf k := by
  rw [scan, collect_fst] at h
  exact mem_iter.mp (List.mem_of_mem_take h)

theorem lt_of_not_mem_candidates {last : K} (hk : k ∈ snapshot) (hy : Yields sf k)
    (hn : k ∉ (scan sf n snapshot).1) (hl : last ∈ (scan sf n snapshot).1) : last < k := by
  rw [scan, collect_fst] at hn hl
  have hsorted := pairwise_iter sf snapshot
  rw [← List.take_append_drop n (iter sf snapshot), List.pairwise_append] at hsorted
  have hmem : k ∈ (iter sf snapshot).take n ++ (iter sf snapshot).drop n := by
    rw [List.take_append_drop]
    exact mem_iter.mpr ⟨hk, hy⟩
  exact hsorted.2.2 _ hl _ ((List.mem_append.mp hmem).resolve_left hn)

theorem mem_candidates_of_drained (hd : (scan sf n snapshot).2 = true) (hk : k ∈ snapshot)
    (hy : Yields sf k) : k ∈ (scan sf n snapshot).1 := by
  rw [scan, collect_snd, decide_eq_true_iff] at hd
  rw [scan, collect_fst, List.take_of_length_le hd.le]
  exact mem_iter.mpr ⟨hk, hy⟩

/-- An attempt of at least one job that has no candidate saw no key from the bound. -/
theorem not_yields_of_candidates_nil (hn : 0 < n) (h : (scan sf n snapshot).1 = [])
    (hk : k ∈ snapshot) : ¬ Yields sf k := by
  intro hy
  rw [scan, collect_fst, List.take_eq_nil_iff] at h
  have := mem_iter.mpr ⟨hk, hy⟩
  simp [h.resolve_left hn.ne'] at this

theorem scan_eq_front (sf : Option (ScanFrom K)) (n : ℕ) (snapshot : Finset K) :
    scan sf n snapshot = scan none n (snapshot \ snapshot.filter fun k => ¬ Yields sf k) := by
  have : snapshot \ snapshot.filter (fun k => ¬ Yields sf k) = snapshot.filter (Yields sf) := by
    ext k
    simp only [Finset.mem_sdiff, Finset.mem_filter]
    tauto
  simp [scan, iter, this]

end Taquba.Cursor
