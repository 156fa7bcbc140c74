import Taquba.Expiry.Steps

/-! # Passes along a run

The bound is at or below the times of all entries in every state, whether the passes
completed, failed or were dropped, so no pass skips an entry that is due.
-/

namespace Taquba.Expiry

open Transition

variable {added : List (ℕ × List UInt8)} {changes : KvEffects}

section Proofs

variable {index : ExpiryIndex} {p : Pass} {loop : Loop} {db : Db} {i : ℕ}
  {es done rest : List (ℕ × List UInt8)} {e : ℕ × List UInt8}

structure Inv (index : ExpiryIndex) (s : State) (es : List (ℕ × List UInt8)) : Prop where
  keys : (index.rows s.db).map Prod.fst = keysOf index es
  times : ∀ e ∈ es, e.1 ≤ u64Max
  bound : ∀ e ∈ es, s.bound ≤ e.1

theorem entries_eq (hkeys : (index.rows db).map Prod.fst = keysOf index es)
    (htimes : ∀ e ∈ es, e.1 ≤ u64Max) : entries index db = es := by
  have hparse : ∀ e ∈ es, index.parse (index.entryKey e.1 e.2) = some e := by
    intro e he
    have hle := htimes e he
    rw [u64Max] at hle
    exact ExpiryIndex.parse_entryKey index (by omega) e.2
  have hmap : entries index db = ((index.rows db).map Prod.fst).filterMap index.parse := by
    rw [List.filterMap_map]
    rfl
  rw [hmap, hkeys, keysOf, List.filterMap_map]
  have hsome : es.filterMap (index.parse ∘ fun e => index.entryKey e.1 e.2) =
      es.filterMap some := List.filterMap_congr hparse
  rw [hsome, List.filterMap_some]

theorem sorted_times (hsorted : (keysOf index es).Pairwise (· < ·))
    (htimes : ∀ e ∈ es, e.1 ≤ u64Max) : es.Pairwise fun a b => a.1 ≤ b.1 := by
  refine List.Pairwise.imp_of_mem (fun {a b} ha hb hab => ?_) (List.pairwise_map.mp hsorted)
  have ha' := htimes a ha
  have hb' := htimes b hb
  rw [u64Max] at ha' hb'
  rcases (ExpiryIndex.entryKey_lt_iff (by omega) (by omega)).mp hab with h | ⟨h, -⟩
  · exact h.le
  · exact h.le

theorem isDue_of_le {atMs atMs' now retentionMs : ℕ} (h : isDue atMs' now retentionMs = true)
    (hle : atMs ≤ atMs') : isDue atMs now retentionMs = true := by
  simp only [isDue, decide_eq_true_eq] at *
  omega

theorem filter_due_eq_nil (hp : p.Plain index) (hsorted : rest.Pairwise fun a b => a.1 ≤ b.1)
    (htimes : ∀ e ∈ rest, e.1 ≤ u64Max)
    (hhead : ∀ e ∈ rest.head?, isDue e.1 p.now p.retentionMs = false) :
    rest.filter p.Due = [] := by
  cases rest with
  | nil => rfl
  | cons e rest =>
    refine List.filter_eq_nil_iff.mpr fun x hx hdue => ?_
    have hx' := (isDue_iff hp (htimes x hx)).mpr (by simpa using hdue)
    have hle : e.1 ≤ x.1 := by
      rcases List.mem_cons.mp hx with rfl | hx
      · exact le_rfl
      · exact List.rel_of_pairwise_cons hsorted hx
    have hnot := hhead e rfl
    rw [isDue_of_le hx' hle] at hnot
    cases hnot

theorem filter_due_eq_self (hp : p.Plain index) (htimes : ∀ e ∈ done, e.1 ≤ u64Max)
    (hdue : ∀ e ∈ done, isDue e.1 p.now p.retentionMs = true) : done.filter p.Due = done :=
  List.filter_eq_self.mpr fun e he =>
    decide_eq_true ((isDue_iff hp (htimes e he)).mp (hdue e he))

theorem length_rows_le (index : ExpiryIndex) (db : Db) :
    (index.rows db).length ≤ db.rows.length :=
  (List.length_filter_le _ _).trans (List.length_filterMap_le _ _)

variable {s s' : State} {o : Outcome} {fuel : ℕ}

/-- What a settled front of the entries means for the store. -/
theorem Settled.exact (h : Settled index p s.db done rest loop) (hp : p.Plain index)
    (hi : Inv index s (done ++ rest)) :
    loop.db = loop.committed.foldl Db.apply s.db ∧
      (∃ later, dueEntries index p s.db = done ++ later ∧ later = rest.filter p.Due) ∧
      loop.committed =
        settlements index p s.db 0 ((dueEntries index p s.db).take done.length) ∧
      entries index loop.db = kept p 0 ((dueEntries index p s.db).take done.length) ++
        (entries index s.db).drop done.length := by
  have hentries := entries_eq hi.keys hi.times
  have hdone : done.filter p.Due = done :=
    filter_due_eq_self hp (fun e he => hi.times e (List.mem_append_left _ he)) h.due
  have hdue : dueEntries index p s.db = done ++ rest.filter p.Due := by
    rw [dueEntries, hentries, List.filter_append, hdone]
  have htake : (dueEntries index p s.db).take done.length = done := by
    rw [hdue, List.take_left]
  refine ⟨h.db, ⟨_, hdue, rfl⟩, by rw [htake]; exact h.committed, ?_⟩
  rw [htake, hentries, List.drop_left]
  refine entries_eq h.keys fun e he => ?_
  rcases List.mem_append.mp he with he | he
  · exact hi.times e (List.mem_append_left _ (mem_of_kept he))
  · exact hi.times e (List.mem_append_right _ he)

theorem sorted_keysOf (hi : Inv index s es) : (keysOf index es).Pairwise (· < ·) := by
  rw [← hi.keys]
  exact List.pairwise_map.mpr ExpiryIndex.sorted_rows

theorem Completed.exact (h : Completed index p s.db es loop) (hp : p.Plain index)
    (hi : Inv index s es) {o : Outcome} (hcalls : o.calls = loop.calls)
    (hcommitted : o.committed = loop.committed) (hdb : s'.db = loop.db) :
    Exact index p s s' o := by
  obtain ⟨done, rest, rfl, hprog, hhead⟩ := h
  obtain ⟨hstore, ⟨later, hdue, hlater⟩, hsettled, hentries⟩ := hprog.toSettled.exact hp hi
  have hsorted := sorted_times (sorted_keysOf hi) hi.times
  rw [filter_due_eq_nil hp (List.pairwise_append.mp hsorted).2.1
    (fun e he => hi.times e (List.mem_append_right _ he)) fun e he => (hhead e he).1] at hlater
  subst hlater
  rw [List.append_nil] at hdue
  have hc : o.calls = done := hcalls.trans hprog.calls
  refine ⟨by rw [hdb, hcommitted, hstore], done.length, ?_, ?_, ?_, ?_, ?_, fun _ => ?_⟩
  · rw [hc, hdue]
  · rw [hc]
  · rw [hc]
    omega
  · rw [hcommitted, hsettled]
  · rw [hdb, hentries]
  · rw [hc, hdue]
    exact ⟨rfl, rfl⟩

theorem Ended.exact (h : Ended index p s.db es loop) (hp : p.Plain index) (hi : Inv index s es)
    (hcalls : o.calls = loop.calls) (hcommitted : o.committed = loop.committed)
    (hdb : s'.db = loop.db) (hend : o.completed = false) : Exact index p s s' o := by
  obtain ⟨done, rest, rfl, hs, hc⟩ := h
  obtain ⟨hstore, ⟨later, hdue, hlater⟩, hsettled, hentries⟩ := hs.exact hp hi
  have hfront : o.calls <+: dueEntries index p s.db ∧ done.length ≤ o.calls.length ∧
      o.calls.length ≤ done.length + 1 := by
    rw [hdue, hcalls]
    rcases hc with hc | ⟨e, rest', rfl, he, hc⟩
    · rw [hc]
      exact ⟨List.prefix_append _ _, le_rfl, by omega⟩
    · have htime := hi.times e (by simp)
      rw [hc, hlater, List.filter_cons_of_pos (by simpa using (isDue_iff hp htime).mp he)]
      exact ⟨⟨rest'.filter p.Due, by simp⟩, by simp, by simp⟩
  refine ⟨by rw [hdb, hcommitted, hstore], done.length, hfront.1, hfront.2.1, hfront.2.2, ?_, ?_,
    ?_⟩
  · rw [hcommitted, hsettled]
  · rw [hdb, hentries]
  · rw [hend]
    rintro ⟨⟩

theorem Completed.inv (h : Completed index p s.db es loop) (hi : Inv index s es)
    (hdb : s'.db = loop.db) (hbound : s'.bound = min loop.bound loop.retained) :
    ∃ es', Inv index s' es' := by
  obtain ⟨done, rest, rfl, hprog, hhead⟩ := h
  have hle : s'.bound ≤ loop.retained := hbound.le.trans (min_le_right _ _)
  have hmem : ∀ e ∈ kept p 0 done ++ rest, e ∈ done ++ rest := by
    intro e he
    rcases List.mem_append.mp he with he | he
    · exact List.mem_append_left _ (mem_of_kept he)
    · exact List.mem_append_right _ he
  refine ⟨kept p 0 done ++ rest, by rw [hdb, hprog.keys], fun e he => hi.times e (hmem e he), ?_⟩
  intro e he
  rcases List.mem_append.mp he with he | he
  · exact hle.trans (hprog.retained e he)
  · have hsorted := sorted_times (sorted_keysOf hi) hi.times
    cases rest with
    | nil => cases he
    | cons first rest =>
      have hfirst := hle.trans (hhead first rfl).2
      rcases List.mem_cons.mp he with rfl | he
      · exact hfirst
      · exact hfirst.trans
          (List.rel_of_pairwise_cons (List.pairwise_append.mp hsorted).2.1 he)

theorem Ended.inv (h : Ended index p s.db es loop) (hi : Inv index s es)
    (hdb : s'.db = loop.db) (hbound : s'.bound = min loop.bound s.bound) :
    ∃ es', Inv index s' es' := by
  obtain ⟨done, rest, rfl, hs, -⟩ := h
  have hmem : ∀ e ∈ kept p 0 done ++ rest, e ∈ done ++ rest := by
    intro e he
    rcases List.mem_append.mp he with he | he
    · exact List.mem_append_left _ (mem_of_kept he)
    · exact List.mem_append_right _ he
  refine ⟨kept p 0 done ++ rest, by rw [hdb, hs.keys], fun e he => hi.times e (hmem e he), ?_⟩
  exact fun e he => (hbound.le.trans (min_le_right _ _)).trans (hi.bound e (hmem e he))

/-- A pass is exact and leaves the bound below the entries that it leaves. -/
theorem pass_spec (hp : p.Plain index) (hi : Inv index s es) :
    (s.db.rows.length < fuel → (pass index p fuel s).isSome) ∧
      ∀ s' o, pass index p fuel s = some (s', o) →
        Exact index p s s' o ∧ ∃ es', Inv index s' es' := by
  unfold pass
  split_ifs with hnot
  · have hstart : ∀ k ∈ keysOf index ([] ++ es), index.entryKey s.bound [] ≤ k := by
      intro k hk
      obtain ⟨e, he, rfl⟩ := List.mem_map.mp hk
      have hbound := hi.bound e he
      have htime := hi.times e he
      rw [u64Max] at htime
      rw [← not_lt, ExpiryIndex.entryKey_lt_iff (by omega) (by omega)]
      rintro (hlt | ⟨-, hlt⟩)
      · omega
      · exact absurd hlt (by simp)
    have hprog : Progress index p s.db [] es { db := s.db } :=
      ⟨⟨by simp, rfl, rfl, hi.keys, rfl⟩, rfl, by simp [kept]⟩
    rcases readPages_spec hp fuel hprog hi.times (sorted_keysOf hi) hstart with
      ⟨heq, hfuel⟩ | ⟨loop, heq, hdone⟩ | ⟨loop, heq, hend⟩
    · have hlen : es.length ≤ s.db.rows.length := by
        have hmap := congrArg List.length hi.keys
        rw [List.length_map, keysOf, List.length_map] at hmap
        rw [← hmap]
        exact length_rows_le index s.db
      refine ⟨fun h => by omega, ?_⟩
      intro s' o h
      rw [show (keysOf index []).getLast? = none from rfl] at heq
      rw [heq] at h
      cases h
    · rw [show (keysOf index []).getLast? = none from rfl] at heq
      rw [heq]
      refine ⟨fun _ => rfl, ?_⟩
      rintro s' o ⟨⟩
      exact ⟨Completed.exact hdone hp hi rfl rfl rfl, Completed.inv hdone hi rfl rfl⟩
    · rw [show (keysOf index []).getLast? = none from rfl] at heq
      rw [heq]
      refine ⟨fun _ => rfl, ?_⟩
      rintro s' o ⟨⟩
      exact ⟨Ended.exact hend hp hi rfl rfl rfl rfl, Ended.inv hend hi rfl rfl⟩
  · refine ⟨fun _ => rfl, ?_⟩
    rintro s' o ⟨⟩
    refine ⟨?_, es, hi⟩
    have hdue : dueEntries index p s.db = [] := by
      rw [dueEntries, entries_eq hi.keys hi.times]
      refine List.filter_eq_nil_iff.mpr fun e he hdue => hnot ?_
      exact isDue_of_le ((isDue_iff hp (hi.times e he)).mpr (by simpa using hdue)) (hi.bound e he)
    refine ⟨rfl, 0, ?_, ?_, ?_, ?_, ?_, fun _ => ?_⟩
    · exact List.nil_prefix
    · exact le_rfl
    · exact Nat.zero_le _
    · rfl
    · rfl
    · rw [hdue]
      exact ⟨rfl, rfl⟩

theorem exists_keysOf {keys : List (List UInt8)} {P : ℕ × List UInt8 → Prop}
    (h : ∀ k ∈ keys, ∃ e, P e ∧ k = index.entryKey e.1 e.2) :
    ∃ es, keys = keysOf index es ∧ ∀ e ∈ es, P e := by
  induction keys with
  | nil => exact ⟨[], rfl, by simp⟩
  | cons k keys ih =>
    obtain ⟨e, he, rfl⟩ := h k (List.mem_cons_self ..)
    obtain ⟨es, rfl, hes⟩ := ih fun k hk => h k (List.mem_cons_of_mem _ hk)
    exact ⟨e :: es, rfl, List.forall_mem_cons.mpr ⟨he, hes⟩⟩

theorem mem_kvWrites_withEntries {k : List UInt8} :
    k ∈ (withEntries index added changes).kvWrites ↔
      k ∈ keysOf index added ∨ k ∈ changes.kvWrites := by
  induction added generalizing changes with
  | nil => simp [withEntries, keysOf]
  | cons e added ih =>
    rw [withEntries, List.foldl_cons, ← withEntries, ih]
    simp only [SettlementEffects.expiryEntry, SettlementEffects.kvPut, AList.mem_insert, keysOf,
      List.map_cons, List.mem_cons]
    tauto

theorem kvDeletes_withEntries (added : List (ℕ × List UInt8)) (changes : KvEffects) :
    (withEntries index added changes).kvDeletes = changes.kvDeletes := by
  induction added generalizing changes with
  | nil => rfl
  | cons e added ih =>
    rw [withEntries, List.foldl_cons, ← withEntries, ih]
    rfl

theorem mem_keys_withEntries (havoid : index.Avoided changes) {k : List UInt8} :
    k ∈ (index.rows (db.apply (withEntries index added changes))).map Prod.fst ↔
      k ∈ (index.rows db).map Prod.fst ∨ k ∈ keysOf index added := by
  have hmem : ∀ {d : Db}, k ∈ (index.rows d).map Prod.fst ↔
      (∃ v, (Taquba.userScopedKey k, v) ∈ d.rows) ∧ index.leading <+: k := by
    intro d
    rw [List.mem_map]
    constructor
    · rintro ⟨⟨k', v⟩, hrow, rfl⟩
      exact ⟨⟨v, (ExpiryIndex.mem_rows.mp hrow).1⟩, (ExpiryIndex.mem_rows.mp hrow).2⟩
    · rintro ⟨⟨v, hv⟩, hp⟩
      exact ⟨(k, v), ExpiryIndex.mem_rows.mpr ⟨hv, hp⟩, rfl⟩
  have hadded : k ∈ keysOf index added → index.leading <+: k := by
    intro hk
    obtain ⟨e, -, rfl⟩ := List.mem_map.mp hk
    exact ExpiryIndex.leading_prefix
  rw [hmem, hmem]
  by_cases hp : index.leading <+: k
  · have hd : k ∉ (withEntries index added changes).kvDeletes := by
      rw [kvDeletes_withEntries]
      exact fun h => havoid.deletes k h hp
    have hw : k ∈ (withEntries index added changes).kvWrites ↔ k ∈ keysOf index added := by
      rw [mem_kvWrites_withEntries, or_iff_left fun h => havoid.writes k h hp]
    by_cases hk : k ∈ keysOf index added
    · exact iff_of_true ⟨Db.exists_mem_apply (hw.mpr hk) hd, hp⟩ (.inr hk)
    · simp only [Db.mem_apply (mt hw.mp hk), hd, not_false_eq_true, and_true, hk, or_false]
  · simp only [hp, and_false, false_or, false_iff]
    exact fun hk => hp (hadded hk)

theorem foldl_min_le (added : List (ℕ × List UInt8)) (b : ℕ) :
    added.foldl (fun bound e => min bound e.1) b ≤ b ∧
      ∀ e ∈ added, added.foldl (fun bound e => min bound e.1) b ≤ e.1 := by
  induction added generalizing b with
  | nil => simp
  | cons a added ih =>
    obtain ⟨hb, hall⟩ := ih (min b a.1)
    refine ⟨hb.trans (min_le_left _ _), fun e he => ?_⟩
    rcases List.mem_cons.mp he with rfl | he
    · exact hb.trans (min_le_right _ _)
    · exact hall e he

theorem mem_keysOf_iff (htimes : ∀ e ∈ es, e.1 ≤ u64Max) (he : e.1 ≤ u64Max) :
    index.entryKey e.1 e.2 ∈ keysOf index es ↔ e ∈ es := by
  refine ⟨fun h => ?_, fun h => List.mem_map_of_mem h⟩
  obtain ⟨x, hx, heq⟩ := List.mem_map.mp h
  have hx' := htimes x hx
  rw [u64Max] at hx' he
  obtain ⟨h1, h2⟩ := (ExpiryIndex.entryKey_inj (by omega) (by omega)).mp heq
  rwa [← Prod.ext h1 h2]

theorem write_spec (hi : Inv index s es) (h : step index s (.write added changes) = some s') :
    ∃ es', Inv index s' es' ∧ ∀ e, e ∈ es' ↔ e ∈ es ∨ e ∈ added := by
  rw [step] at h
  obtain ⟨⟨htimes, havoid⟩, hs⟩ := Option.ite_none_right_eq_some.mp h
  cases hs
  obtain ⟨hlow, hall⟩ := foldl_min_le added s.bound
  have hkeys : ∀ k, k ∈ (index.rows (s.db.apply (withEntries index added changes))).map Prod.fst ↔
      k ∈ keysOf index (es ++ added) := by
    intro k
    rw [mem_keys_withEntries havoid, hi.keys, keysOf_append, List.mem_append]
  have hboth : ∀ e ∈ es ++ added, e.1 ≤ u64Max := by
    intro e he
    rcases List.mem_append.mp he with he | he
    · exact hi.times e he
    · exact htimes e he
  have hexists : ∀ k ∈ (index.rows (s.db.apply (withEntries index added changes))).map Prod.fst,
      ∃ e, e ∈ es ++ added ∧ k = index.entryKey e.1 e.2 := by
    intro k hk
    obtain ⟨e, he, rfl⟩ := List.mem_map.mp ((hkeys k).mp hk)
    exact ⟨e, he, rfl⟩
  obtain ⟨es', hes', hmem⟩ := exists_keysOf hexists
  refine ⟨es', ⟨hes', fun e he => hboth e (hmem e he), fun e he => ?_⟩, fun e => ?_⟩
  · rcases List.mem_append.mp (hmem e he) with he | he
    · exact hlow.trans (hi.bound e he)
    · exact hall e he
  · rw [← List.mem_append]
    refine ⟨hmem e, fun he => ?_⟩
    rw [← mem_keysOf_iff (fun x hx => hboth x (hmem x hx)) (hboth e he), ← hes', hkeys]
    exact List.mem_map_of_mem he

theorem inv_reachable (h : (machine index).ReachableVia (PlainPasses index) s) :
    ∃ es, Inv index s es := by
  refine h.invariant (I := fun s => ∃ es, Inv index s es) ?_ ?_
  · rintro s rfl
    exact ⟨[], rfl, by simp, by simp⟩
  · rintro s label s' ⟨es, hi⟩ hplain hstep
    cases label with
    | write added changes =>
      obtain ⟨es', hi', -⟩ := write_spec hi hstep
      exact ⟨es', hi'⟩
    | pass fuel p =>
      obtain ⟨⟨t, o⟩, hpass, rfl⟩ := Option.map_eq_some_iff.mp hstep
      exact ((pass_spec hplain hi).2 t o hpass).2
    | restart =>
      cases hstep
      exact ⟨es, hi.keys, hi.times, fun e _ => Nat.zero_le _⟩

theorem mem_kept {j : ℕ} (h : es[j]? = some e) (hk : p.keeps (i + j) e = true) :
    e ∈ kept p i es := by
  induction es generalizing i j with
  | nil => simp at h
  | cons a es ih =>
    rw [kept]
    cases j with
    | zero =>
      cases h
      rw [Nat.add_zero] at hk
      rw [if_pos hk]
      exact List.mem_cons_self ..
    | succ j =>
      have hlater := ih (i := i + 1) h (by rwa [Nat.add_right_comm, Nat.add_assoc])
      split
      · exact List.mem_cons_of_mem _ hlater
      · exact hlater

theorem dueEntries_front (hi : Inv index s es) :
    dueEntries index p s.db <+: entries index s.db := by
  have hsorted := sorted_times (sorted_keysOf hi) hi.times
  rw [dueEntries, entries_eq hi.keys hi.times]
  have hle : ∀ a b : ℕ × List UInt8, a.1 ≤ b.1 → p.Due b → p.Due a := by
    intro a b hab hb
    exact (Nat.add_le_add_right (Nat.mul_le_mul_right _ hab) _).trans hb
  clear hi
  induction es with
  | nil => exact List.nil_prefix
  | cons a es ih =>
    obtain ⟨hfirst, hrest⟩ := List.pairwise_cons.mp hsorted
    by_cases ha : p.Due a
    · rw [List.filter_cons_of_pos (by simpa using ha)]
      exact List.cons_prefix_cons.mpr ⟨rfl, ih hrest⟩
    · have hnone : es.filter p.Due = [] :=
        List.filter_eq_nil_iff.mpr fun b hb hdue =>
          ha (hle a b (hfirst b hb) (by simpa using hdue))
      rw [List.filter_cons_of_neg (by simpa using ha), hnone]
      exact List.nil_prefix

theorem Exact.removed (h : Exact index p s s' o)
    (hpre : dueEntries index p s.db <+: entries index s.db) (he : e ∈ entries index s.db)
    (hgone : e ∉ entries index s'.db) :
    ∃ i, o.calls[i]? = some e ∧ p.keeps i e = false := by
  obtain ⟨-, settled, hcalls, hle, -, -, hentries, -⟩ := h
  obtain ⟨later, hlater⟩ := hpre
  have hlen : settled ≤ (dueEntries index p s.db).length := hle.trans hcalls.length_le
  rw [hentries, List.mem_append, not_or] at hgone
  rw [← hlater, List.drop_append_of_le_length hlen] at hgone
  rw [← hlater] at he
  have hsplit := List.take_append_drop settled (dueEntries index p s.db)
  have hin : e ∈ (dueEntries index p s.db).take settled := by
    rw [← hsplit, List.append_assoc] at he
    exact (List.mem_append.mp he).resolve_right hgone.2
  obtain ⟨j, hj⟩ := List.mem_iff_getElem?.mp hin
  have hjlt : j < settled := by
    by_contra hn
    rw [List.getElem?_take_eq_none (by omega)] at hj
    cases hj
  refine ⟨j, ?_, ?_⟩
  · rw [List.getElem?_take_of_lt hjlt] at hj
    obtain ⟨t, ht⟩ := hcalls
    rwa [← ht, List.getElem?_append_left (by omega)] at hj
  · cases hk : p.keeps j e with
    | false => rfl
    | true => exact absurd (mem_kept hj (by rwa [Nat.zero_add])) hgone.1

/-- In every run with plain passes: a pass from the state reached calls for the due entries,
oldest first, and settles each in the transaction of its answer. A completed pass does so for
all of them, and an entry leaves the index in no other way. -/
theorem passes_exact (h : (machine index).ReachableVia (PlainPasses index) s) :
    (∀ p : Pass, p.Plain index →
      (∀ fuel, s.db.rows.length < fuel → (pass index p fuel s).isSome) ∧
      ∀ fuel s' o, pass index p fuel s = some (s', o) → Exact index p s s' o ∧
        ∀ e ∈ entries index s.db, (o.completed = true → p.Due e → e ∈ o.calls) ∧
          (e ∉ entries index s'.db → ∃ i, o.calls[i]? = some e ∧ p.keeps i e = false)) ∧
    ∀ added changes s', step index s (.write added changes) = some s' →
      ∀ e, e ∈ entries index s'.db ↔ e ∈ entries index s.db ∨ e ∈ added := by
  obtain ⟨es, hi⟩ := inv_reachable h
  constructor
  · intro p hp
    refine ⟨fun fuel hfuel => (pass_spec hp hi).1 hfuel, fun fuel s' o hpass => ?_⟩
    have hexact := ((pass_spec hp hi).2 s' o hpass).1
    refine ⟨hexact, fun e he => ⟨fun hdone hdue => ?_, hexact.removed (dueEntries_front hi) he⟩⟩
    obtain ⟨-, settled, -, -, -, -, -, hall⟩ := hexact
    rw [(hall hdone).1]
    exact List.mem_filter.mpr ⟨he, decide_eq_true hdue⟩
  · intro added changes s' hstep e
    obtain ⟨es', hi', hmem⟩ := write_spec hi hstep
    rw [entries_eq hi'.keys hi'.times, entries_eq hi.keys hi.times, hmem]

end Proofs

section Examples

/-- The index over the keys that start with `x/`. -/
def smallIndex : ExpiryIndex := ⟨[120, 47]⟩

/-- A write of the entry `a` at 1 s with the key `r`. -/
def smallWrite : Label := .write [(1000, [97])] (({} : KvEffects).kvPut [114] [1])

def smallPass (answer : Expired) : Pass where
  now := 2000
  retention := 10 ^ 9
  clear _ _ _ := some answer
  access _ := .done

/-- An answer whose compare holds, with effects that have a compare of their own, which does
not hold, and a write of the key `y`. -/
def mixedAnswer : Expired :=
  .deleteIf ⟨[114], some [1]⟩ ((({} : KvEffects).kvCompare ⟨[113], some [9]⟩).kvPut [121] [7])

/-- A completed pass deletes the entry without the effects of its answer, although the compare
of the answer holds. -/
theorem passes_exact_fails :
    ∃ s, (machine smallIndex).Reachable s ∧
      ∃ fuel s' o, pass smallIndex (smallPass mixedAnswer) fuel s = some (s', o) ∧
        ¬ Exact smallIndex (smallPass mixedAnswer) s s' o := by
  obtain ⟨s, hs, hpass⟩ : ∃ s, (machine smallIndex).run {} [smallWrite] = some s ∧
      (pass smallIndex (smallPass mixedAnswer) 2 s).any (fun r => r.2.completed = true ∧
        r.2.committed ≠ settlements smallIndex (smallPass mixedAnswer) s.db 0
          (dueEntries smallIndex (smallPass mixedAnswer) s.db)) = true :=
    Machine.exists_of_run_any (by decide +kernel)
  refine ⟨s, Machine.Reachable.run (.init rfl) hs, 2, ?_⟩
  cases hr : pass smallIndex (smallPass mixedAnswer) 2 s with
  | none => simp [hr] at hpass
  | some r =>
    obtain ⟨s', o⟩ := r
    rw [hr, Option.any_some, decide_eq_true_iff] at hpass
    refine ⟨s', o, rfl, ?_⟩
    rintro ⟨-, settled, -, -, -, hcommitted, -, hall⟩
    rw [(hall hpass.1).2, List.take_length] at hcommitted
    exact hpass.2 hcommitted

theorem passes_exact_small :
    ∃ s, (machine smallIndex).ReachableVia (PlainPasses smallIndex) s ∧
      entries smallIndex s.db = [(1000, [97])] ∧
      ∃ s' o, pass smallIndex (smallPass (.delete (({} : KvEffects).kvDelete [114]))) 3 s =
          some (s', o) ∧
        Exact smallIndex (smallPass (.delete (({} : KvEffects).kvDelete [114]))) s s' o := by
  obtain ⟨s, hs, hentries, hlen⟩ : ∃ s, (machine smallIndex).run {} [smallWrite] = some s ∧
      (entries smallIndex s.db = [(1000, [97])] ∧ s.db.rows.length = 2) :=
    Machine.exists_of_run_any (by decide +kernel)
  have hreach : (machine smallIndex).ReachableVia (PlainPasses smallIndex) s :=
    Machine.ReachableVia.run (.init rfl) hs (by simp [smallWrite, PlainPasses])
  have hplain : (smallPass (.delete (({} : KvEffects).kvDelete [114]))).Plain smallIndex := by
    refine ⟨?_, by decide, by decide⟩
    rintro n atMs suffix answer ⟨⟩
    exact ⟨⟨by simp [SettlementEffects.kvDelete], by decide +kernel⟩,
      by simp [SettlementEffects.kvDelete]⟩
  obtain ⟨hsome, hexact⟩ := (passes_exact hreach).1 _ hplain
  obtain ⟨⟨s', o⟩, hpass⟩ := Option.isSome_iff_exists.mp (hsome 3 (by omega))
  exact ⟨s, hreach, hentries, s', o, hpass, (hexact 3 s' o hpass).1⟩

end Examples

end Taquba.Expiry
