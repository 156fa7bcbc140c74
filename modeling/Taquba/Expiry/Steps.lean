import Taquba.Expiry.Passes

/-! # One pass over the entries

A pass settles the entries one after another. What it has settled, called and committed is
a front of the entries of the store it began with, and the rest of them is still in the
store, so each page of the stream continues where the one before ended.
-/

namespace Taquba.Expiry

section Proofs

variable {index : ExpiryIndex} {p : Pass} {loop : Loop}

theorem isDue_iff (hp : p.Plain index) {e : ℕ × List UInt8} (he : e.1 ≤ u64Max) :
    isDue e.1 p.now p.retentionMs = true ↔ p.Due e := by
  obtain ⟨ms, hms⟩ := hp.retention
  have hnow := hp.now
  rw [isDue, decide_eq_true_iff, Pass.retentionMs, Pass.Due, hms,
    Nat.mul_div_cancel_left _ (by decide)]
  rw [u64Max] at *
  omega

def Holds (db : Db) (effects : KvEffects) : Prop :=
  effects.kvCompares.all (fun c => db.kvGet c.key = c.expected) = true

variable (index p) in
theorem transact_cases (effects : KvEffects) (loop : Loop) :
    (∃ bound, loop.transact index p effects =
        ({ loop with
          accesses := loop.accesses + 1, db := loop.db.apply effects
          committed := loop.committed ++ [effects], bound }, .ok) ∧
      Holds loop.db effects ∧ ((∀ e ∈ effects.expiryEntries, e.1 ≠ index) → bound = loop.bound)) ∨
    (loop.transact index p effects =
        ({ loop with accesses := loop.accesses + 1 }, .compareFailed) ∧
      ¬ Holds loop.db effects) ∨
    (loop.transact index p effects = ({ loop with accesses := loop.accesses + 1 }, .ended)) ∨
    (loop.transact index p effects =
        ({ loop with
          accesses := loop.accesses + 1, db := loop.db.apply effects
          committed := loop.committed ++ [effects] }, .ended) ∧
      Holds loop.db effects) := by
  unfold Loop.transact
  simp only
  split
  · exact .inr (.inr (.inl rfl))
  · split
    · rename_i hall
      split
      · refine .inl ⟨_, rfl, hall, fun hne => ?_⟩
        rw [List.filter_eq_nil_iff.mpr fun e he => by simpa using hne e he]
        rfl
      · exact .inr (.inr (.inr ⟨rfl, hall⟩))
    · rename_i hall
      split
      · exact .inr (.inl ⟨rfl, hall⟩)
      · exact .inr (.inr (.inl rfl))

variable {db : Db} {i : ℕ} {es : List (ℕ × List UInt8)} {e : ℕ × List UInt8}

theorem settlements_concat :
    settlements index p db i (es ++ [e]) = settlements index p db i es ++
      ((p.clear (i + es.length) e.1 e.2).bind (Expired.transaction
        ((settlements index p db i es).foldl Db.apply db) (index.entryKey e.1 e.2))).toList := by
  induction es generalizing db i with
  | nil =>
    simp only [List.nil_append, settlements, List.length_nil, Nat.add_zero, List.foldl_nil]
    split
    · rename_i h
      simp [h]
    · rename_i h
      simp [h]
  | cons a es ih =>
    rw [List.cons_append, settlements, settlements]
    have hi : i + 1 + es.length = i + (a :: es).length := by simp; omega
    split
    · rw [ih, hi]
    · rw [ih, hi]
      rfl

theorem kept_concat :
    kept p i (es ++ [e]) = kept p i es ++ if p.keeps (i + es.length) e then [e] else [] := by
  induction es generalizing i with
  | nil => simp [kept]
  | cons a es ih =>
    rw [List.cons_append, kept, kept]
    have hi : i + 1 + es.length = i + (a :: es).length := by simp; omega
    rw [ih, hi]
    split <;> simp

def keysOf (index : ExpiryIndex) (es : List (ℕ × List UInt8)) : List (List UInt8) :=
  es.map fun e => index.entryKey e.1 e.2

theorem keysOf_append (index : ExpiryIndex) (es es' : List (ℕ × List UInt8)) :
    keysOf index (es ++ es') = keysOf index es ++ keysOf index es' := List.map_append

theorem keysOf_take (index : ExpiryIndex) (n : ℕ) (es : List (ℕ × List UInt8)) :
    keysOf index (es.take n) = (keysOf index es).take n := List.map_take

/-- A pass settled the entries `done` of the store `db`, and `rest` remain. -/
structure Settled (index : ExpiryIndex) (p : Pass) (db : Db) (done rest : List (ℕ × List UInt8))
    (loop : Loop) : Prop where
  due : ∀ e ∈ done, isDue e.1 p.now p.retentionMs = true
  committed : loop.committed = settlements index p db 0 done
  db : loop.db = loop.committed.foldl Db.apply db
  keys : (index.rows loop.db).map Prod.fst = keysOf index (kept p 0 done ++ rest)
  bound : loop.bound = u64Max

structure Progress (index : ExpiryIndex) (p : Pass) (db : Db) (done rest : List (ℕ × List UInt8))
    (loop : Loop) : Prop extends Settled index p db done rest loop where
  calls : loop.calls = done
  retained : ∀ e ∈ kept p 0 done, loop.retained ≤ e.1

/-- A pass that ended before its time, possibly in the call for the next entry. -/
def Ended (index : ExpiryIndex) (p : Pass) (db : Db) (es : List (ℕ × List UInt8))
    (loop : Loop) : Prop :=
  ∃ done rest, es = done ++ rest ∧ Settled index p db done rest loop ∧
    (loop.calls = done ∨
      ∃ e rest', rest = e :: rest' ∧ isDue e.1 p.now p.retentionMs = true ∧
        loop.calls = done ++ [e])

variable {done rest : List (ℕ × List UInt8)} {loop' : Loop} {effects : KvEffects}

theorem Settled.removed (h : Settled index p db done (e :: rest) loop)
    (hdue : isDue e.1 p.now p.retentionMs = true) (havoid : index.Avoided effects)
    (hanswer : (p.clear done.length e.1 e.2).bind
      (Expired.transaction loop.db (index.entryKey e.1 e.2)) =
        some (effects.kvDelete (index.entryKey e.1 e.2)))
    (hdb : loop'.db = loop.db.apply (effects.kvDelete (index.entryKey e.1 e.2)))
    (hcommitted : loop'.committed =
      loop.committed ++ [effects.kvDelete (index.entryKey e.1 e.2)])
    (hbound : loop'.bound = u64Max) : Settled index p db (done ++ [e]) rest loop' := by
  have hkeep : p.keeps (0 + done.length) e = false := by
    rw [Nat.zero_add, Pass.keeps]
    split
    · rename_i hclear
      rw [hclear] at hanswer
      cases hanswer
    · rfl
  constructor
  · intro x hx
    rcases List.mem_append.mp hx with hx | hx
    · exact h.due x hx
    · rw [List.mem_singleton.mp hx]
      exact hdue
  · rw [hcommitted, h.committed, settlements_concat, Nat.zero_add, ← h.committed, ← h.db, hanswer]
    rfl
  · rw [hdb, hcommitted, List.foldl_append, ← h.db]
    rfl
  · have hnodup : (keysOf index (kept p 0 done ++ e :: rest)).Nodup := by
      rw [← h.keys]
      exact ExpiryIndex.sorted_rows.nodup_keys
    have hfilter : ((index.rows loop.db).filter fun row => row.1 ≠ index.entryKey e.1 e.2).map
        Prod.fst = ((index.rows loop.db).map Prod.fst).filter (· ≠ index.entryKey e.1 e.2) := by
      rw [List.filter_map]
      rfl
    rw [hdb, ExpiryIndex.rows_apply_kvDelete havoid, hfilter, h.keys, kept_concat, hkeep]
    simp only [keysOf, List.map_append, List.map_cons] at hnodup ⊢
    have hfront := (List.nodup_cons.mp (List.nodup_middle.mp hnodup)).1
    rw [List.filter_append, List.filter_cons_of_neg (by simp), ← List.filter_append,
      List.filter_eq_self.mpr]
    · simp
    · exact fun x hx => decide_eq_true fun heq => hfront (heq ▸ hx)
  · exact hbound

theorem Settled.keep (h : Settled index p db done (e :: rest) loop)
    (hdue : isDue e.1 p.now p.retentionMs = true)
    (hanswer : p.clear done.length e.1 e.2 = some .keep) (hdb : loop'.db = loop.db)
    (hcommitted : loop'.committed = loop.committed) (hbound : loop'.bound = u64Max) :
    Settled index p db (done ++ [e]) rest loop' := by
  have hkeep : p.keeps (0 + done.length) e = true := by
    rw [Nat.zero_add, Pass.keeps, hanswer]
  constructor
  · intro x hx
    rcases List.mem_append.mp hx with hx | hx
    · exact h.due x hx
    · rw [List.mem_singleton.mp hx]
      exact hdue
  · rw [hcommitted, h.committed, settlements_concat, Nat.zero_add, hanswer]
    simp [Expired.transaction]
  · rw [hdb, hcommitted, ← h.db]
  · rw [hdb, h.keys, kept_concat, hkeep]
    simp
  · exact hbound

theorem Settled.tried (h : Settled index p db done rest loop) :
    Settled index p db done rest { loop with accesses := loop.accesses + 1 } :=
  { h with }

/-- The transaction of an answer settles its entry, finds a failed compare or ends the pass. -/
theorem transact_settles (h : Settled index p db done (e :: rest) loop)
    (hcalls : loop.calls = done ++ [e]) (hdue : isDue e.1 p.now p.retentionMs = true)
    (hu : Untouched index effects)
    (hanswer : Holds loop.db (effects.kvDelete (index.entryKey e.1 e.2)) →
      (p.clear done.length e.1 e.2).bind
        (Expired.transaction loop.db (index.entryKey e.1 e.2)) =
          some (effects.kvDelete (index.entryKey e.1 e.2))) :
    (∃ loop', loop.transact index p (effects.kvDelete (index.entryKey e.1 e.2)) = (loop', .ok) ∧
      Settled index p db (done ++ [e]) rest loop' ∧ loop'.calls = loop.calls ∧
        loop'.retained = loop.retained) ∨
    (loop.transact index p (effects.kvDelete (index.entryKey e.1 e.2)) =
        ({ loop with accesses := loop.accesses + 1 }, .compareFailed) ∧
      ¬ Holds loop.db (effects.kvDelete (index.entryKey e.1 e.2))) ∨
    ∃ loop', loop.transact index p (effects.kvDelete (index.entryKey e.1 e.2)) =
        (loop', .ended) ∧ Ended index p db (done ++ e :: rest) loop' := by
  rcases transact_cases index p (effects.kvDelete (index.entryKey e.1 e.2)) loop with
    ⟨bound, heq, hholds, hbound⟩ | ⟨heq, hnot⟩ | heq | ⟨heq, hholds⟩
  · refine .inl ⟨_, heq, h.removed hdue hu.1 (hanswer hholds) rfl rfl ?_, rfl, rfl⟩
    rw [hbound hu.2, h.bound]
  · exact .inr (.inl ⟨heq, hnot⟩)
  · exact .inr (.inr ⟨_, heq, done, e :: rest, rfl, h.tried, .inr ⟨e, rest, rfl, hdue, hcalls⟩⟩)
  · refine .inr (.inr ⟨_, heq, done ++ [e], rest, by simp, ?_, .inl hcalls⟩)
    exact h.removed hdue hu.1 (hanswer hholds) rfl rfl h.bound

theorem Settled.ended (h : Settled index p db done (e :: rest) loop)
    (hcalls : loop.calls = done ++ [e]) (hdue : isDue e.1 p.now p.retentionMs = true) :
    Ended index p db (done ++ e :: rest) loop :=
  ⟨done, e :: rest, rfl, h, .inr ⟨e, rest, rfl, hdue, hcalls⟩⟩

theorem untouched_empty : Untouched index {} :=
  ⟨⟨fun key hk => by simp at hk, fun key hk => by simp at hk⟩, fun e he => by simp at he⟩

theorem settle_spec (h : Settled index p db done (e :: rest) loop)
    (hcalls : loop.calls = done ++ [e]) (hret : ∀ x ∈ kept p 0 done, loop.retained ≤ x.1)
    (hdue : isDue e.1 p.now p.retentionMs = true) {answer : Expired}
    (hclear : p.clear done.length e.1 e.2 = some answer) (hplain : answer.Plain index) :
    (∃ loop', loop.settle index p (index.entryKey e.1 e.2) e.1 answer = (loop', .next) ∧
      Progress index p db (done ++ [e]) rest loop') ∨
    ∃ loop', loop.settle index p (index.entryKey e.1 e.2) e.1 answer = (loop', .ended) ∧
      Ended index p db (done ++ e :: rest) loop' := by
  have hnext : answer ≠ .keep → ∀ loop', Settled index p db (done ++ [e]) rest loop' →
      loop'.calls = loop.calls → loop'.retained = loop.retained →
      Progress index p db (done ++ [e]) rest { loop' with removed := loop'.removed + 1 } := by
    intro hne loop' hs hc hr
    have hk : p.keeps (0 + done.length) e = false := by
      rw [Nat.zero_add, Pass.keeps, hclear]
      cases answer with
      | delete | deleteIf => rfl
      | keep => exact absurd rfl hne
    refine ⟨{ hs with }, hc.trans hcalls, ?_⟩
    rw [kept_concat, hk]
    intro x hx
    exact hr.le.trans (hret x (by simpa using hx))
  cases answer with
  | delete effects =>
    rw [Loop.settle]
    rcases transact_settles h hcalls hdue hplain (fun _ => by rw [hclear]; rfl) with
      ⟨loop', heq, hs, hc, hr⟩ | ⟨heq, -⟩ | ⟨loop', heq, hend⟩
    · rw [heq]
      exact .inl ⟨_, rfl, hnext (by simp) loop' hs hc hr⟩
    · rw [heq]
      exact .inr ⟨_, rfl, h.tried.ended hcalls hdue⟩
    · rw [heq]
      exact .inr ⟨_, rfl, hend⟩
  | deleteIf compare effects =>
    obtain ⟨hu, hnone⟩ := hplain
    have hholds : Holds loop.db ((effects.kvCompare compare).kvDelete (index.entryKey e.1 e.2)) ↔
        loop.db.kvGet compare.key = compare.expected := by
      simp [Holds, SettlementEffects.kvCompare, SettlementEffects.kvDelete, hnone]
    have hmatch : Holds loop.db ((effects.kvCompare compare).kvDelete (index.entryKey e.1 e.2)) →
        (p.clear done.length e.1 e.2).bind
          (Expired.transaction loop.db (index.entryKey e.1 e.2)) =
            some ((effects.kvCompare compare).kvDelete (index.entryKey e.1 e.2)) := by
      intro hm
      rw [hclear, Option.bind_some, Expired.transaction, if_pos (hholds.mp hm)]
    rw [Loop.settle]
    have hu' : Untouched index (effects.kvCompare compare) :=
      ⟨⟨hu.1.writes, hu.1.deletes⟩, hu.2⟩
    rcases transact_settles h hcalls hdue hu' hmatch with
      ⟨loop', heq, hs, hc, hr⟩ | ⟨heq, hnot⟩ | ⟨loop', heq, hend⟩
    · rw [heq]
      exact .inl ⟨_, rfl, hnext (by simp) loop' hs hc hr⟩
    · rw [heq]
      have halone : (p.clear done.length e.1 e.2).bind
          (Expired.transaction loop.db (index.entryKey e.1 e.2)) =
            some (({} : KvEffects).kvDelete (index.entryKey e.1 e.2)) := by
        rw [hclear, Option.bind_some, Expired.transaction, if_neg fun hm => hnot (hholds.mpr hm)]
      simp only [Loop.kvDelete]
      rcases transact_settles h.tried hcalls hdue untouched_empty (fun _ => halone) with
        ⟨loop', heq, hs, hc, hr⟩ | ⟨heq, -⟩ | ⟨loop', heq, hend⟩
      · rw [heq]
        exact .inl ⟨_, rfl, hnext (by simp) loop' hs hc hr⟩
      · rw [heq]
        exact .inr ⟨_, rfl, h.tried.tried.ended hcalls hdue⟩
      · rw [heq]
        exact .inr ⟨_, rfl, hend⟩
    · rw [heq]
      exact .inr ⟨_, rfl, hend⟩
  | keep =>
    refine .inl ⟨_, rfl, h.keep hdue hclear rfl rfl h.bound, hcalls, fun x hx => ?_⟩
    have hk : p.keeps (0 + done.length) e = true := by
      rw [Nat.zero_add, Pass.keeps, hclear]
    rw [kept_concat, hk] at hx
    rcases List.mem_append.mp hx with hx | hx
    · exact (min_le_left _ _).trans (hret x hx)
    · rw [List.mem_singleton.mp hx]
      exact min_le_right _ _

theorem visit_spec (hp : p.Plain index) (h : Progress index p db done (e :: rest) loop)
    (he : e.1 ≤ u64Max) :
    (isDue e.1 p.now p.retentionMs = false ∧
      loop.visit index p (index.entryKey e.1 e.2) = (loop.retain e.1, .stop)) ∨
    (∃ loop', loop.visit index p (index.entryKey e.1 e.2) = (loop', .next) ∧
      Progress index p db (done ++ [e]) rest loop') ∨
    ∃ loop', loop.visit index p (index.entryKey e.1 e.2) = (loop', .ended) ∧
      Ended index p db (done ++ e :: rest) loop' := by
  have hlt : e.1 < 2 ^ 64 := by
    rw [u64Max] at he
    omega
  rw [Loop.visit, ExpiryIndex.parse_entryKey index hlt]
  simp only
  by_cases hdue : isDue e.1 p.now p.retentionMs = true
  · rw [if_pos hdue]
    have hs : Settled index p db done (e :: rest)
        { loop with calls := loop.calls ++ [(e.1, e.2)] } :=
      { h with }
    have hcalls : loop.calls ++ [(e.1, e.2)] = done ++ [e] := by rw [h.calls]
    have hlen : loop.calls.length = done.length := by rw [h.calls]
    rw [hlen]
    cases hclear : p.clear done.length e.1 e.2 with
    | none => exact .inr (.inr ⟨_, rfl, hs.ended hcalls hdue⟩)
    | some answer =>
      exact .inr (settle_spec hs hcalls h.retained hdue hclear (hp.answers _ _ _ _ hclear))
  · rw [if_neg hdue]
    exact .inl ⟨by simpa using hdue, rfl⟩

theorem visitAll_spec (hp : p.Plain index) {page : List (ℕ × List UInt8)}
    (h : Progress index p db done (page ++ rest) loop) (hpage : ∀ e ∈ page, e.1 ≤ u64Max) :
    (∃ loop', loop.visitAll index p (keysOf index page) = (loop', .next) ∧
      Progress index p db (done ++ page) rest loop') ∨
    (∃ loop' done' e rest', loop.visitAll index p (keysOf index page) = (loop'.retain e.1, .stop) ∧
      done ++ (page ++ rest) = done' ++ e :: rest' ∧ isDue e.1 p.now p.retentionMs = false ∧
        Progress index p db done' (e :: rest') loop') ∨
    ∃ loop', loop.visitAll index p (keysOf index page) = (loop', .ended) ∧
      Ended index p db (done ++ (page ++ rest)) loop' := by
  induction page generalizing done loop with
  | nil => exact .inl ⟨loop, rfl, by simpa using h⟩
  | cons e page ih =>
    have he := hpage e (List.mem_cons_self ..)
    rw [keysOf, List.map_cons, Loop.visitAll]
    rcases visit_spec hp h he with ⟨hdue, heq⟩ | ⟨loop', heq, hprog⟩ | ⟨loop', heq, hend⟩
    · rw [heq]
      exact .inr (.inl ⟨loop, done, e, page ++ rest, rfl, rfl, hdue, h⟩)
    · rw [heq]
      have hlater := ih hprog fun x hx => hpage x (List.mem_cons_of_mem _ hx)
      simpa only [keysOf, List.append_assoc, List.cons_append, List.nil_append] using hlater
    · rw [heq]
      exact .inr (.inr ⟨loop', rfl, hend⟩)

theorem fetchEntries_spec {old : List (ℕ × List UInt8)} {start : List UInt8}
    {cursor : Option (List UInt8)} {d : Db}
    (hkeys : (index.rows d).map Prod.fst = keysOf index (old ++ rest))
    (hstart : ∀ k ∈ keysOf index (old ++ rest), start ≤ k)
    (hcursor : ∀ c ∈ cursor, start ≤ c ∧ (∀ k ∈ keysOf index old, k ≤ c) ∧
      ∀ k ∈ keysOf index rest, c < k) (hnone : cursor = none → old = []) :
    ∃ rows, fetchEntries d index.leading ⟨.included start, .unbounded⟩ .ascending pageSize cursor =
        (rows, if pageSize < rest.length then (keysOf index (rest.take pageSize)).getLast?
          else none) ∧
      rows.map Prod.fst = keysOf index (rest.take pageSize) := by
  have hlisting : d.listing index.leading ⟨.included start, .unbounded⟩ .ascending =
      index.rows d := by
    refine List.filter_congr fun entry hentry => ?_
    rw [decide_eq_decide]
    refine and_congr_right fun hp => ?_
    have hmem : entry ∈ index.rows d :=
      List.mem_filter.mpr ⟨hentry, by simpa [KvRange.Contains, Bound.Starts, Bound.Ends] using hp⟩
    have hle := hstart entry.1 (hkeys ▸ List.mem_map_of_mem hmem)
    simpa [KvRange.Contains, Bound.Starts, Bound.Ends] using hle
  have hafter : (Paging.after Prod.fst KvOrder.ascending.Before (index.rows d) cursor).map
      Prod.fst = keysOf index rest := by
    cases cursor with
    | none =>
      rw [Paging.after, hkeys, hnone rfl]
      rfl
    | some c =>
      obtain ⟨-, hold, hrest⟩ := hcursor c rfl
      have hfilter : ((index.rows d).filter fun row => KvOrder.ascending.Before c row.1).map
          Prod.fst = ((index.rows d).map Prod.fst).filter (c < ·) := by
        rw [List.filter_map]
        rfl
      rw [Paging.after, hfilter, hkeys, keysOf, List.map_append, List.filter_append,
        List.filter_eq_nil_iff.mpr fun k hk => by simpa using hold k hk,
        List.filter_eq_self.mpr fun k hk => by simpa using hrest k hk]
      rfl
  have hcontains : ∀ c ∈ cursor, KvRange.Contains ⟨.included start, .unbounded⟩ c :=
    fun c hc => ⟨(hcursor c hc).1, trivial⟩
  rw [fetchEntries_eq (by decide) hcontains, hlisting, Paging.pageOf]
  refine ⟨_, Prod.ext rfl ?_, ?_⟩
  · have hlen := congrArg List.length hafter
    rw [List.length_map, keysOf, List.length_map] at hlen
    simp only
    rw [hlen, ← List.getLast?_map, List.map_take, hafter, keysOf_take]
  · rw [List.map_take, hafter, keysOf_take]

def Completed (index : ExpiryIndex) (p : Pass) (db : Db) (es : List (ℕ × List UInt8))
    (loop : Loop) : Prop :=
  ∃ done rest, es = done ++ rest ∧ Progress index p db done rest loop ∧
    ∀ e ∈ rest.head?, isDue e.1 p.now p.retentionMs = false ∧ loop.retained ≤ e.1

theorem Progress.retain (h : Progress index p db done rest loop) (atMs : ℕ) :
    Progress index p db done rest (loop.retain atMs) :=
  ⟨{ h with }, h.calls,
    fun x hx => (min_le_left _ _).trans (h.retained x hx)⟩

theorem Progress.tried (h : Progress index p db done rest loop) :
    Progress index p db done rest { loop with accesses := loop.accesses + 1 } :=
  ⟨h.toSettled.tried, h.calls, h.retained⟩

theorem mem_of_kept {x : ℕ × List UInt8} (h : x ∈ kept p i es) : x ∈ es := by
  induction es generalizing i with
  | nil => cases h
  | cons a es ih =>
    rw [kept] at h
    split at h
    · rcases List.mem_cons.mp h with rfl | h
      · exact List.mem_cons_self ..
      · exact List.mem_cons_of_mem _ (ih h)
    · exact List.mem_cons_of_mem _ (ih h)

/-- Reading the pages from the end of the settled entries on goes through the rest, given fuel
for every entry that remains. -/
theorem readPages_spec (hp : p.Plain index) {start : List UInt8} (fuel : ℕ)
    (h : Progress index p db done rest loop) (htimes : ∀ e ∈ done ++ rest, e.1 ≤ u64Max)
    (hsorted : (keysOf index (done ++ rest)).Pairwise (· < ·))
    (hstart : ∀ k ∈ keysOf index (done ++ rest), start ≤ k) :
    (readPages index p start fuel (keysOf index done).getLast? loop = none ∧
      fuel ≤ rest.length) ∨
    (∃ loop', readPages index p start fuel (keysOf index done).getLast? loop = some (loop', true) ∧
      Completed index p db (done ++ rest) loop') ∨
    ∃ loop', readPages index p start fuel (keysOf index done).getLast? loop =
      some (loop', false) ∧ Ended index p db (done ++ rest) loop' := by
  induction fuel generalizing done rest loop with
  | zero => exact .inl ⟨rfl, Nat.zero_le _⟩
  | succ fuel ih =>
    rw [readPages]
    simp only
    split
    · exact .inr (.inr ⟨_, rfl, done, rest, rfl, h.toSettled.tried, .inl h.calls⟩)
    · have hkept : ∀ k ∈ keysOf index (kept p 0 done), k ∈ keysOf index done := by
        intro k hk
        obtain ⟨x, hx, rfl⟩ := List.mem_map.mp hk
        exact List.mem_map.mpr ⟨x, mem_of_kept hx, rfl⟩
      rw [keysOf_append] at hsorted hstart
      have hfront : ∀ k ∈ keysOf index (kept p 0 done ++ rest), start ≤ k := by
        rw [keysOf_append]
        intro k hk
        rcases List.mem_append.mp hk with hk | hk
        · exact hstart k (List.mem_append_left _ (hkept k hk))
        · exact hstart k (List.mem_append_right _ hk)
      have hcursor : ∀ c ∈ (keysOf index done).getLast?, start ≤ c ∧
          (∀ k ∈ keysOf index (kept p 0 done), k ≤ c) ∧ ∀ k ∈ keysOf index rest, c < k := by
        intro c hc
        obtain ⟨front, hdone⟩ := List.getLast?_eq_some_iff.mp hc
        have hmem : c ∈ keysOf index done := by simp [hdone]
        refine ⟨hstart c (List.mem_append_left _ hmem), fun k hk => ?_, fun k hk => ?_⟩
        · have hin := hkept k hk
          rw [hdone] at hin hsorted
          rcases List.mem_append.mp hin with hin | hin
          · have hlt := (List.pairwise_append.mp (List.pairwise_append.mp hsorted).1).2.2 k hin c
              (List.mem_singleton.mpr rfl)
            exact hlt.le
          · exact (List.mem_singleton.mp hin).le
        · exact (List.pairwise_append.mp hsorted).2.2 c hmem k hk
      have hnone : (keysOf index done).getLast? = none → kept p 0 done = [] := by
        intro hn
        rw [List.getLast?_eq_none_iff, keysOf, List.map_eq_nil_iff] at hn
        rw [hn]
        rfl
      obtain ⟨rows, hfetch, hrows⟩ := fetchEntries_spec h.keys hfront hcursor hnone
      have hsplit : rest.take pageSize ++ rest.drop pageSize = rest := List.take_append_drop ..
      have hpage : ∀ e ∈ rest.take pageSize, e.1 ≤ u64Max :=
        fun e he => htimes e (List.mem_append_right _ (List.mem_of_mem_take he))
      have hprog := h.tried
      rw [← hsplit] at hprog
      rw [hfetch, hrows]
      rcases visitAll_spec hp hprog hpage with ⟨loop', heq, hdone⟩ |
        ⟨loop', done', e, rest', heq, hes, hdue, hstop⟩ | ⟨loop', heq, hend⟩
      · rw [heq]
        rcases Nat.lt_or_ge pageSize rest.length with hlen | hlen
        · have hne : keysOf index (rest.take pageSize) ≠ [] := by
            rw [keysOf, Ne, List.map_eq_nil_iff, List.take_eq_nil_iff]
            rintro (h | rfl)
            · exact absurd h (by decide)
            · simp at hlen
          have hlast : (keysOf index (done ++ rest.take pageSize)).getLast? =
              (keysOf index (rest.take pageSize)).getLast? := by
            rw [keysOf_append, List.getLast?_append_of_ne_nil _ hne]
          have hes : done ++ rest.take pageSize ++ rest.drop pageSize = done ++ rest := by
            rw [List.append_assoc, hsplit]
          have hlater := ih hdone (by rwa [hes]) (by rwa [hes, keysOf_append])
            (by rwa [hes, keysOf_append])
          obtain ⟨c, hc⟩ := Option.ne_none_iff_exists'.mp
            (fun hn => hne (List.getLast?_eq_none_iff.mp hn))
          rw [hes, hlast, hc] at hlater
          rw [if_pos hlen, hc]
          simp only
          refine hlater.imp_left fun hfuel => ⟨hfuel.1, ?_⟩
          have hdrop := hfuel.2
          rw [List.length_drop] at hdrop
          have hsize : pageSize = 256 := rfl
          omega
        · rw [if_neg (by omega)]
          have hend : rest.drop pageSize = [] := List.drop_eq_nil_of_le hlen
          rw [hend, List.take_of_length_le hlen] at hdone
          refine .inr (.inl ⟨loop', rfl, done ++ rest, [], by simp, hdone, by simp⟩)
      · rw [heq, hsplit] at *
        rw [hes]
        refine .inr (.inl ⟨_, rfl, done', e :: rest', rfl, hstop.retain e.1, ?_⟩)
        intro x hx
        cases hx
        exact ⟨hdue, min_le_right _ _⟩
      · rw [hsplit] at hend
        rw [heq]
        exact .inr (.inr ⟨loop', rfl, hend⟩)

end Proofs

end Taquba.Expiry
