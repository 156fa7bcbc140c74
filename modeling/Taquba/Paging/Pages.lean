import Mathlib

/-! # Reading a sorted listing page by page

A page is a front of the rows after its cursor. Its own cursor for the next page is the key
of its last row, or none once it holds every row that remained. Following the cursors reads
every row once, and a row that stays in the listing while others come and go is read once.
-/

namespace Paging

variable {α κ : Type*} {key : α → κ} {lt : κ → κ → Prop}

variable (key) in
inductive IsPage (rest : List α) : List α × Option κ → Prop
  | last : IsPage rest (rest, none)
  | more {items tail : List α} {row : α} (h : rest = items ++ row :: tail) :
    IsPage rest (items ++ [row], some (key row))

variable (key) in
/-- The page of up to `limit` rows, with a cursor when a further row remains. -/
def pageOf (limit : ℕ) (rest : List α) : List α × Option κ :=
  (rest.take limit, if limit < rest.length then (rest.take limit).getLast?.map key else none)

/-- The pages of a listing. Each fetch takes the number of its page and a cursor, and the
result is `none` when a fetch fails or the fuel ends before the listing. -/
def pages (fetch : ℕ → Option κ → Option (List α × Option κ)) :
    (fuel page : ℕ) → Option κ → Option (List (List α × Option κ))
  | 0, _, _ => none
  | fuel + 1, page, cursor =>
    (fetch page cursor).bind fun fetched =>
      match fetched.2 with
      | none => some [fetched]
      | some next => (pages fetch fuel (page + 1) (some next)).map (fetched :: ·)

def rowsOf (all : List (List α × Option κ)) : List α := all.flatMap Prod.fst

theorem pages_map {β : Type*} (f : α → β) (fetch : ℕ → Option κ → Option (List α × Option κ))
    (fuel page : ℕ) (cursor : Option κ) :
    pages (fun page cursor => (fetch page cursor).map (Prod.map (List.map f) id)) fuel page cursor =
      (pages fetch fuel page cursor).map (List.map (Prod.map (List.map f) id)) := by
  induction fuel generalizing page cursor with
  | zero => rfl
  | succ fuel ih =>
    rw [pages, pages]
    cases fetch page cursor with
    | none => rfl
    | some fetched =>
      obtain ⟨items, next⟩ := fetched
      cases next with
      | none => rfl
      | some next =>
        simp only [Option.map_some, Option.bind_some, Prod.map_apply, id_eq, ih, Option.map_map]
        rfl

variable {fetch : ℕ → Option κ → Option (List α × Option κ)} {cursor : Option κ}
  {all : List (List α × Option κ)} {fuel page : ℕ}

theorem exists_fetch_of_mem (h : pages fetch fuel page cursor = some all) {p : List α × Option κ}
    (hp : p ∈ all) : ∃ page cursor, fetch page cursor = some p := by
  induction fuel generalizing page cursor all with
  | zero => cases h
  | succ fuel ih =>
    rw [pages] at h
    obtain ⟨⟨items, next⟩, hfetch, hrest⟩ := Option.bind_eq_some_iff.mp h
    cases next with
    | none =>
      cases hrest
      cases List.mem_singleton.mp hp
      exact ⟨page, cursor, hfetch⟩
    | some next =>
      obtain ⟨rest, hmore, rfl⟩ := Option.map_eq_some_iff.mp hrest
      rcases List.mem_cons.mp hp with rfl | hp
      · exact ⟨page, cursor, hfetch⟩
      · exact ih hmore hp

theorem rowsOf_map {β : Type*} (f : α → β) (all : List (List α × Option κ)) :
    rowsOf (all.map (Prod.map (List.map f) id)) = (rowsOf all).map f := by
  simp [rowsOf, List.map_flatMap, List.flatMap_map]

variable (key lt) in
def after [DecidableRel lt] (rows : List α) : Option κ → List α
  | none => rows
  | some cursor => rows.filter fun row => lt cursor (key row)

variable (key lt) in
def Sorted (rows : List α) : Prop := rows.Pairwise fun a b => lt (key a) (key b)

instance [DecidableRel lt] (rows : List α) : Decidable (Sorted key lt rows) :=
  inferInstanceAs (Decidable (List.Pairwise _ _))

variable {limit : ℕ}

theorem pageOf_eq_last {rest : List α} (h : rest.length ≤ limit) :
    pageOf key limit rest = (rest, none) := by
  rw [pageOf, List.take_of_length_le h, if_neg (by omega)]

variable (key) in
theorem pageOf_eq_more {rest : List α} (hl : 1 ≤ limit) (h : limit < rest.length) :
    ∃ items row tail, rest = items ++ row :: tail ∧ items.length + 1 = limit ∧
      pageOf key limit rest = (items ++ [row], some (key row)) := by
  obtain ⟨n, rfl⟩ : ∃ n, limit = n + 1 := ⟨limit - 1, by omega⟩
  have hn : n < rest.length := by omega
  have htake : rest.take (n + 1) = rest.take n ++ [rest[n]] :=
    List.take_succ_eq_append_getElem hn
  refine ⟨rest.take n, rest[n], rest.drop (n + 1), ?_, ?_, ?_⟩
  · rw [← List.drop_eq_getElem_cons hn, List.take_append_drop]
  · rw [List.length_take]
    omega
  · rw [pageOf, if_pos h, htake, List.getLast?_concat, Option.map_some]

theorem isPage_pageOf (hl : 1 ≤ limit) (rest : List α) :
    IsPage key rest (pageOf key limit rest) := by
  rcases Nat.lt_or_ge limit rest.length with h | h
  · obtain ⟨items, row, tail, hrest, -, hpage⟩ := pageOf_eq_more key hl h
    rw [hpage]
    exact .more hrest
  · rw [pageOf_eq_last h]
    exact .last

/-- A page that always names its last row is a page too: a listing by it ends at an empty
page. -/
theorem isPage_take (hl : 1 ≤ limit) (rest : List α) :
    IsPage key rest (rest.take limit, (rest.take limit).getLast?.map key) := by
  rcases List.eq_nil_or_concat' (rest.take limit) with h | ⟨items, row, h⟩
  · rw [h]
    obtain rfl : rest = [] := by
      rcases List.take_eq_nil_iff.mp h with h | h
      · omega
      · exact h
    exact .last
  · rw [h, List.getLast?_concat, Option.map_some]
    have hrest : rest = items ++ row :: rest.drop limit := by
      rw [List.append_cons, ← h, List.take_append_drop]
    exact .more hrest

section Sorted

variable [DecidableRel lt] {rows : List α}

theorem Sorted.after (h : Sorted key lt rows) (cursor : Option κ) :
    Sorted key lt (after key lt rows cursor) := by
  cases cursor with
  | none => exact h
  | some cursor => exact List.Pairwise.filter _ h

theorem mem_of_after {row : α} (h : row ∈ Paging.after key lt rows cursor) : row ∈ rows := by
  cases cursor with
  | none => exact h
  | some cursor => exact List.mem_of_mem_filter h

variable [IsStrictOrder κ lt]

theorem after_row {items tail : List α} {row : α} (h : Sorted key lt (items ++ row :: tail)) :
    Paging.after key lt (items ++ row :: tail) (some (key row)) = tail := by
  obtain ⟨-, hrow, hbefore⟩ := List.pairwise_append.mp h
  rw [Paging.after, List.filter_append, List.filter_cons_of_neg (by simpa using irrefl (key row))]
  have hitems : items.filter (fun a => lt (key row) (key a)) = [] := by
    refine List.filter_eq_nil_iff.mpr fun a ha => ?_
    have hlt := hbefore a ha row (List.mem_cons_self ..)
    simpa using asymm hlt
  have htail : tail.filter (fun a => lt (key row) (key a)) = tail := by
    refine List.filter_eq_self.mpr fun a ha => ?_
    simpa using (List.pairwise_cons.mp hrow).1 a ha
  rw [hitems, htail, List.nil_append]

theorem after_next (h : Sorted key lt rows) {items tail : List α} {row : α}
    (hrest : Paging.after key lt rows cursor = items ++ row :: tail) :
    Paging.after key lt rows (some (key row)) = tail := by
  have hrow := after_row (hrest ▸ h.after cursor)
  rw [← hrest] at hrow
  cases cursor with
  | none => exact hrow
  | some cursor =>
    have hmem : row ∈ Paging.after key lt rows (some cursor) := by simp [hrest]
    have hlt : lt cursor (key row) := by simpa using (List.mem_filter.mp hmem).2
    rw [← hrow]
    simp only [Paging.after, List.filter_filter]
    refine List.filter_congr fun a _ => ?_
    by_cases hn : lt (key row) (key a)
    · simp [hn, trans_of lt hlt hn]
    · simp [hn]

/-- Following the cursors reads every row that remains, in order. -/
theorem exists_pages (hs : Sorted key lt rows) {valid : κ → Prop}
    (hv : ∀ row ∈ rows, valid (key row))
    (hf : ∀ later cursor, page ≤ later → (∀ c ∈ cursor, valid c) →
      ∃ fetched ∈ fetch later cursor, IsPage key (Paging.after key lt rows cursor) fetched)
    (hc : ∀ c ∈ cursor, valid c) (hfuel : (Paging.after key lt rows cursor).length < fuel) :
    ∃ all, pages fetch fuel page cursor = some all ∧
      rowsOf all = Paging.after key lt rows cursor := by
  induction fuel generalizing page cursor with
  | zero => omega
  | succ fuel ih =>
    obtain ⟨fetched, hfetched, hpage⟩ := hf page cursor le_rfl hc
    rw [pages, hfetched, Option.bind_some]
    cases hpage with
    | last => exact ⟨_, rfl, by simp [rowsOf]⟩
    | more hrest =>
      rename_i items tail row
      have hnext := after_next hs hrest
      have hlt : tail.length < fuel := by
        rw [hrest, List.length_append, List.length_cons] at hfuel
        omega
      have hrow : row ∈ rows := mem_of_after (by rw [hrest]; simp)
      have hvalid : ∀ c ∈ some (key row), valid c := by simpa using hv row hrow
      have hlater := fun later cursor (h : page + 1 ≤ later) => hf later cursor (by omega)
      obtain ⟨all, hall, hrows⟩ := ih hlater hvalid (by rwa [hnext])
      refine ⟨(items ++ [row], some (key row)) :: all, congrArg (Option.map _) hall, ?_⟩
      rw [rowsOf, List.flatMap_cons, ← rowsOf, hrows, hnext, hrest]
      simp

/-- A listing whose rows change no more from some page on ends. -/
theorem exists_pages_of_settled {stores : ℕ → List α} {settled : ℕ}
    (hs : Sorted key lt (stores settled)) (hstores : ∀ page ≥ settled, stores page = stores settled)
    {valid : κ → Prop} (hv : ∀ page, ∀ row ∈ stores page, valid (key row))
    (hf : ∀ page cursor, (∀ c ∈ cursor, valid c) → ∃ fetched ∈ fetch page cursor,
      IsPage key (Paging.after key lt (stores page) cursor) fetched) (page : ℕ)
    (hc : ∀ c ∈ cursor, valid c) : ∃ fuel all, pages fetch fuel page cursor = some all := by
  have hend : ∀ page ≥ settled, ∀ cursor : Option κ, (∀ c ∈ cursor, valid c) →
      ∃ fuel all, pages fetch fuel page cursor = some all := by
    intro page hp cursor hc
    have hlater : ∀ later cursor, page ≤ later → (∀ c ∈ cursor, valid c) →
        ∃ fetched ∈ fetch later cursor,
          IsPage key (Paging.after key lt (stores settled) cursor) fetched := by
      intro later cursor hl hc
      rw [← hstores later (hp.trans hl)]
      exact hf later cursor hc
    obtain ⟨all, hall, -⟩ := exists_pages hs (hv settled) hlater hc (Nat.lt_succ_self _)
    exact ⟨_, all, hall⟩
  rcases Nat.le_total settled page with hp | hp
  · exact hend page hp cursor hc
  · induction hp using Nat.decreasingInduction generalizing cursor with
    | self => exact hend settled le_rfl cursor hc
    | of_succ page hp ih =>
      obtain ⟨fetched, hfetched, hpage⟩ := hf page cursor hc
      cases hpage with
      | last => exact ⟨1, _, by rw [pages, hfetched]; rfl⟩
      | more hrest =>
        rename_i items tail row
        have hrow : row ∈ stores page := mem_of_after (by rw [hrest]; simp)
        obtain ⟨fuel, all, hall⟩ := @ih (some (key row)) (by simpa using hv page row hrow)
        exact ⟨fuel + 1, _, by rw [pages, hfetched]; exact congrArg (Option.map _) hall⟩

/-- Every page but the last is full and names the next, and the last is empty only when
nothing remained. -/
theorem pages_full (hl : 1 ≤ limit) (hs : Sorted key lt rows) {valid : κ → Prop}
    (hv : ∀ row ∈ rows, valid (key row)) (hf : ∀ page cursor, (∀ c ∈ cursor, valid c) →
      fetch page cursor = some (pageOf key limit (Paging.after key lt rows cursor)))
    (hc : ∀ c ∈ cursor, valid c) (h : pages fetch fuel page cursor = some all) :
    ∃ front last, all = front ++ [last] ∧ last.2 = none ∧
      (∀ p ∈ front, p.1.length = limit ∧ p.2.isSome) ∧
      (last.1 = [] → Paging.after key lt rows cursor = []) := by
  induction fuel generalizing page cursor all with
  | zero => cases h
  | succ fuel ih =>
    rw [pages, hf page cursor hc, Option.bind_some] at h
    rcases Nat.lt_or_ge limit (Paging.after key lt rows cursor).length with hlen | hlen
    · obtain ⟨items, row, tail, hrest, hitems, hpage⟩ := pageOf_eq_more key hl hlen
      rw [hpage] at h
      obtain ⟨rest, hmore, rfl⟩ := Option.map_eq_some_iff.mp h
      have hrow : row ∈ rows := mem_of_after (by rw [hrest]; simp)
      obtain ⟨front, last, rfl, hnone, hfull, hempty⟩ := ih (by simpa using hv row hrow) hmore
      refine ⟨(items ++ [row], some (key row)) :: front, last, rfl, hnone, ?_, ?_⟩
      · intro p hp
        rcases List.mem_cons.mp hp with rfl | hp
        · simpa using hitems
        · exact hfull p hp
      · intro hnil
        have htail := hempty hnil
        rw [after_next hs hrest] at htail
        rw [hrest, List.length_append, List.length_cons, htail] at hlen
        simp only [List.length_nil] at hlen
        omega
    · rw [pageOf_eq_last hlen] at h
      cases h
      exact ⟨[], _, rfl, rfl, by simp, fun hnil => hnil⟩

omit [DecidableRel lt] in
theorem Sorted.nodup_keys (hs : Sorted key lt rows) : (rows.map key).Nodup := by
  refine List.Pairwise.map key (fun a b hab => ?_) hs
  rintro heq
  rw [heq] at hab
  exact irrefl _ hab

theorem count_keys_after [BEq κ] [LawfulBEq κ] (hs : Sorted key lt rows) {k : κ} (cursor : Option κ)
    (hk : k ∈ rows.map key) :
    ((Paging.after key lt rows cursor).map key).count k =
      if ∀ c ∈ cursor, lt c k then 1 else 0 := by
  have hnodup := (hs.after cursor).nodup_keys
  have hmem : k ∈ (Paging.after key lt rows cursor).map key ↔ ∀ c ∈ cursor, lt c k := by
    cases cursor with
    | none => simpa [Paging.after] using hk
    | some c =>
      obtain ⟨row, hrow, rfl⟩ := List.mem_map.mp hk
      simp only [Paging.after, List.mem_map, List.mem_filter, decide_eq_true_eq,
        Option.mem_some_iff,
        forall_eq']
      exact ⟨fun ⟨a, ha, hkey⟩ => hkey ▸ ha.2, fun h => ⟨row, ⟨hrow, h⟩, rfl⟩⟩
  split_ifs with h
  · exact List.count_eq_one_of_mem hnodup (hmem.mpr h)
  · exact List.count_eq_zero.mpr fun hm => h (hmem.mp hm)

/-- A row that is in the listing at every page is read once, whatever rows come and go. -/
theorem count_of_stays [BEq κ] [LawfulBEq κ] {stores : ℕ → List α}
    (hs : ∀ page, Sorted key lt (stores page)) {valid : κ → Prop}
    (hv : ∀ page, ∀ row ∈ stores page, valid (key row))
    (hf : ∀ page cursor, (∀ c ∈ cursor, valid c) →
      ∃ fetched ∈ fetch page cursor,
        IsPage key (Paging.after key lt (stores page) cursor) fetched) (hc : ∀ c ∈ cursor, valid c)
    (h : pages fetch fuel page cursor = some all) {k : κ}
    (hk : ∀ i < all.length, k ∈ (stores (page + i)).map key) :
    ((rowsOf all).map key).count k = if ∀ c ∈ cursor, lt c k then 1 else 0 := by
  induction fuel generalizing page cursor all with
  | zero => cases h
  | succ fuel ih =>
    obtain ⟨fetched, hfetched, hpage⟩ := hf page cursor hc
    rw [pages, hfetched, Option.bind_some] at h
    cases hpage with
    | last =>
      cases h
      have hcount := count_keys_after (hs page) cursor (by simpa using hk 0 (by simp))
      simpa [rowsOf] using hcount
    | more hrest =>
      rename_i items tail row
      obtain ⟨rest, hmore, rfl⟩ := Option.map_eq_some_iff.mp h
      have hrow : row ∈ stores page := mem_of_after (by rw [hrest]; simp)
      have hlater := ih (by simpa using hv page row hrow) hmore fun i hi => by
        have hki := hk (i + 1) (by simpa using hi)
        rwa [show page + (i + 1) = page + 1 + i by omega] at hki
      have hcount := count_keys_after (hs page) cursor (by simpa using hk 0 (by simp))
      rw [hrest] at hcount
      have htail := count_keys_after (hs page) (some (key row)) (by simpa using hk 0 (by simp))
      rw [after_next (hs page) hrest] at htail
      rw [rowsOf, List.flatMap_cons, ← rowsOf, List.map_append, List.count_append, hlater, ← htail,
        ← hcount]
      simp only [List.map_append, List.map_cons, List.map_nil, List.count_append, List.count_cons,
        List.count_nil]
      omega

end Sorted

end Paging
