import Taquba.Keys.Encoding
import Taquba.Scan.Range

/-! # Scans of the callers' keys

A scan returns the first entries under a prefix in a range, in either order, and whether
more follow. The stream of entries reads page after page from the last key of the page
before.
-/

namespace Taquba

structure KvPage where
  entries : List Row
  more : Bool
  deriving DecidableEq, Repr

/-- Read rows of the store into a page until it is full and a further row exists. -/
def readEntries (limit : ℕ) (entries : List Row) : List Row → KvPage
  | [] => ⟨entries, false⟩
  | row :: rows =>
    if entries.length = limit then ⟨entries, true⟩
    else readEntries limit (entries ++ [(row.1.drop 1, row.2)]) rows

def kvScan (db : Db) (front : List UInt8) (range : KvRange) (order : KvOrder) (limit : ℕ) :
    KvPage :=
  match subrange front range with
  | none => ⟨[], false⟩
  | some sub =>
    if limit = 0 then ⟨[], false⟩
    else readEntries limit [] (db.scanPrefix (userScopedKey front) sub order)

/-- The range of the page that follows `cursor`, the last key of the page before it. -/
def KvRange.next (range : KvRange) (order : KvOrder) (cursor : Option (List UInt8)) : KvRange :=
  match cursor, order with
  | none, _ => range
  | some last, .ascending => { range with startBound := .excluded last }
  | some last, .descending => { range with endBound := .excluded last }

def fetchEntries (db : Db) (front : List UInt8) (range : KvRange) (order : KvOrder)
    (pageSize : ℕ) (cursor : Option (List UInt8)) : List Row × Option (List UInt8) :=
  let page := kvScan db front (range.next order cursor) order pageSize
  (page.entries, if page.more then page.entries.getLast?.map Prod.fst else none)

def kvEntries (db : Db) (front : List UInt8) (range : KvRange) (order : KvOrder)
    (pageSize fuel : ℕ) : Option (List (List Row × Option (List UInt8))) :=
  Paging.pages (fun _ cursor => some (fetchEntries db front range order pageSize cursor)) fuel 0
    none

def userEntry (row : Row) : Option Row :=
  (stripPrefix [KeyTag.user.id] row.1).map fun key => (key, row.2)

def Db.userEntries (db : Db) : List Row := db.rows.filterMap userEntry

/-- The callers' entries under a prefix in a range, in the order of a scan. -/
def Db.listing (db : Db) (front : List UInt8) (range : KvRange) (order : KvOrder) : List Row :=
  order.read (db.userEntries.filter fun entry => front <+: entry.1 ∧ range.Contains entry.1)

section Scan

variable {db : Db} {front : List UInt8} {range : KvRange} {order : KvOrder}

theorem userEntry_eq_some {row entry : Row} :
    userEntry row = some entry ↔ row = (userScopedKey entry.1, entry.2) := by
  obtain ⟨key, value⟩ := row
  obtain ⟨key', value'⟩ := entry
  simp only [userEntry, stripPrefix, Option.map_eq_some_iff, Option.ite_none_right_eq_some,
    Option.some.injEq, userScopedKey, Prod.mk.injEq]
  constructor
  · rintro ⟨k, ⟨⟨rest, rfl⟩, rfl⟩, hk, rfl⟩
    simp at hk
    simp [hk]
  · rintro ⟨rfl, rfl⟩
    exact ⟨key', ⟨⟨key', rfl⟩, by simp⟩, rfl, rfl⟩

theorem sorted_userEntries (db : Db) : Paging.Sorted Prod.fst (· < ·) db.userEntries := by
  refine List.Pairwise.filterMap userEntry (fun a b hab e he e' he' => ?_) db.sorted
  rw [userEntry_eq_some.mp he, userEntry_eq_some.mp he'] at hab
  simpa [userScopedKey, List.cons_lt_cons_iff] using hab

theorem sorted_listing (db : Db) (front : List UInt8) (range : KvRange) (order : KvOrder) :
    Paging.Sorted Prod.fst order.Before (db.listing front range order) :=
  KvOrder.sorted_read (List.Pairwise.filter _ (sorted_userEntries db)) order

theorem mem_listing {key value : List UInt8} :
    (key, value) ∈ db.listing front range order ↔
      (userScopedKey key, value) ∈ db.rows ∧ front <+: key ∧ range.Contains key := by
  simp only [Db.listing, KvOrder.mem_read, List.mem_filter, Db.userEntries, List.mem_filterMap,
    decide_eq_true_eq]
  constructor
  · rintro ⟨⟨row, hrow, he⟩, hk⟩
    rw [userEntry_eq_some.mp he] at hrow
    exact ⟨hrow, hk⟩
  · rintro ⟨hrow, hk⟩
    exact ⟨⟨_, hrow, userEntry_eq_some.mpr rfl⟩, hk⟩

theorem readEntries_eq {limit : ℕ} {entries rows : List Row} (h : entries.length ≤ limit) :
    readEntries limit entries rows =
      ⟨(entries ++ rows.map fun row => (row.1.drop 1, row.2)).take limit,
        decide (limit < entries.length + rows.length)⟩ := by
  induction rows generalizing entries with
  | nil => simp [readEntries, List.take_of_length_le h, h]
  | cons row rows ih =>
    rw [readEntries]
    split_ifs with hfull
    · rw [← hfull]
      simp
    · rw [ih (by simp; omega)]
      simp only [List.append_assoc, List.singleton_append, List.map_cons, List.length_append,
        List.length_cons, List.length_nil, KvPage.mk.injEq, decide_eq_decide, true_and]
      omega

theorem scanPrefix_eq_listing {sub : KvRange} (h : subrange front range = some sub) :
    (db.scanPrefix (userScopedKey front) sub order).map (fun row => (row.1.drop 1, row.2)) =
      db.listing front range order := by
  rw [Db.scanPrefix, Db.listing, KvOrder.map_read, Db.userEntries]
  congr 1
  induction db.rows with
  | nil => rfl
  | cons row rows ih =>
    cases he : userEntry row with
    | none =>
      have hnot : ¬ userScopedKey front <+: row.1 := by
        rintro ⟨rest, hrest⟩
        simp [userEntry, stripPrefix, ← hrest, userScopedKey] at he
      rw [List.filter_cons_of_neg (by simp [hnot]), List.filterMap_cons_none he, ih]
    | some entry =>
      obtain ⟨key, value⟩ := entry
      have hrow := userEntry_eq_some.mp he
      have hiff : (userScopedKey front <+: row.1 ∧
          sub.Contains (row.1.drop (userScopedKey front).length)) ↔
          (front <+: key ∧ range.Contains key) := by
        rw [hrow, userScopedKey, userScopedKey, List.cons_prefix_cons]
        simp only [true_and, List.length_cons, List.drop_succ_cons]
        refine and_congr_right fun hp => ?_
        obtain ⟨rest, rfl⟩ := hp
        simpa using contains_subrange h
      rw [List.filterMap_cons_some he, List.filter_cons, List.filter_cons]
      by_cases hk : front <+: key ∧ range.Contains key
      · rw [if_pos (by simpa using hiff.mpr hk), if_pos (by simpa using hk), List.map_cons, ih,
          hrow]
        rfl
      · rw [if_neg (by simpa using fun h h' => hk (hiff.mp ⟨h, h'⟩)), if_neg (by simpa using hk),
          ih]

theorem listing_eq_nil (h : subrange front range = none) : db.listing front range order = [] := by
  refine List.eq_nil_iff_forall_not_mem.mpr fun entry hmem => ?_
  obtain ⟨-, ⟨rest, hrest⟩, hrange⟩ := mem_listing.mp hmem
  rw [← hrest] at hrange
  exact not_contains_of_subrange h hrange

/-- A scan returns the first entries of the listing and whether more follow. -/
theorem kvScan_eq {limit : ℕ} (hl : 1 ≤ limit) :
    kvScan db front range order limit =
      ⟨(db.listing front range order).take limit,
        decide (limit < (db.listing front range order).length)⟩ := by
  unfold kvScan
  split
  · rename_i hsub
    simp [listing_eq_nil hsub]
  · rename_i sub hsub
    rw [if_neg (by omega), readEntries_eq (by simp), ← scanPrefix_eq_listing hsub]
    simp

theorem starts_of_lt {bound : Bound (List UInt8)} {last key : List UInt8}
    (h : bound.Starts last) (hlt : last < key) : bound.Starts key := by
  cases bound with
  | included a => exact le_trans (b := last) h hlt.le
  | excluded a => exact lt_trans (b := last) h hlt
  | unbounded => trivial

theorem ends_of_lt {bound : Bound (List UInt8)} {last key : List UInt8}
    (h : bound.Ends last) (hlt : key < last) : bound.Ends key := by
  cases bound with
  | included a => exact le_trans (b := last) hlt.le h
  | excluded a => exact lt_trans (b := last) hlt h
  | unbounded => trivial

theorem contains_next {last key : List UInt8} (h : range.Contains last) :
    (range.next order (some last)).Contains key ↔ order.Before last key ∧ range.Contains key := by
  cases order with
  | ascending =>
    refine ⟨fun ⟨hlt, hend⟩ => ⟨hlt, starts_of_lt h.1 hlt, hend⟩, fun ⟨hlt, hk⟩ => ⟨hlt, hk.2⟩⟩
  | descending =>
    refine ⟨fun ⟨hstart, hlt⟩ => ⟨hlt, hstart, ends_of_lt h.2 hlt⟩, fun ⟨hlt, hk⟩ => ⟨hk.1, hlt⟩⟩

theorem listing_next {cursor : Option (List UInt8)} (hc : ∀ last ∈ cursor, range.Contains last) :
    db.listing front (range.next order cursor) order =
      Paging.after Prod.fst order.Before (db.listing front range order) cursor := by
  cases cursor with
  | none => rfl
  | some last =>
    simp only [Paging.after, Db.listing, KvOrder.filter_read, List.filter_filter]
    congr 1
    refine List.filter_congr fun entry _ => ?_
    rw [Bool.eq_iff_iff, decide_eq_true_iff, contains_next (hc last rfl)]
    simp only [Bool.and_eq_true, decide_eq_true_eq]
    tauto

theorem fetchEntries_eq {pageSize : ℕ} (hl : 1 ≤ pageSize) {cursor : Option (List UInt8)}
    (hc : ∀ last ∈ cursor, range.Contains last) :
    fetchEntries db front range order pageSize cursor =
      Paging.pageOf Prod.fst pageSize
        (Paging.after Prod.fst order.Before (db.listing front range order) cursor) := by
  rw [fetchEntries, kvScan_eq hl, listing_next hc, Paging.pageOf]
  simp

/-- A scan returns the first entries, in its order, of the keys under the prefix in the range
and whether another one exists, and the stream yields all of them. -/
theorem kv_scans_exact (db : Db) (front : List UInt8) (range : KvRange) (order : KvOrder)
    {limit pageSize : ℕ} (hlimit : 1 ≤ limit) (hsize : 1 ≤ pageSize) :
    ∃ listing : List Row, Paging.Sorted Prod.fst order.Before listing ∧
      (∀ key value, (key, value) ∈ listing ↔
        (userScopedKey key, value) ∈ db.rows ∧ front <+: key ∧ range.Contains key) ∧
      kvScan db front range order limit =
        ⟨listing.take limit, decide (limit < listing.length)⟩ ∧
      ∃ fuel all, kvEntries db front range order pageSize fuel = some all ∧
        Paging.rowsOf all = listing := by
  have hsorted := sorted_listing db front range order
  have hrange : ∀ entry ∈ db.listing front range order, range.Contains entry.1 :=
    fun entry hmem => (mem_listing.mp hmem).2.2
  have hpage : ∀ (page : ℕ) (cursor : Option (List UInt8)), 0 ≤ page →
      (∀ c ∈ cursor, range.Contains c) →
      ∃ fetched ∈ some (fetchEntries db front range order pageSize cursor), Paging.IsPage Prod.fst
        (Paging.after Prod.fst order.Before (db.listing front range order) cursor) fetched := by
    intro _ cursor _ hc
    rw [fetchEntries_eq hsize hc]
    exact ⟨_, rfl, Paging.isPage_pageOf hsize _⟩
  obtain ⟨all, hall, hrows⟩ := Paging.exists_pages hsorted hrange hpage
    (by simp : ∀ c ∈ (none : Option (List UInt8)), range.Contains c) (Nat.lt_succ_self _)
  exact ⟨_, hsorted, fun _ _ => mem_listing, kvScan_eq hlimit, _, all, hall, hrows⟩

/-- A store with two callers' entries under one prefix and a third beside it. -/
def smallDb : Db where
  rows := [([255, 1], [10]), ([255, 1, 0], [11]), ([255, 2], [12])]
  sorted := by decide

theorem kv_scans_exact_small :
    kvScan smallDb [1] ⟨.excluded [1], .unbounded⟩ .descending 1 = ⟨[([1, 0], [11])], false⟩ ∧
      ∃ listing : List Row, Paging.Sorted Prod.fst KvOrder.descending.Before listing ∧
        (∀ key value, (key, value) ∈ listing ↔ (userScopedKey key, value) ∈ smallDb.rows ∧
          [1] <+: key ∧ KvRange.Contains ⟨.excluded [1], .unbounded⟩ key) ∧
        kvScan smallDb [1] ⟨.excluded [1], .unbounded⟩ .descending 1 =
          ⟨listing.take 1, decide (1 < listing.length)⟩ ∧
        ∃ fuel all, kvEntries smallDb [1] ⟨.excluded [1], .unbounded⟩ .descending 1 fuel =
          some all ∧ Paging.rowsOf all = listing :=
  ⟨by decide +kernel, kv_scans_exact smallDb [1] ⟨.excluded [1], .unbounded⟩ .descending
    (by decide) (by decide)⟩

end Scan

end Taquba
