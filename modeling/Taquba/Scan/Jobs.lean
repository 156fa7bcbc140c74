import Taquba.Keys.Layout
import Taquba.Scan.Range

/-! # Listings of the jobs of a queue

The jobs of a queue in one state are listed page by page in the order of their keys. The
keys of pending, claimed and dead jobs lead with the queue. Those of scheduled and done
jobs lead with a time, so their listing reads every queue and filters. A cursor is a
position among the keys, not a row.
-/

namespace Taquba

open Bytes

variable (fromSlice : List UInt8 → Option JobRecord)
variable {entry : List UInt8 × JobRecord} {limit : ℕ} {stores : ℕ → Db}
  {cursor : Option (List UInt8)} {job : JobRecord} {row : Row}

structure JobPage where
  jobs : List JobRecord
  nextCursor : Option (List UInt8)
  deriving DecidableEq

/-- The scan prefix of a listing, and whether it covers every queue. -/
def listPrefix (queue : QueueName) : JobStatus → List UInt8 × Bool
  | .pending => (pendingPrefix queue, false)
  | .dead => (deadPrefix queue, false)
  | .claimed => (claimedPrefix queue, false)
  | .scheduled => (tagPrefix .scheduled, true)
  | .done => (tagPrefix .done, true)

/-- Read rows into a page until it is full and a further job of the queue exists. A row that
does not decode fails the listing. -/
def readJobs (queue : QueueName) (filterQueue : Bool) (limit : ℕ) (jobs : List JobRecord)
    (lastKey : Option (List UInt8)) : List Row → Option JobPage
  | [] => some ⟨jobs, none⟩
  | row :: rows =>
    (JobRecord.decodeStored fromSlice row.1 row.2).bind fun job =>
      if filterQueue ∧ job.queue ≠ queue then
        readJobs queue filterQueue limit jobs lastKey rows
      else if jobs.length = limit then some ⟨jobs, lastKey⟩
      else readJobs queue filterQueue limit (jobs ++ [job]) (some row.1) rows

def listJobs (db : Db) (queue : QueueName) (status : JobStatus) (cursor : Option (List UInt8))
    (limit : ℕ) : Option JobPage :=
  if limit = 0 then some ⟨[], none⟩
  else
    let (front, filterQueue) := listPrefix queue status
    match cursor with
    | none =>
      readJobs fromSlice queue filterQueue limit [] none
        (db.scanPrefix front ⟨.unbounded, .unbounded⟩ .ascending)
    | some cursor =>
      if ¬ front <+: cursor then some ⟨[], none⟩
      else
        readJobs fromSlice queue filterQueue limit [] none
          (db.scanPrefix front ⟨.excluded (cursor.drop front.length), .unbounded⟩ .ascending)

/-- The pages of the jobs of a queue in a state, each read from the store at its time. -/
def jobs (stores : ℕ → Db) (queue : QueueName) (status : JobStatus) (pageSize fuel : ℕ) :
    Option (List (List JobRecord × Option (List UInt8))) :=
  Paging.pages (fun page cursor =>
    (listJobs fromSlice (stores page) queue status cursor pageSize).map fun page =>
      (page.jobs, page.nextCursor)) fuel 0 none

def deadJobs (db : Db) (queue : QueueName) (after : Option String) (limit : ℕ) :
    Option (List JobRecord) :=
  (listJobs fromSlice db queue .dead (after.map (deadKey queue)) limit).map JobPage.jobs

/-- The pages of the dead jobs of a queue, each continued after the last id of the page
before, until a page is empty. -/
def deadPages (db : Db) (queue : QueueName) (limit fuel : ℕ) :
    Option (List (List JobRecord × Option String)) :=
  Paging.pages (fun _ after =>
    (deadJobs fromSlice db queue after limit).map fun jobs =>
      (jobs, jobs.getLast?.map JobRecord.id)) fuel 0 none

def RecordKey.Fits : RecordKey → Prop
  | .pending _ key => key.Fits
  | .claimed _ _ => True
  | .scheduled runAt _ _ => runAt < 2 ^ 64
  | .done completedAt _ _ => completedAt < 2 ^ 64
  | .dead _ _ => True

theorem RecordKey.dbKey_inj {key key' : RecordKey} (h : key.Fits) (h' : key'.Fits)
    (heq : key.dbKey = key'.dbKey) : key = key' := by
  have h64 : ∀ {t t' : ℕ}, t < 2 ^ 64 → t' < 2 ^ 64 → UInt64.ofNat t = UInt64.ofNat t' →
      t = t' := by
    intro t t' ht ht' h
    rwa [← UInt64.toNat_inj, UInt64.toNat_ofNat_of_lt' ht, UInt64.toNat_ofNat_of_lt' ht'] at h
  cases key <;> cases key' <;> simp only [RecordKey.dbKey, reduceCtorEq, DbKey.pending.injEq,
    DbKey.claimed.injEq, DbKey.scheduled.injEq, DbKey.done.injEq, DbKey.dead.injEq] at heq
  case pending.pending queue key queue' key' =>
    obtain ⟨rfl, hp, ht, hid⟩ := heq
    rw [← UInt32.toNat_inj, UInt32.toNat_ofNat_of_lt' h.1, UInt32.toNat_ofNat_of_lt' h'.1] at hp
    have ht := h64 h.2 h'.2 ht
    obtain ⟨priority, enqueuedAt, id⟩ := key
    cases hp
    cases ht
    cases hid
    rfl
  case claimed.claimed | dead.dead =>
    obtain ⟨rfl, rfl⟩ := heq
    rfl
  case scheduled.scheduled =>
    obtain ⟨rfl, ht, rfl⟩ := heq
    rw [h64 h h' ht]
  case done.done =>
    obtain ⟨ht, rfl, rfl⟩ := heq
    rw [h64 h h' ht]

def IsJobRow (row : Row) (job : JobRecord) : Prop :=
  JobRecord.decodeStored fromSlice row.1 row.2 = some job ∧
    ∃ key : RecordKey, job.storedKey = some key ∧ key.Fits ∧ row.1 = key.dbKey.encode

/-- Every row is at a key of the store, and a row of a space of job records holds the job of
its key. -/
def Db.WellFormed (db : Db) : Prop :=
  ∀ row ∈ db.rows, ∃ key : DbKey, row.1 = key.encode ∧
    (key.tag.jobStatus.isSome → ∃ job, IsJobRow fromSlice row job)

def jobOf (queue : QueueName) (status : JobStatus) (row : Row) :
    Option (List UInt8 × JobRecord) :=
  (JobRecord.decodeStored fromSlice row.1 row.2).bind fun job =>
    if job.queue = queue ∧ job.status = status then some (row.1, job) else none

/-- The jobs of a queue in a state with their keys, in key order. -/
def Db.jobListing (db : Db) (queue : QueueName) (status : JobStatus) :
    List (List UInt8 × JobRecord) :=
  db.rows.filterMap (jobOf fromSlice queue status)

/-- The page of a listing after a cursor, empty for a cursor of another key space. -/
def Db.jobPage (db : Db) (queue : QueueName) (status : JobStatus) (limit : ℕ)
    (cursor : Option (List UInt8)) : List (List UInt8 × JobRecord) × Option (List UInt8) :=
  if ∀ c ∈ cursor, (listPrefix queue status).1 <+: c then
    Paging.pageOf Prod.fst limit
      (Paging.after Prod.fst (· < ·) (db.jobListing fromSlice queue status) cursor)
  else ([], none)

def entryId (entry : List UInt8 × JobRecord) : String := entry.2.id

def Db.deadPage (db : Db) (queue : QueueName) (limit : ℕ) (after : Option String) :
    List (List UInt8 × JobRecord) × Option String :=
  let items := (Paging.after entryId (· < ·) (db.jobListing fromSlice queue .dead) after).take limit
  (items, items.getLast?.map entryId)

/-- The order in which the jobs of a queue in one state are listed. -/
def JobRecord.Before (job job' : JobRecord) : Prop :=
  match job.status with
  | .pending => (⟨job.priority, job.enqueuedAt, job.id⟩ : PendingKey) <
      ⟨job'.priority, job'.enqueuedAt, job'.id⟩
  | .claimed | .dead => job.id < job'.id
  | .scheduled => job.runAt.getD 0 ≤ job'.runAt.getD 0
  | .done => job.completedAt.getD 0 ≤ job'.completedAt.getD 0

section Listing

variable {fromSlice} {db : Db} {queue : QueueName} {status : JobStatus}

theorem jobOf_eq_some :
    jobOf fromSlice queue status row = some entry ↔
      JobRecord.decodeStored fromSlice row.1 row.2 = some entry.2 ∧ entry.1 = row.1 ∧
        entry.2.queue = queue ∧ entry.2.status = status := by
  obtain ⟨key, job⟩ := entry
  simp only [jobOf, Option.bind_eq_some_iff, Option.ite_none_right_eq_some, Option.some.injEq,
    Prod.mk.injEq]
  constructor
  · rintro ⟨job', hd, hq, rfl, rfl⟩
    exact ⟨hd, rfl, hq⟩
  · rintro ⟨hd, rfl, hq⟩
    exact ⟨job, hd, hq, rfl, rfl⟩

theorem sorted_jobListing (db : Db) (queue : QueueName) (status : JobStatus) :
    Paging.Sorted Prod.fst (· < ·) (db.jobListing fromSlice queue status) := by
  refine List.Pairwise.filterMap _ (fun a b hab e he e' he' => ?_) db.sorted
  rw [(jobOf_eq_some.mp he).2.1, (jobOf_eq_some.mp he').2.1]
  exact hab

theorem mem_jobListing {key : List UInt8} :
    (key, job) ∈ db.jobListing fromSlice queue status ↔
      (∃ value, (key, value) ∈ db.rows ∧
        JobRecord.decodeStored fromSlice key value = some job) ∧
        job.queue = queue ∧ job.status = status := by
  simp only [Db.jobListing, List.mem_filterMap]
  constructor
  · rintro ⟨⟨key', value⟩, hrow, he⟩
    obtain ⟨hd, rfl, hq⟩ := jobOf_eq_some.mp he
    exact ⟨⟨value, hrow, hd⟩, hq⟩
  · rintro ⟨⟨value, hrow, hd⟩, hq⟩
    exact ⟨(key, value), hrow, jobOf_eq_some.mpr ⟨hd, rfl, hq⟩⟩

theorem Db.WellFormed.isJobRow (hdb : db.WellFormed fromSlice) (hrow : row ∈ db.rows)
    (h : JobRecord.decodeStored fromSlice row.1 row.2 = some job) : IsJobRow fromSlice row job := by
  obtain ⟨key, hkey, hjob⟩ := hdb row hrow
  have hstatus : key.tag.jobStatus.isSome := by
    rw [JobRecord.decodeStored, hkey, DbKey.of_encode] at h
    cases hs : key.tag.jobStatus with
    | none => simp [hs] at h
    | some _ => rfl
  obtain ⟨job', hj⟩ := hjob hstatus
  cases hj.1.symm.trans h
  exact hj

theorem listPrefix_prefix (h : IsJobRow fromSlice row job) (hq : job.queue = queue)
    (hs : job.status = status) : (listPrefix queue status).1 <+: row.1 := by
  obtain ⟨-, key, hkey, -, hrow⟩ := h
  obtain ⟨hstatus, hqueue, -⟩ := JobRecord.storedKey_spec hkey
  rw [hrow]
  subst hq hs
  cases key <;> rw [RecordKey.queue] at hqueue <;> rw [RecordKey.keyStatus] at hstatus <;>
    rw [← hstatus, ← hqueue]
  case pending => exact DbKey.pendingPrefix_prefix_iff.mpr ⟨_, _, _, rfl⟩
  case claimed => exact DbKey.claimedPrefix_prefix_iff.mpr ⟨_, rfl⟩
  case dead => exact DbKey.deadPrefix_prefix_iff.mpr ⟨_, rfl⟩
  case scheduled | done => exact List.prefix_append _ _

theorem jobStatus_tag_dbKey (key : RecordKey) :
    key.dbKey.tag.jobStatus = some key.keyStatus := by
  cases key <;> rfl

theorem jobStatus_of_listPrefix {key : DbKey} (h : (listPrefix queue status).1 <+: key.encode) :
    key.tag.jobStatus = some status := by
  cases status <;> rw [DbKey.tag_of_prefix_encode h] <;> rfl

theorem isJobRow_of_listPrefix (hdb : db.WellFormed fromSlice) (hrow : row ∈ db.rows)
    (h : (listPrefix queue status).1 <+: row.1) :
    ∃ job, IsJobRow fromSlice row job ∧ job.status = status ∧
      ((listPrefix queue status).2 = false → job.queue = queue) := by
  obtain ⟨dbKey, hkey, hjob⟩ := hdb row hrow
  have htag := jobStatus_of_listPrefix (hkey ▸ h)
  obtain ⟨job, hj⟩ := hjob (by rw [htag]; rfl)
  refine ⟨job, hj, ?_⟩
  obtain ⟨-, key, hstored, -, hrkey⟩ := hj
  obtain ⟨hstatus, hqueue, -⟩ := JobRecord.storedKey_spec hstored
  rw [hrkey] at h
  have hks := jobStatus_of_listPrefix h
  rw [jobStatus_tag_dbKey, hstatus] at hks
  refine ⟨Option.some.inj hks, fun hfilter => ?_⟩
  rw [← hqueue]
  cases status <;> try cases hfilter
  case pending =>
    obtain ⟨_, _, _, hp⟩ := DbKey.pendingPrefix_prefix_iff.mp h
    cases key <;> cases hp
    rfl
  case claimed =>
    obtain ⟨_, hp⟩ := DbKey.claimedPrefix_prefix_iff.mp h
    cases key <;> cases hp
    rfl
  case dead =>
    obtain ⟨_, hp⟩ := DbKey.deadPrefix_prefix_iff.mp h
    cases key <;> cases hp
    rfl

/-- The loop over the rows of a scan fills the page of the jobs it keeps. -/
theorem readJobs_eq {filterQueue : Bool} {rows : List Row}
    (hrows : ∀ row ∈ rows, ∃ job, JobRecord.decodeStored fromSlice row.1 row.2 = some job ∧
      job.status = status ∧ (filterQueue = false → job.queue = queue))
    {kept : List (List UInt8 × JobRecord)} (hkept : kept.length ≤ limit) :
    readJobs fromSlice queue filterQueue limit (kept.map Prod.snd) (kept.getLast?.map Prod.fst)
        rows =
      let page := Paging.pageOf Prod.fst limit
        (kept ++ rows.filterMap (jobOf fromSlice queue status))
      some ⟨page.1.map Prod.snd, page.2⟩ := by
  induction rows generalizing kept with
  | nil =>
    rw [List.filterMap_nil, List.append_nil, Paging.pageOf_eq_last hkept]
    rfl
  | cons row rows ih =>
    have hlater := fun kept hk => @ih (fun row hr => hrows row (List.mem_cons_of_mem _ hr)) kept hk
    obtain ⟨job, hd, hs, hq⟩ := hrows row (List.mem_cons_self ..)
    rw [readJobs, hd, Option.bind_some]
    by_cases hskip : filterQueue ∧ job.queue ≠ queue
    · have hnone : jobOf fromSlice queue status row = none := by simp [jobOf, hd, hskip.2]
      rw [if_pos hskip, List.filterMap_cons_none hnone]
      exact hlater kept hkept
    · have hqueue : job.queue = queue := by
        cases filterQueue with
        | false => exact hq rfl
        | true => simpa using hskip
      have hsome : jobOf fromSlice queue status row = some (row.1, job) :=
        jobOf_eq_some.mpr ⟨hd, rfl, hqueue, hs⟩
      rw [if_neg hskip, List.filterMap_cons_some hsome]
      by_cases hfull : kept.length = limit
      · have hpage : Paging.pageOf Prod.fst limit (kept ++ (row.1, job) ::
            rows.filterMap (jobOf fromSlice queue status)) =
            (kept, kept.getLast?.map Prod.fst) := by
          rw [Paging.pageOf, if_pos (by simp [hfull]), ← hfull, List.take_left]
        rw [if_pos (by simpa using hfull), hpage]
      · have hnext := hlater (kept ++ [(row.1, job)]) (by simp; omega)
        rw [if_neg (by simpa using hfull)]
        simpa using hnext

theorem filterMap_scanPrefix (hdb : db.WellFormed fromSlice) {range : KvRange}
    (hrange : ∀ rest, range.Contains rest ↔
      ∀ c ∈ cursor, c < (listPrefix queue status).1 ++ rest) :
    (db.scanPrefix (listPrefix queue status).1 range .ascending).filterMap
        (jobOf fromSlice queue status) =
      Paging.after Prod.fst (· < ·) (db.jobListing fromSlice queue status) cursor := by
  have hkeep : ∀ row ∈ db.rows, ∀ entry, jobOf fromSlice queue status row = some entry →
      (((listPrefix queue status).1 <+: row.1 ∧
        range.Contains (row.1.drop (listPrefix queue status).1.length)) ↔
          ∀ c ∈ cursor, c < entry.1) := by
    intro row hrow entry hentry
    obtain ⟨hd, hkey, hq, hs⟩ := jobOf_eq_some.mp hentry
    obtain ⟨rest, hrest⟩ := listPrefix_prefix (hdb.isJobRow hrow hd) hq hs
    rw [hkey, ← hrest]
    simpa using hrange rest
  rw [Db.scanPrefix, KvOrder.read, List.filterMap_filter]
  have hafter : Paging.after Prod.fst (· < ·) (db.jobListing fromSlice queue status) cursor =
      (db.jobListing fromSlice queue status).filter fun entry => ∀ c ∈ cursor, c < entry.1 := by
    cases cursor with
    | none => simp [Paging.after]
    | some c => simp [Paging.after]
  rw [hafter, Db.jobListing, List.filter_filterMap]
  refine List.filterMap_congr fun row hrow => ?_
  cases hentry : jobOf fromSlice queue status row with
  | none => simp
  | some entry =>
    have hiff := hkeep row hrow entry hentry
    by_cases hc : ∀ c ∈ cursor, c < entry.1
    · rw [if_pos (by simpa using hiff.mpr hc), Option.filter_some, if_pos (decide_eq_true hc)]
    · rw [if_neg (by simpa using fun h h' => hc (hiff.mp ⟨h, h'⟩)), Option.filter_some,
        if_neg (by simpa using hc)]

/-- A listing returns the page of the jobs after its cursor. -/
theorem listJobs_eq (hdb : db.WellFormed fromSlice) (hl : 1 ≤ limit)
    (cursor : Option (List UInt8)) :
    listJobs fromSlice db queue status cursor limit =
      let page := db.jobPage fromSlice queue status limit cursor
      some ⟨page.1.map Prod.snd, page.2⟩ := by
  have hread : ∀ range : KvRange, (∀ rest, range.Contains rest ↔
      ∀ c ∈ cursor, c < (listPrefix queue status).1 ++ rest) →
      readJobs fromSlice queue (listPrefix queue status).2 limit [] none
          (db.scanPrefix (listPrefix queue status).1 range .ascending) =
        let page := Paging.pageOf Prod.fst limit
          (Paging.after Prod.fst (· < ·) (db.jobListing fromSlice queue status) cursor)
        some ⟨page.1.map Prod.snd, page.2⟩ := by
    intro range hrange
    have hrows : ∀ row ∈ db.scanPrefix (listPrefix queue status).1 range .ascending,
        ∃ job, JobRecord.decodeStored fromSlice row.1 row.2 = some job ∧ job.status = status ∧
          ((listPrefix queue status).2 = false → job.queue = queue) := by
      intro row hrow
      obtain ⟨hmem, hp⟩ := List.mem_filter.mp (KvOrder.mem_read.mp hrow)
      obtain ⟨job, hj, hjob⟩ := isJobRow_of_listPrefix hdb hmem (of_decide_eq_true hp).1
      exact ⟨job, hj.1, hjob⟩
    have hloop := readJobs_eq hrows (show ([] : List (List UInt8 × JobRecord)).length ≤ limit from
      Nat.zero_le limit)
    rw [filterMap_scanPrefix hdb hrange] at hloop
    exact hloop
  rw [listJobs, if_neg (by omega), Db.jobPage]
  cases cursor with
  | none =>
    rw [if_pos (by simp)]
    exact hread _ (by simp [KvRange.Contains, Bound.Starts, Bound.Ends])
  | some c =>
    simp only [Option.mem_some_iff, forall_eq']
    by_cases hc : (listPrefix queue status).1 <+: c
    · obtain ⟨suffix, rfl⟩ := hc
      rw [if_neg (by simp), if_pos (by simp)]
      exact hread _ (by simp [KvRange.Contains, Bound.Starts, Bound.Ends])
    · rw [if_pos hc, if_neg hc]
      rfl

theorem jobs_eq (hstores : ∀ page, (stores page).WellFormed fromSlice) (hl : 1 ≤ limit) (fuel : ℕ) :
    jobs fromSlice stores queue status limit fuel =
      (Paging.pages (fun page cursor =>
        some ((stores page).jobPage fromSlice queue status limit cursor)) fuel 0 none).map
          (List.map (Prod.map (List.map Prod.snd) id)) := by
  rw [← Paging.pages_map, jobs]
  congr 1
  funext page cursor
  rw [listJobs_eq (hstores page) hl]
  rfl

theorem valid_of_jobListing (hdb : db.WellFormed fromSlice)
    (h : entry ∈ db.jobListing fromSlice queue status) :
    (listPrefix queue status).1 <+: entry.1 := by
  obtain ⟨⟨value, hrow, hd⟩, hq, hs⟩ := mem_jobListing.mp h
  exact listPrefix_prefix (hdb.isJobRow hrow hd) hq hs

theorem jobPage_eq (hc : ∀ c ∈ cursor, (listPrefix queue status).1 <+: c) :
    db.jobPage fromSlice queue status limit cursor = Paging.pageOf Prod.fst limit
      (Paging.after Prod.fst (· < ·) (db.jobListing fromSlice queue status) cursor) :=
  if_pos hc

theorem isPage_jobPage (hl : 1 ≤ limit) (hc : ∀ c ∈ cursor, (listPrefix queue status).1 <+: c) :
    Paging.IsPage Prod.fst
      (Paging.after Prod.fst (· < ·) (db.jobListing fromSlice queue status) cursor)
      (db.jobPage fromSlice queue status limit cursor) := by
  rw [jobPage_eq hc]
  exact Paging.isPage_pageOf hl _

theorem before_of_lt {row' : Row} {job' : JobRecord} (h : IsJobRow fromSlice row job)
    (h' : IsJobRow fromSlice row' job') (hq : job.queue = job'.queue)
    (hs : job.status = job'.status) (hlt : row.1 < row'.1) : job.Before job' := by
  obtain ⟨-, key, hkey, hfits, hrow⟩ := h
  obtain ⟨-, key', hkey', hfits', hrow'⟩ := h'
  have htime : ∀ {t t' : ℕ}, t < 2 ^ 64 → t' < 2 ^ 64 →
      UInt64.ofNat t < UInt64.ofNat t' ∨ UInt64.ofNat t = UInt64.ofNat t' ∧
        pushQueue job.queue ++ utf8 job.id < pushQueue job'.queue ++ utf8 job'.id → t ≤ t' := by
    intro t t' ht ht' h
    rw [UInt64.lt_iff_toNat_lt, ← UInt64.toNat_inj, UInt64.toNat_ofNat_of_lt' ht,
      UInt64.toNat_ofNat_of_lt' ht'] at h
    omega
  rw [hrow, hrow'] at hlt
  rw [JobRecord.storedKey] at hkey hkey'
  rw [← hs] at hkey'
  rw [JobRecord.Before]
  cases hst : job.status with
  | pending =>
    rw [hst] at hkey hkey'
    cases hkey
    cases hkey'
    rw [← hq] at hlt
    exact (PendingKey.encode_lt_iff hfits hfits').mp hlt
  | claimed | dead =>
    rw [hst] at hkey hkey'
    cases hkey
    cases hkey'
    rw [← hq] at hlt
    exact (queueFirstKey_lt_iff _).mp hlt
  | scheduled =>
    rw [hst] at hkey hkey'
    obtain ⟨t, ht, rfl⟩ := Option.map_eq_some_iff.mp hkey
    obtain ⟨t', ht', rfl⟩ := Option.map_eq_some_iff.mp hkey'
    simp only [ht, ht', Option.getD_some]
    exact htime hfits hfits' ((timeFirstKey_lt_iff _).mp hlt)
  | done =>
    rw [hst] at hkey hkey'
    obtain ⟨t, ht, rfl⟩ := Option.map_eq_some_iff.mp hkey
    obtain ⟨t', ht', rfl⟩ := Option.map_eq_some_iff.mp hkey'
    simp only [ht, ht', Option.getD_some]
    exact htime hfits hfits' ((timeFirstKey_lt_iff _).mp hlt)

theorem before_jobListing (hdb : db.WellFormed fromSlice) :
    ((db.jobListing fromSlice queue status).map Prod.snd).Pairwise JobRecord.Before := by
  refine List.pairwise_map.mpr ?_
  refine List.Pairwise.imp_of_mem (fun {a b} ha hb hab => ?_) (sorted_jobListing db queue status)
  obtain ⟨⟨value, hrow, hd⟩, hq, hs⟩ := mem_jobListing.mp ha
  obtain ⟨⟨value', hrow', hd'⟩, hq', hs'⟩ := mem_jobListing.mp hb
  exact before_of_lt (hdb.isJobRow hrow hd) (hdb.isJobRow hrow' hd') (hq.trans hq'.symm)
    (hs.trans hs'.symm) hab

theorem key_of_dead (hdb : db.WellFormed fromSlice)
    (h : entry ∈ db.jobListing fromSlice queue .dead) : entry.1 = deadKey queue entry.2.id := by
  obtain ⟨⟨value, hrow, hd⟩, rfl, hs⟩ := mem_jobListing.mp h
  obtain ⟨-, key, hkey, -, hrowKey⟩ := hdb.isJobRow hrow hd
  rw [JobRecord.storedKey, hs] at hkey
  cases hkey
  exact hrowKey

theorem exists_deadPages (hdb : db.WellFormed fromSlice) (queue : QueueName) (hl : 1 ≤ limit) :
    ∃ fuel all, deadPages fromSlice db queue limit fuel = some all ∧
      Paging.rowsOf all = (db.jobListing fromSlice queue .dead).map Prod.snd := by
  have hkey : ∀ entry ∈ db.jobListing fromSlice queue .dead,
      entry.1 = deadKey queue (entryId entry) := fun _ h => key_of_dead hdb h
  have hafter : ∀ cursor : Option String,
      Paging.after Prod.fst (· < ·) (db.jobListing fromSlice queue .dead)
        (cursor.map (deadKey queue)) =
      Paging.after entryId (· < ·) (db.jobListing fromSlice queue .dead) cursor := by
    intro cursor
    cases cursor with
    | none => rfl
    | some c =>
      refine List.filter_congr fun entry he => ?_
      rw [hkey entry he, decide_eq_decide]
      exact queueFirstKey_lt_iff _
  have hsorted : Paging.Sorted entryId (· < ·) (db.jobListing fromSlice queue .dead) := by
    refine List.Pairwise.imp_of_mem (fun {a b} ha hb hab => ?_) (sorted_jobListing db queue .dead)
    rw [hkey a ha, hkey b hb] at hab
    exact (queueFirstKey_lt_iff _).mp hab
  have hpages : ∀ fuel, deadPages fromSlice db queue limit fuel =
      (Paging.pages (fun _ cursor => some (db.deadPage fromSlice queue limit cursor)) fuel 0
        none).map (List.map (Prod.map (List.map Prod.snd) id)) := by
    intro fuel
    rw [← Paging.pages_map, deadPages]
    congr 1
    funext _ cursor
    have hc : ∀ c ∈ cursor.map (deadKey queue), (listPrefix queue .dead).1 <+: c := by
      intro c hc
      obtain ⟨after, -, rfl⟩ := Option.map_eq_some_iff.mp hc
      exact DbKey.deadPrefix_prefix_iff.mpr ⟨after, rfl⟩
    rw [deadJobs, listJobs_eq hdb hl, jobPage_eq hc, hafter, Db.deadPage]
    simp only [Option.map_some, Paging.pageOf, Prod.map_apply, id_eq, List.getLast?_map,
      Option.map_map]
    rfl
  obtain ⟨all, hall, hrows⟩ := Paging.exists_pages hsorted (fun _ _ => trivial)
    (fun _ cursor _ _ => ⟨_, rfl, Paging.isPage_take hl _⟩)
    (by simp : ∀ c ∈ (none : Option String), True) (Nat.lt_succ_self _)
  refine ⟨_, _, by rw [hpages]; exact congrArg (Option.map _) hall, ?_⟩
  rw [Paging.rowsOf_map, hrows]
  rfl

theorem storedKey_of_mem (hdb : db.WellFormed fromSlice)
    (h : entry ∈ db.jobListing fromSlice queue status) :
    ∃ key, entry.2.storedKey = some key ∧ key.Fits ∧ entry.1 = key.dbKey.encode := by
  obtain ⟨⟨value, hrow, hd⟩, -⟩ := mem_jobListing.mp h
  exact (hdb.isJobRow hrow hd).2

theorem mem_jobListing_of_pages {fuel : ℕ}
    {pages : List (List (List UInt8 × JobRecord) × Option (List UInt8))}
    (h : Paging.pages (fun page cursor =>
      some ((stores page).jobPage fromSlice queue status limit cursor)) fuel 0 none = some pages)
    (he : entry ∈ Paging.rowsOf pages) :
    ∃ page, entry ∈ (stores page).jobListing fromSlice queue status := by
  obtain ⟨p, hp, hmem⟩ := List.mem_flatMap.mp he
  obtain ⟨page, cursor, hfetch⟩ := Paging.exists_fetch_of_mem h hp
  refine ⟨page, ?_⟩
  rw [← Option.some.inj hfetch, Db.jobPage] at hmem
  split at hmem
  · exact Paging.mem_of_after (List.mem_of_mem_take hmem)
  · simp at hmem

/-- A job that stays in the state while the pages are read is listed once. -/
theorem countP_jobs (hstores : ∀ page, (stores page).WellFormed fromSlice) (hl : 1 ≤ limit)
    {fuel : ℕ} {all : List (List JobRecord × Option (List UInt8))}
    (h : jobs fromSlice stores queue status limit fuel = some all) {key : RecordKey}
    (hkey : ∀ page < all.length, ∃ job, job.storedKey = some key ∧
      (key.dbKey.encode, job) ∈ (stores page).jobListing fromSlice queue status) :
    (Paging.rowsOf all).countP (fun job => job.storedKey = some key) = 1 := by
  rw [jobs_eq hstores hl] at h
  obtain ⟨pages, hpages, rfl⟩ := Option.map_eq_some_iff.mp h
  rw [List.length_map] at hkey
  have hstays : ∀ i < pages.length,
      key.dbKey.encode ∈ ((stores (0 + i)).jobListing fromSlice queue status).map Prod.fst := by
    intro i hi
    obtain ⟨job, -, hmem⟩ := hkey i hi
    rw [Nat.zero_add]
    exact List.mem_map.mpr ⟨_, hmem, rfl⟩
  have hcount := Paging.count_of_stays (fun page => sorted_jobListing (stores page) queue status)
    (fun page entry => valid_of_jobListing (hstores page))
    (fun page cursor hc => ⟨_, rfl, isPage_jobPage hl hc⟩) (by simp) hpages hstays
  rw [if_pos (by simp)] at hcount
  have hfits : key.Fits := by
    have hne : pages ≠ [] := by
      rintro rfl
      simp [Paging.rowsOf] at hcount
    obtain ⟨job, hjob, hmem⟩ := hkey 0 (List.length_pos_iff.mpr hne)
    obtain ⟨key', hkey', hfits, -⟩ := storedKey_of_mem (hstores 0) hmem
    cases hjob.symm.trans hkey'
    exact hfits
  have hkeys : (Paging.rowsOf pages).countP (fun entry => entry.1 = key.dbKey.encode) = 1 := by
    rw [List.count_eq_countP, List.countP_map] at hcount
    refine Eq.trans (List.countP_congr fun entry _ => ?_) hcount
    simp
  rw [Paging.rowsOf_map, List.countP_map, ← hkeys]
  refine List.countP_congr fun entry he => ?_
  obtain ⟨page, hpage⟩ := mem_jobListing_of_pages hpages he
  obtain ⟨key', hkey', hfits', hentry⟩ := storedKey_of_mem (hstores page) hpage
  simp only [Function.comp_apply, decide_eq_true_eq, hkey', hentry, Option.some.injEq]
  constructor
  · rintro rfl
    rfl
  · intro h
    exact RecordKey.dbKey_inj hfits' hfits (DbKey.encode_injective h)

/-- The pages of an unchanging store hold the listing: every page but the last is full and
names the next. -/
theorem exists_jobs (hdb : db.WellFormed fromSlice) (queue : QueueName) (status : JobStatus)
    (hl : 1 ≤ limit) :
    ∃ fuel all, jobs fromSlice (fun _ => db) queue status limit fuel = some all ∧
      Paging.rowsOf all = (db.jobListing fromSlice queue status).map Prod.snd ∧
      ∃ front last, all = front ++ [last] ∧ last.2 = none ∧
        (∀ p ∈ front, p.1.length = limit ∧ p.2.isSome) ∧
        (last.1 = [] → db.jobListing fromSlice queue status = []) := by
  have hvalid : ∀ entry ∈ db.jobListing fromSlice queue status,
      (listPrefix queue status).1 <+: entry.1 := fun _ => valid_of_jobListing hdb
  have hnone : ∀ c ∈ (none : Option (List UInt8)), (listPrefix queue status).1 <+: c := by simp
  obtain ⟨pages, hpages, hrows⟩ := Paging.exists_pages (sorted_jobListing db queue status) hvalid
    (fun (_ : ℕ) cursor (_ : 0 ≤ _) hc => ⟨_, rfl, isPage_jobPage hl hc⟩) hnone (Nat.lt_succ_self _)
  obtain ⟨front, last, rfl, hlast, hfull, hempty⟩ :=
    Paging.pages_full hl (sorted_jobListing db queue status) hvalid
      (fun _ cursor hc => congrArg some (jobPage_eq hc)) hnone hpages
  refine ⟨_, _, (jobs_eq (fun _ => hdb) hl _).trans (congrArg (Option.map _) hpages), ?_,
    front.map (Prod.map (List.map Prod.snd) id), Prod.map (List.map Prod.snd) id last, ?_, hlast,
    ?_, ?_⟩
  · rw [Paging.rowsOf_map, hrows]
    rfl
  · rw [List.map_append, List.map_singleton]
  · intro p hp
    obtain ⟨q, hq, rfl⟩ := List.mem_map.mp hp
    simpa using hfull q hq
  · intro hnil
    exact hempty (List.map_eq_nil_iff.mp hnil)

theorem exists_jobs_of_settled (hstores : ∀ page, (stores page).WellFormed fromSlice)
    (hl : 1 ≤ limit) {settled : ℕ} (h : ∀ page ≥ settled, stores page = stores settled) :
    ∃ fuel all, jobs fromSlice stores queue status limit fuel = some all := by
  have hlistings : ∀ page ≥ settled, (stores page).jobListing fromSlice queue status =
      (stores settled).jobListing fromSlice queue status := fun page hp => by rw [h page hp]
  have hnone : ∀ c ∈ (none : Option (List UInt8)), (listPrefix queue status).1 <+: c := by simp
  obtain ⟨fuel, pages, hpages⟩ := Paging.exists_pages_of_settled
    (sorted_jobListing (stores settled) queue status) hlistings
    (fun page entry => valid_of_jobListing (hstores page))
    (fun page cursor hc => ⟨_, rfl, isPage_jobPage hl hc⟩) 0 hnone
  exact ⟨fuel, _, by rw [jobs_eq hstores hl, hpages, Option.map_some]⟩

/-- The pages of a listing hold each job of the queue in the state once, in the order of the
state, and a job that stays in the state while they are read is among them once. -/
theorem job_listings_exact (hdb : db.WellFormed fromSlice) {stores : ℕ → Db}
    (hstores : ∀ page, (stores page).WellFormed fromSlice) (queue : QueueName)
    (status : JobStatus) {limit : ℕ} (hl : 1 ≤ limit) :
    (∃ listing : List (List UInt8 × JobRecord), Paging.Sorted Prod.fst (· < ·) listing ∧
      (listing.map Prod.snd).Pairwise JobRecord.Before ∧
      (∀ key job, (key, job) ∈ listing ↔
        (∃ value, (key, value) ∈ db.rows ∧ IsJobRow fromSlice (key, value) job) ∧
          job.queue = queue ∧ job.status = status) ∧
      (∃ fuel all, jobs fromSlice (fun _ => db) queue status limit fuel = some all ∧
        Paging.rowsOf all = listing.map Prod.snd ∧
        ∃ front last, all = front ++ [last] ∧ last.2 = none ∧
          (∀ p ∈ front, p.1.length = limit ∧ p.2.isSome) ∧ (last.1 = [] → listing = [])) ∧
      (status = .dead → ∃ fuel all, deadPages fromSlice db queue limit fuel = some all ∧
        Paging.rowsOf all = listing.map Prod.snd)) ∧
    (∀ settled, (∀ page ≥ settled, stores page = stores settled) →
      ∃ fuel all, jobs fromSlice stores queue status limit fuel = some all) ∧
    ∀ fuel all, jobs fromSlice stores queue status limit fuel = some all → ∀ key : RecordKey,
      (∀ page < all.length, ∃ job value, (key.dbKey.encode, value) ∈ (stores page).rows ∧
        IsJobRow fromSlice (key.dbKey.encode, value) job ∧ job.storedKey = some key ∧
          job.queue = queue ∧ job.status = status) →
      (Paging.rowsOf all).countP (fun job => job.storedKey = some key) = 1 := by
  refine ⟨⟨db.jobListing fromSlice queue status, sorted_jobListing db queue status,
    before_jobListing hdb, ?_, exists_jobs hdb queue status hl, ?_⟩, ?_, ?_⟩
  · intro key job
    rw [mem_jobListing]
    constructor
    · rintro ⟨⟨value, hrow, hd⟩, hq⟩
      exact ⟨⟨value, hrow, hdb.isJobRow hrow hd⟩, hq⟩
    · rintro ⟨⟨value, hrow, hj⟩, hq⟩
      exact ⟨⟨value, hrow, hj.1⟩, hq⟩
  · rintro rfl
    exact exists_deadPages hdb queue hl
  · intro settled h
    exact exists_jobs_of_settled hstores hl h
  · intro fuel all h key hkey
    refine countP_jobs hstores hl h fun page hp => ?_
    obtain ⟨job, value, hrow, hj, hjob, hq⟩ := hkey page hp
    exact ⟨job, hjob, mem_jobListing.mpr ⟨⟨value, hrow, hj.1⟩, hq⟩⟩

end Listing

section Small

def smallQueue : QueueName := ⟨"a", by decide⟩

def smallFromSlice (value : List UInt8) : Option JobRecord :=
  some (JobRecord.newPending (if value = [1] then "x" else "y") smallQueue [] 1 0 0)

def smallJobDb : Db where
  rows := [(pendingKey smallQueue 0 0 "y", [2]), (deadKey smallQueue "x", [1]),
    (deadKey smallQueue "y", [2])]
  sorted := by decide +kernel

theorem wellFormed_smallJobDb : smallJobDb.WellFormed smallFromSlice := by
  intro row hrow
  simp only [smallJobDb, List.mem_cons, List.not_mem_nil, or_false] at hrow
  rcases hrow with rfl | rfl | rfl
  · exact ⟨.pending smallQueue 0 0 "y", rfl, fun _ =>
      ⟨JobRecord.newPending "y" smallQueue [] 1 0 0, by decide +kernel,
        .pending smallQueue ⟨0, 0, "y"⟩, rfl, ⟨by decide, by decide⟩, rfl⟩⟩
  · exact ⟨.dead smallQueue "x", rfl, fun _ =>
      ⟨{ JobRecord.newPending "x" smallQueue [] 1 0 0 with status := .dead }, by decide +kernel,
        .dead smallQueue "x", rfl, trivial, rfl⟩⟩
  · exact ⟨.dead smallQueue "y", rfl, fun _ =>
      ⟨{ JobRecord.newPending "y" smallQueue [] 1 0 0 with status := .dead }, by decide +kernel,
        .dead smallQueue "y", rfl, trivial, rfl⟩⟩

theorem job_listings_exact_small :
    jobs smallFromSlice (fun _ => smallJobDb) smallQueue .dead 1 2 =
      some [([{ JobRecord.newPending "x" smallQueue [] 1 0 0 with status := .dead }],
          some (deadKey smallQueue "x")),
        ([{ JobRecord.newPending "y" smallQueue [] 1 0 0 with status := .dead }], none)] ∧
    ∃ fuel all, deadPages smallFromSlice smallJobDb smallQueue 1 fuel = some all ∧
      (Paging.rowsOf all).Pairwise JobRecord.Before := by
  refine ⟨by decide +kernel, ?_⟩
  obtain ⟨⟨listing, -, hbefore, -, -, hdead⟩, -⟩ := job_listings_exact wellFormed_smallJobDb
    (fun (_ : ℕ) => wellFormed_smallJobDb) smallQueue .dead (le_refl 1)
  obtain ⟨fuel, all, hall, hrows⟩ := hdead rfl
  exact ⟨fuel, all, hall, hrows ▸ hbefore⟩

end Small

end Taquba
