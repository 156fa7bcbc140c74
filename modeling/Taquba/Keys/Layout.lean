import Taquba.Keys.Encoding

/-! # Keys are unambiguous and scan in the order of their fields

No two keys of the store coincide, no key lies under the scan prefix of another key space,
and the prefix of a queue selects the keys of that queue, also when the name of one queue
starts with the name of another. The byte order of the keys is the order of their fields,
and the parsers read back what the builders wrote.
-/

namespace Taquba

open Bytes

variable {tag : KeyTag} {rest : List UInt8}

section Fields

variable {q q' : QueueName} {x y : List UInt8}

theorem QueueName.size_lt (queue : QueueName) : queue.name.utf8ByteSize < 256 := by
  have h := (Form.size_of_check queue.valid).1
  simp only [queueNameForm, maxQueueNameLen] at h
  omega

theorem QueueName.size_toNat (queue : QueueName) :
    (UInt8.ofNat queue.name.utf8ByteSize).toNat = queue.name.utf8ByteSize := by
  have h := queue.size_lt
  simp only [UInt8.toNat_ofNat']
  omega

theorem pushQueue_append_inj (h : pushQueue q ++ x = pushQueue q' ++ y) : q = q' ∧ x = y := by
  simp only [pushQueue, List.cons_append, List.cons.injEq] at h
  obtain ⟨hlen, hrest⟩ := h
  have hsize : q.name.utf8ByteSize = q'.name.utf8ByteSize := by
    rw [← q.size_toNat, ← q'.size_toNat, hlen]
  obtain ⟨hname, htail⟩ := List.append_inj hrest (by simpa using hsize)
  exact ⟨QueueName.ext (utf8_inj.mp hname), htail⟩

theorem pushQueue_prefix_iff : pushQueue q <+: pushQueue q' ++ x ↔ q = q' := by
  constructor
  · rintro ⟨rest, h⟩
    exact (pushQueue_append_inj h).1
  · rintro rfl
    exact List.prefix_append _ _

@[simp] theorem length_u32be (n : UInt32) : (u32be n).length = 4 := length_bigEndian _ _

@[simp] theorem length_u64be (n : UInt64) : (u64be n).length = 8 := length_bigEndian _ _

theorem u32be_inj {m n : UInt32} : u32be m = u32be n ↔ m = n := by
  rw [u32be, u32be, bigEndian_inj m.toNat_lt n.toNat_lt, UInt32.toNat_inj]

theorem u64be_inj {m n : UInt64} : u64be m = u64be n ↔ m = n := by
  rw [u64be, u64be, bigEndian_inj m.toNat_lt n.toNat_lt, UInt64.toNat_inj]

theorem u32be_lt_iff {m n : UInt32} : u32be m < u32be n ↔ m < n := by
  rw [u32be, u32be, bigEndian_lt_iff m.toNat_lt n.toNat_lt, UInt32.lt_iff_toNat_lt]

theorem u64be_lt_iff {m n : UInt64} : u64be m < u64be n ↔ m < n := by
  rw [u64be, u64be, bigEndian_lt_iff m.toNat_lt n.toNat_lt, UInt64.lt_iff_toNat_lt]

theorem u32be_append_inj {m n : UInt32} (h : u32be m ++ x = u32be n ++ y) : m = n ∧ x = y := by
  obtain ⟨hn, htail⟩ := List.append_inj h (by simp)
  exact ⟨u32be_inj.mp hn, htail⟩

theorem u64be_append_inj {m n : UInt64} (h : u64be m ++ x = u64be n ++ y) : m = n ∧ x = y := by
  obtain ⟨hn, htail⟩ := List.append_inj h (by simp)
  exact ⟨u64be_inj.mp hn, htail⟩

theorem header_append_inj {a b : KeyTag} (h : header a ++ x = header b ++ y) : a = b ∧ x = y := by
  simp only [header, List.cons_append, List.nil_append, List.cons.injEq] at h
  exact ⟨KeyTag.id_injective h.1, h.2.2⟩

end Fields

namespace DbKey

theorem encode_eq_cons (key : DbKey) : ∃ rest, key.encode = key.tag.id :: rest := by
  cases key <;> exact ⟨_, rfl⟩

theorem of_encode (key : DbKey) : KeyTag.of key.encode = some key.tag := by
  obtain ⟨rest, h⟩ := key.encode_eq_cons
  rw [h, KeyTag.of_id_cons]

theorem tag_of_prefix_encode {key : DbKey} (h : tag.id :: rest <+: key.encode) : key.tag = tag := by
  obtain ⟨rest', hkey⟩ := key.encode_eq_cons
  rw [hkey, List.cons_prefix_cons] at h
  exact KeyTag.id_injective h.1.symm

/-- No two keys of the store are written alike. -/
theorem encode_injective : Function.Injective encode := by
  intro key key' h
  have ht : key.tag = key'.tag := by
    have hof := congrArg KeyTag.of h
    rw [of_encode, of_encode] at hof
    exact Option.some.inj hof
  cases key <;> cases key' <;> simp only [tag, reduceCtorEq] at ht
  case pending.pending =>
    obtain ⟨rfl, hq⟩ := pushQueue_append_inj (header_append_inj h).2
    obtain ⟨rfl, hp⟩ := u32be_append_inj hq
    obtain ⟨rfl, hid⟩ := u64be_append_inj hp
    rw [utf8_inj.mp hid]
  case claimed.claimed | dead.dead | dedup.dedup | stats.stats | inboxRecord.inboxRecord |
      inboxFailure.inboxFailure =>
    obtain ⟨rfl, hid⟩ := pushQueue_append_inj (header_append_inj h).2
    rw [utf8_inj.mp hid]
  case scheduled.scheduled | done.done | inboxExpiry.inboxExpiry =>
    obtain ⟨rfl, hq⟩ := u64be_append_inj (header_append_inj h).2
    obtain ⟨rfl, hid⟩ := pushQueue_append_inj hq
    rw [utf8_inj.mp hid]
  case jobIndex.jobIndex | attemptHistory.attemptHistory | count.count =>
    rw [utf8_inj.mp (header_append_inj h).2]
  case cursor.cursor =>
    rw [QueueName.ext (utf8_inj.mp (header_append_inj h).2)]
  case user.user =>
    obtain ⟨-, rfl⟩ := List.cons.inj h
    rfl
  case heartbeat.heartbeat => rfl

variable {key : DbKey} {queue : QueueName}

theorem queuePrefix_prefix_iff {ι : Type} (make : QueueName → ι → DbKey)
    (htag : key.tag = tag → ∃ queue i, key = make queue i)
    (hencode : ∀ queue i, ∃ rest, (make queue i).encode = header tag ++ (pushQueue queue ++ rest)) :
    header tag ++ pushQueue queue <+: key.encode ↔ ∃ i, key = make queue i := by
  have hiff : ∀ queue' i, header tag ++ pushQueue queue <+: (make queue' i).encode ↔
      queue = queue' := by
    intro queue' i
    obtain ⟨rest, he⟩ := hencode queue' i
    rw [he, List.prefix_append_right_inj, pushQueue_prefix_iff]
  constructor
  · intro h
    obtain ⟨queue', i, rfl⟩ := htag (tag_of_prefix_encode h)
    exact ⟨i, by rw [(hiff queue' i).mp h]⟩
  · rintro ⟨i, rfl⟩
    exact (hiff queue i).mpr rfl

theorem pendingPrefix_prefix_iff :
    pendingPrefix queue <+: key.encode ↔ ∃ priority enqueuedAt id,
      key = .pending queue priority enqueuedAt id :=
  (queuePrefix_prefix_iff
    (fun queue (i : UInt32 × UInt64 × String) => .pending queue i.1 i.2.1 i.2.2)
    (fun h => by cases key <;> simp_all [tag]) fun _ _ => ⟨_, rfl⟩).trans (by simp)

theorem claimedPrefix_prefix_iff :
    claimedPrefix queue <+: key.encode ↔ ∃ id, key = .claimed queue id :=
  queuePrefix_prefix_iff .claimed (fun h => by cases key <;> simp_all [tag]) fun _ _ => ⟨_, rfl⟩

theorem deadPrefix_prefix_iff :
    deadPrefix queue <+: key.encode ↔ ∃ id, key = .dead queue id :=
  queuePrefix_prefix_iff .dead (fun h => by cases key <;> simp_all [tag]) fun _ _ => ⟨_, rfl⟩

/-- The scan prefixes of a key space: of the whole space, of one queue in it, and of the
callers' keys with a given front. -/
inductive IsScanPrefix : KeyTag → List UInt8 → Prop
  | space (tag : KeyTag) : IsScanPrefix tag (tagPrefix tag)
  | pending (queue : QueueName) : IsScanPrefix .pending (pendingPrefix queue)
  | claimed (queue : QueueName) : IsScanPrefix .claimed (claimedPrefix queue)
  | dead (queue : QueueName) : IsScanPrefix .dead (deadPrefix queue)
  | user (front : List UInt8) : IsScanPrefix .user (userScopedKey front)

theorem tag_eq_of_isScanPrefix {front : List UInt8} (hp : IsScanPrefix tag front)
    (h : front <+: key.encode) : key.tag = tag := by
  cases hp with
  | space => exact tag_of_prefix_encode h
  | pending | claimed | dead => exact tag_of_prefix_encode h
  | user => exact tag_of_prefix_encode h

end DbKey

section Order

variable {queue queue' : QueueName}

/-- The keys of a queue's pending jobs are in claim order. -/
theorem pendingKey_lt_iff {priority priority' : UInt32} {enqueuedAt enqueuedAt' : UInt64}
    {id id' : String} :
    pendingKey queue priority enqueuedAt id < pendingKey queue priority' enqueuedAt' id' ↔
      priority < priority' ∨ priority = priority' ∧
        (enqueuedAt < enqueuedAt' ∨ enqueuedAt = enqueuedAt' ∧ id < id') := by
  rw [pendingKey, pendingKey, append_lt_append_left_iff, append_lt_append_left_iff,
    append_lt_append_iff (by simp), append_lt_append_iff (by simp), u32be_lt_iff, u64be_lt_iff,
    u32be_inj, u64be_inj, utf8_lt_iff]

/-- Time-first keys of a space are in the order of their times, and keys of one time in the
order of the fields after it. -/
theorem timeFirstKey_lt_iff (tag : KeyTag) {ts ts' : UInt64} {id id' : String} :
    timeFirstKey tag ts queue id < timeFirstKey tag ts' queue' id' ↔
      ts < ts' ∨ ts = ts' ∧ pushQueue queue ++ utf8 id < pushQueue queue' ++ utf8 id' := by
  rw [timeFirstKey, timeFirstKey, append_lt_append_left_iff, append_lt_append_iff (by simp),
    u64be_lt_iff, u64be_inj]

theorem queueFirstKey_lt_iff (tag : KeyTag) {id id' : String} :
    queueFirstKey tag queue id < queueFirstKey tag queue id' ↔ id < id' := by
  rw [queueFirstKey, queueFirstKey, append_lt_append_left_iff, append_lt_append_left_iff,
    utf8_lt_iff]

/-- A pending key whose numbers fit their fields. -/
def PendingKey.Fits (key : PendingKey) : Prop :=
  key.priority < 2 ^ 32 ∧ key.enqueuedAt < 2 ^ 64

theorem PendingKey.encode_lt_iff {key key' : PendingKey} (h : key.Fits) (h' : key'.Fits) :
    (RecordKey.pending queue key).dbKey.encode < (RecordKey.pending queue key').dbKey.encode ↔
      key < key' := by
  have hp : UInt32.ofNat key.priority < UInt32.ofNat key'.priority ↔
      key.priority < key'.priority := by
    rw [UInt32.lt_iff_toNat_lt, UInt32.toNat_ofNat_of_lt' h.1, UInt32.toNat_ofNat_of_lt' h'.1]
  have hpe : UInt32.ofNat key.priority = UInt32.ofNat key'.priority ↔
      key.priority = key'.priority := by
    rw [← UInt32.toNat_inj, UInt32.toNat_ofNat_of_lt' h.1, UInt32.toNat_ofNat_of_lt' h'.1]
  have ht : UInt64.ofNat key.enqueuedAt < UInt64.ofNat key'.enqueuedAt ↔
      key.enqueuedAt < key'.enqueuedAt := by
    rw [UInt64.lt_iff_toNat_lt, UInt64.toNat_ofNat_of_lt' h.2, UInt64.toNat_ofNat_of_lt' h'.2]
  have hte : UInt64.ofNat key.enqueuedAt = UInt64.ofNat key'.enqueuedAt ↔
      key.enqueuedAt = key'.enqueuedAt := by
    rw [← UInt64.toNat_inj, UInt64.toNat_ofNat_of_lt' h.2, UInt64.toNat_ofNat_of_lt' h'.2]
  have horder : key < key' ↔ key.order < key'.order := Iff.rfl
  rw [horder, PendingKey.order, PendingKey.order, Prod.Lex.toLex_lt_toLex, Prod.Lex.toLex_lt_toLex,
    ← hp, ← hpe, ← ht, ← hte]
  exact pendingKey_lt_iff

end Order

section Parsers

@[simp] theorem stripPrefix_append (front rest : List UInt8) :
    stripPrefix front (front ++ rest) = some rest := by
  simp [stripPrefix]

theorem leadingU64_append (n : UInt64) (rest : List UInt8) :
    leadingU64 (u64be n ++ rest) = some n := by
  have hlen : (u64be n).length = 8 := by simp
  rw [leadingU64, if_pos (by simp), List.take_left' hlen, u64be,
    ofBigEndian_bigEndian n.toNat_lt]
  simp

theorem splitLength_append (queue : QueueName) (rest : List UInt8) :
    splitLength (pushQueue queue ++ rest) = some (utf8 queue.name, rest) := by
  rw [pushQueue, List.cons_append, splitLength, queue.size_toNat, if_pos (by simp),
    List.splitAt_eq, ← length_utf8]
  simp

theorem parseQueueName_utf8 (queue : QueueName) :
    parseQueueName (utf8 queue.name) = some queue := by
  simp [parseQueueName, QueueName.new_of_check queue.valid, Except.toOption]

theorem parseKeyTimestamp_timeFirstKey (tag : KeyTag) (ts : UInt64) (queue : QueueName)
    (id : String) : parseKeyTimestamp (timeFirstKey tag ts queue id) tag = some ts := by
  simp [parseKeyTimestamp, timeFirstKey, leadingU64_append]

theorem parseCursorKey_cursorKey (queue : QueueName) :
    parseCursorKey (cursorKey queue) = some queue := by
  simp [parseCursorKey, cursorKey, parseQueueName_utf8]

theorem parseStatsKey_statsKey (queue : QueueName) (metric : String) :
    parseStatsKey (statsKey queue metric) = some (queue.name, metric) := by
  simp [parseStatsKey, statsKey, splitLength_append]

theorem parseInboxExpiryEntry_inboxExpiryKey (appliedAt : UInt64) (queue : QueueName)
    (id : String) :
    parseInboxExpiryEntry (inboxExpiryKey appliedAt queue id) = some (queue, id) := by
  have hlen : (u64be appliedAt).length = 8 := by simp
  simp [parseInboxExpiryEntry, inboxExpiryKey, timeFirstKey, List.drop_left' hlen,
    splitLength_append, parseQueueName_utf8]

/-- Decoding reads the state of a record from the key it is stored under. -/
theorem decodeStored_dbKey {job stored : JobRecord} {key : RecordKey} {value : List UInt8}
    {fromSlice : List UInt8 → Option JobRecord} (hkey : job.storedKey = some key)
    (hvalue : fromSlice value = some stored) :
    JobRecord.decodeStored fromSlice key.dbKey.encode value =
      some { stored with status := job.status } := by
  rw [← JobRecord.keyStatus_of_storedKey hkey, JobRecord.decodeStored, DbKey.of_encode]
  cases key <;> simp [RecordKey.dbKey, DbKey.tag, KeyTag.jobStatus, RecordKey.keyStatus, hvalue]

end Parsers

/-- The keys of the store are unambiguous, scan in the order of their fields and parse back. -/
theorem keys_exact :
    Function.Injective DbKey.encode ∧
    (∀ (key : DbKey) (tag : KeyTag) (front : List UInt8), DbKey.IsScanPrefix tag front →
      front <+: key.encode → key.tag = tag) ∧
    (∀ (queue : QueueName) (key : DbKey),
      (pendingPrefix queue <+: key.encode ↔ ∃ priority enqueuedAt id,
        key = .pending queue priority enqueuedAt id) ∧
      (claimedPrefix queue <+: key.encode ↔ ∃ id, key = .claimed queue id) ∧
      (deadPrefix queue <+: key.encode ↔ ∃ id, key = .dead queue id)) ∧
    (∀ (queue : QueueName) (priority priority' : UInt32) (enqueuedAt enqueuedAt' : UInt64)
      (id id' : String),
      pendingKey queue priority enqueuedAt id < pendingKey queue priority' enqueuedAt' id' ↔
        priority < priority' ∨ priority = priority' ∧
          (enqueuedAt < enqueuedAt' ∨ enqueuedAt = enqueuedAt' ∧ id < id')) ∧
    (∀ (queue queue' : QueueName) (at' at'' : UInt64) (id id' : String),
      (scheduledKey queue at' id < scheduledKey queue' at'' id' ↔ at' < at'' ∨ at' = at'' ∧
        pushQueue queue ++ utf8 id < pushQueue queue' ++ utf8 id') ∧
      (doneKey at' queue id < doneKey at'' queue' id' ↔ at' < at'' ∨ at' = at'' ∧
        pushQueue queue ++ utf8 id < pushQueue queue' ++ utf8 id') ∧
      (inboxExpiryKey at' queue id < inboxExpiryKey at'' queue' id' ↔ at' < at'' ∨ at' = at'' ∧
        pushQueue queue ++ utf8 id < pushQueue queue' ++ utf8 id')) ∧
    (∀ (queue : QueueName) (at' : UInt64) (id metric : String),
      parseKeyTimestamp (scheduledKey queue at' id) .scheduled = some at' ∧
      parseKeyTimestamp (doneKey at' queue id) .done = some at' ∧
      parseKeyTimestamp (inboxExpiryKey at' queue id) .inboxExpiry = some at' ∧
      parseInboxExpiryEntry (inboxExpiryKey at' queue id) = some (queue, id) ∧
      parseCursorKey (cursorKey queue) = some queue ∧
      parseStatsKey (statsKey queue metric) = some (queue.name, metric)) ∧
    (∀ (fromSlice : List UInt8 → Option JobRecord) (job stored : JobRecord) (key : RecordKey)
      (value : List UInt8), job.storedKey = some key → fromSlice value = some stored →
      JobRecord.decodeStored fromSlice key.dbKey.encode value =
        some { stored with status := job.status }) := by
  refine ⟨DbKey.encode_injective, ?_, ?_, ?_, ?_, ?_, ?_⟩
  · intro key tag front hscan hfront
    exact DbKey.tag_eq_of_isScanPrefix hscan hfront
  · intro queue key
    exact ⟨DbKey.pendingPrefix_prefix_iff, DbKey.claimedPrefix_prefix_iff,
      DbKey.deadPrefix_prefix_iff⟩
  · intro queue priority priority' enqueuedAt enqueuedAt' id id'
    exact pendingKey_lt_iff
  · intro queue queue' at' at'' id id'
    exact ⟨timeFirstKey_lt_iff _, timeFirstKey_lt_iff _, timeFirstKey_lt_iff _⟩
  · intro queue at' id metric
    exact ⟨parseKeyTimestamp_timeFirstKey _ _ _ _, parseKeyTimestamp_timeFirstKey _ _ _ _,
      parseKeyTimestamp_timeFirstKey _ _ _ _, parseInboxExpiryEntry_inboxExpiryKey _ _ _,
      parseCursorKey_cursorKey _, parseStatsKey_statsKey _ _⟩
  · intro fromSlice job stored key value hkey hvalue
    exact decodeStored_dbKey hkey hvalue

end Taquba
