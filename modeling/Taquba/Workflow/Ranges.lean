import Taquba.Expiry.Index
import Taquba.Workflow.Handles

/-! # The keys of a workflow runtime and the ranges it scans

The keys of the runtime are families of text segments within `workflow/`, separated by
slashes. A run id, a submission id and a queue name contain no slash, so the keys of one
run, owner or group are the ones with its segments in front. A scan covers them as the
range from that front to the front with `0`, the byte after `/`, in its place.
-/

namespace Taquba.Workflow

open Bytes

inductive Family where
  | runs
  | steps
  | terminals
  | runKv
  | groups
  | owned
  | ownerQueues
  | groupTerminals
  deriving DecidableEq, Repr

def Family.kvPrefix : Family → List UInt8
  | .runs => utf8 "workflow/runs/"
  | .steps => utf8 "workflow/steps/"
  | .terminals => utf8 "workflow/terminals/"
  | .runKv => utf8 "workflow/run-kv/"
  | .groups => utf8 "workflow/groups/"
  | .owned => utf8 "workflow/owned/"
  | .ownerQueues => utf8 "workflow/owner-queues/"
  | .groupTerminals => utf8 "workflow/group-terminals/"

def prefixed (front : List UInt8) (suffix : String) : List UInt8 := front ++ utf8 suffix

def runKvKey (runId : RunId) : List UInt8 := prefixed Family.runs.kvPrefix runId.id

def stepKvKey (runId : RunId) : List UInt8 := prefixed Family.steps.kvPrefix runId.id

def terminalKvKey (atMs : UInt64) (runId : RunId) : List UInt8 :=
  ExpiryIndex.entryKey ⟨Family.terminals.kvPrefix⟩ atMs.toNat (utf8 runId.id)

def groupTerminalKvKey (atMs : UInt64) (groupId : RunId) : List UInt8 :=
  ExpiryIndex.entryKey ⟨Family.groupTerminals.kvPrefix⟩ atMs.toNat (utf8 groupId.id)

def runKvEntriesPrefix (runId : RunId) : List UInt8 :=
  prefixed Family.runKv.kvPrefix (runId.id ++ "/")

def runKvEntriesRange (runId : RunId) : KvRange :=
  ⟨.included (runKvEntriesPrefix runId),
    .excluded (prefixed Family.runKv.kvPrefix (runId.id ++ "0"))⟩

def runKvEntryKey (runId : RunId) (key : List UInt8) : List UInt8 :=
  runKvEntriesPrefix runId ++ key

section Owners

variable (ulids : UlidText) (owner : OwnerId) (queue : QueueName)

def ownedRunKvKey (runId : RunId) : List UInt8 :=
  prefixed Family.owned.kvPrefix (owner.headerValue ulids ++ "/" ++ queue.name ++ "/" ++ runId.id)

def ownedRunsRange : KvRange :=
  ⟨.included (prefixed Family.owned.kvPrefix (owner.headerValue ulids ++ "/" ++ queue.name ++ "/")),
    .excluded (prefixed Family.owned.kvPrefix
      (owner.headerValue ulids ++ "/" ++ queue.name ++ "0"))⟩

def ownerQueuesKvKey : List UInt8 :=
  prefixed Family.ownerQueues.kvPrefix (owner.runId.id ++ "/" ++ ulids.text owner.submissionId)

end Owners

def ownerQueuesRange (runId : RunId) : KvRange :=
  ⟨.included (prefixed Family.ownerQueues.kvPrefix (runId.id ++ "/")),
    .excluded (prefixed Family.ownerQueues.kvPrefix (runId.id ++ "0"))⟩

def groupMembersKvPrefix (groupId : RunId) : List UInt8 :=
  prefixed Family.groups.kvPrefix (groupId.id ++ "/")

def groupMemberKvKey (groupId : RunId) (key : String) : List UInt8 :=
  prefixed (groupMembersKvPrefix groupId) key

def groupOfCountName (name : String) : Option RunId :=
  (name.toList.dropPrefix? "workflow/groups/".toList).bind fun rest =>
    (RunId.new (String.ofList rest)).toOption

/-- The run id in an index key of owned runs: the segment after its last slash. -/
def ownedRunOf (key : List UInt8) : Option RunId :=
  (ofUtf8 (key.rtakeWhile (· ≠ 47))).bind fun id => (RunId.new id).toOption

inductive RuntimeKey where
  | run (runId : RunId)
  | step (runId : RunId)
  | terminal (atMs : UInt64) (runId : RunId)
  | runEntry (runId : RunId) (key : List UInt8)
  | member (groupId : RunId) (key : String)
  | owned (owner : OwnerId) (queue : QueueName) (runId : RunId)
  | ownerQueues (owner : OwnerId)
  | groupTerminal (atMs : UInt64) (groupId : RunId)
  deriving DecidableEq

namespace RuntimeKey

def family : RuntimeKey → Family
  | .run _ => .runs
  | .step _ => .steps
  | .terminal _ _ => .terminals
  | .runEntry _ _ => .runKv
  | .member _ _ => .groups
  | .owned _ _ _ => .owned
  | .ownerQueues _ => .ownerQueues
  | .groupTerminal _ _ => .groupTerminals

def encode (ulids : UlidText) : RuntimeKey → List UInt8
  | .run runId => runKvKey runId
  | .step runId => stepKvKey runId
  | .terminal atMs runId => terminalKvKey atMs runId
  | .runEntry runId key => runKvEntryKey runId key
  | .member groupId key => groupMemberKvKey groupId key
  | .owned owner queue runId => ownedRunKvKey ulids owner queue runId
  | .ownerQueues owner => ownerQueuesKvKey ulids owner
  | .groupTerminal atMs groupId => groupTerminalKvKey atMs groupId

end RuntimeKey

section Segments

variable {ulids : UlidText} {runId runId' : RunId} {queue queue' : QueueName}
  {owner owner' : OwnerId}

theorem slash_eq : utf8 "/" = [47] := by decide +kernel

theorem zero_eq : utf8 "0" = [48] := by decide +kernel

theorem colon_eq : utf8 ":" = [58] := by decide +kernel

theorem RunId.not_mem_of_not_characters (runId : RunId) {c : Char} (hc : c.toNat ≤ 127)
    (h : (Form.id maxRunIdLen).characters c = false) : UInt8.ofNat c.toNat ∉ utf8 runId.id := by
  refine not_mem_utf8 hc fun hmem => ?_
  simp [Form.characters_of_check runId.valid c hmem] at h

theorem RunId.slash_not_mem (runId : RunId) : 47 ∉ utf8 runId.id :=
  runId.not_mem_of_not_characters (c := '/') (by decide) (by decide)

theorem RunId.colon_not_mem_utf8 (runId : RunId) : 58 ∉ utf8 runId.id :=
  runId.not_mem_of_not_characters (c := ':') (by decide) (by decide)

theorem slash_not_mem_queue (queue : QueueName) : 47 ∉ utf8 queue.name := by
  refine not_mem_utf8 (d := '/') (by decide) fun hmem => ?_
  have hc := Form.characters_of_check queue.valid '/' hmem
  revert hc
  decide

theorem utf8_headerValue (ulids : UlidText) (owner : OwnerId) :
    utf8 (owner.headerValue ulids) =
      utf8 owner.runId.id ++ 58 :: utf8 (ulids.text owner.submissionId) := by
  rw [OwnerId.headerValue, OwnerRef.headerValue, utf8_append, utf8_append, colon_eq]
  simp [OwnerId.ref]

theorem slash_not_mem_headerValue (hu : ulids.Lawful) (owner : OwnerId) :
    47 ∉ utf8 (owner.headerValue ulids) := by
  have htext : 47 ∉ utf8 (ulids.text owner.submissionId) :=
    not_mem_utf8 (d := '/') (by decide) (hu.not_mem_text _ (by decide))
  rw [utf8_headerValue]
  simp [RunId.slash_not_mem, htext]

theorem utf8_id_inj : utf8 runId.id = utf8 runId'.id ↔ runId = runId' :=
  utf8_inj.trans ⟨RunId.ext, congrArg RunId.id⟩

theorem utf8_name_inj : utf8 queue.name = utf8 queue'.name ↔ queue = queue' :=
  utf8_inj.trans ⟨QueueName.ext, congrArg QueueName.name⟩

theorem utf8_headerValue_inj (hu : ulids.Lawful) :
    utf8 (owner.headerValue ulids) = utf8 (owner'.headerValue ulids) ↔ owner = owner' := by
  refine ⟨fun h => ?_, fun h => h ▸ rfl⟩
  rw [utf8_headerValue, utf8_headerValue] at h
  obtain ⟨hrun, hid⟩ := append_cons_inj_of_notMem (RunId.colon_not_mem_utf8 _)
    (RunId.colon_not_mem_utf8 _) h
  obtain ⟨runId, submissionId⟩ := owner
  cases utf8_id_inj.mp hrun
  cases hu.text_injective (utf8_inj.mp hid)
  rfl

end Segments

section Families

/-- No prefix of a family starts with that of another. -/
theorem Family.eq_of_prefix {f g : Family} (h : f.kvPrefix <+: g.kvPrefix) : f = g := by
  cases f <;> cases g <;> first | rfl | exact absurd h (by decide +kernel)

theorem Family.append_inj {f g : Family} {x y : List UInt8}
    (h : f.kvPrefix ++ x = g.kvPrefix ++ y) : f = g ∧ x = y := by
  have hf : f.kvPrefix <+: g.kvPrefix ++ y := ⟨x, h⟩
  obtain rfl : f = g := by
    rcases List.prefix_or_prefix_of_prefix hf (List.prefix_append _ y) with hp | hp
    · exact Family.eq_of_prefix hp
    · exact (Family.eq_of_prefix hp).symm
  exact ⟨rfl, List.append_cancel_left h⟩

theorem Family.reserved (f : Family) : reservedKvPrefix <+: f.kvPrefix := by
  cases f <;> decide +kernel

namespace RuntimeKey

variable {ulids : UlidText}

/-- The segments of a key after the prefix of its family. -/
def rest (ulids : UlidText) : RuntimeKey → List UInt8
  | .run runId => utf8 runId.id
  | .step runId => utf8 runId.id
  | .terminal atMs runId => u64be atMs ++ utf8 runId.id
  | .runEntry runId key => utf8 runId.id ++ 47 :: key
  | .member groupId key => utf8 groupId.id ++ 47 :: utf8 key
  | .owned owner queue runId =>
    utf8 (owner.headerValue ulids) ++ 47 :: (utf8 queue.name ++ 47 :: utf8 runId.id)
  | .ownerQueues owner => utf8 owner.runId.id ++ 47 :: utf8 (ulids.text owner.submissionId)
  | .groupTerminal atMs groupId => u64be atMs ++ utf8 groupId.id

theorem encode_eq (key : RuntimeKey) :
    key.encode ulids = key.family.kvPrefix ++ key.rest ulids := by
  cases key <;>
    simp [encode, family, rest, runKvKey, stepKvKey, terminalKvKey, groupTerminalKvKey,
      ExpiryIndex.entryKey_eq, u64be, runKvEntryKey, runKvEntriesPrefix, ownedRunKvKey,
      ownerQueuesKvKey, groupMemberKvKey, groupMembersKvPrefix, prefixed, slash_eq]

/-- Different keys of the runtime have different encodings. -/
theorem encode_inj (hu : ulids.Lawful) : Function.Injective (encode ulids) := by
  intro key key' h
  rw [encode_eq, encode_eq] at h
  obtain ⟨hfamily, hrest⟩ := Family.append_inj h
  cases key <;> cases key' <;> cases hfamily
  case run.run | step.step => rw [utf8_id_inj.mp hrest]
  case terminal.terminal | groupTerminal.groupTerminal =>
    obtain ⟨rfl, hid⟩ := u64be_append_inj hrest
    rw [utf8_id_inj.mp hid]
  case runEntry.runEntry =>
    obtain ⟨hid, rfl⟩ := append_cons_inj_of_notMem (RunId.slash_not_mem _) (RunId.slash_not_mem _)
      hrest
    rw [utf8_id_inj.mp hid]
  case member.member =>
    obtain ⟨hid, hkey⟩ := append_cons_inj_of_notMem (RunId.slash_not_mem _)
      (RunId.slash_not_mem _) hrest
    rw [utf8_id_inj.mp hid, utf8_inj.mp hkey]
  case owned.owned =>
    obtain ⟨howner, hrest⟩ := append_cons_inj_of_notMem (slash_not_mem_headerValue hu _)
      (slash_not_mem_headerValue hu _) hrest
    obtain ⟨hqueue, hid⟩ := append_cons_inj_of_notMem (slash_not_mem_queue _)
      (slash_not_mem_queue _) hrest
    rw [(utf8_headerValue_inj hu).mp howner, utf8_name_inj.mp hqueue, utf8_id_inj.mp hid]
  case ownerQueues.ownerQueues owner owner' =>
    obtain ⟨hid, hsub⟩ := append_cons_inj_of_notMem (RunId.slash_not_mem _)
      (RunId.slash_not_mem _) hrest
    obtain ⟨runId, submissionId⟩ := owner
    cases utf8_id_inj.mp hid
    cases hu.text_injective (utf8_inj.mp hsub)
    rfl

/-- A caller may write no key of the runtime. -/
theorem checkKvKey_encode (key : RuntimeKey) :
    checkKvKey (key.encode ulids) = .error (.reservedKvKey (key.encode ulids)) := by
  have hpre : reservedKvPrefix <+: key.encode ulids := by
    rw [encode_eq]
    exact (Family.reserved _).trans (List.prefix_append _ _)
  rw [checkKvKey, if_pos (List.isPrefixOf_iff_prefix.mpr hpre)]

/-- A key lies in the range from a front that ends with a slash to the front with the next
byte exactly when it starts with the front. -/
theorem contains_slash_range_iff {front key : List UInt8} :
    KvRange.Contains ⟨.included (front ++ [47]), .excluded (front ++ [48])⟩ key ↔
      front ++ [47] <+: key := by
  have hcov : (47 : UInt8) ⋖ 48 := by
    refine ⟨by decide, fun c hlt hgt => ?_⟩
    rw [UInt8.lt_iff_toNat_lt] at hlt hgt
    exact absurd hgt (by simp at hlt ⊢; omega)
  exact (prefix_iff_mem_range hcov).symm

theorem family_eq_of_prefix {f : Family} {x : List UInt8} {key : RuntimeKey}
    (h : f.kvPrefix ++ x <+: key.encode ulids) : key.family = f ∧ x <+: key.rest ulids := by
  obtain ⟨y, hy⟩ := h
  rw [encode_eq, List.append_assoc] at hy
  obtain ⟨rfl, hrest⟩ := Family.append_inj hy
  exact ⟨rfl, y, hrest⟩

end RuntimeKey

end Families

section Ranges

variable {ulids : UlidText} {runId groupId : RunId} {queue : QueueName} {owner : OwnerId}
  {key : RuntimeKey}

theorem prefixed_slash (front : List UInt8) (text : String) :
    prefixed front (text ++ "/") = front ++ utf8 text ++ [47] := by
  simp [prefixed, slash_eq]

theorem prefixed_zero (front : List UInt8) (text : String) :
    prefixed front (text ++ "0") = front ++ utf8 text ++ [48] := by
  simp [prefixed, zero_eq]

theorem contains_prefixed_iff {front bytes : List UInt8} {text : String} :
    KvRange.Contains ⟨.included (prefixed front (text ++ "/")),
      .excluded (prefixed front (text ++ "0"))⟩ bytes ↔
        front ++ (utf8 text ++ [47]) <+: bytes := by
  rw [prefixed_slash, prefixed_zero, RuntimeKey.contains_slash_range_iff, List.append_assoc]

theorem contains_runKvEntriesRange_iff {bytes : List UInt8} :
    (runKvEntriesRange runId).Contains bytes ↔ ∃ k, bytes = runKvEntryKey runId k := by
  rw [runKvEntriesRange, runKvEntriesPrefix, contains_prefixed_iff]
  simp only [runKvEntryKey, runKvEntriesPrefix, prefixed_slash, List.append_assoc]
  exact ⟨fun ⟨k, hk⟩ => ⟨k, hk.symm.trans (by simp)⟩, fun ⟨k, hk⟩ => ⟨k, by simp [hk]⟩⟩

theorem contains_runKvEntriesRange_encode_iff (hu : ulids.Lawful) :
    (runKvEntriesRange runId).Contains (key.encode ulids) ↔ ∃ k, key = .runEntry runId k := by
  rw [contains_runKvEntriesRange_iff]
  exact exists_congr fun k => (RuntimeKey.encode_inj hu).eq_iff (b := .runEntry runId k)

theorem contains_ownedRunsRange_iff (hu : ulids.Lawful) :
    (ownedRunsRange ulids owner queue).Contains (key.encode ulids) ↔
      ∃ runId, key = .owned owner queue runId := by
  have htext : utf8 (owner.headerValue ulids ++ "/" ++ queue.name) ++ [47] =
      utf8 (owner.headerValue ulids) ++ 47 :: (utf8 queue.name ++ [47]) := by
    simp [slash_eq]
  rw [ownedRunsRange, contains_prefixed_iff, htext]
  constructor
  · intro h
    obtain ⟨hfamily, hrest⟩ := RuntimeKey.family_eq_of_prefix h
    cases key <;> cases hfamily
    rename_i owner' queue' runId
    obtain ⟨howner, hrest⟩ := (append_cons_prefix_iff (slash_not_mem_headerValue hu _)
      (slash_not_mem_headerValue hu _)).mp hrest
    obtain ⟨hqueue, -⟩ := (append_cons_prefix_iff (slash_not_mem_queue _)
      (slash_not_mem_queue _)).mp hrest
    rw [(utf8_headerValue_inj hu).mp howner, utf8_name_inj.mp hqueue]
    exact ⟨runId, rfl⟩
  · rintro ⟨runId, rfl⟩
    rw [RuntimeKey.encode_eq]
    exact ⟨utf8 runId.id, by simp [RuntimeKey.family, RuntimeKey.rest]⟩

theorem contains_ownerQueuesRange_iff :
    (ownerQueuesRange runId).Contains (key.encode ulids) ↔
      ∃ submissionId, key = .ownerQueues ⟨runId, submissionId⟩ := by
  rw [ownerQueuesRange, contains_prefixed_iff]
  constructor
  · intro h
    obtain ⟨hfamily, hrest⟩ := RuntimeKey.family_eq_of_prefix h
    cases key <;> cases hfamily
    rename_i owner
    obtain ⟨hid, -⟩ := (append_cons_prefix_iff (RunId.slash_not_mem _)
      (RunId.slash_not_mem _)).mp hrest
    rw [utf8_id_inj.mp hid]
    exact ⟨owner.submissionId, rfl⟩
  · rintro ⟨submissionId, rfl⟩
    rw [RuntimeKey.encode_eq]
    exact ⟨utf8 (ulids.text submissionId), by simp [RuntimeKey.family, RuntimeKey.rest]⟩

theorem groupMembersKvPrefix_prefix_iff :
    groupMembersKvPrefix groupId <+: key.encode ulids ↔ ∃ k, key = .member groupId k := by
  rw [groupMembersKvPrefix, prefixed_slash, List.append_assoc]
  constructor
  · intro h
    obtain ⟨hfamily, hrest⟩ := RuntimeKey.family_eq_of_prefix h
    cases key <;> cases hfamily
    rename_i groupId' k
    obtain ⟨hid, -⟩ := (append_cons_prefix_iff (RunId.slash_not_mem _)
      (RunId.slash_not_mem _)).mp hrest
    rw [utf8_id_inj.mp hid]
    exact ⟨k, rfl⟩
  · rintro ⟨k, rfl⟩
    rw [RuntimeKey.encode_eq]
    exact ⟨utf8 k, by simp [RuntimeKey.family, RuntimeKey.rest]⟩

theorem RunId.toOption_new (runId : RunId) : (RunId.new runId.id).toOption = some runId := by
  rw [RunId.new_id]
  rfl

theorem ownedRunOf_ownedRunKvKey (ulids : UlidText) (owner : OwnerId) (queue : QueueName)
    (runId : RunId) :
    ownedRunOf (ownedRunKvKey ulids owner queue runId) = some runId := by
  have hkey : ownedRunKvKey ulids owner queue runId =
      (Family.owned.kvPrefix ++ utf8 (owner.headerValue ulids ++ "/" ++ queue.name)) ++
        47 :: utf8 runId.id := by
    simp [ownedRunKvKey, prefixed, slash_eq]
  have hlast : (ownedRunKvKey ulids owner queue runId).rtakeWhile (· ≠ 47) = utf8 runId.id := by
    have hid : ∀ b ∈ (utf8 runId.id).reverse, (b ≠ 47 : Bool) = true := by
      intro b hb
      have hne : b ≠ 47 := fun h => RunId.slash_not_mem runId (h ▸ List.mem_reverse.mp hb)
      simpa using hne
    rw [hkey, List.rtakeWhile, List.reverse_append, List.reverse_cons, List.append_assoc,
      List.takeWhile_append_of_pos hid]
    simp
  rw [ownedRunOf, hlast, ofUtf8_utf8, Option.bind_some, RunId.toOption_new]

theorem fromHeader_headerValue (hu : ulids.Lawful) (owner : OwnerId) :
    OwnerId.fromHeader ulids (owner.headerValue ulids) = .ok owner := by
  have hchars : (owner.headerValue ulids).toList =
      owner.runId.id.toList ++ ':' :: (ulids.text owner.submissionId).toList := by
    have hcolon : (":" : String).toList = [':'] := by decide
    simp [OwnerId.headerValue, OwnerRef.headerValue, OwnerId.ref, String.toList_append, hcolon]
  have hdrop : (owner.headerValue ulids).toList.dropWhile (· ≠ ':') =
      ':' :: (ulids.text owner.submissionId).toList := by
    have hid : ∀ c ∈ owner.runId.id.toList, (c ≠ ':' : Bool) = true := by
      intro c hc
      have hne : c ≠ ':' := fun h => owner.runId.colon_not_mem (h ▸ hc)
      simpa using hne
    rw [hchars, List.dropWhile_append_of_pos hid]
    simp
  rw [OwnerId.fromHeader, hdrop]
  simp only [hchars]
  rw [takeWhile_colon _ owner.runId.colon_not_mem]
  simp [RunId.new_id, hu.parse_text]

theorem groupOfCountName_eq_some_iff {name : String} :
    groupOfCountName name = some groupId ↔ name = groupCountName groupId := by
  rw [groupOfCountName, Option.bind_eq_some_iff]
  constructor
  · rintro ⟨rest, hdrop, hnew⟩
    obtain ⟨front, hname, hfront⟩ := List.dropPrefix?_eq_some_iff.mp hdrop
    rw [eq_of_beq hfront] at hname
    have hid : groupId.id.toList = rest := by
      cases hr : RunId.new (String.ofList rest) with
      | error e => simp [hr, Except.toOption] at hnew
      | ok runId =>
        cases (congrArg Except.toOption hr).symm.trans hnew
        rw [RunId.new_eq_ok hr, String.toList_ofList]
    apply String.toList_injective
    rw [groupCountName, String.toList_append, hname, hid]
  · rintro rfl
    refine ⟨groupId.id.toList, ?_, ?_⟩
    · rw [groupCountName, String.toList_append]
      exact List.dropPrefix?_append_of_beq _ (beq_self_eq_true _)
    · rw [String.ofList_toList, RunId.toOption_new]

/-- The ranges of the runtime hold exactly the keys of their run, owner or group, and what is
cut from a key, a header or a count name is what it was built from. -/
theorem workflow_ranges_exact (ulids : UlidText) (hu : ulids.Lawful) :
    Function.Injective (RuntimeKey.encode ulids) ∧
    (∀ key : RuntimeKey,
      checkKvKey (key.encode ulids) = .error (.reservedKvKey (key.encode ulids))) ∧
    (∀ (runId : RunId) (bytes : List UInt8),
      (runKvEntriesRange runId).Contains bytes ↔ ∃ k, bytes = runKvEntryKey runId k) ∧
    (∀ (runId : RunId) (key : RuntimeKey),
      (runKvEntriesRange runId).Contains (key.encode ulids) ↔ ∃ k, key = .runEntry runId k) ∧
    (∀ (owner : OwnerId) (queue : QueueName) (key : RuntimeKey),
      (ownedRunsRange ulids owner queue).Contains (key.encode ulids) ↔
        ∃ runId, key = .owned owner queue runId) ∧
    (∀ (runId : RunId) (key : RuntimeKey),
      (ownerQueuesRange runId).Contains (key.encode ulids) ↔
        ∃ submissionId, key = .ownerQueues ⟨runId, submissionId⟩) ∧
    (∀ (groupId : RunId) (key : RuntimeKey),
      groupMembersKvPrefix groupId <+: key.encode ulids ↔ ∃ k, key = .member groupId k) ∧
    (∀ (owner : OwnerId) (queue : QueueName) (runId : RunId),
      ownedRunOf (ownedRunKvKey ulids owner queue runId) = some runId) ∧
    (∀ owner : OwnerId, OwnerId.fromHeader ulids (owner.headerValue ulids) = .ok owner) ∧
    ∀ (name : String) (groupId : RunId),
      groupOfCountName name = some groupId ↔ name = groupCountName groupId :=
  ⟨RuntimeKey.encode_inj hu, RuntimeKey.checkKvKey_encode,
    fun _ _ => contains_runKvEntriesRange_iff,
    fun _ _ => contains_runKvEntriesRange_encode_iff hu,
    fun _ _ _ => contains_ownedRunsRange_iff hu,
    fun _ _ => contains_ownerQueuesRange_iff, fun _ _ => groupMembersKvPrefix_prefix_iff,
    ownedRunOf_ownedRunKvKey ulids, fromHeader_headerValue hu,
    fun _ _ => groupOfCountName_eq_some_iff⟩

def weekly : OwnerId := ⟨⟨"weekly", by decide +kernel⟩, ⟨34⟩⟩

theorem workflow_ranges_exact_weekly :
    weekly.headerValue Ulid.base32 = "weekly:00000000000000000000000012" ∧
      OwnerId.fromHeader Ulid.base32 (weekly.headerValue Ulid.base32) = .ok weekly := by
  obtain ⟨-, -, -, -, -, -, -, -, hheader, -⟩ :=
    workflow_ranges_exact Ulid.base32 Ulid.lawful_base32
  exact ⟨by decide +kernel, hheader weekly⟩

end Ranges

end Taquba.Workflow
