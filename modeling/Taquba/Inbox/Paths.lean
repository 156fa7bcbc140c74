import Taquba.Ids.Ulid
import Taquba.Inbox.Order

/-! # The paths of inbox objects

A sender writes an object at a path of the object store, which drops empty segments and
escapes characters. A listing takes the objects below the path of a queue or of the
version and parses what follows the text of the version prefix, which is not normalised.
-/

namespace Taquba.Inbox.Paths

variable {κ β : Type}

/-- A path of the object store by its escaped segments. -/
abbrev Path := List (List Char)

/-- The codes of the printable characters that a segment escapes. -/
def escaped : List ℕ := [34, 35, 37, 42, 47, 60, 62, 63, 91, 92, 93, 94, 96, 123, 124, 125, 126]

def isReserved (c : Char) : Bool := c.toNat < 32 || 127 ≤ c.toNat || escaped.contains c.toNat

def hexDigit (n : ℕ) : Char := "0123456789ABCDEF".toList.getD n '0'

def percentEncode (c : Char) : List Char :=
  (String.utf8EncodeChar c).flatMap fun b =>
    ['%', hexDigit (b.toNat / 16), hexDigit (b.toNat % 16)]

def encodeSegment (segment : List Char) : List Char :=
  if segment = ['.'] then "%2E".toList
  else if segment = ['.', '.'] then "%2E%2E".toList
  else segment.flatMap fun c => if isReserved c then percentEncode c else [c]

def Path.from (text : List Char) : Path :=
  ((text.splitOn '/').filter (· ≠ [])).map encodeSegment

def Path.asRef (path : Path) : List Char := ['/'].intercalate path

def Path.isBelow (path under : Path) : Bool := under.isPrefixOf path && path.length ≠ under.length

def versionPrefix (inbox : List Char) : List Char := inbox ++ '/' :: "v1".toList

def queuePrefix (inbox queue : List Char) : List Char := versionPrefix inbox ++ '/' :: queue

def entryPath (inbox : List Char) (location : Location) : List Char :=
  versionPrefix inbox ++ '/' :: location.path

def touchPath (inbox : List Char) : List Char := inbox ++ '/' :: "touch".toList

/-- The segments of a path relative to the version prefix. -/
def parseRelative (relative : List Char) : Option Location :=
  match relative.splitOn '/' with
  | [queue, kind, name] =>
    match name.dropWhile (· ≠ '.') with
    | _ :: id => some ⟨String.ofList queue, String.ofList kind,
        some (String.ofList (name.takeWhile (· ≠ '.'))), String.ofList id⟩
    | [] => some ⟨String.ofList queue, String.ofList kind, none, String.ofList name⟩
  | _ => none

section Listing

variable (settings : Settings κ β) (inbox : List Char)

/-- The entry of an object, or none outside the layout. -/
def listEntry (object : Path × List UInt8) : Option (Path × PendingEntry) := do
  let version := versionPrefix inbox ++ ['/']
  let text := object.1.asRef
  if version.isPrefixOf text then
    let location ← parseRelative (text.drop version.length)
    let entry ← PendingEntry.parse settings location object.2
    return (object.1, entry)
  else none

def listEntries (queue : Option (List Char)) (objects : List (Path × List UInt8)) :
    List (Path × PendingEntry) :=
  let under := Path.from (queue.elim (versionPrefix inbox) (queuePrefix inbox))
  ((objects.filter fun object => object.1.isBelow under).filterMap
    (listEntry settings inbox)).insertionSort fun a b => (a.2.passOrder b.2).isLE

end Listing

def EntryKind.segment : EntryKind → String
  | .enqueue => "enqueue"
  | .cancel => "cancel"
  | .signal => "signal"
  | .unknown segment => segment

def kind : InboxEntry → EntryKind
  | .enqueue _ _ => .enqueue
  | .cancel _ => .cancel
  | .signal _ _ => .signal

/-- Where a send writes its object. -/
def sentAt (ulids : UlidText) (queue : QueueName) (entry : InboxEntry) (order : Ulid)
    (id : String) : Location :=
  ⟨queue.name, EntryKind.segment (kind entry), some (ulids.text order), id⟩

/-- An inbox path that the object store keeps as it is. -/
def Normal (inbox : List Char) : Prop := inbox ≠ [] ∧ (Path.from inbox).asRef = inbox

instance (inbox : List Char) : Decidable (Normal inbox) := inferInstanceAs (Decidable (_ ∧ _))

structure Plain (segment : List Char) : Prop where
  ne_nil : segment ≠ []
  ne_dot : segment ≠ ['.']
  ne_dots : segment ≠ ['.', '.']
  characters : ∀ c ∈ segment, (c.isAlphanum || "._-".toList.contains c) = true

section Segments

variable {segment a b : List Char} {p q : Path}

theorem toNat_of_plain {c : Char} (h : (c.isAlphanum || "._-".toList.contains c) = true) :
    c.toNat = 45 ∨ c.toNat = 46 ∨ c.toNat = 95 ∨ (48 ≤ c.toNat ∧ c.toNat ≤ 57) ∨
      (65 ≤ c.toNat ∧ c.toNat ≤ 90) ∨ (97 ≤ c.toNat ∧ c.toNat ≤ 122) := by
  simp only [Char.isAlphanum, Char.isAlpha, Char.isUpper, Char.isLower, Char.isDigit,
    Bool.or_eq_true, Bool.and_eq_true, decide_eq_true_eq, List.contains_iff_mem, ge_iff_le,
    UInt32.le_iff_toNat_le] at h
  rcases h with ((⟨h, h'⟩ | ⟨h, h'⟩) | ⟨h, h'⟩) | h
  · exact .inr (.inr (.inr (.inr (.inl ⟨h, h'⟩))))
  · exact .inr (.inr (.inr (.inr (.inr ⟨h, h'⟩))))
  · exact .inr (.inr (.inr (.inl ⟨h, h'⟩)))
  · simp at h
    rcases h with rfl | rfl | rfl <;> decide

theorem not_isReserved_of_plain {c : Char}
    (h : (c.isAlphanum || "._-".toList.contains c) = true) : isReserved c = false ∧ c ≠ '/' := by
  have hc := toNat_of_plain h
  have hmem : c.toNat ∉ escaped := by
    simp only [escaped, List.mem_cons, List.not_mem_nil, or_false, not_or]
    omega
  constructor
  · simp only [isReserved, Bool.or_eq_false_iff, decide_eq_false_iff_not]
    exact ⟨⟨by omega, by omega⟩, by simpa using hmem⟩
  · rintro rfl
    revert hc
    decide

theorem Plain.encodeSegment (h : Plain segment) : encodeSegment segment = segment := by
  rw [Paths.encodeSegment, if_neg h.ne_dot, if_neg h.ne_dots]
  have hsingle : ∀ c ∈ segment, (if isReserved c then percentEncode c else [c]) = [c] :=
    fun c hc => by simp [(not_isReserved_of_plain (h.characters c hc)).1]
  rw [List.flatMap_congr hsingle, List.flatMap_singleton']

theorem Plain.slash_not_mem (h : Plain segment) : '/' ∉ segment := fun hm =>
  (not_isReserved_of_plain (h.characters _ hm)).2 rfl

theorem splitOn_of_slash_not_mem (h : '/' ∉ segment) : segment.splitOn '/' = [segment] := by
  have hne : [segment] ≠ [] := by simp
  simpa [List.intercalate] using List.splitOn_intercalate '/' (by simpa) hne

theorem splitOn_append (a b : List Char) :
    (a ++ '/' :: b).splitOn '/' = a.splitOn '/' ++ b.splitOn '/' :=
  List.splitOnP_append_cons a b (by simp)

theorem from_append (a b : List Char) : Path.from (a ++ '/' :: b) = Path.from a ++ Path.from b := by
  simp [Path.from, splitOn_append]

theorem Plain.from (h : Plain segment) : Path.from segment = [segment] := by
  simp [Path.from, splitOn_of_slash_not_mem h.slash_not_mem, h.ne_nil, h.encodeSegment]

theorem asRef_append (hp : p ≠ []) (hq : q ≠ []) :
    Path.asRef (p ++ q) = p.asRef ++ '/' :: q.asRef := by
  induction p with
  | nil => contradiction
  | cons s p ih =>
    by_cases hp' : p = []
    · subst hp'
      obtain ⟨t, q, rfl⟩ := List.exists_cons_of_ne_nil hq
      simp [Path.asRef, List.intercalate]
    · obtain ⟨t, p, rfl⟩ := List.exists_cons_of_ne_nil hp'
      have := ih hp'
      simp only [Path.asRef, List.intercalate, List.cons_append, List.intersperse_cons_cons,
        List.flatten_cons] at this ⊢
      simp [this]

end Segments

theorem path_of_parseRelative {relative : List Char} {location : Location}
    (h : parseRelative relative = some location) : relative = location.path := by
  have hjoin : ['/'].intercalate (relative.splitOn '/') = relative := List.intercalate_splitOn '/'
  unfold parseRelative at h
  split at h
  · next queue kind name hsplit =>
    rw [hsplit] at hjoin
    have hname := List.takeWhile_append_dropWhile (p := (· ≠ '.')) (l := name)
    cases hdrop : name.dropWhile (· ≠ '.') with
    | nil =>
      rw [hdrop] at h
      cases h
      simp [← hjoin, Location.path, List.intercalate]
    | cons c id =>
      have hc : c = '.' := by
        have hhead := List.head?_dropWhile_not (· ≠ '.') name
        rw [hdrop] at hhead
        simpa using hhead
      rw [hdrop] at h
      cases h
      rw [hdrop, hc] at hname
      calc relative = queue ++ '/' :: kind ++ '/' :: name := by simp [← hjoin, List.intercalate]
        _ = queue ++ '/' :: kind ++ '/' :: (name.takeWhile (· ≠ '.') ++ '.' :: id) := by
            rw [hname]
        _ = _ := by simp [Location.path]
  · cases h

theorem listEntry_eq_some {settings : Settings κ β} {inbox : List Char}
    {object : Path × List UInt8} {listed : Path × PendingEntry}
    (h : listEntry settings inbox object = some listed) :
    listed.1 = object.1 ∧
      object.1.asRef = versionPrefix inbox ++ '/' :: listed.2.location.path := by
  unfold listEntry at h
  by_cases hpre : (versionPrefix inbox ++ ['/']).isPrefixOf object.1.asRef = true
  · rw [if_pos hpre] at h
    obtain ⟨location, hloc, h⟩ := Option.bind_eq_some_iff.mp h
    obtain ⟨entry, hentry, h⟩ := Option.bind_eq_some_iff.mp h
    cases h
    obtain ⟨rest, hrest⟩ := List.isPrefixOf_iff_prefix.mp hpre
    rw [← hrest, List.drop_left] at hloc
    rw [(parse_eq_some hentry).1, ← path_of_parseRelative hloc, ← hrest]
    simp
  · rw [if_neg hpre] at h
    cases h

section Sent

variable {settings : Settings κ β} {ulids : UlidText} {inbox : List Char} {queue : QueueName}
  {entry : InboxEntry} {order : Ulid} {id : String}

theorem plain_queue (queue : QueueName) : Plain queue.name.toList := by
  have hvalid := queue.valid
  have hcheck : ∀ s, queue.name.toList = s → (queueNameForm.check (String.ofList s)) = .ok () := by
    rintro s rfl
    simpa using hvalid
  refine ⟨?_, ?_, ?_, Form.characters_of_check hvalid⟩ <;>
  · intro he
    exact absurd (hcheck _ he) (by decide)

theorem plain_word {word : String}
    (h : word ∈ ["enqueue", "cancel", "signal", "v1", "touch"]) : Plain word.toList := by
  simp only [List.mem_cons, List.not_mem_nil, or_false] at h
  rcases h with rfl | rfl | rfl | rfl | rfl <;>
    exact ⟨by decide, by decide, by decide, List.all_eq_true.mp (by decide)⟩

theorem plain_kind (entry : InboxEntry) : Plain (EntryKind.segment (kind entry)).toList := by
  apply plain_word
  cases entry <;> simp [kind, EntryKind.segment]

def name (ulids : UlidText) (order : Ulid) (id : String) : List Char :=
  (ulids.text order).toList ++ '.' :: id.toList

theorem plain_name (hu : ulids.Lawful) (order : Ulid)
    (hid : (Form.id maxInboxIdLen).check id = .ok ()) : Plain (name ulids order id) := by
  have hchars := Form.characters_of_check hid
  have hdot : '.' ∉ id.toList := fun hm => absurd (hchars _ hm) (by decide)
  have hempty : id.toList ≠ [] := by
    intro he
    rw [Form.check, he] at hid
    cases hid
  refine ⟨by simp [name], ?_, ?_, ?_⟩
  · intro he
    have hlen := congrArg List.length he
    simp only [name, List.length_append, List.length_cons, List.length_nil] at hlen
    have := List.length_pos_iff.mpr hempty
    omega
  · intro he
    have hlast := congrArg List.getLast? he
    rw [name, List.getLast?_append_of_ne_nil _ (by simp), List.getLast?_cons_of_ne_nil hempty]
      at hlast
    exact hdot (List.mem_of_getLast? hlast)
  · intro c hc
    rcases List.mem_append.mp hc with hc | hc
    · simp [hu.isAlphanum _ c hc]
    · rcases List.mem_cons.mp hc with rfl | hc
      · decide
      · have := hchars c hc
        simp only [Form.id, Bool.or_eq_true] at this ⊢
        rcases this with h | h
        · exact .inl h
        · right
          simp at h ⊢
          rcases h with rfl | rfl <;> decide

theorem path_sentAt : (sentAt ulids queue entry order id).path =
    queue.name.toList ++
      '/' :: ((EntryKind.segment (kind entry)).toList ++ '/' :: name ulids order id) := by
  simp [Location.path, sentAt, name]

theorem from_entryPath (hu : ulids.Lawful) (inbox : List Char)
    (hid : (Form.id maxInboxIdLen).check id = .ok ()) :
    Path.from (entryPath inbox (sentAt ulids queue entry order id)) =
      Path.from (versionPrefix inbox) ++
        [queue.name.toList, (EntryKind.segment (kind entry)).toList, name ulids order id] := by
  rw [entryPath, from_append, path_sentAt, from_append, from_append, (plain_queue queue).from,
    (plain_kind entry).from, (plain_name hu order hid).from]
  rfl

theorem from_versionPrefix (inbox : List Char) :
    Path.from (versionPrefix inbox) = Path.from inbox ++ ["v1".toList] := by
  rw [versionPrefix, from_append, (plain_word (by decide)).from]

theorem parseRelative_path (hu : ulids.Lawful) (hid : (Form.id maxInboxIdLen).check id = .ok ()) :
    parseRelative (sentAt ulids queue entry order id).path =
      some (sentAt ulids queue entry order id) := by
  have hsplit : (sentAt ulids queue entry order id).path.splitOn '/' =
      [queue.name.toList, (EntryKind.segment (kind entry)).toList, name ulids order id] := by
    rw [path_sentAt, splitOn_append, splitOn_append,
      splitOn_of_slash_not_mem (plain_queue queue).slash_not_mem,
      splitOn_of_slash_not_mem (plain_kind entry).slash_not_mem,
      splitOn_of_slash_not_mem (plain_name hu order hid).slash_not_mem]
    rfl
  have hdot : ∀ c ∈ (ulids.text order).toList, decide (c ≠ '.') = true := by
    intro c hc
    simp only [decide_eq_true_eq]
    rintro rfl
    exact hu.not_mem_text order (by decide) hc
  have hdrop : (name ulids order id).dropWhile (· ≠ '.') = '.' :: id.toList := by
    rw [name, List.dropWhile_append_of_pos hdot]
    simp
  have htake : (name ulids order id).takeWhile (· ≠ '.') = (ulids.text order).toList := by
    rw [name, List.takeWhile_append_of_pos hdot]
    simp
  rw [parseRelative, hsplit]
  simp only [hdrop, htake, String.ofList_toList]
  rfl

theorem asRef_entryPath (hu : ulids.Lawful) (inbox : List Char)
    (hid : (Form.id maxInboxIdLen).check id = .ok ()) :
    (Path.from (entryPath inbox (sentAt ulids queue entry order id))).asRef =
      (Path.from (versionPrefix inbox)).asRef ++
        '/' :: (sentAt ulids queue entry order id).path := by
  rw [from_entryPath hu inbox hid, asRef_append (by simp [from_versionPrefix]) (by simp),
    path_sentAt]
  simp [Path.asRef, List.intercalate]

/-- The object store keeps the version prefix of the normal inbox paths only. -/
theorem asRef_versionPrefix_iff :
    (Path.from (versionPrefix inbox)).asRef = versionPrefix inbox ↔ Normal inbox := by
  rw [from_versionPrefix, versionPrefix]
  by_cases hfrom : Path.from inbox = []
  · have hlen : Path.asRef ["v1".toList] ≠ inbox ++ '/' :: "v1".toList := by
      intro he
      have := congrArg List.length he
      simp [Path.asRef, List.intercalate] at this
    rw [hfrom, List.nil_append]
    refine ⟨fun h => absurd h hlen, fun h => absurd ?_ h.1⟩
    rw [← h.2, hfrom]
    rfl
  · have hne : inbox ≠ [] := by
      rintro rfl
      exact hfrom (by decide)
    rw [asRef_append hfrom (by simp), Normal]
    simp [Path.asRef, List.intercalate, hne]

def sentEntry (ulids : UlidText) (queue : QueueName) (entry : InboxEntry) (order : Ulid)
    (id : String) (body : List UInt8) : PendingEntry where
  queue := queue
  id := id
  kind := kind entry
  size := body.length
  order := some order.value.toNat
  location := sentAt ulids queue entry order id

theorem parse_sentAt
    (hulid : ∀ order : Ulid, settings.ulid (ulids.text order) = some order.value.toNat)
    (hid : (Form.id maxInboxIdLen).check id = .ok ()) (body : List UInt8) :
    PendingEntry.parse settings (sentAt ulids queue entry order id) body =
      some (sentEntry ulids queue entry order id body) := by
  have hkind : EntryKind.segment (kind entry) ≠ "" := by
    intro he
    exact (plain_kind entry).ne_nil (by rw [he]; rfl)
  have hof : EntryKind.ofSegment (EntryKind.segment (kind entry)) = kind entry := by
    cases entry <;> rfl
  simp only [PendingEntry.parse, sentAt, if_neg hkind, hid, QueueName.new_of_check queue.valid,
    hof, Option.bind_some, hulid]
  rfl

theorem listEntry_sent (hu : ulids.Lawful)
    (hulid : ∀ order : Ulid, settings.ulid (ulids.text order) = some order.value.toNat)
    (h : Normal inbox) (hid : (Form.id maxInboxIdLen).check id = .ok ()) (body : List UInt8) :
    listEntry settings inbox
        (Path.from (entryPath inbox (sentAt ulids queue entry order id)), body) =
      some (Path.from (entryPath inbox (sentAt ulids queue entry order id)),
        sentEntry ulids queue entry order id body) := by
  have happ : (Path.from (entryPath inbox (sentAt ulids queue entry order id))).asRef =
      (versionPrefix inbox ++ ['/']) ++ (sentAt ulids queue entry order id).path := by
    rw [asRef_entryPath hu inbox hid, asRef_versionPrefix_iff.mpr h]
    simp
  simp only [listEntry, happ]
  rw [if_pos (List.isPrefixOf_iff_prefix.mpr (List.prefix_append _ _)), List.drop_left,
    parseRelative_path hu hid]
  simp [parse_sentAt hulid hid]

theorem normal_of_listed (hu : ulids.Lawful) (hid : (Form.id maxInboxIdLen).check id = .ok ())
    {object : Path × List UInt8} {body : List UInt8}
    (h : listEntry settings inbox object =
      some (Path.from (entryPath inbox (sentAt ulids queue entry order id)),
        sentEntry ulids queue entry order id body)) : Normal inbox := by
  obtain ⟨hpath, htext⟩ := listEntry_eq_some h
  rw [← hpath, asRef_entryPath hu inbox hid] at htext
  exact asRef_versionPrefix_iff.mp (List.append_cancel_right htext)

theorem isBelow_entryPath (hu : ulids.Lawful) (inbox : List Char)
    (hid : (Form.id maxInboxIdLen).check id = .ok ()) {under : Option (List Char)}
    (hunder : under ∈ [some queue.name.toList, none]) :
    (Path.from (entryPath inbox (sentAt ulids queue entry order id))).isBelow
      (Path.from (under.elim (versionPrefix inbox) (queuePrefix inbox))) = true := by
  rw [Path.isBelow, from_entryPath hu inbox hid]
  rcases List.mem_pair.mp hunder with rfl | rfl
  · simp [queuePrefix, from_append, (plain_queue queue).from, List.isPrefixOf_iff_prefix]
  · simp [List.isPrefixOf_iff_prefix]

theorem touch_not_listed {objects : List (Path × List UInt8)} {under : Option (List Char)}
    {listed : Path × PendingEntry} (hl : listed ∈ listEntries settings inbox under objects) :
    listed.1 ≠ Path.from (touchPath inbox) := by
  intro he
  obtain ⟨object, ho, hlisted⟩ := List.mem_filterMap.mp ((List.mem_insertionSort _).mp hl)
  obtain ⟨-, hbelow⟩ := List.mem_filter.mp ho
  have hpath : object.1 = Path.from inbox ++ ["touch".toList] := by
    rw [← (listEntry_eq_some hlisted).1, he, touchPath, from_append, (plain_word (by decide)).from]
  have hversion : Path.from inbox ++ ["v1".toList] <+: object.1 := by
    simp only [Path.isBelow, Bool.and_eq_true, List.isPrefixOf_iff_prefix] at hbelow
    refine List.IsPrefix.trans ?_ hbelow.1
    cases under with
    | none => simp [from_versionPrefix]
    | some queue => simp [queuePrefix, from_append, from_versionPrefix]
  rw [hpath, List.prefix_append_right_inj] at hversion
  exact absurd hversion (by decide)

end Sent

/-- The object of a send is listed for its queue and for all queues as the entry that was sent
exactly when the object store keeps the inbox path. The touch object is never listed. -/
theorem sent_entries_are_listed (settings : Settings κ β) (ulids : UlidText) (hu : ulids.Lawful)
    (hulid : ∀ order : Ulid, settings.ulid (ulids.text order) = some order.value.toNat)
    (inbox : List Char) (objects : List (Path × List UInt8)) :
    (∀ (queue : QueueName) (entry : InboxEntry) (order : Ulid) (id : String) (body : List UInt8),
      (Form.id maxInboxIdLen).check id = .ok () →
      (Path.from (entryPath inbox (sentAt ulids queue entry order id)), body) ∈ objects →
      ∀ under ∈ [some queue.name.toList, none],
        ((Path.from (entryPath inbox (sentAt ulids queue entry order id)),
          sentEntry ulids queue entry order id body) ∈ listEntries settings inbox under objects ↔
            Normal inbox)) ∧
    ∀ under, ∀ listed ∈ listEntries settings inbox under objects,
      listed.1 ≠ Path.from (touchPath inbox) := by
  refine ⟨fun queue entry order id body hid hmem under hunder => ⟨fun hl => ?_, fun h => ?_⟩,
    fun under listed hl => touch_not_listed hl⟩
  · obtain ⟨object, -, hlisted⟩ := List.mem_filterMap.mp ((List.mem_insertionSort _).mp hl)
    exact normal_of_listed hu hid hlisted
  · exact (List.mem_insertionSort _).mpr (List.mem_filterMap.mpr
      ⟨_, List.mem_filter.mpr ⟨hmem, isBelow_entryPath hu inbox hid hunder⟩,
        listEntry_sent hu hulid h hid body⟩)

def smallSettings : Settings ℕ ℕ where
  configs := plainConfigs
  queues := ["post"]
  retentionMs := 1
  ulid text := (Ulid.base32.parse text).map (·.value.toNat)
  decodeEnqueue _ := .error ""
  decodeCancel _ := .error ""
  decodeSignal _ := .error ""
  message _ := ""

theorem smallSettings_ulid (order : Ulid) :
    smallSettings.ulid (Ulid.base32.text order) = some order.value.toNat := by
  simp only [smallSettings, Ulid.lawful_base32.parse_text, Option.map_some]

def post : QueueName := ⟨"post", by decide⟩

def oneSend (inbox : List Char) : List (Path × List UInt8) :=
  [(Path.from (entryPath inbox (sentAt Ulid.base32 post (.cancel "j") ⟨7⟩ "a")), [1])]

theorem sent_entries_are_listed_once :
    (Path.from (entryPath "in/box".toList (sentAt Ulid.base32 post (.cancel "j") ⟨7⟩ "a")),
      sentEntry Ulid.base32 post (.cancel "j") ⟨7⟩ "a" [1]) ∈
        listEntries smallSettings "in/box".toList none (oneSend "in/box".toList) :=
  ((sent_entries_are_listed smallSettings Ulid.base32 Ulid.lawful_base32 smallSettings_ulid
    "in/box".toList _).1 post (.cancel "j") ⟨7⟩ "a" [1] (by decide) List.mem_cons_self none
      (by simp)).mpr (by decide +kernel)

/-- A send below an inbox path with a trailing, leading or doubled slash, an escaped character
or no character is not listed. -/
theorem sent_entries_are_listed_fails :
    (["inbox/", "/inbox", "in//box", "in#box", ""].flatMap fun inbox =>
      [some "post".toList, none].flatMap fun under =>
        listEntries smallSettings inbox.toList under (oneSend inbox.toList)) = [] := by
  decide +kernel

end Taquba.Inbox.Paths
