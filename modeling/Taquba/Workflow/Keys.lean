import Taquba.Ids.Ulid
import Taquba.Job.Record

/-! # The reserved names of a workflow runtime

Run ids, the `workflow.` headers of step jobs, the keys of the runtime's records
and the dedup keys of its jobs. A key is kept as its parts: the encodings of
different keys differ, because a run id, a submission id and a queue name contain
neither a slash nor a colon.
-/

namespace Taquba.Workflow

def maxRunIdLen : ℕ := 128

/-- A validated run id. A group id is a run id as well. -/
structure RunId where
  id : String
  valid : (Form.id maxRunIdLen).check id = .ok ()
  deriving DecidableEq

def RunId.new (id : String) : Except FormError RunId :=
  match h : (Form.id maxRunIdLen).check id with
  | .ok () => .ok ⟨id, h⟩
  | .error e => .error e

theorem RunId.new_eq_ok {id : String} {runId : RunId} (h : RunId.new id = .ok runId) :
    runId.id = id := by
  unfold RunId.new at h
  split at h
  · cases h
    rfl
  · cases h

theorem RunId.new_id (runId : RunId) : RunId.new runId.id = .ok runId := by
  unfold RunId.new
  split
  · rfl
  · rename_i e h
    rw [runId.valid] at h
    cases h

@[ext] theorem RunId.ext {r r' : RunId} (h : r.id = r'.id) : r = r' := by
  cases r
  cases r'
  simpa using h

theorem RunId.colon_not_mem (runId : RunId) : ':' ∉ runId.id.toList := by
  intro h
  have hc := Form.characters_of_check runId.valid _ h
  revert hc
  decide

abbrev Headers := List (String × String)

def Headers.insert (headers : Headers) (name value : String) : Headers :=
  (name, value) :: headers.filter fun h => h.1 ≠ name

theorem Headers.lookup_insert_self (headers : Headers) (name value : String) :
    List.lookup name (headers.insert name value) = some value := by
  simp [Headers.insert]

theorem Headers.lookup_insert_of_ne (headers : Headers) {name other : String} (value : String)
    (h : other ≠ name) :
    List.lookup other (headers.insert name value) = List.lookup other headers := by
  have hne : (other == name) = false := by simpa using h
  rw [Headers.insert, List.lookup_cons, hne]
  induction headers with
  | nil => rfl
  | cons header headers ih =>
    by_cases hn : header.1 = name
    · have ho : (other == header.1) = false := by simpa [hn] using h
      rw [List.filter_cons_of_neg (by simpa using hn), List.lookup_cons, ho]
      exact ih
    · rw [List.filter_cons_of_pos (by simpa using hn), List.lookup_cons, List.lookup_cons]
      cases (other == header.1) with
      | true => rfl
      | false => exact ih

def headerRunId : String := "workflow.run_id"

def headerStep : String := "workflow.step"

def headerGroup : String := "workflow.group"

def headerGroupKey : String := "workflow.group_key"

/-- The header of the owner of a run, on every step job of an owned run. -/
def headerOwner : String := "workflow.owner"

/-- The header of the job that cancels the owned runs of an owner's submission. -/
def headerOwned : String := "workflow.owned"

def reservedHeaderPrefix : List Char := "workflow.".toList

def isReservedHeader (name : String) : Bool := reservedHeaderPrefix.isPrefixOf name.toList

/-- The headers that the submitter set on a step job. -/
def submitterHeaders (headers : Headers) : Headers :=
  headers.filter fun h => !isReservedHeader h.1

/-- The first reserved header, which a caller may not set. -/
def checkHeaders (headers : Headers) : Except String Unit :=
  match headers.find? fun h => isReservedHeader h.1 with
  | some h => .error h.1
  | none => .ok ()

/-- A run and one of its submissions, as the owner of other runs. The id of a submission
is the job id of its step 0. -/
structure OwnerRef where
  runId : RunId
  submissionId : String
  deriving DecidableEq

def OwnerRef.headerValue (owner : OwnerRef) : String :=
  owner.runId.id ++ ":" ++ owner.submissionId

structure Membership where
  groupId : RunId
  key : String
  deriving DecidableEq

def groupCountName (groupId : RunId) : String := "workflow/groups/" ++ groupId.id

def Membership.countName (membership : Membership) : String := groupCountName membership.groupId

def Membership.reservedHeaders (membership : Membership) : List (String × String) :=
  [(headerGroup, membership.groupId.id), (headerGroupKey, membership.key)]

/-- The keys of the store that are not the queue's own: those of the runtime, and those
of callers, which do not start with `workflow/`. -/
inductive KvKey where
  | run (runId : RunId)
  | step (runId : RunId)
  | terminal (atMs : ℕ) (runId : RunId)
  | runEntry (runId : RunId) (key : List UInt8)
  | member (groupId : RunId) (key : String)
  | owned (owner : OwnerRef) (queue : QueueName) (runId : RunId)
  | ownerQueues (owner : OwnerRef)
  | caller (key : List UInt8)
  deriving DecidableEq

def stepDedupKey (runId : RunId) (step : ℕ) : String :=
  "run:" ++ runId.id ++ ":" ++ toString step

def OwnerRef.cancelDedupKey (owner : OwnerRef) : String := "owned:" ++ owner.headerValue

theorem takeWhile_colon {l : List Char} (r : List Char) (h : ':' ∉ l) :
    (l ++ ':' :: r).takeWhile (· ≠ ':') = l := by
  rw [List.takeWhile_append_of_pos]
  · simp
  · intro c hc
    have hne : c ≠ ':' := by
      rintro rfl
      exact h hc
    simpa using hne

def parseDigits : List Char → Option ℕ
  | [] => none
  | cs => cs.foldl (fun acc c => acc.bind fun n =>
      if c.isDigit then some (n * 10 + (c.toNat - '0'.toNat)) else none) (some 0)

theorem parseDigits_eq_ofDigitChars {cs : List Char} (hne : cs ≠ [])
    (h : ∀ c ∈ cs, c.isDigit = true) : parseDigits cs = some (Nat.ofDigitChars 10 cs 0) := by
  have hfold : ∀ (cs : List Char) (n : ℕ), (∀ c ∈ cs, c.isDigit = true) →
      cs.foldl (fun acc c => acc.bind fun n =>
        if c.isDigit then some (n * 10 + (c.toNat - '0'.toNat)) else none) (some n) =
        some (Nat.ofDigitChars 10 cs n) := by
    intro cs
    induction cs with
    | nil => exact fun n _ => rfl
    | cons c cs ih =>
      intro n hd
      obtain ⟨hc, hcs⟩ := List.forall_mem_cons.mp hd
      rw [List.foldl_cons, Option.bind_some, if_pos hc, ih _ hcs, Nat.ofDigitChars,
        Nat.ofDigitChars, List.foldl_cons, Nat.mul_comm 10 n]
  unfold parseDigits
  split
  · contradiction
  · exact hfold cs 0 h

theorem parseDigits_toString (n : ℕ) : parseDigits (toString n).toList = some n := by
  rw [Nat.toString_eq_repr, Nat.toList_repr, parseDigits_eq_ofDigitChars Nat.toDigits_ne_nil
    fun c => Nat.isDigit_of_mem_toDigits (by decide) le_rfl, Nat.ofDigitChars_ten_toDigits]

theorem head_toString_ne_plus (n : ℕ) (rest : List Char) : (toString n).toList ≠ '+' :: rest := by
  intro h
  have hmem : '+' ∈ Nat.toDigits 10 n := by
    rw [← Nat.toList_repr, ← Nat.toString_eq_repr, h]
    exact List.mem_cons_self
  exact absurd (Nat.isDigit_of_mem_toDigits (by decide) le_rfl hmem) (by decide)

/-- Parse a `u32`: an optional plus sign and digits. -/
def parseU32 (text : String) : Option ℕ :=
  let number := match text.toList with
    | '+' :: rest => parseDigits rest
    | cs => parseDigits cs
  number.filter (· < 2 ^ 32)

structure OwnerId where
  runId : RunId
  submissionId : Ulid
  deriving DecidableEq

namespace OwnerId

variable (ulids : UlidText)

def ref (owner : OwnerId) : OwnerRef := ⟨owner.runId, ulids.text owner.submissionId⟩

def headerValue (owner : OwnerId) : String := (owner.ref ulids).headerValue

/-- The owner of a header value: the parts before and after the first colon. -/
def fromHeader (value : String) : Except (Option FormError) OwnerId :=
  match value.toList.dropWhile (· ≠ ':') with
  | [] => .error none
  | _ :: rest =>
    match RunId.new (String.ofList (value.toList.takeWhile (· ≠ ':'))) with
    | .error e => .error (some e)
    | .ok runId =>
      match ulids.parse (String.ofList rest) with
      | none => .error none
      | some submissionId => .ok ⟨runId, submissionId⟩

end OwnerId

/-- The digest that names the job of the next step, and the texts of generated ids. -/
structure Digests where
  nextStepJobId : String → String
  ulids : UlidText

def plainDigests : Digests where
  nextStepJobId id := "n" ++ id
  ulids := Ulid.base32

def OwnerRef.fromHeader (digests : Digests) (value : String) :
    Except (Option FormError) OwnerRef :=
  (OwnerId.fromHeader digests.ulids value).map (OwnerId.ref digests.ulids)

end Taquba.Workflow
