import Taquba.Clock.Leases
import Taquba.Effects.Prepare
import Taquba.Workflow.Keys

/-! # Webhook deliveries through a queue

A request is flattened into the header map of a job: its target, method and timeout under
keys of their own, and its headers behind a common start of their names. The worker reads
the request back from the job, extends the lease over the timeout and sends it.
-/

namespace Taquba.Webhooks

open Clock Workflow

/-- Parse a `u64`: an optional plus sign and digits. -/
def parseU64 (text : String) : Option ℕ :=
  let number := match text.toList with
    | '+' :: rest => parseDigits rest
    | cs => parseDigits cs
  number.filter (· < 2 ^ 64)

theorem parseU64_toString (n : ℕ) :
    parseU64 (toString n) = if n < 2 ^ 64 then some n else none := by
  unfold parseU64
  split
  · rename_i rest h
    exact absurd h (head_toString_ne_plus n rest)
  · rw [parseDigits_toString]
    simp [Option.filter]

def headerUrl : String := "webhook.url"

def headerMethod : String := "webhook.method"

def headerTimeoutMs : String := "webhook.timeout_ms"

def httpHeaderPrefix : String := "http."

inductive Error where
  | missingUrl
  | invalidMethod (method : String)
  | invalidTimeout (timeout : String)
  | delivery (message : String)
  deriving DecidableEq, Repr

/-- The job is dead-lettered without a retry. -/
def Error.isPermanent : Error → Bool
  | .delivery _ => false
  | _ => true

structure WebhookRequest where
  url : String
  method : String := "POST"
  headers : Headers := []
  timeout : Option Duration := none

/-- The entry of the job for a header of the request. -/
def httpKey (name : String) : String := httpHeaderPrefix ++ name

def reservedHeaders (request : WebhookRequest) : Headers :=
  let headers := (Headers.insert [] headerUrl request.url).insert headerMethod request.method
  match request.timeout with
  | some t => headers.insert headerTimeoutMs (toString t.asMillis)
  | none => headers

def addHttp (headers : Headers) (h : String × String) : Headers :=
  headers.insert (httpKey h.1) h.2

def webhookEnqueueRequest (targetQueue : String) (request : WebhookRequest) (body : List UInt8) :
    EnqueueRequest where
  queue := targetQueue
  payload := body
  options :=
    { headers := request.headers.foldl addHttp (reservedHeaders request) }

/-- The name behind the start of an entry that is sent. -/
def stripHttp (key : String) : Option String :=
  if httpHeaderPrefix.toList.isPrefixOf key.toList then
    some (String.ofList (key.toList.drop httpHeaderPrefix.toList.length))
  else none

/-- The headers that the entries of a job send. -/
def httpHeaders (headers : Headers) : Headers :=
  headers.filterMap fun h => (stripHttp h.1).map fun name => (name, h.2)

structure WebhookWorker where
  deliveryIdHeader : Option String := some "Webhook-Id"
  defaultTimeout : Duration := .fromMillis 30000

def effectiveTimeout (headers : Headers) (default : Duration) : Except Error Duration :=
  match List.lookup headerTimeoutMs headers with
  | some s =>
    match parseU64 s with
    | some ms => .ok (.fromMillis ms)
    | none => .error (.invalidTimeout s)
  | none => .ok default

structure Outgoing (μ : Type) where
  url : String
  method : μ
  headers : Headers
  timeout : Duration
  body : List UInt8

section Deliver

variable {μ : Type} (fromStr : String → Option μ) (worker : WebhookWorker) (job : JobRecord)

/-- The request of a job, whose method `fromStr` parses. -/
def outgoing : Except Error (Outgoing μ) := do
  let url ← match (List.lookup headerUrl job.headers).filter (· ≠ "") with
    | some url => .ok url
    | none => .error .missingUrl
  let text := (List.lookup headerMethod job.headers).getD "POST"
  let method ← match fromStr text with
    | some method => .ok method
    | none => .error (.invalidMethod text)
  let timeout ← effectiveTimeout job.headers worker.defaultTimeout
  let id := worker.deliveryIdHeader.elim [] fun name => [(name, job.id)]
  return ⟨url, method, httpHeaders job.headers ++ id, timeout, job.payload⟩

def renewalMessage : RenewalError → String
  | .claimLost => "job claim is no longer held"
  | .cancelRequested => "job cancellation has been requested"

/-- Extend the lease over the timeout and send the request, `none` for a panic. -/
def deliver (checks : Bool) (r : LeaseRegistry) (now : ℕ) (lease : Option ClaimFence)
    (cancelled : Bool) : Option (Except Error (Outgoing μ)) :=
  match outgoing fromStr worker job with
  | .error e => some (.error e)
  | .ok request =>
    (LeaseTime.ensureAtLeast checks r now request.timeout lease cancelled).map fun
      | .error e => .error (.delivery ("lease extension failed: " ++ renewalMessage e))
      | .ok _ => .ok request

end Deliver

section Headers

variable {request : WebhookRequest} {name : String} {headers entries : Headers}

theorem stripHttp_httpKey (name : String) : stripHttp (httpKey name) = some name := by
  simp [stripHttp, httpKey, String.toList_append]

theorem httpKey_injective : Function.Injective httpKey := by
  intro a b h
  simpa [stripHttp_httpKey] using congrArg stripHttp h

theorem eq_httpKey_of_stripHttp {key : String} (h : stripHttp key = some name) :
    key = httpKey name := by
  unfold stripHttp at h
  split_ifs at h with hp
  obtain ⟨rest, hrest⟩ := List.isPrefixOf_iff_prefix.mp hp
  cases h
  refine String.toList_injective ?_
  simp [httpKey, String.toList_append, ← hrest]

theorem httpHeaders_insert (headers : Headers) (name value : String) :
    httpHeaders (headers.insert (httpKey name) value) =
      (httpHeaders headers).insert name value := by
  have hfilter : ∀ headers : Headers,
      httpHeaders (headers.filter fun h => h.1 ≠ httpKey name) =
        (httpHeaders headers).filter fun h => h.1 ≠ name := by
    intro headers
    induction headers with
    | nil => rfl
    | cons h headers ih =>
      cases hs : stripHttp h.1 with
      | none =>
        have hne : h.1 ≠ httpKey name := by
          intro he
          simp [he, stripHttp_httpKey] at hs
        simpa [httpHeaders, hs, hne] using ih
      | some n =>
        have hkey := eq_httpKey_of_stripHttp hs
        by_cases hn : n = name
        · subst hn
          simpa [httpHeaders, hs, hkey, stripHttp_httpKey] using ih
        · have hne : h.1 ≠ httpKey name := fun he => hn (httpKey_injective (hkey.symm.trans he))
          simpa [httpHeaders, hs, hn, hne] using ih
  simp only [Headers.insert]
  rw [← hfilter]
  simp [httpHeaders, stripHttp_httpKey]

theorem httpHeaders_foldl (entries headers : Headers) :
    httpHeaders (entries.foldl addHttp headers) =
      entries.foldl (fun headers h => headers.insert h.1 h.2) (httpHeaders headers) := by
  induction entries generalizing headers with
  | nil => rfl
  | cons h entries ih => rw [List.foldl_cons, List.foldl_cons, ih, addHttp, httpHeaders_insert]

theorem foldl_insert_perm (hnodup : (entries.map Prod.fst).Nodup)
    (hdisjoint : ∀ h ∈ headers, h.1 ∉ entries.map Prod.fst) :
    (entries.foldl (fun headers h => headers.insert h.1 h.2) headers).Perm
      (entries ++ headers) := by
  induction entries generalizing headers with
  | nil => exact List.Perm.refl _
  | cons e entries ih =>
    obtain ⟨hne, hnodup⟩ := List.nodup_cons.mp hnodup
    have hinsert : headers.insert e.1 e.2 = e :: headers := by
      have hkeep : headers.filter (fun h => h.1 ≠ e.1) = headers := by
        refine List.filter_eq_self.mpr fun h hm => ?_
        have := hdisjoint h hm
        simp only [List.map_cons, List.mem_cons, not_or] at this
        simpa using this.1
      rw [Headers.insert, hkeep]
    rw [List.foldl_cons, hinsert]
    refine (ih hnodup ?_).trans List.perm_middle
    intro h hm
    rcases List.mem_cons.mp hm with rfl | hm
    · exact hne
    · exact fun hc => hdisjoint h hm (List.mem_cons_of_mem _ hc)

theorem httpHeaders_reserved (request : WebhookRequest) :
    httpHeaders (reservedHeaders request) = [] := by
  have hurl : stripHttp headerUrl = none := by decide
  have hmethod : stripHttp headerMethod = none := by decide
  have htimeout : stripHttp headerTimeoutMs = none := by decide
  have hne : headerUrl ≠ headerMethod := by decide
  have hne' : headerMethod ≠ headerTimeoutMs := by decide
  have hne'' : headerUrl ≠ headerTimeoutMs := by decide
  unfold reservedHeaders
  cases request.timeout <;>
    simp [httpHeaders, Headers.insert, hurl, hmethod, htimeout, hne, hne', hne'']

/-- The headers of the request do not touch the reserved entries. -/
theorem lookup_foldl (hkey : stripHttp name = none) (entries headers : Headers) :
    List.lookup name (entries.foldl addHttp headers) = List.lookup name headers := by
  induction entries generalizing headers with
  | nil => rfl
  | cons h entries ih =>
    rw [List.foldl_cons, ih, addHttp, Headers.lookup_insert_of_ne]
    rintro rfl
    simp [stripHttp_httpKey] at hkey

end Headers

section Survives

variable {request : WebhookRequest}

theorem lookup_url (request : WebhookRequest) :
    List.lookup headerUrl (reservedHeaders request) = some request.url := by
  have hne : headerUrl ≠ headerMethod := by decide
  have hne' : headerUrl ≠ headerTimeoutMs := by decide
  unfold reservedHeaders
  cases request.timeout with
  | none => simp [Headers.lookup_insert_of_ne _ _ hne, Headers.lookup_insert_self]
  | some t =>
    simp [Headers.lookup_insert_of_ne _ _ hne, Headers.lookup_insert_of_ne _ _ hne',
      Headers.lookup_insert_self]

theorem lookup_method (request : WebhookRequest) :
    List.lookup headerMethod (reservedHeaders request) = some request.method := by
  have hne : headerMethod ≠ headerTimeoutMs := by decide
  unfold reservedHeaders
  cases request.timeout with
  | none => simp [Headers.lookup_insert_self]
  | some t => simp [Headers.lookup_insert_of_ne _ _ hne, Headers.lookup_insert_self]

theorem lookup_timeout (request : WebhookRequest) :
    List.lookup headerTimeoutMs (reservedHeaders request) =
      request.timeout.map fun t => toString t.asMillis := by
  have hne : headerTimeoutMs ≠ headerMethod := by decide
  have hne' : headerTimeoutMs ≠ headerUrl := by decide
  unfold reservedHeaders
  cases request.timeout with
  | none => simp [Headers.lookup_insert_of_ne _ _ hne, Headers.lookup_insert_of_ne _ _ hne']
  | some t => simp [Headers.lookup_insert_self]

/-- The timeout of a request is a whole number of milliseconds that fits in 64 bits. With
overflow checks and a lease, the timeout of the delivery also fits with the clock and the margin
of the lease. -/
structure Fits (checks : Bool) (now : ℕ) (lease : Option ClaimFence) (default : Duration)
    (request : WebhookRequest) : Prop where
  whole : ∀ t ∈ request.timeout, milli ∣ t.nanos
  encodes : ∀ t ∈ request.timeout, t.asMillis < 2 ^ 64
  lease : checks = true → lease.isSome → now + (request.timeout.getD default).lowMillis +
    LeaseTime.settlementMargin.asMillis < 2 ^ 64

theorem effectiveTimeout_eq (default : Duration) (request : WebhookRequest) :
    effectiveTimeout (request.headers.foldl addHttp (reservedHeaders request)) default =
      request.timeout.elim (.ok default) fun t =>
        if t.asMillis < 2 ^ 64 then .ok (.fromMillis t.asMillis)
        else .error (.invalidTimeout (toString t.asMillis)) := by
  rw [effectiveTimeout, lookup_foldl (by decide), lookup_timeout]
  cases request.timeout with
  | none => rfl
  | some t =>
    simp only [Option.map_some, parseU64_toString, Option.elim_some]
    by_cases hlt : t.asMillis < 2 ^ 64
    · simp only [if_pos hlt]
    · simp only [if_neg hlt]

/-- The duration in whole milliseconds, rounded up, in nanoseconds. -/
def roundedUp (t : Duration) : ℕ := (t.nanos + (milli - 1)) / milli * milli

theorem roundedUp_of_dvd {t : Duration} (h : milli ∣ t.nanos) : roundedUp t = t.nanos := by
  simp only [roundedUp, milli] at h ⊢
  omega

theorem nanos_fromMillis_eq_roundedUp_iff {t : Duration} (hlt : t.asMillis < 2 ^ 64) :
    (Duration.fromMillis t.asMillis).nanos = roundedUp t ↔ milli ∣ t.nanos := by
  rw [Duration.nanos_fromMillis hlt]
  simp only [roundedUp, Duration.asMillis, milli]
  omega

end Survives

section Sent

variable {μ β : Type} {fromStr : String → Option μ} {configs : Configs β} {worker : WebhookWorker}
  {request : WebhookRequest} {body : List UInt8} {queue generated : String} {enqueuedAt : ℕ}
  {prepared : PreparedJob} {method : μ}

/-- What is sent for a request: its url, method, body and headers with the id of the job, and
its timeout rounded up to milliseconds or the default. -/
structure Survives (worker : WebhookWorker) (request : WebhookRequest) (body : List UInt8)
    (job : JobRecord) (method : μ) (sent : Outgoing μ) : Prop where
  url : sent.url = request.url
  method : sent.method = method
  body : sent.body = body
  headers : sent.headers.Perm (request.headers ++
    worker.deliveryIdHeader.elim [] fun name => [(name, job.id)])
  timeout : ∀ t ∈ request.timeout, sent.timeout.nanos = roundedUp t
  default : request.timeout = none → sent.timeout = worker.defaultTimeout

def sentWith (worker : WebhookWorker) (request : WebhookRequest) (body : List UInt8)
    (id : String) (method : μ) (timeout : Duration) : Outgoing μ :=
  ⟨request.url, method, httpHeaders (request.headers.foldl addHttp (reservedHeaders request)) ++
    worker.deliveryIdHeader.elim [] fun name => [(name, id)], timeout, body⟩

theorem outgoing_eq (hprepared : prepareJobRecord (κ := String) configs queue body
      (webhookEnqueueRequest queue request body).options generated enqueuedAt = .ok prepared)
    (hurl : request.url ≠ "") (hmethod : fromStr request.method = some method) :
    outgoing fromStr worker prepared.job =
      (effectiveTimeout (request.headers.foldl addHttp (reservedHeaders request))
        worker.defaultTimeout).map (sentWith worker request body prepared.job.id method) := by
  obtain ⟨name, id, rfl⟩ := exists_newJob hprepared
  have hjob : (newJob configs name body (webhookEnqueueRequest queue request body).options id
      enqueuedAt).job.headers = request.headers.foldl addHttp (reservedHeaders request) := rfl
  rw [outgoing, hjob]
  rw [lookup_foldl (by decide), lookup_foldl (by decide), lookup_url, lookup_method]
  cases effectiveTimeout (request.headers.foldl addHttp (reservedHeaders request))
    worker.defaultTimeout <;>
  simp [Option.filter, hurl, hmethod, bind, Except.bind, pure, Except.pure, newJob, Except.map,
    sentWith]

theorem headers_sentWith (hheaders : (request.headers.map Prod.fst).Nodup) (id : String)
    (timeout : Duration) :
    (sentWith worker request body id method timeout).headers.Perm (request.headers ++
      worker.deliveryIdHeader.elim [] fun name => [(name, id)]) := by
  refine List.Perm.append_right _ ?_
  rw [httpHeaders_foldl, httpHeaders_reserved]
  simpa using foldl_insert_perm hheaders (List.forall_mem_nil _)

/-- A request that is sent or retried has not panicked in the extension of its lease. -/
theorem deliver_iff {job : JobRecord} {sent : Outgoing μ} {checks : Bool} {r : LeaseRegistry}
    {now : ℕ} {lease : Option ClaimFence} {cancelled : Bool}
    (hsent : outgoing fromStr worker job = .ok sent) :
    (deliver fromStr worker job checks r now lease cancelled = some (.ok sent) ∨
      ∃ e, deliver fromStr worker job checks r now lease cancelled = some (.error e) ∧
        e.isPermanent = false) ↔
      (checks = true → lease.isSome → now + sent.timeout.lowMillis +
        LeaseTime.settlementMargin.asMillis < 2 ^ 64) := by
  have hdeliver : deliver fromStr worker job checks r now lease cancelled =
      (LeaseTime.ensureAtLeast checks r now sent.timeout lease cancelled).map fun
        | .error e => .error (.delivery ("lease extension failed: " ++ renewalMessage e))
        | .ok _ => .ok sent := by
    simp only [deliver, hsent]
  rw [hdeliver]
  cases lease with
  | none => exact iff_of_true (.inl rfl) (by simp)
  | some fence =>
    simp only [LeaseTime.ensureAtLeast, Option.isSome_some, forall_const,
      ← LeaseTime.needed_isSome_iff]
    cases LeaseTime.needed checks now sent.timeout with
    | none => simp
    | some needed =>
      refine iff_of_true ?_ rfl
      simp only [Option.map_some]
      cases r.renew fence.queue fence.id fence.claimId cancelled needed .extend with
      | ok renewed => exact .inl rfl
      | error e => exact .inr ⟨_, rfl, rfl⟩

end Sent

/-- A request is sent with its url, method, body, headers and timeout, or its delivery is retried
for a lost lease or a cancellation, exactly when its timeout fits. -/
theorem webhook_requests_survive {μ β : Type} (fromStr : String → Option μ) (configs : Configs β)
    (worker : WebhookWorker) (request : WebhookRequest) (body : List UInt8)
    (queue generated : String) (enqueuedAt : ℕ) (prepared : PreparedJob) (method : μ)
    (checks : Bool) (r : LeaseRegistry) (now : ℕ) (lease : Option ClaimFence) (cancelled : Bool)
    (hprepared : prepareJobRecord (κ := String) configs queue body
      (webhookEnqueueRequest queue request body).options generated enqueuedAt = .ok prepared)
    (hurl : request.url ≠ "") (hmethod : fromStr request.method = some method)
    (hheaders : (request.headers.map Prod.fst).Nodup) :
    (∃ sent, outgoing fromStr worker prepared.job = .ok sent ∧
      Survives worker request body prepared.job method sent ∧
      (deliver fromStr worker prepared.job checks r now lease cancelled = some (.ok sent) ∨
        ∃ e, deliver fromStr worker prepared.job checks r now lease cancelled =
          some (.error e) ∧ e.isPermanent = false)) ↔
      Fits checks now lease worker.defaultTimeout request := by
  have hout : outgoing fromStr worker prepared.job = _ := outgoing_eq hprepared hurl hmethod
  rw [effectiveTimeout_eq] at hout
  constructor
  · rintro ⟨sent, hsent, hsurvives, hdelivered⟩
    have hlease := (deliver_iff hsent).mp hdelivered
    cases ht : request.timeout with
    | none =>
      rw [hsurvives.default ht] at hlease
      exact ⟨by simp [ht], by simp [ht], by rwa [ht]⟩
    | some t =>
      rw [ht, Option.elim_some, hsent] at hout
      by_cases hlt : t.asMillis < 2 ^ 64
      · rw [if_pos hlt] at hout
        cases hout
        have hw := (nanos_fromMillis_eq_roundedUp_iff hlt).mp (hsurvives.timeout t ht)
        refine ⟨by simpa [ht] using hw, by simpa [ht] using hlt, ?_⟩
        rw [ht, Option.getD_some]
        rwa [sentWith, Duration.fromMillis_asMillis hlt hw] at hlease
      · rw [if_neg hlt] at hout
        cases hout
  · intro hfits
    have htimeout : request.timeout.elim (.ok worker.defaultTimeout) (fun t =>
        if t.asMillis < 2 ^ 64 then .ok (.fromMillis t.asMillis)
        else .error (.invalidTimeout (toString t.asMillis))) =
          (.ok (request.timeout.getD worker.defaultTimeout) : Except Error Duration) := by
      cases ht : request.timeout with
      | none => rfl
      | some t =>
        rw [Option.elim_some, if_pos (hfits.encodes t ht),
          Duration.fromMillis_asMillis (hfits.encodes t ht) (hfits.whole t ht), Option.getD_some]
    rw [htimeout] at hout
    refine ⟨_, hout, ⟨rfl, rfl, rfl, headers_sentWith hheaders _ _, ?_, ?_⟩,
      (deliver_iff hout).mpr hfits.lease⟩
    · intro t ht
      rw [roundedUp_of_dvd (hfits.whole t ht), sentWith, Option.mem_def.mp ht, Option.getD_some]
    · intro ht
      rw [sentWith, ht, Option.getD_none]

def smallJob (timeout : Duration) : PreparedJob :=
  newJob plainConfigs ⟨"hooks", by decide⟩ [1] (webhookEnqueueRequest "hooks"
    ⟨"u", "PUT", [("A", "1")], some timeout⟩ [1]).options "a" 5

theorem webhook_requests_survive_put :
    ∃ sent, outgoing some {} (smallJob (.fromMillis 15000)).job = .ok sent ∧
      sent.headers.Perm [("A", "1"), ("Webhook-Id", "a")] ∧
      sent.timeout = .fromMillis 15000 := by
  obtain ⟨sent, hs, hsurvives, -⟩ := (webhook_requests_survive some plainConfigs {}
    ⟨"u", "PUT", [("A", "1")], some (.fromMillis 15000)⟩ [1] "hooks" "a" 5
    (smallJob (.fromMillis 15000)) "PUT" true {} 5 none false rfl (by decide) rfl
    (by decide)).mpr ⟨by rintro t ⟨⟩; decide, by rintro t ⟨⟩; decide, by decide⟩
  refine ⟨sent, hs, hsurvives.headers, Duration.ext ?_⟩
  rw [hsurvives.timeout _ rfl, roundedUp_of_dvd (by decide)]

/-- A timeout of 2⁶⁴ milliseconds dead-letters its request. Half a millisecond is no time, and
one and a half are one. -/
theorem webhook_requests_survive_fails :
    (outgoing some {} (smallJob LeaseTime.longDuration).job).map (·.url) =
      .error (.invalidTimeout "18446744073709551616") ∧
    (Error.invalidTimeout "18446744073709551616").isPermanent = true ∧
    (outgoing some {} (smallJob ⟨500000, by decide⟩).job).map (·.timeout.nanos) = .ok 0 ∧
    (outgoing some {} (smallJob ⟨1500000, by decide⟩).job).map (·.timeout.nanos) =
      .ok 1000000 := by
  decide +kernel

end Taquba.Webhooks
