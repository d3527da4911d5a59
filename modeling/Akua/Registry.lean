import Akua.CredentialScope
import Akua.JsonText
import Akua.Lib.Utf8

/-! A Package on its way through a registry. A push is the exchange the distribution API asks for, in
    its order and whatever the registry answers: every message is called for by the ones before it,
    and the manifest goes out only when the registry has accepted both blobs it names. The registry
    itself is what its API promises (`Registry`): it keeps what it accepted, hands it out to who may
    read it, and answers everyone else with a challenge. -/

namespace Akua

open Effect

variable {P : Platform} {φ : Type} {w w' : World φ}

def manifestUrl (parsed : OciReference) (tag : String) : String := parsed.base ++ "/manifests/" ++ tag

def blobUrl (parsed : OciReference) (digest : String) : String := parsed.base ++ "/blobs/" ++ digest

theorem manifestUrl_eq {parsed : OciReference} {tag : String} {manifest : Bytes} :
    manifestUrl parsed tag = (manifestPut parsed tag manifest).url := by
  simp [manifestPut, manifestUrl, OciReference.base, origin, String.append_assoc]

/-- The empty config of a sidecar, and the manifest over it. -/
def emptyConfig : Bytes := encodeText (Value.stringify (.object []))

def sidecarManifest (P : Platform) (mediaType : String) (annotations : List (String × Value)) (payload : Bytes) :
    Bytes :=
  manifestBytes (descriptor P OCI_EMPTY_CONFIG emptyConfig) (sidecarLayer P mediaType annotations payload)

theorem parsed_of_target {reference : String} {parsed : OciReference} (h : target reference = .ok parsed) :
    parseReference reference = some parsed := by
  unfold target at h
  split at h <;> simp_all

/-! ### The messages of a push -/

/-- `request` was sent earlier, and this is how it was answered. -/
def Answered (P : Platform) (history : List HttpRequest) (request : HttpRequest) (response : HttpResponse) : Prop :=
  ∃ before after, history = before ++ request :: after ∧ P.http before request = .ok response

/-- The registry offered this place for an upload to the repository. -/
def Offered (P : Platform) (parsed : OciReference) (history : List HttpRequest) (location : String) : Prop :=
  ∃ start response, Answered P history start response ∧ start.method = "POST" ∧
    start.url = (startRequest parsed).url ∧ response.headers.lookup "location" = some location

/-- The registry accepted these bytes, at a place it had offered. -/
def Accepted (P : Platform) (parsed : OciReference) (history : List HttpRequest) (bytes : Bytes) : Prop :=
  ∃ before put after response location, history = before ++ put :: after ∧ Offered P parsed before location ∧
    put.method = "PUT" ∧ put.url = (putRequest P parsed location bytes).url ∧ put.body = bytes ∧
    P.http before put = .ok response ∧ (response.status = 201 ∨ response.status = 202)

/-- The registry refused an earlier message and named this realm to ask for a token. -/
def Challenged (P : Platform) (history : List HttpRequest) (realm : String) : Prop :=
  ∃ request response challenge, Answered P history request response ∧ response.status = 401 ∧
    bearerChallenge (response.headers.lookup "www-authenticate") = some challenge ∧ challenge.realm = realm

/-- What a push of `manifest` over `blobs` may send after `history`. -/
inductive PushStep (P : Platform) (parsed : OciReference) (tag : String) (blobs : List Bytes) (manifest : Bytes)
    (history : List HttpRequest) (request : HttpRequest) : Prop where
  | token (hmethod : request.method = "GET") (hrealm : Challenged P history request.url)
  | start (hmethod : request.method = "POST") (hurl : request.url = (startRequest parsed).url)
      (hbody : request.body = [])
  | blob (location : String) (hoffered : Offered P parsed history location) (hmethod : request.method = "PUT")
      (hblob : request.body ∈ blobs) (hurl : request.url = (putRequest P parsed location request.body).url)
  | manifest (haccepted : ∀ blob ∈ blobs, Accepted P parsed history blob) (hmethod : request.method = "PUT")
      (hurl : request.url = manifestUrl parsed tag) (hbody : request.body = manifest)

theorem Answered.mono {history later : List HttpRequest} {request : HttpRequest} {response : HttpResponse}
    (h : Answered P history request response) (hlater : history <+: later) :
    Answered P later request response := by
  obtain ⟨before, after, rfl, hanswer⟩ := h
  obtain ⟨more, rfl⟩ := hlater
  exact ⟨before, after ++ more, by simp, hanswer⟩

theorem Offered.mono {parsed : OciReference} {history later : List HttpRequest} {location : String}
    (h : Offered P parsed history location) (hlater : history <+: later) : Offered P parsed later location :=
  let ⟨start, response, hanswered, hrest⟩ := h
  ⟨start, response, hanswered.mono hlater, hrest⟩

theorem Accepted.mono {parsed : OciReference} {history later : List HttpRequest} {bytes : Bytes}
    (h : Accepted P parsed history bytes) (hlater : history <+: later) : Accepted P parsed later bytes := by
  obtain ⟨before, put, after, response, location, rfl, hrest⟩ := h
  obtain ⟨more, rfl⟩ := hlater
  exact ⟨before, put, after ++ more, response, location, by simp, hrest⟩

/-- Whatever `send` sends is the message itself, with some token, or asks a realm for a token. -/
theorem appends_sent {p : List HttpRequest → HttpRequest → Prop} {credentials : CredentialStore}
    {request : SendRequest} {token : Option String}
    (hrequest : ∀ {history} bearer, w.requests <+: history → p history (request.http bearer))
    (hexchange : ∀ {history exchange}, exchange.method = "GET" → Challenged P history exchange.url →
      p history exchange) :
    Appends World.requests p
      (send P credentials request token : Run φ OciPushFailed (HttpResponse × Option String)) w := by
  refine appends_bind (appends_ofExcept _) fun store w₁ hstore => ?_
  obtain ⟨hcredentials, hw₁⟩ := ofExcept_ok.mp hstore
  subst hw₁
  refine appends_bind (appends_mapError (appends_send (hrequest _ (List.prefix_refl _))))
    fun response w₂ hresponse => ?_
  refine appends_ite (fun _ => appends_pure _) fun hstatus => ?_
  obtain ⟨hanswer, hlog⟩ := send_ok (mapError_ok.mp hresponse)
  split
  · exact appends_fail _
  rename_i challenge hchallenge
  have htoken : Appends World.requests p
      (exchangeToken P challenge (store.get? request.registry) : Run φ OciPullFailed String) w₂ :=
    appends_exchangeToken fun exchange hget hurl => hexchange hget
      ⟨_, response, challenge, ⟨w.requests, [], hlog, hanswer⟩, not_not.mp hstatus, hchallenge, hurl.symm⟩
  refine appends_bind (appends_mapError htoken) fun bearer w₃ hbearer =>
    appends_bind (appends_mapError (appends_send (hrequest _ ?_))) fun _ _ _ =>
      appends_ite (fun _ => appends_fail _) fun _ => appends_pure _
  have hgrows := htoken.grows
  rw [mapError_ok.mp hbearer, hlog] at hgrows
  exact (List.prefix_append _ _).trans hgrows

section Push

variable {credentials : CredentialStore} {parsed : OciReference} {tag : String} {blobs : List Bytes}
  {bytes manifest : Bytes} {token token' : Option String}

/-- What answers the start of an upload offers a place. -/
theorem offered_of_sent {response : HttpResponse} {location : String}
    (h : send P credentials (startRequest parsed) token w = (.ok (response, token'), w'))
    (hlocation : response.headers.lookup "location" = some location) : Offered P parsed w'.requests location := by
  obtain ⟨store, before, -, -, -, hlog, hanswer⟩ := upload_ok h
  exact ⟨_, response, ⟨before, [], hlog, hanswer⟩, rfl, rfl, hlocation⟩

theorem appends_uploadSteps (hbytes : bytes ∈ blobs) :
    Appends World.requests (PushStep P parsed tag blobs manifest)
      (uploadBlob P credentials parsed bytes token : Run φ OciPushFailed (Option String)) w := by
  refine appends_bind (appends_sent (fun _ _ => .start rfl rfl rfl) .token) fun ⟨response, token'⟩ w₁ hsent => ?_
  dsimp only
  split
  · exact appends_fail _
  rename_i location hlocation
  have hoffered := offered_of_sent hsent hlocation
  refine appends_bind (appends_sent (fun _ hprefix => .blob location (hoffered.mono hprefix) rfl hbytes rfl) .token)
    fun _ _ _ => ?_
  exact appends_ite (fun _ => appends_fail _) fun _ => appends_pure _

/-- An upload that succeeds was accepted. -/
theorem uploadBlob_ok (h : uploadBlob P credentials parsed bytes token w = (.ok token', w')) :
    ∃ before location response bearer, w.requests <+: before ∧ Offered P parsed before location ∧
      w'.requests = before ++ [(putRequest P parsed location bytes).http bearer] ∧
      P.http before ((putRequest P parsed location bytes).http bearer) = .ok response ∧
      (response.status = 201 ∨ response.status = 202) := by
  obtain ⟨⟨started, token₁⟩, w₁, hstart, h⟩ := bind_ok.mp h
  dsimp only at h
  rcases hlocation : started.headers.lookup "location" with _ | location
  · rw [hlocation] at h; cases h
  rw [hlocation] at h
  obtain ⟨⟨put, token₂⟩, w₂, hput, h⟩ := bind_ok.mp h
  dsimp only at h
  by_cases hstatus : put.status ≠ 201 ∧ put.status ≠ 202
  · rw [if_pos hstatus] at h; cases h
  rw [if_neg hstatus] at h
  cases h
  obtain ⟨_, started', -, hgrows, -, hlog, -⟩ := upload_ok hstart
  obtain ⟨_, before, -, hgrows', -, hlog', hanswer⟩ := upload_ok hput
  refine ⟨before, location, put, _, ?_, (offered_of_sent hstart hlocation).mono hgrows', hlog', hanswer, by tauto⟩
  exact (hgrows.trans (hlog ▸ List.prefix_append _ _)).trans hgrows'

theorem accepted_of_uploadBlob (h : uploadBlob P credentials parsed bytes token w = (.ok token', w')) :
    Accepted P parsed w'.requests bytes := by
  obtain ⟨before, location, response, bearer, -, hoffered, hlog, hanswer, hstatus⟩ := uploadBlob_ok h
  exact ⟨before, _, [], response, location, hlog, hoffered, rfl, rfl, rfl, hanswer, hstatus⟩

theorem uploadBlob_grows (h : uploadBlob P credentials parsed bytes token w = (.ok token', w')) :
    w.requests <+: w'.requests := by
  obtain ⟨before, _, _, _, hgrows, -, hlog, -⟩ := uploadBlob_ok h
  exact hgrows.trans (hlog ▸ List.prefix_append _ _)

theorem appends_pushSteps (layer config : Bytes) :
    Appends World.requests (PushStep P parsed tag [layer, config] manifest)
      (pushArtifact P credentials parsed tag layer config manifest : Run φ OciPushFailed Unit) w := by
  refine appends_bind (appends_uploadSteps (by simp)) fun token w₁ hlayer =>
    appends_bind (appends_uploadSteps (by simp)) fun token' w₂ hconfig => ?_
  have haccepted : ∀ blob ∈ [layer, config], Accepted P parsed w₂.requests blob := by
    intro blob hblob
    rcases List.mem_cons.mp hblob with rfl | hblob
    · exact (accepted_of_uploadBlob hlayer).mono (uploadBlob_grows hconfig)
    · obtain rfl := List.mem_singleton.mp hblob
      exact accepted_of_uploadBlob hconfig
  refine appends_bind (appends_sent (fun _ hprefix =>
    .manifest (fun blob hblob => (haccepted blob hblob).mono hprefix) rfl ?_ rfl) .token) fun _ _ _ =>
    appends_ite (fun _ => appends_fail _) fun _ => appends_pure _
  exact (@manifestUrl_eq parsed tag manifest).symm

/-- A push sends what the messages before it call for, whatever the registry answers and wherever the push breaks
    off: a token is asked for at a realm the registry named, bytes go to a place the registry offered, and the
    manifest goes out only over blobs the registry has accepted. -/
theorem push_order (reference mediaType version : String) (tarball payload : Bytes)
    (annotations : List (String × Value)) :
    Appends World.requests
      (fun history request => ∃ parsed ∈ parseReference reference, PushStep P parsed tag
        [tarball, (publishDigests P tarball version).config] (publishDigests P tarball version).manifest history
        request)
      (pushPackage P credentials reference tag tarball version : Run φ OciPushFailed PublishDigests) w ∧
    Appends World.requests
      (fun history request => ∃ parsed ∈ parseReference reference, PushStep P parsed tag [payload, emptyConfig]
        (sidecarManifest P mediaType annotations payload) history request)
      (pushSidecar P credentials reference tag payload mediaType annotations : Run φ OciPushFailed String) w := by
  constructor <;> refine appends_bind (appends_ofExcept _) fun parsed w₁ htarget => ?_
  all_goals
    have hparsed := parsed_of_target (ofExcept_ok.mp htarget).1
    refine appends_bind (((appends_pushSteps _ _).mono fun _ _ _ _ hstep => ⟨parsed, hparsed, hstep⟩)) fun _ _ _ => ?_
    exact appends_pure _

end Push

/-! ### What a registry promises -/

/-- A GET that is answered with these bytes, whole. -/
def Delivers (P : Platform) (response : HttpResponse) (bytes : Bytes) : Prop :=
  200 ≤ response.status ∧ response.status < 300 ∧ response.body = .ok bytes ∧
    ∀ text, response.headers.lookup "content-length" = some text → P.toNumber text = toString bytes.length

/-- A registry that serves a repository: what it holds is what it accepted, and whoever may read gets it. -/
structure Registry (P : Platform) (parsed : OciReference) where
  /-- The bytes under a url of the repository, after these requests. -/
  held : List HttpRequest → String → Option Bytes
  /-- The requests it answers without a challenge. -/
  Grants : HttpRequest → Prop
  challenge : Challenge
  /-- Blobs stay as they are, whatever is asked or put. -/
  blob_kept : ∀ {history request digest bytes}, request.method ≠ "DELETE" →
    held history (blobUrl parsed digest) = some bytes →
    held (history ++ [request]) (blobUrl parsed digest) = some bytes
  /-- A tag changes when another manifest is put there. -/
  manifest_kept : ∀ {history request tag}, request.method ≠ "DELETE" →
    (request.method = "PUT" → request.url ≠ manifestUrl parsed tag) →
    held (history ++ [request]) (manifestUrl parsed tag) = held history (manifestUrl parsed tag)
  /-- An upload does not go to where a manifest stands. -/
  upload_elsewhere : ∀ {history location bytes tag}, Offered P parsed history location →
    (putRequest P parsed location bytes).url ≠ manifestUrl parsed tag
  blob_put : ∀ {history location bytes bearer response}, Offered P parsed history location →
    P.http history ((putRequest P parsed location bytes).http bearer) = .ok response →
    response.status = 201 ∨ response.status = 202 →
    ∃ stored, held (history ++ [(putRequest P parsed location bytes).http bearer])
      (blobUrl parsed (sha256 P bytes)) = some stored ∧ sha256 P stored = sha256 P bytes
  manifest_put : ∀ {history tag manifest bearer response},
    P.http history ((manifestPut parsed tag manifest).http bearer) = .ok response →
    200 ≤ response.status → response.status < 300 →
    held (history ++ [(manifestPut parsed tag manifest).http bearer]) (manifestUrl parsed tag) = some manifest
  served : ∀ {history request bytes}, request.method = "GET" → held history request.url = some bytes →
    Grants request → ∃ response, P.http history request = .ok response ∧ Delivers P response bytes
  challenged : ∀ {history request bytes}, request.method = "GET" → held history request.url = some bytes →
    ¬ Grants request → ∃ response, P.http history request = .ok response ∧ response.status = 401 ∧
      bearerChallenge (response.headers.lookup "www-authenticate") = some challenge
  /-- Each exchange gives a token, and whoever shows it may read. -/
  exchanged : ∀ {history request}, request.method = "GET" → request.url = challenge.realm →
    ∃ token response bytes, token ≠ "" ∧
      (∀ shown : HttpRequest, ("Authorization", "Bearer " ++ token) ∈ shown.headers → Grants shown) ∧
      P.http history request = .ok response ∧ Delivers P response bytes ∧
      bytes.length ≤ MAX_MANIFEST_BYTES ∧ decodeToken P (decodeText P bytes) = .ok token

section Reads

/-- A byte count is read off its digits. -/
theorem exceeds_toString (n limit : Nat) : Number.exceeds (toString n) limit = decide (limit < n) := by
  have hdigits : ∀ c ∈ (toString n).toList, c.isDigit = true := by
    intro c hc
    rw [Nat.toString_eq_ofList_toDigits, String.toList_ofList] at hc
    exact Nat.isDigit_of_mem_toDigits (by decide) (by decide) hc
  have hvalue : (toString n).toList.foldl (fun v c => v * 10 + (c.toNat - '0'.toNat)) 0 = n := by
    rw [Nat.toString_eq_ofList_toDigits, String.toList_ofList]
    refine Eq.trans ?_ (@Nat.ofDigitChars_ten_toDigits n)
    simp only [Nat.ofDigitChars, Nat.mul_comm]
  have htake : (toString n).toList.takeWhile Char.isDigit = (toString n).toList :=
    List.takeWhile_eq_self_iff.mpr hdigits
  have hdrop : (toString n).toList.drop (toString n).toList.length = [] := List.drop_length
  have hword : (toString n : Number) ≠ "Infinity" := by
    intro h
    have := hdigits 'I' (by rw [h]; decide)
    exact absurd this (by decide)
  rw [Number.exceeds]
  simp only [htake, hvalue, hdrop, decide_eq_false hword, Bool.false_or]
  obtain ⟨c, cs, hcs⟩ := List.exists_cons_of_ne_nil (Naming.toString_ne_nil n)
  simp only [hcs]

theorem readBounded_delivered {response : HttpResponse} {bytes : Bytes} {url : String} {limit : Nat}
    {status : Nat → String → String} (h : Delivers P response bytes) (hlimit : bytes.length ≤ limit) :
    readBounded P response url limit status = .ok bytes := by
  obtain ⟨hlow, hhigh, hbody, hlength⟩ := h
  have hstatus : ¬ (response.status < 200 ∨ 300 ≤ response.status) := by omega
  have hdeclared :
      ¬ ((response.headers.lookup "content-length").map P.toNumber).any (Number.exceeds · limit) = true := by
    rcases hlookup : response.headers.lookup "content-length" with _ | text
    · simp
    · rw [Option.map_some, hlength text hlookup, Option.any_some, exceeds_toString]
      simpa using hlimit
  rw [readBounded, if_neg hstatus, if_neg hdeclared, hbody]
  exact if_neg (by omega)

variable {parsed : OciReference} {credentials : CredentialStore} {store : Table String Credentials}
  {request : GetRequest} {token : Option String} {bytes : Bytes}

theorem body_delivered {response : HttpResponse} {url : String} {limit : Nat} (h : Delivers P response bytes)
    (hlimit : bytes.length ≤ limit) : body P response url limit = .ok bytes := by
  rw [body, readBounded_delivered h hlimit]
  rfl

theorem status_delivered {response : HttpResponse} (h : Delivers P response bytes) : response.status ≠ 401 := by
  have := h.2.1
  omega

/-- What an attempt sends. -/
def GetRequest.http (request : GetRequest) (configured : Option Credentials) (bearer : Option String) :
    HttpRequest where
  url := request.url
  headers := (if request.accept = [] then [] else [("Accept", ", ".intercalate request.accept)]) ++
    ((bearerOf configured bearer).map fun t => [("Authorization", "Bearer " ++ t)]).getD []

theorem attempt_run {configured : Option Credentials} {bearer : Option String} {response : HttpResponse}
    (h : P.http w.requests (request.http configured bearer) = .ok response) :
    attempt P request configured bearer w =
      (.ok response, { w with requests := w.requests ++ [request.http configured bearer] }) := by
  show ((P.http w.requests (request.http configured bearer)).mapError _, _) = _
  rw [h]
  rfl

/-- A token is asked for, and comes. -/
theorem exchangeToken_served (R : Registry P parsed) (configured : Option Credentials) (w : World φ) :
    ∃ (exchange : HttpRequest) (issued : String), exchange.method = "GET" ∧
      (∀ shown : HttpRequest, ("Authorization", "Bearer " ++ issued) ∈ shown.headers → R.Grants shown) ∧
      exchangeToken P R.challenge configured w =
        (.ok issued, { w with requests := w.requests ++ [exchange] }) := by
  rw [exchangeToken]
  generalize (R.challenge.service.map fun s => [("service", s)]).getD [] ++
    (R.challenge.scope.map fun s => [("scope", s)]).getD [] = params
  generalize (configured.map fun c => [("Authorization", authorization c)]).getD [] = headers
  obtain ⟨issued, response, bytes, hne, hgrants, hanswer, hdelivers, hlimit, hdecode⟩ :=
    @Registry.exchanged _ _ R w.requests { url := R.challenge.realm, params, headers } rfl rfl
  refine ⟨{ url := R.challenge.realm, params, headers }, issued, rfl, hgrants, ?_⟩
  have hexchange : exchange P { url := R.challenge.realm, params, headers } w =
      (.ok response, { w with requests := w.requests ++ [{ url := R.challenge.realm, params, headers }] }) := by
    show ((P.http w.requests _).mapError _, _) = _
    rw [hanswer]
    rfl
  refine (bind_of_ok hexchange).trans ((bind_of_ok (ofExcept_ok.mpr ⟨body_delivered hdelivers hlimit, rfl⟩)).trans
    ((bind_of_ok (ofExcept_ok.mpr ⟨except_mapError_ok.mpr hdecode, rfl⟩)).trans ?_))
  rw [if_neg hne]
  rfl

/-- What a registry holds, a GET brings, if need be with a token it asks for. -/
theorem get_held (R : Registry P parsed) (hstore : credentials = .ok store)
    (hheld : ∀ more, (∀ r ∈ more, r.method = "GET") → R.held (w.requests ++ more) request.url = some bytes)
    (hlimit : bytes.length ≤ request.limit) : ∃ token' more, (∀ r ∈ more, r.method = "GET") ∧
      get P credentials request token w = (.ok (bytes, token'), { w with requests := w.requests ++ more }) := by
  have hstored : (Effect.ofExcept credentials : Run φ OciPullFailed _) w = (.ok store, w) := by rw [hstore]; rfl
  have hreads : ∀ bearer, (request.http (store.get? request.registry) bearer).method = "GET" := fun _ => rfl
  have hfirst := hheld [] (by simp)
  rw [List.append_nil] at hfirst
  by_cases hgrants : R.Grants (request.http (store.get? request.registry) token)
  · obtain ⟨response, hanswer, hdelivers⟩ := R.served (hreads token) hfirst hgrants
    refine ⟨token, [request.http (store.get? request.registry) token], by simp [hreads], ?_⟩
    refine (bind_of_ok hstored).trans ((bind_of_ok (attempt_run hanswer)).trans ?_)
    rw [if_pos (status_delivered hdelivers)]
    exact (bind_of_ok (ofExcept_ok.mpr ⟨body_delivered hdelivers hlimit, rfl⟩)).trans rfl
  · obtain ⟨first, hanswer, hstatus, hchallenge⟩ := R.challenged (hreads token) hfirst hgrants
    obtain ⟨exchange, issued, hmethod, hgranted, hexchange⟩ := exchangeToken_served R (store.get? request.registry)
      { w with requests := w.requests ++ [request.http (store.get? request.registry) token] }
    have hagain := hheld [request.http (store.get? request.registry) token, exchange] (by simp [hreads, hmethod])
    obtain ⟨response, hanswer', hdelivers⟩ := @Registry.served _ _ R
      ((w.requests ++ [request.http (store.get? request.registry) token]) ++ [exchange])
      (request.http (store.get? request.registry) (some issued)) bytes rfl
      (by rwa [List.append_assoc]) (hgranted _ (by simp [GetRequest.http, bearerOf]))
    refine ⟨some issued, [request.http (store.get? request.registry) token, exchange,
      request.http (store.get? request.registry) (some issued)], by simp [hreads, hmethod], ?_⟩
    refine (bind_of_ok hstored).trans ((bind_of_ok (attempt_run hanswer)).trans ?_)
    rw [if_neg (not_not.mpr hstatus), hchallenge]
    refine (bind_of_ok hexchange).trans ((bind_of_ok (attempt_run hanswer')).trans ?_)
    rw [if_neg (status_delivered hdelivers)]
    refine (bind_of_ok (ofExcept_ok.mpr ⟨body_delivered hdelivers hlimit, rfl⟩)).trans ?_
    simp

end Reads

/-! ### What a push leaves at the registry -/

section Held

variable {parsed : OciReference} {credentials : CredentialStore} {history more : List HttpRequest} {tag : String}
  {bytes manifest : Bytes} {token token' : Option String}

theorem Registry.blob_stays (R : Registry P parsed) {digest : String} (hmore : ∀ r ∈ more, r.method ≠ "DELETE")
    (h : R.held history (blobUrl parsed digest) = some bytes) :
    R.held (history ++ more) (blobUrl parsed digest) = some bytes := by
  induction more generalizing history with
  | nil => rwa [List.append_nil]
  | cons r more ih =>
    have hstep := R.blob_kept (hmore r List.mem_cons_self) h
    have hrest := ih (fun r hr => hmore r (List.mem_cons_of_mem _ hr)) hstep
    rwa [List.append_assoc] at hrest

/-- None of these takes the tag's manifest away or puts another there. -/
def LeavesTag (parsed : OciReference) (tag : String) (requests : List HttpRequest) : Prop :=
  ∀ r ∈ requests, r.method ≠ "DELETE" ∧ (r.method = "PUT" → r.url ≠ manifestUrl parsed tag)

theorem LeavesTag.of_reads (h : ∀ r ∈ more, r.method = "GET") : LeavesTag parsed tag more := fun r hr => by
  rw [h r hr]
  exact ⟨by decide, fun hput => absurd hput (by decide)⟩

theorem Registry.manifest_stays (R : Registry P parsed) (hmore : LeavesTag parsed tag more) :
    R.held (history ++ more) (manifestUrl parsed tag) = R.held history (manifestUrl parsed tag) := by
  induction more generalizing history with
  | nil => rw [List.append_nil]
  | cons r more ih =>
    obtain ⟨hdelete, hput⟩ := hmore r List.mem_cons_self
    have hrest := @ih (history ++ [r]) fun r hr => hmore r (List.mem_cons_of_mem _ hr)
    rw [List.append_assoc, List.singleton_append] at hrest
    rw [hrest, R.manifest_kept hdelete hput]

theorem allAfter_const {ρ : Type} {p : ρ → Prop} {before new : List ρ} (h : AllAfter (fun _ r => p r) before new) :
    ∀ r ∈ new, p r := by
  intro r hr
  obtain ⟨a, b, rfl⟩ := List.append_of_mem hr
  exact allAfter_iff.mp h a r b rfl

/-- What a run that succeeds has sent. -/
theorem sent_of_ok {α ε : Type} {p : HttpRequest → Prop} {m : Run φ ε α} {a : α}
    (h : Appends World.requests (fun _ r => p r) m w) (hm : m w = (.ok a, w')) :
    ∃ more, w'.requests = w.requests ++ more ∧ ∀ r ∈ more, p r := by
  obtain ⟨more, hmore, hall⟩ := h
  rw [hm] at hmore
  exact ⟨more, hmore, allAfter_const hall⟩

theorem PushStep.not_delete {blobs : List Bytes} {request : HttpRequest}
    (h : PushStep P parsed tag blobs manifest history request) : request.method ≠ "DELETE" := by
  rcases h with ⟨h, -⟩ | ⟨h, -, -⟩ | ⟨-, -, h, -, -⟩ | ⟨-, h, -, -⟩ <;> rw [h] <;> decide

theorem held_of_uploadBlob (R : Registry P parsed)
    (h : uploadBlob P credentials parsed bytes token w = (.ok token', w')) :
    ∃ stored, R.held w'.requests (blobUrl parsed (sha256 P bytes)) = some stored ∧
      sha256 P stored = sha256 P bytes := by
  obtain ⟨before, location, response, bearer, -, hoffered, hlog, hanswer, hstatus⟩ := uploadBlob_ok h
  obtain ⟨stored, hstored, hdigest⟩ := R.blob_put hoffered hanswer hstatus
  exact ⟨stored, hlog ▸ hstored, hdigest⟩

theorem putManifest_ok (h : putManifest P credentials parsed tag manifest token w = (.ok (), w')) :
    ∃ before response bearer, w.requests <+: before ∧
      w'.requests = before ++ [(manifestPut parsed tag manifest).http bearer] ∧
      P.http before ((manifestPut parsed tag manifest).http bearer) = .ok response ∧
      200 ≤ response.status ∧ response.status < 300 := by
  obtain ⟨⟨response, token'⟩, w₁, hsent, h⟩ := bind_ok.mp h
  dsimp only at h
  by_cases hstatus : response.status < 200 ∨ 300 ≤ response.status
  · rw [if_pos hstatus] at h; cases h
  rw [if_neg hstatus] at h
  cases h
  obtain ⟨_, before, -, hgrows, -, hlog, hanswer⟩ := upload_ok hsent
  exact ⟨before, response, _, hgrows, hlog, hanswer, by omega, by omega⟩

/-- After a push that succeeded the tag is the manifest, and the blob of the layer is there. -/
theorem held_of_push (R : Registry P parsed) {layer config : Bytes}
    (h : pushArtifact P credentials parsed tag layer config manifest w = (.ok (), w')) :
    R.held w'.requests (manifestUrl parsed tag) = some manifest ∧
      ∃ stored, R.held w'.requests (blobUrl parsed (sha256 P layer)) = some stored ∧
        sha256 P stored = sha256 P layer := by
  obtain ⟨token, w₁, hlayer, h⟩ := bind_ok.mp h
  obtain ⟨token', w₂, hconfig, hput⟩ := bind_ok.mp h
  obtain ⟨before, response, bearer, -, hlog, hanswer, hlow, hhigh⟩ := putManifest_ok hput
  obtain ⟨stored, hstored, hdigest⟩ := held_of_uploadBlob R hlayer
  refine ⟨hlog ▸ R.manifest_put hanswer hlow hhigh, stored, ?_, hdigest⟩
  -- nothing that is sent after the layer takes it away
  have hupload : Appends World.requests (fun _ r => r.method ≠ "DELETE")
      (uploadBlob P credentials parsed config token : Run φ OciPushFailed (Option String)) w₁ :=
    (@appends_uploadSteps P φ w₁ credentials parsed tag [config] config manifest token (by simp)).mono
      fun _ _ _ _ hstep => hstep.not_delete
  have hmanifest : Appends World.requests (fun _ r => r.method ≠ "DELETE")
      (putManifest P credentials parsed tag manifest token' : Run φ OciPushFailed Unit) w₂ :=
    appends_bind (appends_sent (fun _ _ => show "PUT" ≠ "DELETE" by decide) fun hget _ => by rw [hget]; decide)
      fun _ _ _ => appends_ite (fun _ => appends_fail _) fun _ => appends_pure _
  obtain ⟨more, hmore, hkept⟩ := sent_of_ok hupload hconfig
  obtain ⟨more', hmore', hkept'⟩ := sent_of_ok hmanifest hput
  rw [hmore', hmore]
  exact R.blob_stays hkept' (R.blob_stays hkept hstored)

theorem manifestUrl_injective {tag tag' : String} (h : manifestUrl parsed tag = manifestUrl parsed tag') :
    tag = tag' := by
  have hchars := congrArg String.toList h
  simp only [manifestUrl, String.toList_append, List.append_cancel_left_eq] at hchars
  exact String.toList_inj.mp hchars

/-- A push leaves the other tags as they are. -/
theorem leavesTag_of_push (R : Registry P parsed) {layer config : Bytes}
    (h : pushArtifact P credentials parsed tag layer config manifest w = (.ok (), w')) :
    ∃ more, w'.requests = w.requests ++ more ∧ ∀ tag', tag' ≠ tag → LeavesTag parsed tag' more := by
  obtain ⟨more, hmore, hall⟩ := @appends_pushSteps P φ w credentials parsed tag manifest layer config
  rw [h] at hmore
  refine ⟨more, hmore, fun tag' hne r hr => ?_⟩
  obtain ⟨a, b, rfl⟩ := List.append_of_mem hr
  have hstep := allAfter_iff.mp hall a r b rfl
  refine ⟨hstep.not_delete, fun hput hurl => ?_⟩
  rcases hstep with ⟨hmethod, -⟩ | ⟨hmethod, -, -⟩ | ⟨location, hoffered, -, -, hplace⟩ | ⟨-, -, hplace, -⟩
  · rw [hmethod] at hput; exact absurd hput (by decide)
  · rw [hmethod] at hput; exact absurd hput (by decide)
  · exact R.upload_elsewhere hoffered (hplace.symm.trans hurl)
  · exact hne (manifestUrl_injective (hurl.symm.trans hplace))

end Held

end Akua
