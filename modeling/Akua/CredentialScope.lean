import Mathlib.Data.List.TakeWhile
import Akua.Lib.Disk
import Akua.Lib.History
import Akua.OciPush

/-! Registry credentials stay with their registry. A request may carry the credentials configured
    for a registry, or a token they bought, to that registry's host and, in the token exchange, to
    the realm the registry's challenge names. Every URL a pull builds is on the host; the one a
    registry chooses itself is the `Location` of an upload, which is followed with the registry's
    auth wherever it leads. -/

namespace Akua

open Effect

variable (P : Platform)

/-! ### Hosts -/

def isUrlSlash (c : Char) : Bool := c = '/' || c = '\\'

/-- What ends the authority of an `http` URL. -/
def endsAuthority (c : Char) : Bool := isUrlSlash c || c = '?' || c = '#'

/-- The authority in what follows the scheme: any number of slashes, then up to its end. -/
def authority (afterScheme : List Char) : List Char :=
  (afterScheme.dropWhile isUrlSlash).takeWhile fun c => !endsAuthority c

/-- What stands behind the last `@` of an authority. -/
def withoutUser (authority : List Char) : List Char :=
  (authority.reverse.takeWhile (· ≠ '@')).reverse

/-- Tabs and line breaks are dropped from a URL before it is read. -/
def urlChars (url : String) : List Char := url.toList.filter fun c => c ∉ ['\t', '\n', '\r']

/-- The host, with its port, that a request for an `http` or `https` URL goes to. -/
def hostOf (url : String) : String :=
  P.canonicalHost (String.ofList ((urlChars url).takeWhile (· ≠ ':')))
    (String.ofList (withoutUser (authority (((urlChars url).dropWhile (· ≠ ':')).drop 1))))

/-- The URL is on the host of the registry's API. -/
def OnHost (registry url : String) : Prop := hostOf P url = hostOf P (origin registry ++ "/v2/")

instance (registry url : String) : Decidable (OnHost P registry url) := inferInstanceAs (Decidable (_ = _))

/-! ### What a request carries -/

/-- After `history`, the header is the credentials themselves, or a token that an exchange they
    were sent with was answered with. -/
def Secret (c : Credentials) (history : List HttpRequest) (value : String) : Prop :=
  value = authorization c ∨
    ∃ before asked response bytes token, before ++ [asked] <+: history ∧
      ("Authorization", authorization c) ∈ asked.headers ∧ P.http before asked = .ok response ∧
      body P response asked.url MAX_MANIFEST_BYTES = .ok bytes ∧
      decodeToken P (decodeText P bytes) = .ok token ∧ value = "Bearer " ++ token

def CarriesSecret (c : Credentials) (history : List HttpRequest) (request : HttpRequest) : Prop :=
  ∃ value, ("Authorization", value) ∈ request.headers ∧ Secret P c history value

/-- The request exchanges a token at the realm that the registry's challenge, the answer to the
    request before it, names. -/
def ExchangesToken (registry : String) (history : List HttpRequest) (request : HttpRequest) : Prop :=
  ∃ before asked response challenge, history = before ++ [asked] ∧ OnHost P registry asked.url ∧
    P.http before asked = .ok response ∧ response.status = 401 ∧
    bearerChallenge (response.headers.lookup "www-authenticate") = some challenge ∧
    request.method = "GET" ∧ request.url = challenge.realm

/-- What is sent keeps the registry's credentials with the registry. -/
def StaysWith (registry : String) (c : Credentials) (history : List HttpRequest)
    (request : HttpRequest) : Prop :=
  CarriesSecret P c history request →
    OnHost P registry request.url ∨ ExchangesToken P registry history request

/-- The request starts an upload, and the `Location` in its answer is off the registry's host. -/
def Strays (registry : String) (history : List HttpRequest) (request : HttpRequest) : Prop :=
  request.method = "POST" ∧ ∃ response location, P.http history request = .ok response ∧
    response.status ≠ 401 ∧ response.headers.lookup "location" = some location ∧
    ¬OnHost P registry (uploadUrl registry location)

/-- Since `start`, wherever an upload was led off the registry's host, nothing was at hand to send
    there (the upload was started without any auth), and the host it was led to did not ask for it. -/
def Harmless (registry : String) (start log : List HttpRequest) : Prop :=
  ∀ before asked after, log = before ++ asked :: after → start <+: before →
    Strays P registry before asked →
      (∀ value, ("Authorization", value) ∉ asked.headers) ∧
      ∀ put rest, after = put :: rest → ∀ response, P.http (before ++ [asked]) put = .ok response →
        response.status = 401 → bearerChallenge (response.headers.lookup "www-authenticate") = none

/-- A log with nothing harmful had nothing harmful before. -/
theorem Harmless.of_prefix {P : Platform} {registry : String} {start log log' : List HttpRequest}
    (h : Harmless P registry start log') (hlog : log <+: log') : Harmless P registry start log := by
  obtain ⟨more, rfl⟩ := hlog
  rintro before asked after rfl hstart hstrays
  obtain ⟨hauth, hput⟩ := h before asked (after ++ more) (by simp) hstart hstrays
  refine ⟨hauth, fun put rest hafter => hput put (rest ++ more) (by simp [hafter])⟩

/-! ### URLs on the host -/

section Urls

variable {P : Platform} {registry : String}

theorem scheme_cases (registry : String) : scheme registry = "http" ∨ scheme registry = "https" := by
  unfold scheme
  exact (ite_eq_or_eq _ _ _)

/-- An authority that has ended stays the same, whatever follows. -/
theorem authority_append {t x : List Char} (h : ∃ c ∈ t.dropWhile isUrlSlash, endsAuthority c) :
    authority (t ++ x) = authority t := by
  obtain ⟨c, hc, hends⟩ := h
  have hdrop : (t ++ x).dropWhile isUrlSlash = t.dropWhile isUrlSlash ++ x := by
    rw [List.dropWhile_append, if_neg]
    intro hempty
    rw [List.isEmpty_iff.mp hempty] at hc
    exact List.not_mem_nil hc
  unfold authority
  rw [hdrop, List.takeWhile_append, if_neg]
  intro hall
  have hself : (t.dropWhile isUrlSlash).takeWhile (fun c => !endsAuthority c) =
      t.dropWhile isUrlSlash :=
    (List.takeWhile_prefix _).eq_of_length hall
  have := List.takeWhile_eq_self_iff.mp hself c hc
  rw [hends] at this
  cases this

/-- A query ends the authority, also where it was the text that ended. -/
theorem authority_query (t x : List Char) : authority (t ++ '?' :: x) = authority t := by
  have hquestion : isUrlSlash '?' = false := by decide
  unfold authority
  rw [List.dropWhile_append]
  split
  · rename_i hempty
    rw [List.isEmpty_iff.mp hempty, List.dropWhile_cons_of_neg (by simp [hquestion])]
    rfl
  · rw [List.takeWhile_append]
    split
    · rename_i hall
      rw [(List.takeWhile_prefix _).eq_of_length hall,
        List.takeWhile_cons_of_neg (by decide), List.append_nil]
    · rfl

theorem urlChars_append (a b : String) : urlChars (a ++ b) = urlChars a ++ urlChars b := by
  simp [urlChars]

/-- Behind a scheme, the host is what the authority makes it. -/
theorem hostOf_congr {s a b : String} (hs : s = "http" ∨ s = "https")
    (h : authority (urlChars a) = authority (urlChars b)) :
    hostOf P (s ++ "://" ++ a) = hostOf P (s ++ "://" ++ b) := by
  have hslash : ∀ x, authority ('/' :: '/' :: x) = authority x := by
    intro x
    unfold authority
    rw [List.dropWhile_cons_of_pos (by decide), List.dropWhile_cons_of_pos (by decide)]
  have hscheme : ∀ x, (urlChars (s ++ "://" ++ x)).takeWhile (· ≠ ':') = s.toList ∧
      authority (((urlChars (s ++ "://" ++ x)).dropWhile (· ≠ ':')).drop 1) =
        authority (urlChars x) := by
    intro x
    have hchars : urlChars (s ++ "://" ++ x) = s.toList ++ ':' :: '/' :: '/' :: urlChars x := by
      rcases hs with rfl | rfl <;> simp [urlChars]
    have hfree : ∀ c ∈ s.toList, decide (c ≠ ':') = true := by
      rcases hs with rfl | rfl <;> simp
    rw [hchars, List.takeWhile_append_of_pos hfree, List.dropWhile_append_of_pos hfree]
    exact ⟨by simp, by simpa using hslash _⟩
  unfold hostOf
  rw [(hscheme a).1, (hscheme b).1, (hscheme a).2, (hscheme b).2, h]

/-- Every URL under the registry's API is on its host. -/
theorem onHost_api (path : String) : OnHost P registry (origin registry ++ "/v2/" ++ path) := by
  have hends : ∃ c ∈ (urlChars (registry ++ "/v2/")).dropWhile isUrlSlash, endsAuthority c := by
    have hchars : urlChars (registry ++ "/v2/") = urlChars registry ++ ['/', 'v', '2', '/'] :=
      urlChars_append _ _
    rw [hchars, List.dropWhile_append]
    split
    · exact ⟨'/', by decide, by decide⟩
    · exact ⟨'/', by simp, by decide⟩
  have hauthority : authority (urlChars (registry ++ "/v2/" ++ path)) =
      authority (urlChars (registry ++ "/v2/")) := by
    rw [urlChars_append, authority_append hends]
  have := hostOf_congr (P := P) (scheme_cases registry) hauthority
  simpa [OnHost, origin, String.append_assoc] using this

/-- A place of its own has been given its scheme. -/
theorem uploadUrl_eq (registry location : String) : ∃ s rest, (s = "http" ∨ s = "https") ∧
    uploadUrl registry location = s ++ "://" ++ rest := by
  unfold uploadUrl
  split
  · rename_i habsolute
    rcases Bool.or_eq_true_iff.mp habsolute with h | h
    · obtain ⟨rest, rfl⟩ := Text.startsWith_iff.mp h
      exact ⟨"http", rest, .inl rfl, congrArg (· ++ rest) (by decide)⟩
    · obtain ⟨rest, rfl⟩ := Text.startsWith_iff.mp h
      exact ⟨"https", rest, .inr rfl, congrArg (· ++ rest) (by decide)⟩
  · exact ⟨scheme registry, registry ++ location, scheme_cases registry, by
      simp only [origin, String.append_assoc]⟩

/-- Where a `Location` leads, its bytes are put. -/
theorem hostOf_putRequest (target : OciReference) (location : String) (bytes : Bytes) :
    hostOf P (putRequest P target location bytes).url =
      hostOf P (uploadUrl target.registry location) := by
  obtain ⟨s, rest, hs, hurl⟩ := uploadUrl_eq target.registry location
  have happ : ∀ x y : String, s ++ "://" ++ rest ++ x ++ "digest=" ++ y =
      s ++ "://" ++ (rest ++ (x ++ "digest=" ++ y)) := fun x y => by
    simp only [String.append_assoc]
  simp only [putRequest, hurl, happ]
  refine hostOf_congr hs ?_
  rw [urlChars_append]
  by_cases hquery : '?' ∈ (s ++ "://" ++ rest).toList
  · have hrest : '?' ∈ urlChars rest := by
      rcases hs with rfl | rfl <;> simpa [urlChars] using hquery
    rw [if_pos hquery]
    refine authority_append ⟨'?', ?_, by decide⟩
    rw [← List.takeWhile_append_dropWhile (p := isUrlSlash) (l := urlChars rest),
      List.mem_append] at hrest
    refine hrest.resolve_left fun htaken => ?_
    exact absurd (List.mem_takeWhile_imp htaken) (by decide)
  · rw [if_neg hquery]
    have hchars : urlChars ("?" ++ "digest=" ++ sha256 P bytes) =
        '?' :: urlChars ("digest=" ++ sha256 P bytes) := by
      rw [String.append_assoc, urlChars_append]
      rfl
    rw [hchars, authority_query]

end Urls

/-! ### What the requests of an exchange carry -/

section Requests

variable {P : Platform} {φ : Type} {registry : String} {c : Credentials} {w w' : World φ}

theorem staysWith_of_onHost {history : List HttpRequest} {request : HttpRequest}
    (h : OnHost P registry request.url) : StaysWith P registry c history request := fun _ => .inl h

/-- Without an `Authorization` header nothing is carried anywhere. -/
theorem staysWith_of_bare {history : List HttpRequest} {request : HttpRequest}
    (h : ∀ value, ("Authorization", value) ∉ request.headers) :
    StaysWith P registry c history request := fun ⟨value, hvalue, _⟩ => absurd hvalue (h value)

theorem appends_send {p : List HttpRequest → HttpRequest → Prop} {request : HttpRequest}
    (h : p w.requests request) :
    Appends World.requests p (Run.send P request : Run φ String HttpResponse) w :=
  appends_of_one rfl h

theorem send_ok {request : HttpRequest} {response : HttpResponse}
    (h : Run.send P request w = (.ok response, w')) :
    P.http w.requests request = .ok response ∧ w'.requests = w.requests ++ [request] := by
  obtain ⟨hanswer, hw⟩ := Prod.mk.injEq .. ▸ h
  exact ⟨hanswer, by rw [← hw]⟩

/-- A token exchange sends one request, to the realm. -/
theorem appends_exchangeToken {p : List HttpRequest → HttpRequest → Prop} {challenge : Challenge}
    {configured : Option Credentials}
    (h : ∀ request : HttpRequest, request.method = "GET" → request.url = challenge.realm →
      p w.requests request) :
    Appends World.requests p (exchangeToken P challenge configured : Run φ OciPullFailed String) w := by
  refine appends_bind (appends_mapError (appends_send (h _ rfl rfl))) fun response w₁ _ =>
    appends_bind (appends_ofExcept _) fun bytes w₂ _ =>
      appends_bind (appends_ofExcept _) fun token w₃ _ => ?_
  split
  · exact appends_fail _
  · exact appends_pure _

/-- Every request of a GET on the host stays with the registry. -/
theorem appends_get {credentials : CredentialStore} {request : GetRequest} {token : Option String}
    (h : OnHost P registry request.url) :
    Appends World.requests (StaysWith P registry c)
      (get P credentials request token : Run φ OciPullFailed (Bytes × Option String)) w := by
  have hattempt : ∀ configured bearer (w : World φ), Appends World.requests (StaysWith P registry c)
      (attempt P request configured bearer : Run φ OciPullFailed HttpResponse) w :=
    fun _ _ w => appends_mapError (appends_send (staysWith_of_onHost h))
  refine appends_bind (appends_ofExcept _) fun store w₁ _ =>
    appends_bind (hattempt _ _ _) fun response w₂ hresponse => ?_
  refine appends_ite (fun _ => appends_bind (appends_ofExcept _) fun _ _ _ => appends_pure _)
    fun hstatus => ?_
  obtain ⟨hanswer, hlog⟩ := send_ok (mapError_ok.mp hresponse)
  split
  · exact appends_fail _
  rename_i challenge hchallenge
  -- the challenge is the registry's: it answers the request just sent to its host
  refine appends_bind (appends_exchangeToken fun exchange hget hurl _ => .inr
    ⟨_, _, response, challenge, hlog, h, hanswer, not_not.mp hstatus, hchallenge, hget, hurl⟩)
    fun bearer w₃ _ => appends_bind (hattempt _ _ _) fun response' w₄ _ => ?_
  exact appends_ite (fun _ => appends_fail _) fun _ =>
    appends_bind (appends_ofExcept _) fun _ _ _ => appends_pure _

/-- The requests of an upload step: the first attempt, and where a challenge answers it the token
    exchange and the second attempt. -/
theorem appends_upload {p : List HttpRequest → HttpRequest → Prop} {credentials : CredentialStore}
    {request : SendRequest} {token : Option String}
    (hfirst : ∀ store, credentials = .ok store →
      p w.requests (request.http (bearerOf (store.get? request.registry) token)))
    (hexchange : ∀ first response challenge, first.url = request.url →
      P.http w.requests first = .ok response → response.status = 401 →
      bearerChallenge (response.headers.lookup "www-authenticate") = some challenge →
      (∀ exchange : HttpRequest, exchange.method = "GET" → exchange.url = challenge.realm →
        p (w.requests ++ [first]) exchange) ∧
      ∀ history second, w.requests ++ [first] <+: history → second.url = request.url →
        p history second) :
    Appends World.requests p
      (send P credentials request token : Run φ OciPushFailed (HttpResponse × Option String)) w := by
  refine appends_bind (appends_ofExcept _) fun store w₁ hstore => ?_
  obtain ⟨hcredentials, hw₁⟩ := ofExcept_ok.mp hstore
  subst hw₁
  refine appends_bind (appends_mapError (appends_send (hfirst store
    (except_mapError_ok.mp hcredentials)))) fun response w₂ hresponse => ?_
  refine appends_ite (fun _ => appends_pure _) fun hstatus => ?_
  obtain ⟨hanswer, hlog⟩ := send_ok (mapError_ok.mp hresponse)
  split
  · exact appends_fail _
  rename_i challenge hchallenge
  obtain ⟨hrealm, hsecond⟩ :=
    hexchange _ response challenge rfl hanswer (not_not.mp hstatus) hchallenge
  have htoken : Appends World.requests p
      (exchangeToken P challenge (store.get? request.registry) : Run φ OciPullFailed String) w₂ :=
    appends_exchangeToken fun exchange hget hurl => hlog ▸ hrealm exchange hget hurl
  refine appends_bind (appends_mapError htoken) fun bearer w₃ hbearer =>
    appends_bind (appends_mapError (appends_send (hsecond _ _ ?_ rfl))) fun response' w₄ _ =>
      appends_ite (fun _ => appends_fail _) fun _ => appends_pure _
  have hgrows := htoken.grows
  rwa [mapError_ok.mp hbearer, hlog] at hgrows

theorem appends_upload_onHost {credentials : CredentialStore} {request : SendRequest}
    {token : Option String} (h : OnHost P registry request.url) :
    Appends World.requests (StaysWith P registry c)
      (send P credentials request token : Run φ OciPushFailed (HttpResponse × Option String)) w :=
  appends_upload (fun _ _ => staysWith_of_onHost h)
    fun first response challenge hurl hanswer hstatus hchallenge =>
      ⟨fun _ hget hrealm _ => .inr ⟨_, first, response, challenge, rfl, hurl.symm ▸ h, hanswer,
        hstatus, hchallenge, hget, hrealm⟩,
      fun _ _ _ hsecond => staysWith_of_onHost (hsecond.symm ▸ h)⟩

/-- What answered an upload step was asked last, with the token that comes back. -/
theorem upload_ok {credentials : CredentialStore} {request : SendRequest}
    {token token' : Option String} {response : HttpResponse}
    (h : send P credentials request token w = (.ok (response, token'), w')) :
    ∃ store before, credentials = .ok store ∧ w.requests <+: before ∧ response.status ≠ 401 ∧
      w'.requests = before ++ [request.http (bearerOf (store.get? request.registry) token')] ∧
      P.http before (request.http (bearerOf (store.get? request.registry) token')) = .ok response := by
  obtain ⟨store, w₁, hstore, h⟩ := bind_ok.mp h
  obtain ⟨hcredentials, hw₁⟩ := ofExcept_ok.mp hstore
  subst hw₁
  obtain ⟨first, w₂, hfirst, h⟩ := bind_ok.mp h
  obtain ⟨hanswer, hlog⟩ := send_ok (mapError_ok.mp hfirst)
  by_cases hstatus : first.status = 401
  · rw [if_neg (not_not.mpr hstatus)] at h
    rcases hchallenge : bearerChallenge (first.headers.lookup "www-authenticate") with _ | challenge
    · rw [hchallenge] at h; cases h
    rw [hchallenge] at h
    obtain ⟨bearer, w₃, hbearer, h⟩ := bind_ok.mp h
    obtain ⟨second, w₄, hsecond, h⟩ := bind_ok.mp h
    obtain ⟨hanswer', hlog'⟩ := send_ok (mapError_ok.mp hsecond)
    by_cases hstatus' : second.status = 401
    · rw [if_pos hstatus'] at h; cases h
    rw [if_neg hstatus'] at h
    cases h
    have hgrows : w₂.requests <+: w₃.requests := by
      have hexchange : Appends World.requests (fun _ _ => True)
          (exchangeToken P challenge (store.get? request.registry) : Run φ OciPullFailed String) w₂ :=
        appends_exchangeToken fun _ _ _ => trivial
      have := hexchange.grows
      rwa [mapError_ok.mp hbearer] at this
    refine ⟨store, w₃.requests, except_mapError_ok.mp hcredentials, ?_, hstatus', hlog', hanswer'⟩
    refine List.IsPrefix.trans ?_ hgrows
    rw [hlog]
    exact List.prefix_append _ _
  · rw [if_pos hstatus] at h
    cases h
    exact ⟨store, w.requests, except_mapError_ok.mp hcredentials, List.prefix_refl _, hstatus, hlog,
      hanswer⟩

/-! ### Uploads -/

variable {start : List HttpRequest} {credentials : CredentialStore}

/-- As long as nothing harmful has been answered, credentials stay with the registry. -/
def Kept (P : Platform) (registry : String) (c : Credentials) (start history : List HttpRequest)
    (request : HttpRequest) : Prop :=
  Harmless P registry start history → StaysWith P registry c history request

theorem appends_kept {α ε : Type} {m : Run φ ε α}
    (h : Appends World.requests (StaysWith P registry c) m w) :
    Appends World.requests (Kept P registry c start) m w :=
  h.mono fun _ _ _ _ hstays _ => hstays

/-- The bytes are put where the registry said, with whatever auth is at hand: with none, when the
    place is off the host. -/
theorem appends_put {target : OciReference} {location : String} {bytes : Bytes}
    {before token : Option String} {response : HttpResponse} {w₀ : World φ}
    (hsent : send P credentials (startRequest target) before w₀ = (.ok (response, token), w))
    (hstart : start <+: w₀.requests)
    (hlocation : response.headers.lookup "location" = some location) :
    Appends World.requests (Kept P target.registry c start)
      (send P credentials (putRequest P target location bytes) token :
        Run φ OciPushFailed (HttpResponse × Option String)) w := by
  by_cases honhost : OnHost P target.registry (uploadUrl target.registry location)
  · refine appends_kept (appends_upload_onHost ?_)
    rwa [OnHost, hostOf_putRequest]
  obtain ⟨store, history, hstore, hgrows, hstatus, hlog, hanswer⟩ := upload_ok hsent
  have hinside : start <+: history := hstart.trans hgrows
  have hstrays : Strays P target.registry history
      ((startRequest target).http (bearerOf (store.get? target.registry) token)) :=
    ⟨rfl, response, location, hanswer, hstatus, hlocation, honhost⟩
  -- the start was sent with the auth the bytes are now put with: none
  have hbare : Harmless P target.registry start w.requests →
      bearerOf (store.get? target.registry) token = none := by
    intro hharmless
    obtain ⟨hauth, -⟩ := hharmless history _ [] hlog hinside hstrays
    rcases hbearer : bearerOf (store.get? target.registry) token with _ | bearer
    · rfl
    · refine absurd ?_ (hauth ("Bearer " ++ bearer))
      simp [SendRequest.http, startRequest, hbearer]
  -- and an answer that asks for auth is excluded
  have hquiet : ∀ put answer challenge history', w.requests ++ [put] <+: history' →
      P.http w.requests put = .ok answer → answer.status = 401 →
      bearerChallenge (answer.headers.lookup "www-authenticate") = some challenge →
      ¬Harmless P target.registry start history' := by
    intro put answer challenge history' hprefix hput h401 hchallenge hharmless
    obtain ⟨rest, rfl⟩ := hprefix
    obtain ⟨-, hnone⟩ := hharmless history _ (put :: rest)
      (by rw [hlog]; simp only [List.append_assoc, List.singleton_append]; rfl) hinside hstrays
    rw [hlog] at hput
    have := hnone put rest rfl answer hput h401
    rw [hchallenge] at this
    cases this
  refine appends_upload (fun store' hstore' hharmless => ?_)
    fun first answer challenge _ hput h401 hchallenge =>
      ⟨fun _ _ _ hharmless => absurd hharmless
          (hquiet first answer challenge _ (List.prefix_refl _) hput h401 hchallenge),
        fun history' _ hprefix _ hharmless => absurd hharmless
          (hquiet first answer challenge history' hprefix hput h401 hchallenge)⟩
  obtain rfl : store = store' := Except.ok.inj (hstore ▸ hstore')
  refine staysWith_of_bare fun value => ?_
  have hnone : bearerOf (store.get? (putRequest P target location bytes).registry) token = none :=
    hbare hharmless
  simp [SendRequest.http, hnone]

theorem appends_uploadBlob {target : OciReference} {bytes : Bytes} {token : Option String}
    (hstart : start <+: w.requests) :
    Appends World.requests (Kept P target.registry c start)
      (uploadBlob P credentials target bytes token : Run φ OciPushFailed (Option String)) w := by
  have honhost : OnHost P target.registry (startRequest target).url := by
    simpa [startRequest, String.append_assoc] using @onHost_api
      P target.registry (target.repository ++ "/blobs/uploads/")
  refine appends_bind (appends_kept (appends_upload_onHost honhost))
    fun ⟨response, token'⟩ w₁ hsent => ?_
  dsimp only
  split
  · exact appends_fail _
  rename_i location hlocation
  refine appends_bind (appends_put hsent hstart hlocation) fun ⟨put, token''⟩ w₂ _ => ?_
  exact appends_ite (fun _ => appends_fail _) fun _ => appends_pure _

theorem appends_putManifest {target : OciReference} {tag : String} {manifest : Bytes}
    {token : Option String} :
    Appends World.requests (StaysWith P target.registry c)
      (putManifest P credentials target tag manifest token : Run φ OciPushFailed Unit) w := by
  have honhost : OnHost P target.registry (manifestPut target tag manifest).url := by
    simpa [manifestPut, String.append_assoc] using @onHost_api
      P target.registry (target.repository ++ "/manifests/" ++ tag)
  exact appends_bind (appends_upload_onHost honhost) fun _ _ _ =>
    appends_ite (fun _ => appends_fail _) fun _ => appends_pure _

/-- What a run goes on from has everything that was sent before. -/
theorem grows_of_ok {α ε : Type} {p : List HttpRequest → HttpRequest → Prop} {m : Run φ ε α} {a : α}
    (h : Appends World.requests p m w) (hm : m w = (.ok a, w')) (hstart : start <+: w.requests) :
    start <+: w'.requests := by
  have := h.grows
  rw [hm] at this
  exact hstart.trans this

theorem appends_pushArtifact {parsed : OciReference} {tag : String} {layer config manifest : Bytes}
    (hstart : start <+: w.requests) :
    Appends World.requests (Kept P parsed.registry c start)
      (pushArtifact P credentials parsed tag layer config manifest : Run φ OciPushFailed Unit) w := by
  refine appends_bind (appends_uploadBlob hstart) fun token w₁ hlayer => ?_
  have hstart₁ := grows_of_ok (appends_uploadBlob (P := P) (c := c) hstart) hlayer hstart
  exact appends_bind (appends_uploadBlob hstart₁) fun token' w₂ _ =>
    appends_kept appends_putManifest

/-! ### Pulls -/

theorem onHost_manifest {parsed : OciReference} {tag : String} {accept : List String} :
    OnHost P parsed.registry (manifestRequest parsed tag accept).url := by
  simpa [manifestRequest, OciReference.base, origin, String.append_assoc] using
    @onHost_api P parsed.registry (parsed.repository ++ "/manifests/" ++ tag)

theorem onHost_blob {parsed : OciReference} {digest : String} {limit : Nat} :
    OnHost P parsed.registry (blobRequest parsed digest limit).url := by
  simpa [blobRequest, OciReference.base, origin, String.append_assoc] using
    @onHost_api P parsed.registry (parsed.repository ++ "/blobs/" ++ digest)

theorem appends_verifySignature {parsed : OciReference} {manifestDigest publicKeyPem : String}
    {token : Option String} :
    Appends World.requests (StaysWith P parsed.registry c)
      (verifySignature P credentials parsed manifestDigest publicKeyPem token :
        Run φ OciPullFailed (Option String)) w := by
  refine appends_bind (appends_mapError (appends_get onHost_manifest)) fun ⟨bytes, token₁⟩ w₁ _ =>
    appends_bind (appends_ofExcept _) fun manifest w₂ _ => ?_
  split
  · exact appends_fail _
  split
  · exact appends_fail _
  refine appends_bind (appends_mapError (appends_get onHost_blob)) fun payload w₃ _ =>
    appends_bind (appends_ofExcept _) fun _ w₄ _ => ?_
  exact appends_bind (appends_of_same rfl) fun _ _ _ => appends_pure _

theorem appends_pullPackage {reference tag : String} {parsed : OciReference}
    (hparsed : parseReference reference = some parsed) :
    Appends World.requests (StaysWith P parsed.registry c)
      (pullPackage P credentials reference tag : Run φ OciPullFailed PulledPackage) w := by
  unfold pullPackage
  rw [hparsed]
  refine appends_bind (appends_get onHost_manifest) fun ⟨bytes, token⟩ w₁ _ =>
    appends_bind (appends_ofExcept _) fun manifest w₂ _ => ?_
  split
  · exact appends_fail _
  refine appends_bind (appends_get onHost_blob) fun ⟨tarball, _⟩ w₃ _ => ?_
  exact appends_ite (fun _ => appends_fail _) fun _ => appends_pure _

theorem appends_pullAttestation {reference tag : String} {parsed : OciReference}
    (hparsed : parseReference reference = some parsed) :
    Appends World.requests (StaysWith P parsed.registry c)
      (pullAttestation P credentials reference tag : Run φ OciPullFailed AttestationFound) w := by
  unfold pullAttestation
  rw [hparsed]
  refine appends_bind (appends_get onHost_manifest) fun ⟨bytes, token⟩ w₁ _ =>
    appends_bind (appends_ofExcept _) fun manifest w₂ _ => ?_
  refine appends_bind (appends_result (appends_get onHost_manifest)) fun attestation w₃ _ => ?_
  split
  · exact appends_ite (fun _ => appends_pure _) fun _ => appends_fail _
  refine appends_bind (appends_ofExcept _) fun sidecar w₄ _ => ?_
  split
  · exact appends_fail _
  · exact appends_bind (appends_get onHost_blob) fun _ _ _ => appends_pure _

variable [FileSystem φ]

/-- The run sends nothing. -/
def Silent {ε α : Type} (m : Run φ ε α) : Prop := ∀ l, Keeps (fun w => w.requests = l) m

omit [FileSystem φ] in
theorem appends_of_silent {ε α : Type} {p : List HttpRequest → HttpRequest → Prop} {m : Run φ ε α}
    (h : Silent m) : Appends World.requests p m w :=
  appends_of_same (h w.requests w rfl)

theorem silent_unpack (slot : FilePath) (entries : List ArchiveEntry) :
    Silent (unpack P slot entries : Run φ OciPullFailed Unit) := by
  have hlog : ∀ {ε : Type} (event : Event), Silent (Run.log event : Run φ ε Unit) := fun _ _ _ h => h
  have hread : ∀ {ε α : Type} (m : Reading φ ε α), Silent (Run.read m) := fun _ _ _ h => h
  have hdisk : ∀ {ε α : Type} (m : Effect φ ε α), Silent (Run.onDisk m) := fun _ _ _ h => h
  intro l
  refine keeps_bind (hlog _ l) fun _ _ _ _ => keeps_mapError ?_
  refine keeps_bind (keeps_bind (hlog _ l) fun _ _ _ _ => hdisk _ l) fun _ _ _ _ =>
    keeps_bind (hread _ l) fun present _ _ _ => keeps_ite (fun _ => keeps_pure _) fun _ => ?_
  refine keeps_bind (hdisk _ l) fun staging _ _ _ => keeps_bind (keeps_forEach fun entry _ => ?_)
    fun _ _ _ _ => keeps_bind (keeps_result (hdisk _ l)) fun moved _ _ _ => ?_
  · exact keeps_bind (keeps_bind (hlog _ l) fun _ _ _ _ => hdisk _ l) fun _ _ _ _ =>
      keeps_bind (hlog _ l) fun _ _ _ _ => hdisk _ l
  · cases moved with
    | ok _ => exact keeps_pure _
    | error _ =>
      exact keeps_bind (hread _ l) fun present _ _ _ =>
        keeps_ite (fun _ => keeps_bind (hlog _ l) fun _ _ _ _ => hdisk _ l) fun _ => keeps_fail _

theorem silent_cachedPull (request : PullRequest) (signature : Option String) :
    Silent (cachedPull P request signature : Run φ OciPullFailed (Option Pulled)) := by
  intro l
  unfold cachedPull
  split
  · exact keeps_pure _
  refine keeps_bind (fun _ h => h) fun hit _ _ _ => ?_
  split
  · exact keeps_pure _
  · exact keeps_ite (fun _ => keeps_pure _) fun _ => keeps_ite (fun _ => keeps_fail _) fun _ =>
      keeps_pure _

theorem appends_pull {request : PullRequest} {parsed : OciReference}
    (hparsed : parseReference request.reference = some parsed) :
    Appends World.requests (StaysWith P parsed.registry c)
      (pull P credentials request : Run φ OciPullFailed Pulled) w := by
  unfold pull
  rw [hparsed]
  refine appends_bind (appends_ofExcept _) fun signature w₁ _ =>
    appends_bind (appends_of_silent (silent_cachedPull request signature)) fun hit w₂ _ => ?_
  split
  · exact appends_pure _
  refine appends_ite (fun _ => appends_fail _) fun _ => appends_bind ?_ fun ⟨manifest, token⟩ w₃ _ => ?_
  · -- the manifest, and its signature when a key is configured
    refine appends_bind (appends_get onHost_manifest) fun ⟨bytes, token⟩ w₃ _ =>
      appends_bind (appends_ofExcept _) fun manifest w₄ _ => ?_
    split
    · exact appends_pure _
    · exact appends_bind appends_verifySignature fun _ _ _ => appends_pure _
  dsimp only
  split
  · exact appends_fail _
  refine appends_bind ?_ fun ⟨blob, digest⟩ w₄ _ => appends_bind (appends_ofExcept _)
    fun entries w₅ _ => appends_bind (appends_of_silent (silent_unpack _ _)) fun _ _ _ => appends_pure _
  refine appends_ite (fun _ => appends_fail _) fun _ => appends_bind (appends_get onHost_blob)
    fun ⟨blob, _⟩ w₅ _ => ?_
  exact appends_ite (fun _ => appends_fail _) fun _ => appends_ite (fun _ => appends_fail _) fun _ =>
    appends_pure _

end Requests

/-! ### What is done at a registry -/

/-- A pull, a push or an attestation fetch. -/
inductive RegistryCall where
  | pull (request : PullRequest)
  | pullPackage (reference tag : String)
  | pullAttestation (reference tag : String)
  | pushPackage (reference tag : String) (tarball : Bytes) (akuaVersion : String)
  | pushSignature (reference manifestDigest : String) (payload : Bytes) (signatureBase64 : String)
  | pushAttestation (reference manifestDigest : String) (envelope : Bytes)

def RegistryCall.reference : RegistryCall → String
  | .pull request => request.reference
  | .pullPackage reference _ | .pullAttestation reference _ | .pushPackage reference _ _ _
  | .pushSignature reference _ _ _ | .pushAttestation reference _ _ => reference

/-- The call, without what it returns. -/
def RegistryCall.run {φ : Type} [FileSystem φ] (credentials : CredentialStore) :
    RegistryCall → Run φ String Unit
  | .pull request => do
    let _ ← (Akua.pull P credentials request).mapError OciPullFailed.message
    pure ()
  | .pullPackage reference tag => do
    let _ ← (Akua.pullPackage P credentials reference tag).mapError OciPullFailed.message
    pure ()
  | .pullAttestation reference tag => do
    let _ ← (Akua.pullAttestation P credentials reference tag).mapError OciPullFailed.message
    pure ()
  | .pushPackage reference tag tarball akuaVersion => do
    let _ ← (Akua.pushPackage P credentials reference tag tarball akuaVersion).mapError
      OciPushFailed.message
    pure ()
  | .pushSignature reference manifestDigest payload signatureBase64 => do
    let _ ← (Akua.pushSignature P credentials reference manifestDigest payload
      signatureBase64).mapError OciPushFailed.message
    pure ()
  | .pushAttestation reference manifestDigest envelope => do
    let _ ← (Akua.pushAttestation P credentials reference manifestDigest envelope).mapError
      OciPushFailed.message
    pure ()

section Calls

variable {P} {φ : Type} [FileSystem φ] {w : World φ} {credentials : CredentialStore}

omit [FileSystem φ] in
theorem ofExcept_target {reference : String} {parsed : OciReference} {w' : World φ}
    (hparsed : parseReference reference = some parsed) {a : OciReference}
    (h : (Effect.ofExcept (target reference) : Run φ OciPushFailed OciReference) w = (.ok a, w')) :
    a = parsed ∧ w = w' := by
  obtain ⟨htarget, hw⟩ := ofExcept_ok.mp h
  rw [target, hparsed] at htarget
  exact ⟨(Except.ok.inj htarget).symm, hw⟩

omit [FileSystem φ] in
theorem appends_pushSidecar {c : Credentials} {reference tag mediaType : String} {payload : Bytes}
    {annotations : List (String × Value)} {parsed : OciReference}
    (hparsed : parseReference reference = some parsed) :
    Appends World.requests (Kept P parsed.registry c w.requests)
      (pushSidecar P credentials reference tag payload mediaType annotations :
        Run φ OciPushFailed String) w := by
  refine appends_bind (appends_ofExcept _) fun target w₁ htarget => ?_
  obtain ⟨rfl, rfl⟩ := ofExcept_target hparsed htarget
  exact appends_bind (appends_pushArtifact (List.prefix_refl _)) fun _ _ _ => appends_pure _

omit [FileSystem φ] in
theorem appends_pushPackage {c : Credentials} {reference tag akuaVersion : String} {tarball : Bytes}
    {parsed : OciReference} (hparsed : parseReference reference = some parsed) :
    Appends World.requests (Kept P parsed.registry c w.requests)
      (pushPackage P credentials reference tag tarball akuaVersion :
        Run φ OciPushFailed PublishDigests) w := by
  refine appends_bind (appends_ofExcept _) fun target w₁ htarget => ?_
  obtain ⟨rfl, rfl⟩ := ofExcept_target hparsed htarget
  exact appends_bind (appends_pushArtifact (List.prefix_refl _)) fun _ _ _ => appends_pure _

/-- Whatever is called: as long as nothing harmful is answered, credentials stay. -/
theorem appends_call {c : Credentials} {call : RegistryCall} {parsed : OciReference}
    (hparsed : parseReference call.reference = some parsed) :
    Appends World.requests (Kept P parsed.registry c w.requests) (call.run P credentials) w := by
  cases call with
  | pull request =>
    exact appends_bind (appends_mapError (appends_kept (appends_pull hparsed))) fun _ _ _ =>
      appends_pure _
  | pullPackage reference tag =>
    exact appends_bind (appends_mapError (appends_kept (appends_pullPackage hparsed))) fun _ _ _ =>
      appends_pure _
  | pullAttestation reference tag =>
    exact appends_bind (appends_mapError (appends_kept (appends_pullAttestation hparsed)))
      fun _ _ _ => appends_pure _
  | pushPackage reference tag tarball akuaVersion =>
    exact appends_bind (appends_mapError (appends_pushPackage hparsed)) fun _ _ _ => appends_pure _
  | pushSignature reference manifestDigest payload signatureBase64 =>
    exact appends_bind (appends_mapError (appends_pushSidecar hparsed)) fun _ _ _ => appends_pure _
  | pushAttestation reference manifestDigest envelope =>
    exact appends_bind (appends_mapError (appends_pushSidecar hparsed)) fun _ _ _ => appends_pure _

/-- In every run of a call in which no upload was led off the registry's host with auth at hand, or
    to a host that asked for it: whatever the credentials `c`, every request that carries them, or a
    token they bought, goes to the registry's host or is the token exchange at the realm the
    registry named. -/
theorem registry_credentials_stay {call : RegistryCall} {parsed : OciReference} (c : Credentials)
    (hparsed : parseReference call.reference = some parsed)
    (hharmless : Harmless P parsed.registry w.requests (call.run P credentials w).2.requests) :
    Appends World.requests (StaysWith P parsed.registry c) (call.run P credentials) w :=
  (appends_call hparsed).mono fun _ _ _ hlog hkept =>
    hkept (hharmless.of_prefix ⟨_, hlog.symm⟩)

end Calls

/-! ### Two pushes -/

section Samples

/-- A registry whose uploads go to `location`; everything else it takes. -/
def pushPlatform (location : String) : Platform :=
  .ofTables [] []
    [("https://r.io/v2/app/blobs/uploads/",
        { status := 202, headers := [("location", location)], body := .ok [] }),
      ("https://r.io/v2/app/manifests/1", { status := 201, body := .ok [] }),
      (uploadUrl "r.io" location ++ "?digest=sha256:" ++ String.ofList (List.replicate 64 '0'),
        { status := 201, body := .ok [] })] []

def pushStore : CredentialStore := .ok (.ofList [("r.io", .bearer "s3cret")])

def samplePush : RegistryCall := .pushPackage "oci://r.io/app" "1" [1, 2, 3] "1.0.0"

def pushWorld : World Disk where fs := ⟨.empty⟩

def pushLog (location : String) : List HttpRequest :=
  (samplePush.run (pushPlatform location) pushStore pushWorld).2.requests

/-- What every such push sends first. -/
def pushStart : HttpRequest := (startRequest ⟨"r.io", "app"⟩).http (some "s3cret")

/-- Every upload of the sample is started alike, and answered with the location. -/
theorem push_answer (location : String) (history : List HttpRequest) {request : HttpRequest}
    (h : request.url = pushStart.url) : (pushPlatform location).http history request =
      .ok { status := 202, headers := [("location", location)], body := .ok [] } := by
  have hurl : request.url = "https://r.io/v2/app/blobs/uploads/" := h.trans (by decide +kernel)
  simp [pushPlatform, Platform.ofTables, hurl]

/-- A registry that sends its uploads to a path of its own. -/
theorem push_stays_with_registry : Appends World.requests
    (StaysWith (pushPlatform "/v2/app/blobs/uploads/7") "r.io" (.bearer "s3cret"))
    (samplePush.run (pushPlatform "/v2/app/blobs/uploads/7") pushStore) pushWorld := by
  have hparsed : parseReference samplePush.reference = some ⟨"r.io", "app"⟩ := by decide +kernel
  refine @registry_credentials_stay _ _ _ _ _ _ ⟨"r.io", "app"⟩ (.bearer "s3cret") hparsed ?_
  have hposts : ∀ r ∈ pushLog "/v2/app/blobs/uploads/7", r.method = "POST" →
      r.url = pushStart.url := by decide +kernel
  rintro before asked after hlog - ⟨hpost, response, location, hanswer, -, hlocation, hoff⟩
  have hmem : asked ∈ pushLog "/v2/app/blobs/uploads/7" := by
    rw [pushLog, hlog]; simp
  rw [push_answer _ _ (hposts asked hmem hpost)] at hanswer
  cases hanswer
  have hpath : "/v2/app/blobs/uploads/7" = location := by simpa using hlocation
  subst hpath
  exact absurd (by decide +kernel) hoff

/-- A registry that names another host is followed there with the configured token. -/
theorem token_follows_location :
    (pushStore.toOption.bind fun store => store.get? "r.io") = some (.bearer "s3cret") ∧
    ¬Appends World.requests
      (StaysWith (pushPlatform "https://evil.example/up") "r.io" (.bearer "s3cret"))
      (samplePush.run (pushPlatform "https://evil.example/up") pushStore) pushWorld := by
  refine ⟨by rfl, ?_⟩
  rintro ⟨new, hnew, hall⟩
  let put := (putRequest (pushPlatform "https://evil.example/up") ⟨"r.io", "app"⟩
    "https://evil.example/up" [1, 2, 3]).http (some "s3cret")
  have hfirst : (pushLog "https://evil.example/up").take 2 = [pushStart, put] := by
    decide +kernel
  have hsplit : new = [pushStart] ++ put :: new.drop 2 := by
    have hlog : pushLog "https://evil.example/up" = new := hnew
    rw [hlog] at hfirst
    rw [List.singleton_append]
    conv_lhs => rw [← List.take_append_drop 2 new, hfirst]
    rfl
  have hcarries : CarriesSecret (pushPlatform "https://evil.example/up") (.bearer "s3cret")
      ([] ++ [pushStart]) put :=
    ⟨"Bearer s3cret", by simp [put, SendRequest.http], .inl rfl⟩
  rcases allAfter_iff.mp hall _ put _ hsplit hcarries with honhost | hexchange
  · exact absurd honhost (by decide +kernel)
  · obtain ⟨before, asked, response, challenge, hhistory, -, hanswer, h401, -⟩ := hexchange
    obtain ⟨-, hasked⟩ := List.append_inj' hhistory rfl
    obtain rfl : pushStart = asked := List.singleton_inj.mp hasked
    rw [push_answer _ _ rfl] at hanswer
    cases hanswer
    cases h401

end Samples

end Akua
