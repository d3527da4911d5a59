import Akua.Publish
import Akua.Registry

/-! A Package that goes through a registry comes back: what `pushPackage` wrote under a tag, `pullPackage`
    reads from it, for whoever pulls and whatever else was asked of the registry in between. -/

namespace Akua

open Effect

variable {P : Platform} {φ : Type} {w w' : World φ}

/-! ### What a pull brings back -/

/-- The document `manifestBytes` writes. -/
def manifestValue (config layer : List (String × Value)) : Value :=
  .object [("schemaVersion", .number "2"), ("mediaType", .string OCI_MANIFEST), ("config", .object config),
    ("layers", .array [.object layer])]

open Value in
theorem isJson_manifest {config layer : List (String × Value)} (hconfig : (Value.object config).IsJson)
    (hlayer : (Value.object layer).IsJson) : (manifestValue config layer).IsJson := by
  have hversion : JsonLeaf (.number "2") := by simp [JsonLeaf, isNumberChar, Char.isDigit]
  rw [IsJson, manifestValue]
  simp only [Each, EachAll, EachEntries]
  exact ⟨by simp, hversion, trivial, hconfig, ⟨hlayer, trivial⟩, trivial⟩

open Value in
theorem isJson_descriptor (mediaType : String) (payload : Bytes) :
    (Value.object (descriptor P mediaType payload)).IsJson := by
  rw [IsJson, descriptor]
  simp only [Each, EachEntries]
  refine ⟨by simp, trivial, ⟨Naming.toString_ne_nil _, fun c hc => ?_⟩, trivial, trivial⟩
  rw [Nat.toString_eq_ofList_toDigits, String.toList_ofList] at hc
  rw [isNumberChar, Nat.isDigit_of_mem_toDigits (by decide) (by decide) hc]
  rfl

theorem decodeOciManifest_written (hjson : ReadsJson P) {config fields : List (String × Value)} {layer : OciLayer}
    (hvalue : (manifestValue config fields).IsJson) (hlayer : OciLayer.decode (.object fields) = some layer) :
    decodeOciManifest P (manifestBytes config fields) = .ok { layers := [layer] } := by
  have hdecode : OciManifest.decode (manifestValue config fields) = some { layers := [layer] } := by
    simp [OciManifest.decode, manifestValue, Value.required, Value.optionalKey, Value.asArray, List.lookup, hlayer]
  have hbytes : manifestBytes config fields = encodeText (manifestValue config fields).stringify := rfl
  rw [decodeOciManifest, hbytes, manifestValue, decodeText_stringify_object, ← manifestValue, hjson hvalue,
    except_ok_bind, hdecode]

/-- The layer a descriptor is read as. -/
def describedLayer (P : Platform) (mediaType : String) (payload : Bytes) : OciLayer where
  mediaType := mediaType
  digest := sha256 P payload
  size := some (toString payload.length)

theorem decode_descriptor (mediaType : String) (payload : Bytes) :
    OciLayer.decode (.object (descriptor P mediaType payload)) = some (describedLayer P mediaType payload) := by
  simp [OciLayer.decode, descriptor, Value.required, Value.optionalKey, Value.asString, Value.asNumber, List.lookup,
    describedLayer]

/-- What the manifest of a Package is read as. -/
theorem decodeOciManifest_package (hjson : ReadsJson P) (tarball : Bytes) (version : String) :
    decodeOciManifest P (publishDigests P tarball version).manifest =
      .ok { layers := [describedLayer P AKUA_LAYER tarball] } :=
  decodeOciManifest_written hjson (isJson_manifest (isJson_descriptor _ _) (isJson_descriptor AKUA_LAYER tarball))
    (decode_descriptor AKUA_LAYER tarball)

section Pulls

variable {ψ : Type} {parsed : OciReference} {credentials credentials' : CredentialStore}
  {store : Table String Credentials} {reference tag version : String} {tarball : Bytes} {digests : PublishDigests}

/-- A manifest and its payload are of a size that a pull takes. -/
structure Fits (manifest payload : Bytes) (limit : Nat) : Prop where
  manifest_size : manifest.length ≤ MAX_MANIFEST_BYTES
  payload_size : payload.length ≤ limit

/-- Under the digest of `bytes` the registry holds `bytes`: it holds nothing that collides with them. -/
def Registry.Own (R : Registry P parsed) (history : List HttpRequest) (bytes : Bytes) : Prop :=
  ∀ stored, R.held history (blobUrl parsed (sha256 P bytes)) = some stored → sha256 P stored = sha256 P bytes →
    stored = bytes

/-- An artifact is at the registry: its manifest under the tag, and the payload the manifest names. -/
def Registry.Has (R : Registry P parsed) (history : List HttpRequest) (tag : String) (manifest payload : Bytes) :
    Prop :=
  R.held history (manifestUrl parsed tag) = some manifest ∧
    R.held history (blobUrl parsed (sha256 P payload)) = some payload

section Artifacts

variable {R : Registry P parsed} {history more : List HttpRequest} {manifest payload config : Bytes}
  {token : Option String} {later : World ψ}

theorem has_of_push (hown : R.Own (w'.requests ++ more) payload) (hmore : LeavesTag parsed tag more)
    (h : pushArtifact P credentials parsed tag payload config manifest w = (.ok (), w')) :
    R.Has (w'.requests ++ more) tag manifest payload := by
  obtain ⟨htag, stored, hstored, hdigest⟩ := held_of_push R h
  have hkept := R.blob_stays (fun r hr => (hmore r hr).1) hstored
  obtain rfl := hown stored hkept hdigest
  exact ⟨(R.manifest_stays hmore).trans htag, hkept⟩

theorem Registry.Has.stays (h : R.Has history tag manifest payload) (hmore : LeavesTag parsed tag more) :
    R.Has (history ++ more) tag manifest payload :=
  ⟨(R.manifest_stays hmore).trans h.1, R.blob_stays (fun r hr => (hmore r hr).1) h.2⟩

/-- The manifest of an artifact, read by anyone. -/
theorem get_manifest (h : R.Has later.requests tag manifest payload) (hstore : credentials' = .ok store)
    (hsize : manifest.length ≤ MAX_MANIFEST_BYTES) (accept : List String) (token : Option String) :
    ∃ token' more, (∀ r ∈ more, r.method = "GET") ∧
      get P credentials' (manifestRequest parsed tag accept) token later =
        (.ok (manifest, token'), { later with requests := later.requests ++ more }) :=
  get_held R hstore (fun _ hmore => (R.manifest_stays (LeavesTag.of_reads hmore)).trans h.1) hsize

/-- The payload of an artifact, read by anyone. -/
theorem get_payload (h : R.Has later.requests tag manifest payload) (hstore : credentials' = .ok store) {limit : Nat}
    (hsize : payload.length ≤ limit) (token : Option String) :
    ∃ token' more, (∀ r ∈ more, r.method = "GET") ∧
      get P credentials' (blobRequest parsed (sha256 P payload) limit) token later =
        (.ok (payload, token'), { later with requests := later.requests ++ more }) :=
  get_held R hstore (fun _ hmore => R.blob_stays (fun r hr => by rw [hmore r hr]; decide) h.2) hsize

end Artifacts

theorem pushPackage_ok (hparsed : parseReference reference = some parsed)
    (h : pushPackage P credentials reference tag tarball version w = (.ok digests, w')) :
    digests = publishDigests P tarball version ∧
      pushArtifact P credentials parsed tag tarball digests.config digests.manifest w = (.ok (), w') := by
  obtain ⟨target, w₀, htarget, h⟩ := bind_ok.mp h
  obtain ⟨rfl, rfl⟩ := ofExcept_target hparsed htarget
  obtain ⟨_, w₁, hpush, h⟩ := bind_ok.mp h
  cases h
  exact ⟨rfl, hpush⟩

/-- A Package that was published is pulled back byte for byte, by whoever and whenever, as long as nobody puts another
    manifest at its tag. -/
theorem published_pulls_back (R : Registry P parsed) (hjson : ReadsJson P)
    (hparsed : parseReference reference = some parsed)
    (hpush : pushPackage P credentials reference tag tarball version w = (.ok digests, w'))
    (hfits : Fits digests.manifest tarball MAX_BLOB_BYTES) (hown : R.Own w'.requests tarball)
    {later : World ψ} {between : List HttpRequest} (hlater : later.requests = w'.requests ++ between)
    (hbetween : LeavesTag parsed tag between) (hstore : credentials' = .ok store) :
    ∃ world, pullPackage P credentials' reference tag later =
      (.ok { tarball, manifestDigest := digests.manifestDigest, layerDigest := digests.layerDigest }, world) := by
  obtain ⟨rfl, hpush⟩ := pushPackage_ok hparsed hpush
  have hhas := @has_of_push _ _ _ _ _ _ _ R [] _ _ _ (by rwa [List.append_nil]) (LeavesTag.of_reads (by simp)) hpush
  rw [List.append_nil] at hhas
  replace hhas := hhas.stays hbetween
  rw [← hlater] at hhas
  obtain ⟨token, more, hmore, hget⟩ := get_manifest hhas hstore hfits.manifest_size [OCI_MANIFEST] none
  have hhas' : R.Has ({ later with requests := later.requests ++ more } : World ψ).requests tag _ tarball :=
    hhas.stays (LeavesTag.of_reads hmore)
  obtain ⟨token', more', -, hget'⟩ := get_payload hhas' hstore hfits.payload_size token
  have hdecode := decodeOciManifest_package hjson tarball version
  have hlayer : ({ layers := [describedLayer P AKUA_LAYER tarball] } : OciManifest).layerOf [AKUA_LAYER] =
      some (describedLayer P AKUA_LAYER tarball) := by
    simp [OciManifest.layerOf, describedLayer]
  refine ⟨{ later with requests := later.requests ++ more ++ more' }, ?_⟩
  rw [pullPackage, hparsed]
  refine (bind_of_ok hget).trans ((bind_of_ok (ofExcept_ok.mpr ⟨except_mapError_ok.mpr hdecode, rfl⟩)).trans ?_)
  rw [hlayer]
  refine (bind_of_ok hget').trans ?_
  have hsame : ¬ sha256 P tarball ≠ (describedLayer P AKUA_LAYER tarball).digest := not_not.mpr rfl
  dsimp only
  rw [if_neg hsame]
  rfl

end Pulls

/-! ### A registry in memory -/

namespace MemoryRegistry

def IsManifestPut (request : HttpRequest) : Prop :=
  request.method = "PUT" ∧ request.headers.lookup "Content-Type" = some OCI_MANIFEST

instance (request : HttpRequest) : Decidable (IsManifestPut request) := inferInstanceAs (Decidable (_ ∧ _))

variable (P : Platform) (parsed : OciReference)

def isManifestUrl (url : String) : Bool := Text.startsWith url (parsed.base ++ "/manifests/")

/-- A tag is what was put there last, a blob what was put first. -/
def held (history : List HttpRequest) (url : String) : Option Bytes :=
  if isManifestUrl parsed url then
    (history.reverse.find? fun r => IsManifestPut r ∧ r.url = url).map HttpRequest.body
  else
    (history.find? fun r => (r.method = "PUT" ∧ ¬ IsManifestPut r) ∧ blobUrl parsed (sha256 P r.body) = url).map
      HttpRequest.body

/-- Everyone may write; who reads shows the token `t`, which everyone gets. -/
def answer (history : List HttpRequest) (request : HttpRequest) : HttpResponse :=
  if request.method = "POST" then
    { status := 202, headers := [("location", "/v2/" ++ parsed.repository ++ "/blobs/uploads/1")], body := .ok [] }
  else if request.method = "PUT" then { status := 201, body := .ok [] }
  else if request.url = "token" then { status := 200, body := .ok (encodeText "\x7b\"token\":\"t\"\x7d") }
  else if ("Authorization", "Bearer t") ∉ request.headers then
    { status := 401, headers := [("www-authenticate", "Bearer realm=\"token\"")], body := .ok [] }
  else
    match held P parsed history request.url with
    | some bytes => { status := 200, body := .ok bytes }
    | none => { status := 404, body := .ok [] }

/-- A host whose only server is this registry. -/
def host : Platform := { P with http := fun history request => .ok (answer P parsed history request) }

variable {P parsed}

theorem sha256_host (bytes : Bytes) : sha256 (host P parsed) bytes = sha256 P bytes := rfl

theorem isManifestUrl_manifest (tag : String) : isManifestUrl parsed (manifestUrl parsed tag) = true :=
  Text.startsWith_append _ _

theorem isManifestUrl_blob (digest : String) : isManifestUrl parsed (blobUrl parsed digest) = false := by
  rw [Bool.eq_false_iff]
  intro h
  obtain ⟨rest, hrest⟩ := Text.startsWith_iff.mp h
  have hchars := congrArg String.toList hrest
  simp only [blobUrl, String.toList_append, List.append_assoc, List.append_cancel_left_eq] at hchars
  exact absurd (congrArg (fun l => l[1]?) hchars) (by simp)

theorem blobUrl_injective {x y : String} (h : blobUrl parsed x = blobUrl parsed y) : x = y := by
  have hchars := congrArg String.toList h
  simp only [blobUrl, String.toList_append, List.append_cancel_left_eq] at hchars
  exact String.toList_inj.mp hchars

theorem held_manifest (history : List HttpRequest) (request : HttpRequest) (tag : String) :
    held P parsed (history ++ [request]) (manifestUrl parsed tag) =
      if IsManifestPut request ∧ request.url = manifestUrl parsed tag then some request.body
      else held P parsed history (manifestUrl parsed tag) := by
  rw [held, if_pos (isManifestUrl_manifest tag), held, if_pos (isManifestUrl_manifest tag), List.reverse_append]
  by_cases h : IsManifestPut request ∧ request.url = manifestUrl parsed tag
  · simp [h]
  · simp [h]

theorem held_blob (history : List HttpRequest) (request : HttpRequest) (digest : String) :
    held P parsed (history ++ [request]) (blobUrl parsed digest) = (held P parsed history (blobUrl parsed digest)).or
      (if (request.method = "PUT" ∧ ¬ IsManifestPut request) ∧ sha256 P request.body = digest then some request.body
       else none) := by
  rw [held, if_neg (by rw [isManifestUrl_blob]; decide), held, if_neg (by rw [isManifestUrl_blob]; decide),
    List.find?_append, Option.map_or]
  congr 1
  by_cases h : (request.method = "PUT" ∧ ¬ IsManifestPut request) ∧ sha256 P request.body = digest
  · simp [h]
  · have hurl : ¬ ((request.method = "PUT" ∧ ¬ IsManifestPut request) ∧
        blobUrl parsed (sha256 P request.body) = blobUrl parsed digest) :=
      fun hput => h ⟨hput.1, blobUrl_injective hput.2⟩
    rw [if_neg h, List.find?_cons_of_neg (by simpa using hurl), List.find?_nil, Option.map_none]

/-- What is held under a digest has it. -/
theorem sha256_of_held {history : List HttpRequest} {digest : String} {bytes : Bytes}
    (h : held P parsed history (blobUrl parsed digest) = some bytes) : sha256 P bytes = digest := by
  rw [held, if_neg (by rw [isManifestUrl_blob]; decide)] at h
  obtain ⟨request, hfind, rfl⟩ := Option.map_eq_some_iff.mp h
  have hput := List.find?_some hfind
  rw [decide_eq_true_eq] at hput
  exact blobUrl_injective hput.2

theorem isManifestPut_http {tag : String} {manifest : Bytes} {bearer : Option String} :
    IsManifestPut ((manifestPut parsed tag manifest).http bearer) := ⟨rfl, rfl⟩

theorem not_isManifestPut_http {location : String} {bytes : Bytes} {bearer : Option String} :
    ¬ IsManifestPut ((putRequest P parsed location bytes).http bearer) := fun h => absurd h.2 (by
  show some "application/octet-stream" ≠ some OCI_MANIFEST
  decide)

/-- The realm is no url of the repository. -/
theorem held_realm (history : List HttpRequest) : held P parsed history "token" = none := by
  have hbase : ∃ rest, parsed.base = "h" ++ rest := by
    rcases scheme_cases parsed.registry with h | h <;> rw [OciReference.base, h]
    · exact ⟨"ttp://" ++ parsed.registry ++ "/v2/" ++ parsed.repository, by simp [String.append_assoc]; rfl⟩
    · exact ⟨"ttps://" ++ parsed.registry ++ "/v2/" ++ parsed.repository, by simp [String.append_assoc]; rfl⟩
  obtain ⟨rest, hbase⟩ := hbase
  have hother : ∀ path : String, "token" ≠ parsed.base ++ path := fun path h => by
    rw [hbase] at h
    have hchars := congrArg (fun s => s.toList.head?) h
    simp [String.toList_append] at hchars
  have hmanifest : ¬ isManifestUrl parsed "token" = true := fun h => by
    obtain ⟨rest, hrest⟩ := Text.startsWith_iff.mp h
    rw [String.append_assoc] at hrest
    exact hother _ hrest
  rw [held, if_neg hmanifest, Option.map_eq_none_iff, List.find?_eq_none]
  intro request _ hblob
  rw [decide_eq_true_eq, blobUrl, String.append_assoc] at hblob
  exact hother _ hblob.2.symm

theorem answer_get {history : List HttpRequest} {request : HttpRequest} {bytes : Bytes} (hget : request.method = "GET")
    (hheld : held P parsed history request.url = some bytes) : answer P parsed history request =
      if ("Authorization", "Bearer t") ∈ request.headers then { status := 200, body := .ok bytes }
      else { status := 401, headers := [("www-authenticate", "Bearer realm=\"token\"")], body := .ok [] } := by
  have hrealm : request.url ≠ "token" := fun h => by
    rw [h, held_realm] at hheld
    cases hheld
  rw [answer, if_neg (by rw [hget]; decide), if_neg (by rw [hget]; decide), if_neg hrealm, hheld]
  split <;> simp_all

/-- The place it offers for uploads is no manifest's. -/
theorem uploadPlace_ne {bytes : Bytes} {tag : String} :
    (putRequest P parsed ("/v2/" ++ parsed.repository ++ "/blobs/uploads/1") bytes).url ≠ manifestUrl parsed tag := by
  have hrelative : ∀ p : String, p.toList.head? = some 'h' →
      Text.startsWith ("/v2/" ++ parsed.repository ++ "/blobs/uploads/1") p = false := by
    intro p hp
    obtain ⟨cs, hcs⟩ := List.head?_eq_some_iff.mp hp
    rw [Text.startsWith, hcs]
    simp [List.isPrefixOf]
  have hplace : ∃ rest, (putRequest P parsed ("/v2/" ++ parsed.repository ++ "/blobs/uploads/1") bytes).url =
      parsed.base ++ ("/blobs/uploads/1" ++ rest) := by
    simp only [putRequest, uploadUrl, hrelative "http://" (by decide), hrelative "https://" (by decide)]
    simp only [origin, OciReference.base, String.append_assoc, Bool.or_self, Bool.false_eq_true, if_false]
    exact ⟨_, rfl⟩
  obtain ⟨rest, hplace⟩ := hplace
  rw [hplace, manifestUrl, String.append_assoc]
  intro h
  have hchars := congrArg String.toList h
  simp only [String.toList_append, List.append_cancel_left_eq] at hchars
  exact absurd (congrArg (fun l => l[1]?) hchars) (by simp)

/-- The registry keeps its promises, where `JSON.parse` reads its tokens. -/
def registry
    (htoken : decodeToken P (decodeText P (encodeText "\x7b\"token\":\"t\"\x7d")) = .ok "t") :
    Registry (host P parsed) parsed where
  held := held P parsed
  Grants request := ("Authorization", "Bearer t") ∈ request.headers
  challenge := { realm := "token" }
  blob_kept _ h := by rw [held_blob, h]; rfl
  manifest_kept _ hput := by
    rw [held_manifest, if_neg fun h => hput h.1.1 h.2]
  upload_elsewhere {history location bytes tag} hoffered h := by
    obtain ⟨start, response, ⟨before, after, -, hanswer⟩, hpost, -, hlocation⟩ := hoffered
    obtain rfl : answer P parsed before start = response := Except.ok.inj hanswer
    rw [answer, if_pos hpost] at hlocation
    obtain rfl : "/v2/" ++ parsed.repository ++ "/blobs/uploads/1" = location := Option.some.inj hlocation
    exact uploadPlace_ne h
  blob_put {history location bytes bearer response} _ hanswer _ := by
    rw [held_blob, sha256_host]
    rcases hbefore : held P parsed history (blobUrl parsed (sha256 P bytes)) with _ | stored
    · exact ⟨bytes, by rw [Option.none_or, if_pos ⟨⟨rfl, not_isManifestPut_http⟩, rfl⟩]; rfl, rfl⟩
    · exact ⟨stored, rfl, sha256_of_held hbefore⟩
  manifest_put {history tag manifest bearer response} _ _ _ := by
    rw [held_manifest, if_pos ⟨isManifestPut_http, (@manifestUrl_eq parsed tag manifest).symm⟩]
    rfl
  served {history request bytes} hget hheld hgrants :=
    ⟨_, congrArg Except.ok (answer_get hget hheld), by
      rw [if_pos hgrants]
      exact ⟨Nat.le_refl 200, show 200 < 300 by decide, rfl, nofun⟩⟩
  challenged {history request bytes} hget hheld hgrants :=
    ⟨_, congrArg Except.ok (answer_get hget hheld), by
      rw [if_neg hgrants]
      exact ⟨rfl, by decide +kernel⟩⟩
  exchanged {history request} hget hurl := by
    have hanswer : answer P parsed history request =
        { status := 200, body := .ok (encodeText "\x7b\"token\":\"t\"\x7d") } := by
      rw [answer, if_neg (by rw [hget]; decide), if_neg (by rw [hget]; decide), if_pos hurl]
    refine ⟨"t", _, _, by decide, fun _ h => h, congrArg Except.ok hanswer, ?_, by decide +kernel, htoken⟩
    exact ⟨Nat.le_refl 200, show 200 < 300 by decide, rfl, nofun⟩

/-! ### A Package that comes back -/

def parsedSample : OciReference := { registry := "r.io", repository := "app" }

/-- `JSON.parse`, of the texts without white space. -/
noncomputable def readJson (text : String) : Except String Value :=
  open Classical in if h : ∃ value, Value.Reads text value then .ok h.choose else .error "Unexpected token"

/-- Documents are read, and these digests are told apart from all others. -/
noncomputable def platform (digests : List (Bytes × Hex256)) : Platform :=
  { Platform.ofTables [] digests [] [] with parseJson := readJson }

section Platform

variable {digests : List (Bytes × Hex256)}

theorem readsJson : ReadsJson (platform digests) := by
  intro value hvalue
  have hreads := Value.reads_stringify hvalue
  have hexists : ∃ value', Value.Reads value.stringify value' := ⟨value, hreads⟩
  show readJson value.stringify = .ok value
  rw [readJson, dif_pos hexists, Value.reads_unique hexists.choose_spec hreads]

theorem decodeToken_host : decodeToken (platform digests)
    (decodeText (platform digests) (encodeText "\x7b\"token\":\"t\"\x7d")) = .ok "t" := by
  have hvalue : (Value.object [("token", .string "t")]).IsJson := by
    simp [Value.IsJson, Value.Each, Value.EachEntries, Value.JsonLeaf]
  have htext : "\x7b\"token\":\"t\"\x7d" = (Value.object [("token", .string "t")]).stringify := by decide +kernel
  rw [htext, decodeText_stringify_object, decodeToken, readsJson hvalue]
  rfl

theorem sha256Hex_platform (bytes : Bytes) : (platform digests).sha256Hex bytes =
    ((digests.find? fun d => d.1 = bytes).map Prod.snd).getD (.repeated '0' (by decide)) := rfl

/-- The digest of an entry, where none before it has its bytes. -/
theorem sha256Hex_table {before after : List (Bytes × Hex256)} {d : Bytes × Hex256}
    (hne : ∀ x ∈ before, x.1 ≠ d.1) : (platform (before ++ d :: after)).sha256Hex d.1 = d.2 := by
  have hbefore : before.find? (fun x => x.1 = d.1) = none :=
    List.find?_eq_none.mpr fun x hx => by simpa using hne x hx
  rw [sha256Hex_platform, List.find?_append, hbefore, Option.none_or, List.find?_cons_of_pos (by simp)]
  rfl

theorem own_of_table {bytes : Bytes} (hex : Hex256) (hunique : ∀ d ∈ digests, d.2.digits = hex.digits → d.1 = bytes)
    (hzero : (Hex256.repeated '0' (by decide)).digits ≠ hex.digits)
    (hbytes : ((platform digests).sha256Hex bytes).digits = hex.digits)
    (R : Registry (host (platform digests) parsed) parsed) (history : List HttpRequest) : R.Own history bytes := by
  intro stored _ hcollides
  have hdigits : ((platform digests).sha256Hex stored).digits = hex.digits := by
    rw [← hbytes]
    exact String.append_right_inj "sha256:" |>.mp hcollides
  rw [sha256Hex_platform] at hdigits
  rcases hfind : digests.find? fun d => d.1 = stored with _ | d
  · rw [hfind] at hdigits
    exact absurd hdigits hzero
  · rw [hfind] at hdigits
    have hstored := List.find?_some hfind
    rw [decide_eq_true_eq] at hstored
    exact hstored.symm.trans (hunique d (List.mem_of_find?_eq_some hfind) hdigits)

end Platform

/-- A digest that is in no table. -/
def zeros : String := "sha256:" ++ String.ofList (List.replicate 64 '0')

theorem sha256_other {digests : List (Bytes × Hex256)} {bytes : Bytes} (h : ∀ d ∈ digests, d.1 ≠ bytes) :
    sha256 (platform digests) bytes = zeros := by
  have hfind : digests.find? (fun d => d.1 = bytes) = none :=
    List.find?_eq_none.mpr fun d hd => by simpa using h d hd
  rw [sha256, sha256Hex_platform, hfind]
  rfl

/-- The third byte of a document tells its first key. -/
theorem third_object {key : String} {c : Char} {cs : List Char} (hkey : key.toList = c :: cs)
    (hascii : c.toNat < 128) (hplain : Value.escapeJson c = [c]) (value : Value) (entries : List (String × Value)) :
    (encodeText (Value.stringify (.object ((key, value) :: entries))))[2]? = some (UInt8.ofNat c.toNat) := by
  have hquote : Value.escapeJson c ++ cs.flatMap Value.escapeJson = c :: cs.flatMap Value.escapeJson := by
    rw [hplain]
    rfl
  have hbrace : String.utf8EncodeChar '\x7b' = [0x7b] := by decide
  have hmark : String.utf8EncodeChar '"' = [0x22] := by decide
  obtain ⟨rest, hrest⟩ : ∃ rest, (Value.stringify (.object ((key, value) :: entries))).toList =
      '\x7b' :: '"' :: c :: rest := by
    rw [Value.stringify, Value.stringifyEntries, String.toList_append, String.toList_append, Value.toList_intercalate,
      List.map_cons, String.toList_append, String.toList_append, Value.toList_quoteJson, hkey,
      List.flatMap_cons, hquote]
    cases Value.stringifyEntries entries <;> exact ⟨_, rfl⟩
  rw [encodeText_eq, hrest, List.flatMap_cons, List.flatMap_cons, List.flatMap_cons, hbrace, hmark,
    utf8EncodeChar_ascii hascii]
  rfl

/-- The payload and the envelope of the sample, whose manifest has no digest of its own. -/
def samplePayload : Bytes := simpleSigningPayload "r.io/app" zeros

def sampleStatement : Bytes :=
  provenanceStatement
    { reference := "oci://r.io/app", tag := "1", manifestDigest := zeros, lock := none, version := "1" }

def sampleSignature : String := base64 (rawToDer (List.replicate 64 0x81))

def sampleEnvelope : Bytes :=
  encodeText (dsseValue "application/vnd.in-toto+json" sampleStatement sampleSignature).stringify

def sampleDigests : List (Bytes × Hex256) :=
  [([1, 2, 3], .repeated 'a' (by decide)), (samplePayload, .repeated 'b' (by decide)),
    (sampleEnvelope, .repeated 'c' (by decide))]

theorem third_payload : samplePayload[2]? = some 0x63 :=
  third_object String.toList_ofList (by decide) (by decide) _ _

theorem third_envelope : sampleEnvelope[2]? = some 0x70 :=
  third_object String.toList_ofList (by decide) (by decide) _ _

/-- Which digests the sample has, by the third byte. -/
theorem sha256_sample {bytes : Bytes} (h : bytes[2]? ≠ some 3 ∧ bytes[2]? ≠ some 0x63 ∧ bytes[2]? ≠ some 0x70) :
    sha256 (platform sampleDigests) bytes = zeros := by
  refine sha256_other fun d hd => ?_
  rcases hd with _ | ⟨_, _ | ⟨_, _ | ⟨_, ⟨⟩⟩⟩⟩ <;> rintro rfl
  exacts [h.1 rfl, h.2.1 third_payload, h.2.2 third_envelope]

noncomputable def sampleHost : Platform := host (platform sampleDigests) parsedSample

theorem sha256_config : sha256 sampleHost (publishDigests sampleHost [1, 2, 3] "1").config = zeros := by
  have hthird : (publishDigests sampleHost [1, 2, 3] "1").config[2]? = some 0x61 :=
    third_object String.toList_ofList (by decide) (by decide) _ _
  exact sha256_sample (by rw [hthird]; decide)

theorem sha256_tarball : sha256 sampleHost [1, 2, 3] = "sha256:" ++ String.ofList (List.replicate 64 'a') := rfl

theorem size_package : (publishDigests sampleHost [1, 2, 3] "1").manifest.length ≤ MAX_MANIFEST_BYTES := by
  have hmanifest : (publishDigests sampleHost [1, 2, 3] "1").manifest = encodeText (Value.stringify (manifestValue
    (descriptor sampleHost AKUA_CONFIG (publishDigests sampleHost [1, 2, 3] "1").config)
    (descriptor sampleHost AKUA_LAYER [1, 2, 3]))) := by
    simp only [publishDigests, manifestBytes, manifestValue]
  rw [hmanifest, descriptor, descriptor, sha256_config, sha256_tarball]
  simp only [-String.reduceToList, publishDigests, manifestValue, zeros, OCI_MANIFEST, AKUA_CONFIG, AKUA_LAYER,
    encodeText_eq, Value.stringify, Value.stringifyEntries, Value.stringifyAll, Value.toList_intercalate,
    Value.toList_quoteJson, String.toList_append, List.map_cons, List.map_nil, String.toList_ofList]
  repeat rw [String.toList_ofList]
  decide +kernel

theorem package_fits : Fits (publishDigests sampleHost [1, 2, 3] "1").manifest [1, 2, 3] MAX_BLOB_BYTES where
  manifest_size := size_package
  payload_size := show 3 ≤ 1024 * 1024 * 1024 by decide

theorem package_own (R : Registry sampleHost parsedSample) (history : List HttpRequest) : R.Own history [1, 2, 3] := by
  refine own_of_table (.repeated 'a' (by decide)) (fun d hd => ?_) (by decide +kernel) rfl R history
  rcases hd with _ | ⟨_, _ | ⟨_, _ | ⟨_, ⟨⟩⟩⟩⟩
  exacts [fun _ => rfl, fun h => absurd h (by decide +kernel), fun h => absurd h (by decide +kernel)]

/-- A Package is pushed anonymously and pulled with the token the registry gives to everyone. -/
theorem package_comes_back : ∃ digests pushed world,
    pushPackage sampleHost (.ok .empty) "oci://r.io/app" "1" [1, 2, 3] "1" pushWorld = (.ok digests, pushed) ∧
      pullPackage sampleHost (.ok .empty) "oci://r.io/app" "1" pushed =
        (.ok { tarball := [1, 2, 3], manifestDigest := digests.manifestDigest, layerDigest := digests.layerDigest },
          world) := by
  have hparsed : parseReference "oci://r.io/app" = some parsedSample := by decide +kernel
  let R : Registry sampleHost parsedSample := registry decodeToken_host
  obtain ⟨digests, pushed, hpush⟩ := exists_ok (show (pushPackage sampleHost (.ok .empty) "oci://r.io/app" "1" [1, 2, 3]
    "1" pushWorld).1.toOption.isSome = true by decide +kernel)
  obtain ⟨rfl, -⟩ := pushPackage_ok hparsed hpush
  obtain ⟨world, hpull⟩ := published_pulls_back R (@readsJson sampleDigests) hparsed hpush package_fits
    (package_own R _) (List.append_nil _).symm nofun rfl
  exact ⟨_, _, world, hpush, hpull⟩

end MemoryRegistry

end Akua
