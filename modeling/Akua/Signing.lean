import Mathlib
import Akua.EncryptedKeys
import Akua.JsonText
import Akua.Lockfile
import Akua.OciPush
import Akua.SignatureCoding

/-! What signing writes: cosign's simple-signing payload, keyed signatures as base64 DER, and SLSA
    provenance in a DSSE envelope. What is signed with a private key verifies against its public key,
    but for the signatures whose DER form has the length of the raw one. -/

namespace Akua

/-! ### Payloads -/

/-- The docker reference cosign signs: the OCI reference without its scheme. -/
def dockerReference (reference : String) : String := Text.stripPrefix reference "oci://"

def simpleSigningValue (dockerReference manifestDigest : String) : Value :=
  .object
    [("critical", .object
      [("identity", .object [("docker-reference", .string dockerReference)]),
       ("image", .object [("docker-manifest-digest", .string manifestDigest)]),
       ("type", .string "cosign container image signature")]),
     ("optional", .null)]

/-- The simple-signing payload cosign signs for `dockerReference` at `manifestDigest`. -/
def simpleSigningPayload (dockerReference manifestDigest : String) : Bytes :=
  encodeText (simpleSigningValue dockerReference manifestDigest).stringify

def splitDigest (digest : String) : String × String := (Text.cut digest ":").getD ("sha256", digest)

structure ProvenanceRequest where
  reference : String
  tag : String
  manifestDigest : String
  lock : Option Lock
  version : String

def resolvedDependency (entry : LockedPackage) : Value :=
  .object [("name", .string entry.name),
    ("digest", .object [((splitDigest entry.digest).1, .string (splitDigest entry.digest).2)]),
    ("uri", .string entry.source)]

def provenanceValue (request : ProvenanceRequest) : Value :=
  let (algorithm, hex) := splitDigest request.manifestDigest
  let dependencies := ((request.lock.map Lock.packages).getD []).map resolvedDependency
  .object
    [("_type", .string "https://in-toto.io/Statement/v1"),
     ("subject", .array [.object [("name", .string (dockerReference request.reference)),
       ("digest", .object [(algorithm, .string hex)])]]),
     ("predicateType", .string "https://slsa.dev/provenance/v1"),
     ("predicate", .object
       [("buildDefinition", .object
         ([("buildType", .string "https://akua.dev/slsa/publish/v1"),
           ("externalParameters", .object [("ociRef", .string request.reference), ("tag", .string request.tag)])] ++
          if dependencies = [] then [] else [("resolvedDependencies", .array dependencies)])),
        ("runDetails", .object
          [("builder", .object [("id", .string ("https://cli.akua.dev/cli/v" ++ request.version))])])])]

/-- The in-toto v1 statement with a SLSA v1 provenance predicate: the artifact, the invocation and the lockfile's
    resolved dependencies. -/
def provenanceStatement (request : ProvenanceRequest) : Bytes := encodeText (provenanceValue request).stringify

/-! ### Private keys -/

/-- What signing uses of WebCrypto. -/
structure WebCrypto where
  /-- A PKCS#8 key for ECDSA on P-256, or why it is none. -/
  importPrivateKey : Bytes → Except String Bytes
  /-- PBKDF2 over the passphrase, then AES-CBC. -/
  decryptPbes2 : Pbes2 → (passphrase encrypted : Bytes) → Except String Bytes
  /-- ECDSA with SHA-256, as `r || s`. -/
  sign : (key payload : Bytes) → Except String Bytes

/-- `CosignInvalid`, or an exception nobody catches. -/
inductive SigningFailure where
  | invalid (message : String)
  | defect (cause : String)
deriving DecidableEq

variable (W : WebCrypto)

def decryptPkcs8 (der : Bytes) (passphrase : String) : Except String Bytes := do
  let (pbes2, encrypted) ← pbes2Of der
  W.decryptPbes2 pbes2 (encodeText passphrase) encrypted

/-- The block of this label in a PEM text, if there is one. -/
def pemBlock (pem label : String) : Except String (Option Bytes) :=
  match Text.cut pem ("-----BEGIN " ++ label ++ "-----") with
  | none => .ok none
  | some (_, rest) =>
    match Text.cut rest ("-----END " ++ label ++ "-----") with
    | none => .ok none
    | some (block, _) => some <$> fromBase64 (String.ofList (block.toList.filter fun c => !isSpace c))

def badKey (detail : String) : SigningFailure :=
  .invalid ("private key is not a valid PEM-encoded P-256 ECDSA key: " ++ detail)

/-- A PKCS#8 P-256 private key (plain, or encrypted with `passphrase`) as a WebCrypto signing key. -/
def WebCrypto.signingKey (privateKeyPem : String) (passphrase : Option String) : Except SigningFailure Bytes := do
  let encrypted ← (pemBlock privateKeyPem "ENCRYPTED PRIVATE KEY").mapError .defect
  let pkcs8 ← match encrypted, passphrase with
    | some _, none =>
      .error (badKey "private key is encrypted; set `$AKUA_COSIGN_PASSPHRASE` or an equivalent and re-run")
    | some encrypted, some passphrase =>
      (decryptPkcs8 W encrypted passphrase).mapError fun cause => badKey ("decrypt: " ++ cause)
    | none, _ => do
      let plain ← (pemBlock privateKeyPem "PRIVATE KEY").mapError .defect
      match plain with
      | none => .error (badKey "no PKCS#8 `PRIVATE KEY` PEM block")
      | some plain => .ok plain
  (W.importPrivateKey pkcs8).mapError badKey

def base64 (bytes : Bytes) : String := String.ofList (toBase64 bytes)

/-- ECDSA P-256 / SHA-256 over `payload`, as base64 DER. -/
def signKeyed (privateKeyPem : String) (payload : Bytes) (passphrase : Option String) :
    Except SigningFailure String := do
  let key ← W.signingKey privateKeyPem passphrase
  let raw ← (W.sign key payload).mapError fun cause => .invalid ("signing failed: " ++ cause)
  .ok (base64 (rawToDer raw))

def dsseValue (payloadType : String) (payload : Bytes) (sig : String) : Value :=
  .object [("payloadType", .string payloadType), ("payload", .string (base64 payload)),
    ("signatures", .array [.object [("sig", .string sig)]])]

/-- A signed DSSE envelope over `payload`, as the JSON bytes cosign's `.att` sidecar carries. -/
def signDsse (privateKeyPem payloadType : String) (payload : Bytes) (passphrase : Option String) :
    Except SigningFailure Bytes := do
  let sig ← signKeyed W privateKeyPem (dssePae payloadType payload) passphrase
  .ok (encodeText (dsseValue payloadType payload sig).stringify)

/-! ### Base64 -/

def base64Digit (n : Nat) : Char :=
  "ABCDEFGHIJKLMNOPQRSTUVWXYZabcdefghijklmnopqrstuvwxyz0123456789+/".toList.getD n '='

theorem base64Value_digit : ∀ n < 64, base64Value (base64Digit n) = some n ∧ isAsciiSpace (base64Digit n) = false ∧
    isSpace (base64Digit n) = false ∧ base64Digit n ≠ '=' := by
  decide +kernel

theorem toBase64_triple (a b c : UInt8) (rest : Bytes) : toBase64 (a :: b :: c :: rest) =
    base64Digit (a.toNat / 4) :: base64Digit (a.toNat % 4 * 16 + b.toNat / 16) ::
      base64Digit (b.toNat % 16 * 4 + c.toNat / 64) :: base64Digit (c.toNat % 64) :: toBase64 rest := by
  rw [toBase64]
  rfl

theorem toBase64_pair (a b : UInt8) : toBase64 [a, b] = [base64Digit (a.toNat / 4),
    base64Digit (a.toNat % 4 * 16 + b.toNat / 16), base64Digit (b.toNat % 16 * 4), '='] := rfl

theorem toBase64_single (a : UInt8) : toBase64 [a] =
    [base64Digit (a.toNat / 4), base64Digit (a.toNat % 4 * 16), '=', '='] := rfl

theorem base64Bytes_digit {n : Nat} (h : n < 64) (chunk : List Nat) (cs : List Char) :
    base64Bytes chunk (base64Digit n :: cs) =
      if chunk.length = 3 then do
        let bytes ← base64Chunk (chunk ++ [n])
        let rest ← base64Bytes [] cs
        some (bytes ++ rest)
      else base64Bytes (chunk ++ [n]) cs := by
  obtain ⟨hvalue, hspace, -, hpad⟩ := base64Value_digit n h
  rw [base64Bytes, hspace, if_neg (by decide), if_neg hpad, hvalue]

theorem base64Bytes_next {n : Nat} (h : n < 64) {chunk : List Nat} (hchunk : chunk.length ≠ 3) (cs : List Char) :
    base64Bytes chunk (base64Digit n :: cs) = base64Bytes (chunk ++ [n]) cs := by
  rw [base64Bytes_digit h, if_neg hchunk]

theorem base64Bytes_pad (chunk : List Nat) (cs : List Char) :
    base64Bytes chunk ('=' :: cs) = base64Padding chunk cs := by
  rw [base64Bytes, if_neg (by decide), if_pos rfl]

theorem base64Bytes_toBase64 : ∀ bytes : Bytes, base64Bytes [] (toBase64 bytes) = some bytes
  | [] => rfl
  | [a] => by
    have ha := a.toNat_lt
    have hbyte : a.toNat / 4 * 4 + a.toNat % 4 * 16 / 16 = a.toNat := by omega
    rw [toBase64_single, base64Bytes_next (by omega) (by simp), base64Bytes_next (by omega) (by simp), base64Bytes_pad]
    show some [UInt8.ofNat (a.toNat / 4 * 4 + a.toNat % 4 * 16 / 16)] = _
    rw [hbyte, UInt8.ofNat_toNat]
  | [a, b] => by
    have ha := a.toNat_lt
    have hb := b.toNat_lt
    have hbyte : a.toNat / 4 * 4 + (a.toNat % 4 * 16 + b.toNat / 16) / 16 = a.toNat := by omega
    have hbyte' : (a.toNat % 4 * 16 + b.toNat / 16) % 16 * 16 + b.toNat % 16 * 4 / 4 = b.toNat := by omega
    rw [toBase64_pair, base64Bytes_next (by omega) (by simp), base64Bytes_next (by omega) (by simp),
      base64Bytes_next (by omega) (by simp), base64Bytes_pad]
    show some [UInt8.ofNat (a.toNat / 4 * 4 + (a.toNat % 4 * 16 + b.toNat / 16) / 16),
      UInt8.ofNat ((a.toNat % 4 * 16 + b.toNat / 16) % 16 * 16 + b.toNat % 16 * 4 / 4)] = _
    rw [hbyte, hbyte', UInt8.ofNat_toNat, UInt8.ofNat_toNat]
  | a :: b :: c :: rest => by
    have ha := a.toNat_lt
    have hb := b.toNat_lt
    have hc := c.toNat_lt
    have hbyte : a.toNat / 4 * 4 + (a.toNat % 4 * 16 + b.toNat / 16) / 16 = a.toNat := by omega
    have hbyte' : (a.toNat % 4 * 16 + b.toNat / 16) % 16 * 16 + (b.toNat % 16 * 4 + c.toNat / 64) / 4 = b.toNat := by
      omega
    have hbyte'' : (b.toNat % 16 * 4 + c.toNat / 64) % 4 * 64 + c.toNat % 64 = c.toNat := by omega
    rw [toBase64_triple, base64Bytes_next (by omega) (by simp), base64Bytes_next (by omega) (by simp),
      base64Bytes_next (by omega) (by simp), base64Bytes_digit (by omega), if_pos (by simp), base64Bytes_toBase64 rest]
    show some ([UInt8.ofNat (a.toNat / 4 * 4 + (a.toNat % 4 * 16 + b.toNat / 16) / 16),
      UInt8.ofNat ((a.toNat % 4 * 16 + b.toNat / 16) % 16 * 16 + (b.toNat % 16 * 4 + c.toNat / 64) / 4),
      UInt8.ofNat ((b.toNat % 16 * 4 + c.toNat / 64) % 4 * 64 + c.toNat % 64)] ++ rest) = _
    rw [hbyte, hbyte', hbyte'', UInt8.ofNat_toNat, UInt8.ofNat_toNat, UInt8.ofNat_toNat]
    rfl

/-- No character of a base64 text is white space. -/
theorem isSpace_toBase64 : ∀ {bytes : Bytes}, ∀ c ∈ toBase64 bytes, isSpace c = false
  | [], c, h => absurd h List.not_mem_nil
  | [a], c, h => by
    have ha := a.toNat_lt
    rw [toBase64_single] at h
    simp only [List.mem_cons, List.not_mem_nil, or_false] at h
    rcases h with rfl | rfl | rfl | rfl
    exacts [(base64Value_digit _ (by omega)).2.2.1, (base64Value_digit _ (by omega)).2.2.1, by decide, by decide]
  | [a, b], c, h => by
    have ha := a.toNat_lt
    have hb := b.toNat_lt
    rw [toBase64_pair] at h
    simp only [List.mem_cons, List.not_mem_nil, or_false] at h
    rcases h with rfl | rfl | rfl | rfl
    exacts [(base64Value_digit _ (by omega)).2.2.1, (base64Value_digit _ (by omega)).2.2.1,
      (base64Value_digit _ (by omega)).2.2.1, by decide]
  | a :: b :: x :: rest, c, h => by
    have ha := a.toNat_lt
    have hb := b.toNat_lt
    have hx := x.toNat_lt
    rw [toBase64_triple] at h
    simp only [List.mem_cons] at h
    rcases h with rfl | rfl | rfl | rfl | h
    exacts [(base64Value_digit _ (by omega)).2.2.1, (base64Value_digit _ (by omega)).2.2.1,
      (base64Value_digit _ (by omega)).2.2.1, (base64Value_digit _ (by omega)).2.2.1, isSpace_toBase64 c h]

theorem fromBase64_base64 (bytes : Bytes) : fromBase64 (base64 bytes) = .ok bytes := by
  rw [fromBase64, base64, String.toList_ofList, base64Bytes_toBase64]

theorem trim_base64 (bytes : Bytes) : trim (base64 bytes) = base64 bytes := by
  have hkept : ∀ l : List Char, (∀ c ∈ l, isSpace c = false) → l.dropWhile isSpace = l := by
    intro l hl
    cases l with
    | nil => rfl
    | cons c cs => rw [List.dropWhile_cons, hl c List.mem_cons_self]; rfl
  rw [trim, base64, String.toList_ofList, hkept _ isSpace_toBase64,
    hkept _ fun c hc => isSpace_toBase64 c (List.mem_reverse.mp hc), List.reverse_reverse]

/-! ### What is signed verifies -/

/-- `JSON.parse` reads what `JSON.stringify` writes. -/
def ReadsJson (P : Platform) : Prop := ∀ {value : Value}, value.IsJson → P.parseJson value.stringify = .ok value

section Documents

open Value

theorem eachAll_iff {leaf : Value → Prop} {keys : List String → Prop} {values : List Value} :
    EachAll leaf keys values ↔ ∀ value ∈ values, Each leaf keys value := by
  induction values with
  | nil => simp [EachAll]
  | cons value values ih => simp [EachAll, ih]

theorem isJson_simpleSigning (docker manifestDigest : String) : (simpleSigningValue docker manifestDigest).IsJson := by
  simp [IsJson, simpleSigningValue, Each, EachEntries, JsonLeaf]

theorem isJson_dsse (payloadType sig : String) (payload : Bytes) : (dsseValue payloadType payload sig).IsJson := by
  simp [IsJson, dsseValue, Each, EachAll, EachEntries, JsonLeaf]

theorem isJson_resolvedDependency (entry : LockedPackage) : (resolvedDependency entry).IsJson := by
  simp [IsJson, resolvedDependency, Each, EachEntries, JsonLeaf]

theorem isJson_provenance (request : ProvenanceRequest) : (provenanceValue request).IsJson := by
  have hdependencies : ∀ entries : List LockedPackage, EachAll JsonLeaf List.Nodup (entries.map resolvedDependency) :=
    fun entries => eachAll_iff.mpr fun value hvalue => by
      obtain ⟨entry, -, rfl⟩ := List.mem_map.mp hvalue
      exact isJson_resolvedDependency entry
  rw [provenanceValue]
  dsimp only
  split
  · simp [IsJson, Each, EachAll, EachEntries, JsonLeaf]
  · simp [IsJson, Each, EachAll, EachEntries, JsonLeaf, hdependencies]

end Documents

theorem decodeText_stringify_object (P : Platform) (entries : List (String × Value)) :
    decodeText P (encodeText (Value.stringify (.object entries))) = Value.stringify (.object entries) := by
  refine decodeText_encodeText P ?_
  have hhead : (Value.stringify (.object entries)).toList.head? = some '\x7b' := by
    rw [Value.stringify, String.toList_append, String.toList_append]
    rfl
  obtain ⟨cs, hcs⟩ : ∃ cs, (Value.stringify (.object entries)).toList = '\x7b' :: cs :=
    List.head?_eq_some_iff.mp hhead
  have hfirst : String.utf8EncodeChar '\x7b' = [0x7b] := by decide
  rw [encodeText_eq, hcs, List.flatMap_cons, hfirst]
  simp

/-- A private key in a file and its public key in another: what the one signs, the other verifies. -/
structure KeyPair (P : Platform) (W : WebCrypto) (privateKeyPem : String) (passphrase : Option String)
    (publicKeyPem : String) where
  key : Bytes
  signing : W.signingKey privateKeyPem passphrase = .ok key
  spki : Bytes
  armored : fromBase64 (pemBody publicKeyPem) = .ok spki
  publicKey : Bytes
  imported : P.importKey spki = .ok publicKey
  verifies : ∀ {payload raw}, W.sign key payload = .ok raw →
    raw.length = 64 ∧ P.verifyEcdsa publicKey raw payload = .ok true

/-- The signature, decoded, does not have the length of a raw one. -/
def TellsDer (signature : String) : Prop := ∀ der, fromBase64 signature = .ok der → der.length ≠ 64

section Pair

variable {P : Platform} {W : WebCrypto} {privateKeyPem publicKeyPem payloadType signature : String}
  {passphrase : Option String} {payload : Bytes}

theorem signKeyed_ok (pair : KeyPair P W privateKeyPem passphrase publicKeyPem)
    (h : signKeyed W privateKeyPem payload passphrase = .ok signature) :
    ∃ raw, signature = base64 (rawToDer raw) ∧ raw.length = 64 ∧
      P.verifyEcdsa pair.publicKey raw payload = .ok true := by
  rw [signKeyed, pair.signing, except_ok_bind] at h
  obtain ⟨raw, hraw, h⟩ := except_bind_ok.mp h
  cases h
  exact ⟨raw, rfl, pair.verifies (except_mapError_ok.mp hraw)⟩

theorem signatureBytes_signed {raw : Bytes} (hlength : raw.length = 64) (htell : TellsDer (base64 (rawToDer raw))) :
    signatureBytes (rawToDer raw) = some raw := by
  have hsplit : raw.take 32 ++ raw.drop 32 = raw := List.take_append_drop 32 raw
  have hraw : derToRaw (rawToDer (raw.take 32 ++ raw.drop 32)) = some (raw.take 32 ++ raw.drop 32) :=
    derToRaw_rawToDer (by simp [hlength]) (by simp [hlength])
  rw [hsplit] at hraw
  rw [signatureBytes, if_neg (htell _ (fromBase64_base64 _)), hraw]

/-- What was signed for an artifact verifies for it. -/
theorem verifyKeyed_signed (pair : KeyPair P W privateKeyPem passphrase publicKeyPem) (hjson : ReadsJson P)
    {docker manifestDigest : String}
    (h : signKeyed W privateKeyPem (simpleSigningPayload docker manifestDigest) passphrase = .ok signature)
    (htell : TellsDer signature) :
    verifyKeyed P { publicKeyPem, payload := simpleSigningPayload docker manifestDigest, signatureBase64 := signature,
                    manifestDigest } = .ok () := by
  obtain ⟨raw, rfl, hlength, hverified⟩ := signKeyed_ok pair h
  have hpayload : decodePayload P (decodeText P (simpleSigningPayload docker manifestDigest)) = .ok manifestDigest := by
    rw [simpleSigningPayload, simpleSigningValue, decodeText_stringify_object, ← simpleSigningValue, decodePayload,
      hjson (isJson_simpleSigning docker manifestDigest)]
    simp [simpleSigningValue, Value.required, Value.asString, List.lookup]
  have hkey : (fromBase64 (pemBody publicKeyPem) >>= P.importKey) = .ok pair.publicKey :=
    except_bind_ok.mpr ⟨_, pair.armored, pair.imported⟩
  have hsignature : fromBase64 (trim (base64 (rawToDer raw))) = .ok (rawToDer raw) := by
    rw [trim_base64, fromBase64_base64]
  refine except_bind_ok.mpr ⟨_, except_mapError_ok.mpr hsignature, ?_⟩
  simp only [signatureBytes_signed hlength htell]
  refine except_bind_ok.mpr ⟨_, except_mapError_ok.mpr hpayload, ?_⟩
  rw [if_neg (not_not.mpr rfl)]
  exact except_bind_ok.mpr ⟨_, except_mapError_ok.mpr hkey,
    except_bind_ok.mpr ⟨_, except_mapError_ok.mpr hverified, if_pos rfl⟩⟩

/-- What was attested is read from its envelope. -/
theorem verifyDsse_signed (pair : KeyPair P W privateKeyPem passphrase publicKeyPem) (hjson : ReadsJson P)
    {envelope : Bytes} (h : signDsse W privateKeyPem payloadType payload passphrase = .ok envelope)
    (htells : ∀ sig, signKeyed W privateKeyPem (dssePae payloadType payload) passphrase = .ok sig → TellsDer sig) :
    verifyDsse P publicKeyPem envelope = .ok payload := by
  rw [signDsse] at h
  obtain ⟨sig, hsigned, h⟩ := except_bind_ok.mp h
  cases h
  have htell := htells sig hsigned
  obtain ⟨raw, rfl, hlength, hverified⟩ := signKeyed_ok pair hsigned
  have hbytes := signatureBytes_signed hlength htell
  have hverifies : verifiesPae P pair.publicKey (dssePae payloadType payload) (base64 (rawToDer raw)) = true := by
    rw [verifiesPae, fromBase64_base64]
    simp only [hbytes, hverified]
    rfl
  have hdecode : DsseEnvelope.decode (dsseValue payloadType payload (base64 (rawToDer raw))) =
      some { payloadType, payload := base64 payload, signatures := [base64 (rawToDer raw)] } := by
    simp [DsseEnvelope.decode, dsseValue, Value.required, Value.optionalKey, Value.asString, Value.asArray, List.lookup]
  have htext : decodeText P (encodeText (dsseValue payloadType payload (base64 (rawToDer raw))).stringify) =
      (dsseValue payloadType payload (base64 (rawToDer raw))).stringify := decodeText_stringify_object P _
  have hkey : (fromBase64 (pemBody publicKeyPem) >>= P.importKey) = .ok pair.publicKey :=
    except_bind_ok.mpr ⟨_, pair.armored, pair.imported⟩
  rw [verifyDsse]
  refine except_bind_ok.mpr ⟨_, except_mapError_ok.mpr
    ((congrArg P.parseJson htext).trans (hjson (isJson_dsse _ _ _))), ?_⟩
  simp only [hdecode]
  refine except_bind_ok.mpr ⟨_, except_mapError_ok.mpr (fromBase64_base64 payload),
    except_bind_ok.mpr ⟨_, except_mapError_ok.mpr hkey, if_pos ?_⟩⟩
  simpa using hverifies

end Pair

end Akua
