import Akua.Host

/-! Keyed cosign verification: the simple-signing payload must name the manifest digest that was
    fetched, and its ECDSA signature must verify against the configured PEM public key. Also the
    DSSE envelopes attestations come in. Failures are their messages. -/

namespace Akua

/-! ### Text and base64 -/

/-- White space, as `\s` and `trim` take it. -/
def isSpace (c : Char) : Bool :=
  c.toNat ∈ [0x09, 0x0a, 0x0b, 0x0c, 0x0d, 0x20, 0xa0, 0x1680, 0x2028, 0x2029, 0x202f, 0x205f,
    0x3000, 0xfeff] || (0x2000 ≤ c.toNat && c.toNat ≤ 0x200a)

/-- `text.trim()`. -/
def trim (text : String) : String :=
  String.ofList ((text.toList.dropWhile isSpace).reverse.dropWhile isSpace).reverse

/-- The characters of a PEM text without its armor and white space; `skip` are still to drop. -/
def pemChars : Nat → List Char → List Char
  | _, [] => []
  | skip + 1, _ :: cs => pemChars skip cs
  | 0, c :: cs =>
    let armor := ["-----BEGIN PUBLIC KEY-----", "-----END PUBLIC KEY-----"].find? fun line =>
      line.toList.isPrefixOf (c :: cs)
    match armor with
    | some line => pemChars (line.toList.length - 1) cs
    | none => if isSpace c then pemChars 0 cs else c :: pemChars 0 cs

def pemBody (pem : String) : String := String.ofList (pemChars 0 pem.toList)

/-- The six bits of a base64 character. -/
def base64Value (c : Char) : Option Nat :=
  let i := "ABCDEFGHIJKLMNOPQRSTUVWXYZabcdefghijklmnopqrstuvwxyz0123456789+/".toList.idxOf c
  if i < 64 then some i else none

def isAsciiSpace (c : Char) : Bool := c.toNat ∈ [0x09, 0x0a, 0x0c, 0x0d, 0x20]

/-- The bytes of a chunk of two to four base64 digits; extra bits are dropped. -/
def base64Chunk : List Nat → Option Bytes
  | [] => some []
  | [a, b] => some [.ofNat (a * 4 + b / 16)]
  | [a, b, c] => some [.ofNat (a * 4 + b / 16), .ofNat (b % 16 * 16 + c / 4)]
  | [a, b, c, d] =>
    some [.ofNat (a * 4 + b / 16), .ofNat (b % 16 * 16 + c / 4), .ofNat (c % 4 * 64 + d)]
  | _ => none

/-- What may follow the first `=` of a chunk. -/
def base64Padding (chunk : List Nat) (rest : List Char) : Option Bytes :=
  let rest := rest.filter fun c => !isAsciiSpace c
  match chunk.length, rest with
  | 2, ['='] | 3, [] => base64Chunk chunk
  | _, _ => none

def base64Bytes (chunk : List Nat) : List Char → Option Bytes
  | [] => base64Chunk chunk
  | c :: cs =>
    if isAsciiSpace c then base64Bytes chunk cs
    else if c = '=' then base64Padding chunk cs
    else
      match base64Value c with
      | none => none
      | some v =>
        if chunk.length = 3 then do
          let bytes ← base64Chunk (chunk ++ [v])
          let rest ← base64Bytes [] cs
          some (bytes ++ rest)
        else base64Bytes (chunk ++ [v]) cs

/-- `Uint8Array.fromBase64(text)`. -/
def fromBase64 (text : String) : Except String Bytes :=
  match base64Bytes [] text.toList with
  | some bytes => .ok bytes
  | none => .error "SyntaxError: The string contains invalid characters."

example : fromBase64 "aGk=" = .ok [104, 105] := by decide

/-! ### Signatures -/

/-- A DER `INTEGER` at `offset`, left-padded to 32 bytes, and where the next value starts. -/
def derInteger (der : Bytes) (offset : Nat) : Option (Bytes × Nat) :=
  if der[offset]? ≠ some 0x02 then none
  else
    let length := (der[offset + 1]?.getD 0).toNat
    let value := (der.drop (offset + 2)).take length
    let trimmed := if value.head? = some 0 then value.drop 1 else value
    if trimmed.length > 32 then none
    else some (List.replicate (32 - trimmed.length) 0 ++ trimmed, offset + 2 + length)

/-- A DER `SEQUENCE { INTEGER r, INTEGER s }` as the 64 bytes `r || s`. -/
def derToRaw (der : Bytes) : Option Bytes :=
  if der.head? ≠ some 0x30 then none
  else do
    let (r, next) ← derInteger der 2
    let (s, _) ← derInteger der next
    some (r ++ s)

/-- cosign signs DER by default; older tools wrote the raw form. -/
def signatureBytes (signature : Bytes) : Option Bytes :=
  if signature.length = 64 then some signature else derToRaw signature

variable (P : Platform)

/-- `critical.image["docker-manifest-digest"]` of a simple-signing payload. -/
def decodePayload (text : String) : Except String String :=
  match P.parseJson text with
  | .error message => .error message
  | .ok raw =>
    let image := Value.required (Value.required Value.asString "docker-manifest-digest") "image"
    match Value.required image "critical" raw with
    | some digest => .ok digest
    | none => .error (P.schemaIssue raw)

structure KeyedRequest where
  publicKeyPem : String
  payload : Bytes
  signatureBase64 : String
  manifestDigest : String

def verifyKeyed (request : KeyedRequest) : Except String Unit := do
  let signature ← (fromBase64 (trim request.signatureBase64)).mapError fun cause =>
    "signature is not valid DER/raw base64: " ++ cause
  match signatureBytes signature with
  | none => .error "signature is not valid DER/raw base64: unrecognised encoding"
  | some raw =>
    let claimed ← (decodePayload P (decodeText P request.payload)).mapError fun message =>
      "payload isn't the cosign simple-signing shape: " ++ message
    if claimed ≠ request.manifestDigest then
      .error ("payload claims digest `" ++ claimed ++ "`, but we fetched `" ++
        request.manifestDigest ++ "` - signature is for a different artifact")
    else
      let key ← (fromBase64 (pemBody request.publicKeyPem) >>= P.importKey).mapError fun cause =>
        "public key is not a valid PEM-encoded P-256 ECDSA key: " ++ cause
      let verified ← (P.verifyEcdsa key raw request.payload).mapError fun cause =>
        "signature does not verify against the supplied public key: " ++ cause
      if verified then .ok ()
      else .error "signature does not verify against the supplied public key"

/-- How `akua.lock` records a signature verified against `publicKeyPem`: it names the key, not one
    signature. -/
def keyedSignatureRef (publicKeyPem : String) : Except String String := do
  let der ← (fromBase64 (pemBody publicKeyPem)).mapError fun cause =>
    "public key is not valid PEM: " ++ cause
  .ok ("cosign:key:" ++ sha256 P der)

/-! ### Attestations -/

/-- DSSE pre-authentication encoding. -/
def dssePae (payloadType : String) (payload : Bytes) : Bytes :=
  encodeText ("DSSEv1 " ++ toString (encodeText payloadType).length ++ " " ++ payloadType ++ " " ++
    toString payload.length ++ " ") ++ payload

structure DsseEnvelope where
  payloadType : String
  payload : String
  signatures : List String

open Value in
def DsseEnvelope.decode (raw : Value) : Option DsseEnvelope := do
  let payloadType ← required asString "payloadType" raw
  let payload ← required asString "payload" raw
  let signatures ← required (asArray fun signature => do
    let _ ← optionalKey asString "keyid" signature
    required asString "sig" signature) "signatures" raw
  some { payloadType, payload, signatures }

/-- Whether one signature of an envelope verifies. -/
def verifiesPae (key pae : Bytes) (sig : String) : Bool :=
  match fromBase64 sig with
  | .error _ => false
  | .ok bytes =>
    match signatureBytes bytes with
    | none => false
    | some raw => ((P.verifyEcdsa key raw pae).toOption.getD false)

/-- The payload of an envelope any of whose signatures verifies against `publicKeyPem`. -/
def verifyDsse (publicKeyPem : String) (envelopeBytes : Bytes) : Except String Bytes := do
  let text := decodeText P envelopeBytes
  let malformed (message : String) := "payload isn't the cosign simple-signing shape: " ++ message
  let raw ← (P.parseJson text).mapError malformed
  match DsseEnvelope.decode raw with
  | none => .error (malformed (P.schemaIssue raw))
  | some envelope =>
    let payload ← (fromBase64 envelope.payload).mapError fun cause =>
      "signature is not valid DER/raw base64: " ++ cause
    let key ← (fromBase64 (pemBody publicKeyPem) >>= P.importKey).mapError fun cause =>
      "public key is not a valid PEM-encoded P-256 ECDSA key: " ++ cause
    if envelope.signatures.any (verifiesPae P key (dssePae envelope.payloadType payload)) then
      .ok payload
    else
      .error ("signature does not verify against the supplied public key: no DSSE signature " ++
        "verified against the supplied public key")

end Akua
