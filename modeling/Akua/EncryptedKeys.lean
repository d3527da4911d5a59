import Akua.Lib.Der
import Akua.Cosign

/-! Private keys under a passphrase: the PKCS#8 container that OpenSSL writes (PBES2: PBKDF2 and
    AES-CBC), taken apart into what WebCrypto is asked to do. Whatever parameters a container was
    written with, these are the ones the reader asks for. -/

namespace Akua

/-! ### Reading DER -/

/-- One DER TLV: its tag, its contents, and where the next one starts. -/
structure Tlv where
  tag : UInt8
  contents : Bytes
  next : Nat
deriving DecidableEq

def octetAt (der : Bytes) (offset : Nat) : UInt8 := der[offset]?.getD 0

def tlv (der : Bytes) (offset : Nat) : Tlv :=
  let tag := octetAt der offset
  let first := (octetAt der (offset + 1)).toNat
  let start := offset + 2
  if first &&& 0x80 ≠ 0 then
    let bytes := first &&& 0x7f
    let length := (List.range bytes).foldl (fun length index => length * 256 + (octetAt der (start + index)).toNat) 0
    { tag, contents := (der.drop (start + bytes)).take length, next := start + bytes + length }
  else { tag, contents := (der.drop start).take first, next := start + first }

/-- The loop of `children`: a TLV takes two bytes at least. -/
def childrenFrom (contents : Bytes) : Nat → Nat → List Tlv
  | 0, _ => []
  | fuel + 1, offset =>
    if offset < contents.length then
      let child := tlv contents offset
      child :: childrenFrom contents fuel child.next
    else []

/-- The TLVs inside a constructed value. -/
def children (contents : Bytes) : List Tlv := childrenFrom contents contents.length 0

/-! ### PBES2 -/

def hex (bytes : Bytes) : String :=
  String.ofList (bytes.flatMap fun b => [Nat.digitChar (b.toNat / 16), Nat.digitChar (b.toNat % 16)])

namespace OID

def pbes2 : String := "2a864886f70d01050d"
def pbkdf2 : String := "2a864886f70d01050c"
def hmacSha1 : String := "2a864886f70d0207"
def hmacSha256 : String := "2a864886f70d0209"
def hmacSha384 : String := "2a864886f70d020a"
def hmacSha512 : String := "2a864886f70d020b"
def aes128Cbc : String := "608648016503040102"
def aes192Cbc : String := "608648016503040116"
def aes256Cbc : String := "60864801650304012a"

end OID

def PRF_HASH : List (String × String) :=
  [(OID.hmacSha1, "SHA-1"), (OID.hmacSha256, "SHA-256"), (OID.hmacSha384, "SHA-384"), (OID.hmacSha512, "SHA-512")]

def AES_BITS : List (String × Nat) := [(OID.aes128Cbc, 128), (OID.aes192Cbc, 192), (OID.aes256Cbc, 256)]

/-- What WebCrypto is asked to derive and to decrypt with. -/
structure Pbes2 where
  salt : Bytes
  iterations : Nat
  hash : String
  bits : Nat
  iv : Bytes
deriving DecidableEq

/-- `child?.contents ?? new Uint8Array()`. -/
def contents (child : Option Tlv) : Bytes := (child.map Tlv.contents).getD []

/-- The function that optional parameters name. -/
def prfOid (optional : List Tlv) : String :=
  match optional.find? (·.tag = 0x30) with
  | none => OID.hmacSha1
  | some prf => hex (contents (children prf.contents)[0]?)

/-- The parameters and the ciphertext of a PKCS#8 `EncryptedPrivateKeyInfo` protected with PBES2. -/
def pbes2Of (der : Bytes) : Except String (Pbes2 × Bytes) :=
  let top := children (tlv der 0).contents
  let algorithm := children (contents top[0]?)
  match algorithm[0]?, algorithm[1]? with
  | some scheme, some params =>
    if hex scheme.contents ≠ OID.pbes2 then .error "only PBES2 (PBKDF2 + AES-CBC) encrypted keys are supported"
    else
      let schemes := children params.contents
      let kdf := children (contents schemes[0]?)
      match kdf[0]?, kdf[1]? with
      | some kdfOid, some kdfParams =>
        if hex kdfOid.contents ≠ OID.pbkdf2 then .error "only PBKDF2 key derivation is supported"
        else
          let derivation := children kdfParams.contents
          let cipher := children (contents schemes[1]?)
          match derivation[0]?, derivation[1]?, PRF_HASH.lookup (prfOid (derivation.drop 2)),
            AES_BITS.lookup (hex (contents cipher[0]?)), cipher[1]? with
          | some salt, some iterations, some hash, some bits, some iv =>
            .ok ({ salt := salt.contents, iterations := Der.number iterations.contents, hash, bits,
                   iv := iv.contents }, contents top[1]?)
          | _, _, _, _, _ => .error "unsupported PBES2 parameters"
      | _, _ => .error "only PBKDF2 key derivation is supported"
  | _, _ => .error "only PBES2 (PBKDF2 + AES-CBC) encrypted keys are supported"

/-! ### What is read -/

theorem octetAt_append (before l : Bytes) (i : Nat) : octetAt (before ++ l) (before.length + i) = octetAt l i := by
  rw [octetAt, octetAt, List.getElem?_append_right (Nat.le_add_right _ _), Nat.add_sub_cancel_left]

/-- A TLV is read where it stands. -/
theorem tlv_append (before l : Bytes) : tlv (before ++ l) before.length =
    { tlv l 0 with next := before.length + (tlv l 0).next } := by
  have hoctet := octetAt_append before l
  have hdrop : ∀ i, (before ++ l).drop (before.length + i) = l.drop i := fun i => List.drop_length_add_append i
  have hzero := hoctet 0
  rw [Nat.add_zero] at hzero
  simp only [tlv, hzero, hoctet, Nat.add_assoc, hdrop, Nat.zero_add]
  split <;> rfl

/-- The octets of a number are summed up to it. -/
theorem sum_octets (l rest : Bytes) (a b : UInt8) : (List.range l.length).foldl
    (fun length index => length * 256 + (octetAt (a :: b :: (l ++ rest)) (2 + index)).toNat) 0 = Der.number l := by
  have hmap : (List.range l.length).map (fun index => octetAt (a :: b :: (l ++ rest)) (2 + index)) = l := by
    refine List.ext_getElem (by simp) fun i hi hi' => ?_
    rw [List.getElem_map, List.getElem_range, octetAt, Nat.add_comm]
    simp [List.getElem?_append_left hi', hi']
  rw [Der.number]
  conv_rhs => rw [← hmap]
  rw [List.foldl_map]

/-- An element whose length is a number JavaScript has exactly. -/
def Short (element : Der.Element) : Prop := element.contents.length < 2 ^ 53

theorem and_0x80 : ∀ n < 128, n &&& 0x80 = 0 := by decide

theorem and_long : ∀ k < 128, (128 + k) &&& 0x80 ≠ 0 ∧ (128 + k) &&& 0x7f = k := by decide

theorem tlv_octets {element : Der.Element} (h : Short element) (rest : Bytes) : tlv (element.octets ++ rest) 0 =
    { tag := element.tag, contents := element.contents, next := element.octets.length } := by
  obtain ⟨tag, contents⟩ := element
  by_cases hshort : contents.length < 128
  · have hbyte : (UInt8.ofNat contents.length).toNat = contents.length := by simp; omega
    have hfirst : ¬ contents.length &&& 0x80 ≠ 0 := not_not.mpr (and_0x80 _ hshort)
    simp only [Der.Element.octets, Der.lengthOctets, if_pos hshort, tlv, octetAt, List.cons_append, List.nil_append,
      List.getElem?_cons_zero, List.getElem?_cons_succ, Option.getD_some, hbyte, if_neg hfirst, List.drop_succ_cons,
      List.drop_zero, List.take_left, List.length_cons]
    rw [Nat.add_comm]
  · have hlong : (Der.octets contents.length).length < 128 := by
      have hle : (Der.octets contents.length).length ≤ 7 := Der.length_octets_le (lt_trans h (by decide))
      omega
    have hbyte : (UInt8.ofNat (128 + (Der.octets contents.length).length)).toNat =
        128 + (Der.octets contents.length).length := by simp; omega
    obtain ⟨hfirst, hcount⟩ := and_long _ hlong
    have hsum := sum_octets (Der.octets contents.length) (contents ++ rest) tag
      (UInt8.ofNat (128 + (Der.octets contents.length).length))
    rw [Der.number_octets] at hsum
    have hoctets : (Der.Element.mk tag contents).octets ++ rest = tag ::
        UInt8.ofNat (128 + (Der.octets contents.length).length) ::
          (Der.octets contents.length ++ (contents ++ rest)) := by
      simp [Der.Element.octets, Der.lengthOctets, hshort]
    have hnext : (Der.Element.mk tag contents).octets.length =
        2 + (Der.octets contents.length).length + contents.length := by
      simp [Der.Element.octets, Der.lengthOctets, hshort]
      omega
    have hbits : octetAt (tag :: UInt8.ofNat (128 + (Der.octets contents.length).length) ::
        (Der.octets contents.length ++ (contents ++ rest))) (0 + 1) =
          UInt8.ofNat (128 + (Der.octets contents.length).length) := rfl
    have hdrop : (tag :: UInt8.ofNat (128 + (Der.octets contents.length).length) ::
        (Der.octets contents.length ++ (contents ++ rest))).drop (2 + (Der.octets contents.length).length) =
          contents ++ rest := by
      rw [Nat.add_comm, List.drop_succ_cons, List.drop_succ_cons, List.drop_left]
    rw [hoctets, tlv]
    simp only [hbits, hbyte, if_pos hfirst, hcount, Nat.zero_add, hsum, hdrop, List.take_left, hnext]
    rfl

/-- The TLVs of elements that stand one after the other from `offset` on. -/
def tlvsFrom : Nat → List Der.Element → List Tlv
  | _, [] => []
  | offset, element :: elements =>
    { tag := element.tag, contents := element.contents, next := offset + element.octets.length } ::
      tlvsFrom (offset + element.octets.length) elements

theorem childrenFrom_join {elements : List Der.Element} (h : ∀ element ∈ elements, Short element) :
    ∀ {fuel : Nat} (before : Bytes), elements.length ≤ fuel →
      childrenFrom (before ++ Der.join elements) fuel before.length = tlvsFrom before.length elements := by
  induction elements with
  | nil =>
    intro fuel before _
    cases fuel with
    | zero => rfl
    | succ fuel => rw [childrenFrom, if_neg (by simp [Der.join])]; rfl
  | cons element elements ih =>
    intro fuel before hfuel
    obtain ⟨hshort, hrest⟩ := List.forall_mem_cons.mp h
    cases fuel with
    | zero => simp at hfuel
    | succ fuel =>
      have hlength : 0 < element.octets.length := by simp [Der.Element.octets]
      have hread : tlv (before ++ Der.join (element :: elements)) before.length =
          { tag := element.tag, contents := element.contents, next := before.length + element.octets.length } := by
        rw [tlv_append, Der.join, List.flatMap_cons, tlv_octets hshort]
      have hih := ih hrest (before ++ element.octets) (Nat.le_of_succ_le_succ hfuel)
      rw [List.append_assoc, List.length_append] at hih
      rw [childrenFrom, if_pos (by simp [Der.join]; omega), hread]
      exact congrArg _ hih

/-- Elements are read as they were written. -/
theorem children_join {elements : List Der.Element} (h : ∀ element ∈ elements, Short element) :
    children (Der.join elements) = tlvsFrom 0 elements := by
  have hlength : elements.length ≤ (Der.join elements).length := by
    clear h
    induction elements with
    | nil => exact Nat.zero_le _
    | cons element elements ih =>
      have : 0 < element.octets.length := by simp [Der.Element.octets]
      rw [Der.join, List.flatMap_cons, List.length_append, List.length_cons]
      have hih : elements.length ≤ (elements.flatMap Der.Element.octets).length := ih
      omega
  exact childrenFrom_join h [] hlength

/-! ### Containers -/

inductive Prf where
  | hmacSha1
  | hmacSha256
  | hmacSha384
  | hmacSha512
deriving DecidableEq

inductive AesCbc where
  | aes128
  | aes192
  | aes256
deriving DecidableEq

/-- `rsadsi(113549) digestAlgorithm(2) <n>`. -/
def Prf.oid (prf : Prf) : Bytes :=
  ([0x2a, 0x86, 0x48, 0x86, 0xf7, 0x0d, 0x02] : Bytes) ++
    match prf with
    | .hmacSha1 => [0x07]
    | .hmacSha256 => [0x09]
    | .hmacSha384 => [0x0a]
    | .hmacSha512 => [0x0b]

def Prf.hash : Prf → String
  | .hmacSha1 => "SHA-1"
  | .hmacSha256 => "SHA-256"
  | .hmacSha384 => "SHA-384"
  | .hmacSha512 => "SHA-512"

/-- `nistAlgorithm(4) aes(1) <n>`. -/
def AesCbc.oid (cipher : AesCbc) : Bytes :=
  ([0x60, 0x86, 0x48, 0x01, 0x65, 0x03, 0x04, 0x01] : Bytes) ++
    match cipher with
    | .aes128 => [0x02]
    | .aes192 => [0x16]
    | .aes256 => [0x2a]

def AesCbc.bits : AesCbc → Nat
  | .aes128 => 128
  | .aes192 => 192
  | .aes256 => 256

/-- An `EncryptedPrivateKeyInfo` of RFC 5958 under PBES2; without a `prf` it is HMAC-SHA-1. -/
structure KeyContainer where
  salt : Bytes
  iterations : Nat
  /-- JavaScript has them exactly. -/
  iterations_exact : iterations < 2 ^ 53
  keyLength : Option Nat
  prf : Option Prf
  cipher : AesCbc
  iv : Bytes
  encrypted : Bytes

namespace KeyContainer

/-- A positive `INTEGER`: a zero comes before a high bit. -/
def integer (n : Nat) : Der.Element where
  tag := 0x02
  contents := if 0x80 ≤ ((Der.octets n).headD 0x80).toNat then 0 :: Der.octets n else Der.octets n

def objectIdentifier (octets : Bytes) : Der.Element := { tag := 0x06, contents := octets }

def octetString (octets : Bytes) : Der.Element := { tag := 0x04, contents := octets }

def sequence (elements : List Der.Element) : Der.Element := Der.constructed 0x30 elements

variable (container : KeyContainer)

def prfElement (prf : Prf) : Der.Element := sequence [objectIdentifier prf.oid, { tag := 0x05, contents := [] }]

def optional : List Der.Element := container.keyLength.toList.map integer ++ container.prf.toList.map prfElement

def derivation : List Der.Element :=
  octetString container.salt :: integer container.iterations :: container.optional

def kdf : Der.Element :=
  sequence [objectIdentifier [0x2a, 0x86, 0x48, 0x86, 0xf7, 0x0d, 0x01, 0x05, 0x0c], sequence container.derivation]

def cipherElement : Der.Element := sequence [objectIdentifier container.cipher.oid, octetString container.iv]

def algorithm : Der.Element :=
  sequence [objectIdentifier [0x2a, 0x86, 0x48, 0x86, 0xf7, 0x0d, 0x01, 0x05, 0x0d],
    sequence [container.kdf, container.cipherElement]]

def element : Der.Element := sequence [container.algorithm, octetString container.encrypted]

/-- What WebCrypto has to be asked for. -/
def pbes2 : Pbes2 where
  salt := container.salt
  iterations := container.iterations
  hash := (container.prf.getD .hmacSha1).hash
  bits := container.cipher.bits
  iv := container.iv

end KeyContainer

theorem number_integer (n : Nat) : Der.number (KeyContainer.integer n).contents = n := by
  rw [KeyContainer.integer]
  dsimp only
  split
  · exact Der.number_octets n
  · exact Der.number_octets n

theorem length_le_join {element : Der.Element} {elements : List Der.Element} (h : element ∈ elements) :
    element.contents.length ≤ (Der.join elements).length := by
  induction elements with
  | nil => exact absurd h List.not_mem_nil
  | cons first elements ih =>
    rw [Der.join, List.flatMap_cons, List.length_append]
    rcases List.mem_cons.mp h with rfl | h
    · simp [Der.Element.octets]
      omega
    · have hrest : element.contents.length ≤ (elements.flatMap Der.Element.octets).length := ih h
      omega

/-- What is inside an element whose length can be written has one itself. -/
theorem short_of_sequence {elements : List Der.Element} (h : Short (KeyContainer.sequence elements)) :
    ∀ element ∈ elements, Short element := fun _ helement => lt_of_le_of_lt (length_le_join helement) h

/-- The elements of a sequence are read as they were written. -/
theorem children_sequence {elements : List Der.Element} (h : Short (KeyContainer.sequence elements)) :
    children (KeyContainer.sequence elements).contents = tlvsFrom 0 elements :=
  children_join (short_of_sequence h)

theorem hash_read (prf : Prf) : PRF_HASH.lookup (hex prf.oid) = some prf.hash := by
  cases prf <;> decide +kernel

/-- The function a container names is found in the table; a container that names none has HMAC-SHA-1. -/
theorem prf_read {container : KeyContainer} (h : ∀ element ∈ container.optional, Short element) (offset : Nat) :
    PRF_HASH.lookup (prfOid (tlvsFrom offset container.optional)) = some container.pbes2.hash := by
  obtain ⟨salt, iterations, hexact, keyLength, prf, cipher, iv, encrypted⟩ := container
  cases prf with
  | none =>
    have hnone : prfOid (tlvsFrom offset (KeyContainer.optional
        ⟨salt, iterations, hexact, keyLength, none, cipher, iv, encrypted⟩)) = OID.hmacSha1 := by
      cases keyLength <;> rfl
    rw [hnone]
    exact (show PRF_HASH.lookup OID.hmacSha1 = some "SHA-1" by decide +kernel)
  | some prf =>
    have hshort : Short (KeyContainer.prfElement prf) := h _ (List.mem_append_right _ (by simp))
    have hfound : prfOid (tlvsFrom offset (KeyContainer.optional
        ⟨salt, iterations, hexact, keyLength, some prf, cipher, iv, encrypted⟩)) =
          hex (contents (children (KeyContainer.prfElement prf).contents)[0]?) := by
      cases keyLength <;> rfl
    have hchildren : children (KeyContainer.prfElement prf).contents = _ := children_sequence hshort
    rw [hfound, hchildren]
    exact hash_read prf

theorem cipher_read (cipher : AesCbc) : AES_BITS.lookup (hex cipher.oid) = some cipher.bits := by
  cases cipher <;> decide +kernel

/-- A key container is read as it was written, whatever its parameters. -/
theorem encrypted_key_read (container : KeyContainer) (h : Short container.element) :
    pbes2Of container.element.octets = .ok (container.pbes2, container.encrypted) := by
  have halgorithm : Short container.algorithm := short_of_sequence h _ List.mem_cons_self
  have hschemes : Short (KeyContainer.sequence [container.kdf, container.cipherElement]) :=
    short_of_sequence halgorithm _ (by simp)
  have hkdf : Short container.kdf := short_of_sequence hschemes _ List.mem_cons_self
  have hcipher : Short container.cipherElement := short_of_sequence hschemes _ (by simp)
  have hderivation : Short (KeyContainer.sequence container.derivation) := short_of_sequence hkdf _ (by simp)
  have hoptional : ∀ element ∈ container.optional, Short element := fun element helement =>
    short_of_sequence hderivation element (List.mem_cons_of_mem _ (List.mem_cons_of_mem _ helement))
  have hread := tlv_octets h []
  rw [List.append_nil] at hread
  have htop : children container.element.contents = _ := children_sequence h
  have halgorithms : children container.algorithm.contents = _ := children_sequence halgorithm
  have hkdfs : children container.kdf.contents = _ := children_sequence hkdf
  have hciphers : children container.cipherElement.contents = _ := children_sequence hcipher
  have hpbes2 : hex [0x2a, 0x86, 0x48, 0x86, 0xf7, 0x0d, 0x01, 0x05, 0x0d] = OID.pbes2 := by decide
  have hpbkdf2 : hex [0x2a, 0x86, 0x48, 0x86, 0xf7, 0x0d, 0x01, 0x05, 0x0c] = OID.pbkdf2 := by decide
  rw [pbes2Of, hread]
  simp only [htop, contents, tlvsFrom, List.getElem?_cons_zero, List.getElem?_cons_succ, Option.map_some,
    Option.getD_some, halgorithms, children_sequence hschemes, KeyContainer.objectIdentifier, hpbes2, ne_eq,
    not_true_eq_false, if_false, hkdfs, hpbkdf2, children_sequence hderivation, hciphers]
  simp only [KeyContainer.derivation, tlvsFrom, List.getElem?_cons_zero, List.getElem?_cons_succ, List.drop_succ_cons,
    List.drop_zero, prf_read hoptional, cipher_read]
  rw [number_integer]
  rfl

/-- A key as OpenSSL writes it by default: HMAC-SHA-256, no key length, AES-256. -/
def opensslKey : KeyContainer where
  salt := [1, 2, 3, 4, 5, 6, 7, 8]
  iterations := 2048
  iterations_exact := of_decide_eq_true rfl
  keyLength := none
  prf := some .hmacSha256
  cipher := .aes256
  iv := [9, 10, 11, 12, 13, 14, 15, 16, 17, 18, 19, 20, 21, 22, 23, 24]
  encrypted := [25, 26, 27]

theorem openssl_key_read : pbes2Of opensslKey.element.octets =
    .ok ({ salt := opensslKey.salt, iterations := 2048, hash := "SHA-256", bits := 256, iv := opensslKey.iv },
      [25, 26, 27]) :=
  encrypted_key_read opensslKey (show _ < _ by decide +kernel)

end Akua
