import Mathlib.Data.Nat.Digits.Defs
import Mathlib.Data.Nat.Size
import Akua.Cosign
import Akua.Lib.Naming
import Akua.Lib.Utf8

/-! The two encodings signatures rest on. A P-256 signature travels as DER, whose integers have no
    leading zeros but a sign byte, and the verifiers tell it from the raw 64 bytes by its length
    alone; an attestation is signed under a frame of its type and payload. -/

namespace Akua

/-! ### DER -/

/-- The number big-endian bytes spell. -/
def bigEndian (bytes : Bytes) : Nat := Nat.ofDigits 256 (bytes.reverse.map UInt8.toNat)

/-- `bytes` without its leading zeros; the last byte stays. -/
def significant : Bytes → Bytes
  | [] => []
  | [b] => [b]
  | b :: c :: rest => if b = 0 then significant (c :: rest) else b :: c :: rest

/-- The contents of a DER `INTEGER`: a zero comes before a high bit. -/
def integerContents (bytes : Bytes) : Bytes :=
  let trimmed := significant bytes
  if 0x80 ≤ (trimmed.headD 0).toNat then 0 :: trimmed else trimmed

/-- A DER `INTEGER`. -/
def encodeInteger (bytes : Bytes) : Bytes :=
  let value := integerContents bytes
  0x02 :: .ofNat value.length :: value

/-- WebCrypto's 64-byte `r || s` as the DER `SEQUENCE { INTEGER r, INTEGER s }` cosign writes. -/
def rawToDer (raw : Bytes) : Bytes :=
  let r := encodeInteger (raw.take 32)
  let s := encodeInteger (raw.drop 32)
  0x30 :: .ofNat (r.length + s.length) :: (r ++ s)

theorem bigEndian_cons (b : UInt8) (rest : Bytes) :
    bigEndian (b :: rest) = b.toNat * 256 ^ rest.length + bigEndian rest := by
  simp only [bigEndian, List.reverse_cons, List.map_append, List.map_cons, List.map_nil,
    Nat.ofDigits_append, List.length_map, List.length_reverse, Nat.ofDigits_singleton]
  ring

theorem bigEndian_lt (bytes : Bytes) : bigEndian bytes < 256 ^ bytes.length := by
  have h := Nat.ofDigits_lt_base_pow_length (b := 256) (l := bytes.reverse.map UInt8.toNat) (by decide)
    (by simpa using fun b _ => b.toNat_lt)
  simpa [bigEndian] using h

/-- Leading zeros are all that is lost. -/
theorem significant_padded (bytes : Bytes) : ∃ k, bytes = List.replicate k 0 ++ significant bytes := by
  induction bytes using significant.induct with
  | case1 => exact ⟨0, rfl⟩
  | case2 b => exact ⟨0, rfl⟩
  | case3 c rest ih =>
    obtain ⟨k, hk⟩ := ih
    refine ⟨k + 1, ?_⟩
    rw [significant, if_pos rfl, List.replicate_succ, List.cons_append, ← hk]
  | case4 b c rest hb => exact ⟨0, by simp [significant, hb]⟩

/-- What comes first is a zero only where all is zero. -/
theorem significant_head_zero {bytes : Bytes} (h : (significant bytes).head? = some 0) :
    significant bytes = [0] := by
  induction bytes using significant.induct with
  | case1 => simp [significant] at h
  | case2 b => simpa [significant] using h
  | case3 c rest ih => rw [significant, if_pos rfl] at h ⊢; exact ih h
  | case4 b c rest hb => simp [significant, hb] at h

theorem size_eq {n k : Nat} (hlow : 2 ^ k ≤ n) (hhigh : n < 2 ^ (k + 1)) : n.size = k + 1 :=
  le_antisymm (Nat.size_le.mpr hhigh) (Nat.lt_size.mpr hlow)

/-- A first byte that is not zero says how large the number is. -/
theorem size_bigEndian_cons {b : UInt8} (hb : b ≠ 0) (rest : Bytes) :
    (bigEndian (b :: rest)).size / 8 = rest.length + if 0x80 ≤ b.toNat then 1 else 0 := by
  have hpos : 1 ≤ b.toNat := Nat.one_le_iff_ne_zero.mpr fun h0 => hb (UInt8.toNat_inj.mp h0)
  have hlt : b.toNat < 256 := b.toNat_lt
  have hrest := bigEndian_lt rest
  have hpow : (256 : Nat) ^ rest.length = 2 ^ (8 * rest.length) := by rw [pow_mul]; norm_num
  have hvalue : bigEndian (b :: rest) = b.toNat * 2 ^ (8 * rest.length) + bigEndian rest := by
    rw [bigEndian_cons, hpow]
  rw [hpow] at hrest
  split
  · rename_i hhigh
    rw [size_eq (k := 8 * rest.length + 7)]
    · omega
    · rw [hvalue, pow_add]
      nlinarith [Nat.mul_le_mul_right (2 ^ (8 * rest.length)) hhigh]
    · rw [hvalue, show 2 ^ (8 * rest.length + 7 + 1) = 256 * 2 ^ (8 * rest.length) by ring]
      nlinarith [Nat.mul_le_mul_right (2 ^ (8 * rest.length)) hlt]
  · rename_i hlow
    have hlarge : 8 * rest.length < (bigEndian (b :: rest)).size := by
      refine Nat.lt_size.mpr ?_
      rw [hvalue]
      nlinarith [Nat.mul_le_mul_right (2 ^ (8 * rest.length)) hpos]
    have hsmall : (bigEndian (b :: rest)).size ≤ 8 * rest.length + 7 := by
      refine Nat.size_le.mpr ?_
      rw [hvalue, pow_add]
      nlinarith [Nat.mul_le_mul_right (2 ^ (8 * rest.length)) (not_le.mp hlow)]
    omega

/-- The contents are as many bytes as the number's bits and its sign need. -/
theorem length_integerContents {bytes : Bytes} (h : bytes ≠ []) :
    (integerContents bytes).length = (bigEndian bytes).size / 8 + 1 := by
  have contents : ∀ (b : UInt8) (rest : Bytes), significant (b :: rest) = b :: rest → b ≠ 0 →
      (integerContents (b :: rest)).length = (bigEndian (b :: rest)).size / 8 + 1 := by
    intro b rest hsig hb
    have hvalue : integerContents (b :: rest) =
        if 0x80 ≤ b.toNat then 0 :: b :: rest else b :: rest := by
      simp only [integerContents, hsig, List.headD_cons]
    rw [size_bigEndian_cons hb rest, hvalue]
    split <;> simp
  induction bytes using significant.induct with
  | case1 => exact absurd rfl h
  | case2 b =>
    by_cases hb : b = 0
    · subst hb; decide
    · exact contents b [] rfl hb
  | case3 c rest ih =>
    have hsig : significant (0 :: c :: rest) = significant (c :: rest) := by simp [significant]
    rw [integerContents, hsig, bigEndian_cons]
    simpa [integerContents] using ih (by simp)
  | case4 b c rest hb => exact contents b _ (by simp [significant, hb]) hb

theorem length_integerContents_le {bytes : Bytes} (h : bytes.length = 32) :
    (integerContents bytes).length ≤ 33 := by
  have hne : bytes ≠ [] := by rintro rfl; simp at h
  have hsize : (bigEndian bytes).size ≤ 256 := Nat.size_le.mpr <| by
    have := bigEndian_lt bytes
    rwa [h, show (256 : Nat) ^ 32 = 2 ^ 256 by norm_num] at this
  rw [length_integerContents hne]
  omega

/-- The contents without the sign byte, padded to 32 bytes, are the bytes that were encoded. -/
theorem integerContents_padded {bytes trimmed : Bytes} (h : bytes.length = 32)
    (ht : trimmed = if (integerContents bytes).head? = some 0 then (integerContents bytes).drop 1
      else integerContents bytes) :
    trimmed.length ≤ 32 ∧ List.replicate (32 - trimmed.length) 0 ++ trimmed = bytes := by
  have hne : bytes ≠ [] := by rintro rfl; simp at h
  obtain ⟨k, hk⟩ := significant_padded bytes
  have hlen : k + (significant bytes).length = 32 := by
    simpa [h] using (congrArg List.length hk).symm
  have key : trimmed = significant bytes ∨ (significant bytes = [0] ∧ trimmed = []) := by
    by_cases hhigh : 0x80 ≤ ((significant bytes).headD 0).toNat
    · have hvalue : integerContents bytes = 0 :: significant bytes := if_pos hhigh
      rw [hvalue, List.head?_cons, if_pos rfl] at ht
      exact .inl ht
    · have hvalue : integerContents bytes = significant bytes := if_neg hhigh
      rw [hvalue] at ht
      split at ht
      · rename_i hzero
        have hone := significant_head_zero hzero
        exact .inr ⟨hone, by rw [ht, hone]; rfl⟩
      · exact .inl ht
  rcases key with rfl | ⟨hone, rfl⟩
  · refine ⟨by omega, ?_⟩
    rw [show 32 - (significant bytes).length = k by omega, ← hk]
  · rw [hone] at hk hlen
    refine ⟨by simp, ?_⟩
    rw [hk, show k = 31 by simp at hlen; omega]
    rfl

/-- The verifiers read an integer back, whatever stands around it. -/
theorem derInteger_encodeInteger {bytes : Bytes} (h : bytes.length = 32) (before rest : Bytes) :
    derInteger (before ++ (encodeInteger bytes ++ rest)) before.length =
      some (bytes, before.length + (encodeInteger bytes).length) := by
  have hle := length_integerContents_le h
  have hcode : (UInt8.ofNat (integerContents bytes).length).toNat = (integerContents bytes).length := by
    rw [UInt8.toNat_ofNat']
    omega
  have hshape : encodeInteger bytes ++ rest =
      0x02 :: .ofNat (integerContents bytes).length :: (integerContents bytes ++ rest) := rfl
  have htag : (before ++ (encodeInteger bytes ++ rest))[before.length]? = some 0x02 := by
    rw [hshape, List.getElem?_append_right le_rfl, Nat.sub_self]
    rfl
  have hlength : (before ++ (encodeInteger bytes ++ rest))[before.length + 1]? =
      some (.ofNat (integerContents bytes).length) := by
    rw [hshape, List.getElem?_append_right (Nat.le_add_right _ 1), Nat.add_sub_cancel_left]
    rfl
  have hvalue : ((before ++ (encodeInteger bytes ++ rest)).drop (before.length + 2)).take
      (integerContents bytes).length = integerContents bytes := by
    rw [hshape, List.drop_append, List.drop_eq_nil_of_le (by omega), Nat.add_sub_cancel_left]
    simp
  obtain ⟨hfits, hpadded⟩ := integerContents_padded h rfl
  simp only [derInteger, htag, hlength, hvalue, hcode, Option.getD_some, ne_eq, not_true_eq_false,
    if_false]
  rw [if_neg (not_lt.mpr hfits), hpadded]
  simp [encodeInteger, Nat.add_assoc, Nat.add_comm 2]

theorem rawToDer_append {r : Bytes} (hr : r.length = 32) (s : Bytes) : rawToDer (r ++ s) =
    [0x30, .ofNat ((encodeInteger r).length + (encodeInteger s).length)] ++
      (encodeInteger r ++ encodeInteger s) := by
  rw [rawToDer, List.take_left' hr, List.drop_left' hr]
  rfl

section

variable {r s : Bytes} (hr : r.length = 32) (hs : s.length = 32)
include hr hs

/-- What `rawToDer` writes reads back as DER. -/
theorem derToRaw_rawToDer : derToRaw (rawToDer (r ++ s)) = some (r ++ s) := by
  rw [rawToDer_append hr s]
  generalize UInt8.ofNat ((encodeInteger r).length + (encodeInteger s).length) = total
  have hfirst := derInteger_encodeInteger hr [0x30, total] (encodeInteger s)
  have hsecond := derInteger_encodeInteger hs ([0x30, total] ++ encodeInteger r) []
  rw [List.append_nil, List.append_assoc, List.length_append] at hsecond
  simp only [List.length_cons, List.length_nil, Nat.zero_add, Nat.reduceAdd] at hfirst hsecond
  rw [derToRaw, if_neg (by simp), hfirst]
  simp only [Option.bind_eq_bind, Option.bind_some]
  rw [hsecond]
  rfl

theorem length_rawToDer : (rawToDer (r ++ s)).length =
    8 + (bigEndian r).size / 8 + (bigEndian s).size / 8 := by
  have hne : ∀ {l : Bytes}, l.length = 32 → l ≠ [] := fun h => by rintro rfl; simp at h
  rw [rawToDer_append hr s]
  simp only [List.length_append, List.length_cons, List.length_nil, encodeInteger,
    length_integerContents (hne hr), length_integerContents (hne hs)]
  omega

/-- No raw signature is the DER of itself: its first byte is the tag, so `r` takes all its 32 bytes
    and the tag of `s` falls within `s`, which is then too long. -/
theorem rawToDer_ne : rawToDer (r ++ s) ≠ r ++ s := by
  intro h
  have hlen := length_rawToDer hr hs
  rw [h, List.length_append, hr, hs] at hlen
  rw [rawToDer_append hr s, ← List.append_assoc] at h
  obtain ⟨b, r', rfl⟩ := List.exists_cons_of_length_eq_add_one hr
  have hb : b = 0x30 := by simpa using (congrArg List.head? h).symm
  have hr' : (bigEndian (b :: r')).size / 8 = 31 := by
    rw [size_bigEndian_cons (by rw [hb]; decide), hb]
    simpa using hr
  have hprefix : ([0x30, UInt8.ofNat ((encodeInteger (b :: r')).length + (encodeInteger s).length)] ++
      encodeInteger (b :: r')).length = 36 := by
    simp [encodeInteger, length_integerContents (List.cons_ne_nil b r'), hr']
  -- the last four bytes before `s`'s tag are the first four of `s` itself
  have htail := congrArg (List.drop 32) h
  rw [List.drop_left' hr, List.drop_append_of_le_length (by omega)] at htail
  obtain ⟨front, hfront⟩ : ∃ front, List.drop 32 ([0x30, UInt8.ofNat ((encodeInteger (b :: r')).length +
      (encodeInteger s).length)] ++ encodeInteger (b :: r')) = front := ⟨_, rfl⟩
  have hfour : front.length = 4 := by rw [← hfront, List.length_drop, hprefix]
  rw [hfront, encodeInteger] at htail
  have hlow : (bigEndian s).size / 8 ≥ 27 := by
    obtain ⟨x, rfl⟩ : ∃ x, s = front ++ 0x02 :: x := ⟨_, htail.symm⟩
    have hx : x.length = 27 := by simp [hfour] at hs; omega
    have hle : bigEndian (0x02 :: x) ≤ bigEndian (front ++ 0x02 :: x) := by
      simp only [bigEndian, List.reverse_append, List.map_append, Nat.ofDigits_append]
      exact Nat.le_add_right _ _
    have hsize := size_bigEndian_cons (b := 0x02) (by decide) x
    have := Nat.div_le_div_right (c := 8) (Nat.size_le_size hle)
    omega
  omega

/-- A signature comes back from its DER encoding, and is not mistaken for a raw one, exactly when the
    integers do not take 58 bytes between them. -/
theorem der_round_trip_iff :
    (signatureBytes (rawToDer (r ++ s)) = some (r ++ s) ∧ (rawToDer (r ++ s)).length ≠ 64 ↔
      (bigEndian r).size / 8 + (bigEndian s).size / 8 ≠ 56) ∧
    (signatureBytes (rawToDer (r ++ s)) = some (r ++ s) ↔ (rawToDer (r ++ s)).length ≠ 64) := by
  have hlen := length_rawToDer hr hs
  have hback : signatureBytes (rawToDer (r ++ s)) = some (r ++ s) ↔ (rawToDer (r ++ s)).length ≠ 64 := by
    rw [signatureBytes]
    split
    · rename_i hraw
      exact iff_of_false (fun h => rawToDer_ne hr hs (Option.some.inj h)) (not_not.mpr hraw)
    · rename_i hder
      exact iff_of_true (derToRaw_rawToDer hr hs) hder
  refine ⟨?_, hback⟩
  rw [hback, and_self, hlen]
  omega

end

/-- Two full integers. -/
theorem full_signature_back :
    signatureBytes (rawToDer (List.replicate 32 1 ++ List.replicate 32 0xff)) =
      some (List.replicate 32 1 ++ List.replicate 32 0xff) := by
  have h := der_round_trip_iff (r := List.replicate 32 1) (s := List.replicate 32 0xff) rfl rfl
  exact h.2.mpr (by decide)

/-- Two integers of 29 bytes: the DER is 64 bytes long and is taken for a raw signature. -/
theorem short_signature_mistaken :
    let r : Bytes := List.replicate 3 0 ++ List.replicate 29 1
    ¬ (signatureBytes (rawToDer (r ++ r)) = some (r ++ r) ∧ (rawToDer (r ++ r)).length ≠ 64) := by
  decide

/-! ### Pre-authentication encoding -/

variable (P : Platform)

end Akua
