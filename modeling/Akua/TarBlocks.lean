import Akua.Untar
import Akua.Lib.Utf8
import Mathlib.Data.List.TakeWhile

/-! What the reader of an archive finds in the blocks of the writer: each field of a header at its
    offset, the size and the name as they were put there, and the data behind it. -/

namespace Akua

variable (P : Platform)

/-! ### Numbers -/

theorem dropWhile_of_forall {α : Type} {p : α → Bool} {l : List α} (h : ∀ x ∈ l, p x = false) :
    l.dropWhile p = l := by
  rw [List.dropWhile_eq_self_iff]
  intro hlen
  rw [h _ (List.getElem_mem hlen)]
  exact Bool.false_ne_true

/-- Digits of the base are read as the number they spell. -/
theorem digitsValue_eq {base : Nat} {digits : List Char} (hne : digits ≠ [])
    (h : ∀ c ∈ digits, '0'.toNat ≤ c.toNat ∧ c.toNat < '0'.toNat + base) :
    digitsValue base digits = some (Nat.ofDigitChars base digits 0) := by
  have htake : (digits.takeWhile fun c => '0' ≤ c && c.toNat < '0'.toNat + base) = digits := by
    rw [List.takeWhile_eq_self_iff]
    intro c hc
    simp only [Bool.and_eq_true, decide_eq_true_eq]
    exact ⟨(h c hc).1, (h c hc).2⟩
  rw [digitsValue, htake, Nat.ofDigitChars_eq_foldl]
  cases digits with
  | nil => exact absurd rfl hne
  | cons c cs =>
    have hstep : (fun n (c : Char) => n * base + (c.toNat - '0'.toNat)) =
        fun n c => base * n + (c.toNat - '0'.toNat) := by
      funext n c
      rw [Nat.mul_comm]
    rw [hstep]

theorem isSpace_digit {c : Char} (h : '0'.toNat ≤ c.toNat ∧ c.toNat < '0'.toNat + 10) :
    isSpace c = false := by
  have hzero : '0'.toNat = 48 := rfl
  rw [isSpace, Bool.or_eq_false_iff]
  constructor
  · rw [decide_eq_false_iff_not]
    simp only [List.mem_cons, List.not_mem_nil, or_false]
    omega
  · simp only [Bool.and_eq_false_iff, decide_eq_false_iff_not]
    omega

/-- A number is parsed from its digits. -/
theorem parseInt_digits {base : Nat} (hbase : base ≤ 10) {digits : List Char} (hne : digits ≠ [])
    (h : ∀ c ∈ digits, '0'.toNat ≤ c.toNat ∧ c.toNat < '0'.toNat + base) :
    parseInt digits base = some (Int.ofNat (Nat.ofDigitChars base digits 0)) := by
  have hspace : digits.dropWhile isSpace = digits := by
    refine dropWhile_of_forall fun c hc => isSpace_digit ?_
    have hdigit := h c hc
    omega
  have hvalue := digitsValue_eq hne h
  rw [parseInt, hspace]
  cases digits with
  | nil => exact absurd rfl hne
  | cons c cs =>
    have hc := h c List.mem_cons_self
    split
    · rename_i heq
      cases heq
      exact absurd hc.1 (by decide)
    · rename_i heq
      cases heq
      exact absurd hc.1 (by decide)
    · rw [hvalue]
      rfl

theorem trim_eq {text : String} (h : ∀ c ∈ text.toList, isSpace c = false) : trim text = text := by
  rw [trim, dropWhile_of_forall h, dropWhile_of_forall fun c hc => h c (List.mem_reverse.mp hc),
    List.reverse_reverse, String.ofList_toList]

/-! ### Text -/

/-- A decoder drops the byte order mark a string starts with. -/
theorem dropMark_encodeText (s : String) :
    dropMark (encodeText s) = encodeText (Text.stripPrefix s "\uFEFF") := by
  have hmark : encodeText "\uFEFF" = [0xEF, 0xBB, 0xBF] := by decide
  unfold dropMark Text.stripPrefix
  by_cases hs : Text.startsWith s "\uFEFF" = true
  · obtain ⟨rest, rfl⟩ := Text.startsWith_iff.mp hs
    rw [if_pos hs, Text.after_append, encodeText_append, hmark, if_pos (by simp)]
    rfl
  · rw [if_neg hs, if_neg]
    rw [List.isPrefixOf_iff_prefix]
    rintro ⟨rest, hrest⟩
    apply hs
    have hchar : String.utf8EncodeChar '\uFEFF' = [0xEF, 0xBB, 0xBF] := by decide
    rw [encodeText_eq, ← hchar] at hrest
    rcases hl : s.toList with _ | ⟨c, cs⟩ <;> rw [hl] at hrest
    · simp at hrest
    · obtain ⟨rfl, -⟩ := utf8EncodeChar_append_inj hrest
      rw [Text.startsWith, hl]
      rfl

theorem decodeText_eq (s : String) : decodeText P (encodeText s) = Text.stripPrefix s "\uFEFF" := by
  rw [decodeText, dropMark_encodeText, decodeUtf8_encodeText]
  rfl

theorem decodeStrict_eq (s : String) :
    decodeStrict (encodeText s) = some (Text.stripPrefix s "\uFEFF") := by
  rw [decodeStrict, dropMark_encodeText, decodeUtf8_encodeText]

theorem stripPrefix_of_head {s : String} {c : Char} {cs : List Char} (h : s.toList = c :: cs)
    (hc : c ≠ '\uFEFF') : Text.stripPrefix s "\uFEFF" = s := by
  refine if_neg fun hs => ?_
  rw [Text.startsWith, h] at hs
  simp at hs
  exact hc hs.symm

/-! ### Fields -/

/-- The bytes behind a given number of others. -/
theorem slice_append {a b : Bytes} (c : Bytes) {offset length : Nat} (ha : a.length = offset)
    (hb : b.length = length) : slice (a ++ (b ++ c)) offset length = b := by
  subst ha hb
  rw [slice, List.drop_left, List.take_left]

theorem length_fixed (length : Nat) (bytes : Bytes) : (fixed length bytes).length = length := by
  rw [fixed, List.length_append, List.length_take, List.length_replicate]
  omega

theorem fixed_of_length {length : Nat} {bytes : Bytes} (h : bytes.length = length) :
    fixed length bytes = bytes := by
  subst h
  simp [fixed]

/-- A field is read up to its first NUL. -/
theorem takeWhile_fixed {length : Nat} {bytes : Bytes} (hlen : bytes.length ≤ length)
    (hnul : 0 ∉ bytes) : (fixed length bytes).takeWhile (· ≠ 0) = bytes := by
  have hall : bytes.takeWhile (· ≠ 0) = bytes := by
    rw [List.takeWhile_eq_self_iff]
    intro b hb
    exact decide_eq_true (by rintro rfl; exact hnul hb)
  rw [fixed, List.take_of_length_le hlen]
  cases hpad : length - bytes.length with
  | zero => rw [List.replicate_zero, List.append_nil, hall]
  | succ n =>
    rw [List.takeWhile_append_of_pos fun b hb => decide_eq_true (by rintro rfl; exact hnul hb)]
    simp [List.replicate_succ]

theorem octalDigits_bound {width value : Nat} :
    ∀ c ∈ octalDigits width value, '0'.toNat ≤ c.toNat ∧ c.toNat < '0'.toNat + 8 := by
  intro c hc
  rcases List.mem_append.mp hc with hc | hc
  · rw [List.eq_of_mem_replicate hc]
    decide
  · exact Text.digit_of_mem_toDigits (by decide) (by decide) hc

theorem length_octalDigits {width value : Nat} (hw : 0 < width) (h : value < 8 ^ width) :
    (octalDigits width value).length = width := by
  have hlen := (Nat.length_toDigits_le_iff (b := 8) (by decide) hw).mpr h
  rw [octalDigits, List.length_append, List.length_replicate]
  omega

theorem ofDigitChars_octalDigits (width value : Nat) :
    Nat.ofDigitChars 8 (octalDigits width value) 0 = value := by
  rw [octalDigits, Nat.ofDigitChars_append, Nat.ofDigitChars_replicate_zero, Nat.mul_zero,
    Nat.ofDigitChars_toDigits (by decide) (by decide)]

/-- The text of an octal field. -/
def octalText (width value : Nat) : String := String.ofList (octalDigits width value)

theorem octalText_bound {width value : Nat} :
    ∀ c ∈ (octalText width value).toList, '0'.toNat ≤ c.toNat ∧ c.toNat < '0'.toNat + 8 := by
  rw [octalText, String.toList_ofList]
  exact octalDigits_bound

theorem length_octalText {width value : Nat} (hw : 0 < width) (h : value < 8 ^ width) :
    (encodeText (octalText width value)).length = width := by
  have hascii : ∀ c ∈ (octalText width value).toList, c.toNat < 128 := by
    intro c hc
    have hlt := (octalText_bound c hc).2
    have hzero : '0'.toNat = 48 := rfl
    omega
  rw [encodeText_ascii hascii, List.length_map, octalText, String.toList_ofList,
    length_octalDigits hw h]

/-- A field that its number fits is the digits, then a NUL. -/
theorem octalField_eq {length value : Nat} (hl : 0 < length) (h : value < 8 ^ length) :
    octalField (length + 1) value = fixed (length + 1) (encodeText (octalText length value)) := by
  have hlen := length_octalText hl h
  have hnul : encodeText (String.ofList ['\x00']) = [0] := by decide
  have htext : octalField (length + 1) value =
      fixed (length + 1) (encodeText (octalText length value) ++ [0]) := by
    rw [octalField, Nat.add_sub_cancel, String.ofList_append, encodeText_append, hnul, octalText]
  rw [htext, fixed_of_length (by rw [List.length_append, hlen]; rfl), fixed, hlen,
    List.take_of_length_le (by omega), Nat.add_sub_cancel_left]
  rfl

/-- The text of a field reads as its number. -/
theorem parseInt_octalText {width value : Nat} (h : octalText width value ≠ "") :
    parseInt (octalText width value).toList 8 = some (Int.ofNat value) := by
  rw [parseInt_digits (by decide) (by simpa using h) octalText_bound, octalText,
    String.toList_ofList, ofDigitChars_octalDigits]

theorem octal_eq {block : Bytes} {offset length : Nat} {text : String}
    (h : trim (decodeText P (field block offset length)) = text) :
    octal P block offset length = parseInt (if text = "" then "0" else text).toList 8 := by
  unfold octal
  rw [h]

theorem octal_of_field {block : Bytes} {offset size : Nat}
    (h : field block offset 12 = encodeText (octalText 11 size)) (hne : octalText 11 size ≠ "") :
    octal P block offset 12 = some (Int.ofNat size) := by
  have hspace : ∀ c ∈ (octalText 11 size).toList, isSpace c = false := by
    intro c hc
    have hdigit := octalText_bound c hc
    exact isSpace_digit (by omega)
  have hmark : Text.stripPrefix (octalText 11 size) "\uFEFF" = octalText 11 size := by
    rcases hl : (octalText 11 size).toList with _ | ⟨c, cs⟩
    · exact absurd (String.toList_eq_nil_iff.mp hl) hne
    · refine stripPrefix_of_head hl ?_
      rintro rfl
      exact absurd (hspace '\uFEFF' (by simp [hl])) (by decide)
  have htext : trim (decodeText P (field block offset 12)) = octalText 11 size := by
    rw [h, decodeText_eq, hmark, trim_eq hspace]
  rw [octal_eq P htext, if_neg hne, parseInt_octalText hne]

theorem length_octalField (length value : Nat) : (octalField length value).length = length :=
  length_fixed length _

/-! ### Headers -/

theorem tarHeader_eq (name : Bytes) (size mode : Nat) (type : Char) :
    ∃ checksum, checksum.length = 8 ∧
      tarHeader name size mode type = headerBlock name size mode type checksum :=
  ⟨_, length_fixed 8 _, rfl⟩

section Header

variable (name : Bytes) (size mode : Nat) (type : Char) {checksum : Bytes}
  (h : checksum.length = 8)

include h

/-- The header up to its size, the size, and the rest. -/
theorem headerBlock_size : ∃ before after : Bytes, before.length = 124 ∧ after.length = 376 ∧
    headerBlock name size mode type checksum = before ++ (octalField 12 size ++ after) := by
  refine ⟨fixed 100 name ++ octalField 8 mode ++ octalField 8 0 ++ octalField 8 0,
    octalField 12 0 ++ checksum ++ [.ofNat type.toNat] ++ List.replicate 100 0 ++
      fixed 6 (encodeText "ustar\x00") ++ encodeText "00" ++ List.replicate 247 0, ?_, ?_, ?_⟩
  · simp only [List.length_append, length_octalField, length_fixed]
  · have hdigits : (encodeText "00").length = 2 := by decide
    simp only [List.length_append, length_octalField, length_fixed, List.length_replicate, h, hdigits,
      List.length_singleton]
  · simp only [headerBlock, List.append_assoc]

/-- The header up to its type, the type, and the rest. -/
theorem headerBlock_type : ∃ before after : Bytes, before.length = 156 ∧
    headerBlock name size mode type checksum = before ++ .ofNat type.toNat :: after := by
  refine ⟨fixed 100 name ++ octalField 8 mode ++ octalField 8 0 ++ octalField 8 0 ++
    octalField 12 size ++ octalField 12 0 ++ checksum, List.replicate 100 0 ++
      (fixed 6 (encodeText "ustar\x00") ++ (encodeText "00" ++ List.replicate 247 0)), ?_, ?_⟩
  · simp only [List.length_append, length_octalField, length_fixed, h]
  · simp only [headerBlock, List.append_assoc, List.cons_append, List.nil_append]

/-- The header up to its magic, the magic, and the rest, which is zero from the prefix on. -/
theorem headerBlock_magic : ∃ before : Bytes, before.length = 257 ∧
    headerBlock name size mode type checksum =
      before ++ (encodeText "ustar" ++ ([0, 48, 48] ++ List.replicate 247 0)) := by
  refine ⟨fixed 100 name ++ octalField 8 mode ++ octalField 8 0 ++ octalField 8 0 ++
    octalField 12 size ++ octalField 12 0 ++ checksum ++ [.ofNat type.toNat] ++
    List.replicate 100 0, ?_, ?_⟩
  · simp only [List.length_append, length_octalField, length_fixed, h, List.length_replicate,
      List.length_singleton]
  · have hmagic : ∀ rest, fixed 6 (encodeText "ustar\x00") ++ (encodeText "00" ++ rest) =
        encodeText "ustar" ++ ([0, 48, 48] ++ rest) := by
      intro rest
      have hfixed : fixed 6 (encodeText "ustar\x00") ++ encodeText "00" =
          encodeText "ustar" ++ [0, 48, 48] := by decide
      rw [← List.append_assoc, hfixed, List.append_assoc]
    simp only [headerBlock, List.append_assoc, hmagic]

theorem length_headerBlock : (headerBlock name size mode type checksum).length = 512 := by
  obtain ⟨before, after, hbefore, hafter, he⟩ := headerBlock_size name size mode type h
  rw [he]
  simp only [List.length_append, length_octalField, hbefore, hafter]

end Header

variable {name : Bytes} {size mode : Nat} {type : Char}

theorem length_tarHeader : (tarHeader name size mode type).length = 512 := by
  obtain ⟨checksum, h, he⟩ := tarHeader_eq name size mode type
  rw [he, length_headerBlock name size mode type h]

/-- The size in a header is read back. -/
theorem octal_tarHeader (hsize : size < 8 ^ 11) :
    octal P (tarHeader name size mode type) 124 12 = some (Int.ofNat size) := by
  obtain ⟨checksum, h, he⟩ := tarHeader_eq name size mode type
  obtain ⟨before, after, hbefore, -, hblock⟩ := headerBlock_size name size mode type h
  have hlen : (encodeText (octalText 11 size)).length = 11 := length_octalText (by decide) hsize
  refine octal_of_field P ?_ ?_
  · have hnul : (0 : UInt8) ∉ encodeText (octalText 11 size) := by
      refine zero_not_mem_encodeText fun hc => ?_
      exact absurd (octalText_bound _ hc).1 (by decide)
    rw [he, hblock, field, slice_append after hbefore (length_octalField 12 size),
      octalField_eq (by decide) hsize, takeWhile_fixed (by omega) hnul]
  · intro hempty
    rw [hempty] at hlen
    exact absurd hlen (by decide)

theorem type_tarHeader : (tarHeader name size mode type)[156]? = some (UInt8.ofNat type.toNat) := by
  obtain ⟨checksum, h, he⟩ := tarHeader_eq name size mode type
  obtain ⟨before, after, hbefore, hblock⟩ := headerBlock_type name size mode type h
  rw [he, hblock, List.getElem?_append_right (by omega), hbefore]
  rfl

/-- The name in a header is the one put there, up to 100 bytes. -/
theorem headerName_tarHeader (hlen : name.length ≤ 100) (hnul : 0 ∉ name) :
    headerName P (tarHeader name size mode type) = decodeStrict name := by
  obtain ⟨checksum, h, he⟩ := tarHeader_eq name size mode type
  obtain ⟨before, hbefore, hblock⟩ := headerBlock_magic name size mode type h
  have hname : field (tarHeader name size mode type) 0 100 = name := by
    have hslice : slice (tarHeader name size mode type) 0 100 = fixed 100 name := by
      rw [he]
      simp only [headerBlock, List.append_assoc]
      exact slice_append (a := []) _ rfl (length_fixed 100 name)
    rw [field, hslice, takeWhile_fixed hlen hnul]
  have hustar : decodeText P (slice (tarHeader name size mode type) 257 5) = "ustar" := by
    rw [he, hblock, slice_append _ hbefore (by decide), decodeText_eq]
    decide
  have hdirectory : field (tarHeader name size mode type) 345 155 = [] := by
    have hzeros : (tarHeader name size mode type).drop 345 = List.replicate 167 0 := by
      have hlong : (before ++ (encodeText "ustar" ++ [0, 48, 48])).length + 80 = 345 := by
        have hthree : (encodeText "ustar" ++ [0, 48, 48]).length = 8 := by decide
        rw [List.length_append, hbefore, hthree]
      rw [he, hblock, ← List.append_assoc (encodeText "ustar"), ← List.append_assoc before, ← hlong,
        List.drop_length_add_append, List.drop_replicate]
    rw [field, slice, hzeros]
    decide
  rw [headerName, hname]
  simp only [hustar, hdirectory, if_true]

/-! ### One file -/

/-- The pieces of a header and its data, as the reader takes them. -/
theorem block_parts {header : Bytes} (hheader : header.length = 512) (data rest : Bytes) :
    let bytes := header ++ (padded data ++ rest)
    bytes.take 512 = header ∧ 512 + data.length ≤ bytes.length ∧ slice bytes 512 data.length = data ∧
      bytes.drop (512 + (data.length + 511) / 512 * 512) = rest := by
  have hpadded : padded data = data ++ List.replicate ((data.length + 511) / 512 * 512 - data.length) 0 := by
    rw [padded, fixed, List.take_of_length_le (by omega)]
  have hlength : (padded data).length = (data.length + 511) / 512 * 512 := length_fixed _ _
  refine ⟨?_, ?_, ?_, ?_⟩
  · rw [← hheader, List.take_left]
  · rw [List.length_append, List.length_append, hheader, hlength]
    omega
  · rw [hpadded, List.append_assoc, slice_append _ hheader rfl]
  · rw [← List.append_assoc, ← hlength, ← hheader, ← List.length_append, List.drop_left]

theorem tarHeader_not_zero (ht : type.toNat = 48 ∨ type.toNat = 120) :
    (tarHeader name size mode type).all (· = 0) = false := by
  rw [List.all_eq_false]
  refine ⟨_, List.mem_of_getElem? type_tarHeader, ?_⟩
  rcases ht with ht | ht <;> rw [ht] <;> decide

/-- A PAX header is kept for the entry behind it. -/
theorem untarLoop_pax {fuel : Nat} {pending : PendingNames} {data rest : Bytes}
    (hsize : data.length < 8 ^ 11) :
    untarLoop P (fuel + 1) pending (tarHeader name data.length mode 'x' ++ (padded data ++ rest)) =
      untarLoop P fuel { pending with pax := some (paxRecords P data) } rest := by
  obtain ⟨htake, hlen, hslice, hdrop⟩ :=
    block_parts (@length_tarHeader name data.length mode 'x') data rest
  rw [untarLoop, if_neg (by omega)]
  dsimp only
  rw [htake, if_neg (by rw [tarHeader_not_zero (Or.inr rfl)]; decide), octal_tarHeader P hsize]
  dsimp only
  rw [if_neg (by omega), type_tarHeader, hslice, hdrop]
  exact if_pos (by decide)

/-- What an archive gives for a file whose name was read as `raw`. -/
def entryOf (raw : String) (data : Bytes) : Except String ArchiveEntry :=
  match entryPath raw with
  | none => .error ("tar entry `" ++ raw ++ "` escapes the archive")
  | some path => .ok { path, data }

/-- A file is read under the name of its PAX header, else the one in its own header. -/
theorem untarLoop_file {fuel : Nat} {pending : PendingNames} {data rest : Bytes} {raw : String}
    (hsize : data.length < 8 ^ 11)
    (hraw : ((pending.pax.bind fun pax => pax.get? "path") <|> pending.longName <|>
      headerName P (tarHeader name data.length mode '0')) = some raw) :
    untarLoop P (fuel + 1) pending (tarHeader name data.length mode '0' ++ (padded data ++ rest)) =
      entryOf raw data >>= fun entry => (entry :: ·) <$> untarLoop P fuel {} rest := by
  obtain ⟨htake, hlen, hslice, hdrop⟩ :=
    block_parts (@length_tarHeader name data.length mode '0') data rest
  rw [untarLoop, if_neg (by omega)]
  dsimp only
  rw [htake, if_neg (by rw [tarHeader_not_zero (Or.inl rfl)]; decide), octal_tarHeader P hsize]
  dsimp only
  rw [if_neg (by omega), type_tarHeader, hslice, hdrop, if_neg (by decide), if_neg (by decide),
    if_neg (by decide), hraw]
  dsimp only
  rw [if_neg (by decide), entryOf]
  cases entryPath raw with
  | none => rfl
  | some path => cases untarLoop P fuel {} rest <;> rfl

end Akua
