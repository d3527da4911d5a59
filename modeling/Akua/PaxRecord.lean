import Akua.TarBlocks

/-! The PAX record of a long name. Its length counts its own digits, and the writer finds it as a fixed
    point. The length is in bytes, but the reader takes it as a number of code units: of a name
    that is not ASCII it reads one character too many, the line feed behind it. -/

namespace Akua

variable (P : Platform)

/-! ### PAX records -/

theorem fromUnits_utf16 (c : Char) (rest : List Nat) :
    fromUnits (Text.utf16 c ++ rest) = c :: fromUnits rest := by
  have hvalid : c.toNat < 0xD800 ∨ (0xDFFF < c.toNat ∧ c.toNat < 0x110000) := c.valid
  unfold Text.utf16
  split
  · have hsurrogate : ¬ (0xD800 ≤ c.toNat ∧ c.toNat < 0xE000) := by omega
    rw [List.singleton_append]
    cases rest with
    | nil =>
      change [if 0xD800 ≤ c.toNat ∧ c.toNat < 0xE000 then '\uFFFD' else Char.ofNat c.toNat] = [c]
      rw [if_neg hsurrogate, Char.ofNat_toNat]
    | cons v rest =>
      rw [fromUnits, if_neg (by omega), if_neg hsurrogate, Char.ofNat_toNat]
  · rename_i hlarge
    have hcode : 0x10000 + (0xD800 + (c.toNat - 0x10000) / 0x400 - 0xD800) * 0x400 +
        (0xDC00 + (c.toNat - 0x10000) % 0x400 - 0xDC00) = c.toNat := by omega
    rw [List.cons_append, List.singleton_append, fromUnits, if_pos (by omega), hcode, Char.ofNat_toNat]

/-- Code units are read as the string they are of. -/
theorem fromUnits_units (s : String) : fromUnits (Text.units s) = s.toList := by
  rw [Text.units]
  induction s.toList with
  | nil => rfl
  | cons c cs ih => rw [List.flatMap_cons, fromUnits_utf16, ih]

theorem length_toDigits_mono {m n : Nat} (h : m ≤ n) :
    (Nat.toDigits 10 m).length ≤ (Nat.toDigits 10 n).length := by
  have hn := (Nat.length_toDigits_le_iff (b := 10) (n := n) (by decide) Nat.length_toDigits_pos).mp
    (Nat.le_refl _)
  exact (Nat.length_toDigits_le_iff (by decide) Nat.length_toDigits_pos).mpr (by omega)

/-- The length grows until it counts its own digits, which it does by twice the body. -/
theorem paxLength_fixed {body : Nat} : ∀ (fuel length : Nat), length ≤ 2 * body + 1 →
    length ≤ (Nat.toDigits 10 length).length + body → 2 * body + 1 ≤ length + fuel →
    (Nat.toDigits 10 (paxLength body fuel length)).length + body = paxLength body fuel length := by
  have hdigits : (Nat.toDigits 10 (2 * body + 1)).length ≤ body + 1 := by
    rw [Nat.length_toDigits_le_iff (by decide) (by omega), Nat.pow_succ]
    have hbody := Nat.lt_pow_self (n := body) (a := 10) (by decide)
    omega
  intro fuel
  induction fuel with
  | zero =>
    intro length hle hgrows hfuel
    obtain rfl : length = 2 * body + 1 := by omega
    rw [paxLength]
    omega
  | succ fuel ih =>
    intro length hle hgrows hfuel
    rw [paxLength]
    split
    · assumption
    · have hnext := length_toDigits_mono hle
      have hmono := length_toDigits_mono hgrows
      exact ih _ (by omega) (by omega) (by omega)

/-- The name a PAX record is read as. -/
def paxName (name : String) : String :=
  if Text.isAscii name then name else name ++ "\n"

/-- What stands behind the length of a record. -/
def paxBody (name : String) : String := " path=" ++ name ++ "\n"

theorem paxBody_eq (name : String) : paxBody name = " " ++ ("path=" ++ name ++ "\n") := by
  rw [paxBody, ← String.append_assoc, ← String.append_assoc]
  rfl

/-- A record's length, as it is written. -/
def paxTotal (name : String) : Nat :=
  paxLength (encodeText (paxBody name)).length ((encodeText (paxBody name)).length + 1)
    ((encodeText (paxBody name)).length + 1)

theorem paxPath_eq (name : String) :
    paxPath name = encodeText (toString (paxTotal name) ++ paxBody name) := by
  rw [encodeText_append]
  rfl

theorem paxTotal_eq (name : String) :
    paxTotal name = (Nat.toDigits 10 (paxTotal name)).length + (encodeText (paxBody name)).length := by
  have hpos := Nat.length_toDigits_pos (b := 10) (n := (encodeText (paxBody name)).length + 1)
  exact (paxLength_fixed _ _ (by omega) (by omega) (by omega)).symm

theorem toList_toString (n : Nat) : (toString n).toList = Nat.toDigits 10 n := Nat.toList_repr

theorem digits_ascii (n : Nat) : ∀ c ∈ (toString n).toList, c.toNat < 128 := by
  intro c hc
  rw [toList_toString] at hc
  have hlt := (Text.digit_of_mem_toDigits (by decide) (by decide) hc).2
  have hzero : '0'.toNat = 48 := rfl
  omega

/-- A record is as long as it says. -/
theorem length_paxPath (name : String) : (paxPath name).length = paxTotal name := by
  rw [paxPath_eq, encodeText_append, List.length_append, encodeText_ascii (digits_ascii _),
    List.length_map, toList_toString, ← paxTotal_eq]

/-- The reader's `length - 1` code units behind the space hold the name, and the line feed too
    where some character takes more bytes than code units. -/
theorem take_record (name : String) :
    (Text.units ("path=" ++ name ++ "\n")).take
      ((encodeText ("path=" ++ name ++ "\n")).length - 1) = Text.units ("path=" ++ paxName name) := by
  have hkey : ∀ c ∈ "path=".toList, c.toNat < 128 := Text.isAscii_iff.mp (by decide)
  have hfeed : Text.units "\n" = [10] := by decide
  have hbytes : (encodeText "\n").length = 1 := by decide
  unfold paxName
  split
  · rename_i hname
    have hascii : ∀ c ∈ ("path=" ++ name).toList, c.toNat < 128 := by
      intro c hc
      rw [String.toList_append, List.mem_append] at hc
      exact hc.elim (hkey c) (Text.isAscii_iff.mp hname c)
    rw [units_append, encodeText_append, List.length_append, hbytes, Nat.add_sub_cancel,
      List.take_left' ?_]
    rw [units_ascii hascii, encodeText_ascii hascii, List.length_map, List.length_map]
  · rename_i hname
    have hlt : (Text.units ("path=" ++ name ++ "\n")).length <
        (encodeText ("path=" ++ name ++ "\n")).length := by
      rw [length_units_lt]
      intro hall
      refine hname (Text.isAscii_iff.mpr fun c hc => hall c ?_)
      simp [hc]
    rw [List.take_of_length_le (by omega), String.append_assoc]

/-- A text that is one record is read as its key and its value. -/
theorem paxLoop_record {digits : List Char} {n : Nat} {text key value : List Nat} (hne : digits ≠ [])
    (hdigits : ∀ c ∈ digits, '0'.toNat ≤ c.toNat ∧ c.toNat < '0'.toNat + 10)
    (hn : Nat.ofDigitChars 10 digits 0 = n + 1) (hfinite : n + 1 < INFINITE)
    (hlength : digits.length + 1 + text.length ≤ n + 1)
    (hrecord : text.take (n - (digits.length + 1)) = key ++ 0x3d :: value) (hkey : key ≠ [])
    (hequals : 0x3d ∉ key) (fuel : Nat) :
    paxLoop (fuel + 1) (digits.map Char.toNat ++ 0x20 :: text) = [(key, value)] := by
  have hunits : fromUnits (digits.map Char.toNat) = digits := by
    have hascii : ∀ c ∈ (String.ofList digits).toList, c.toNat < 128 := by
      intro c hc
      have hlt := (hdigits c (by simpa using hc)).2
      have hzero : '0'.toNat = 48 := rfl
      omega
    have hread := fromUnits_units (String.ofList digits)
    rwa [units_ascii hascii, String.toList_ofList] at hread
  have hnumber : (digits.map Char.toNat ++ 0x20 :: text).takeWhile (· ≠ 0x20) =
      digits.map Char.toNat := by
    rw [List.takeWhile_append_of_pos, List.takeWhile_cons_of_neg (by decide), List.append_nil]
    intro u hu
    obtain ⟨c, hc, rfl⟩ := List.mem_map.mp hu
    have hlow := (hdigits c hc).1
    have hzero : '0'.toNat = 48 := rfl
    exact decide_eq_true (by omega)
  have htake : (key ++ 0x3d :: value).takeWhile (· ≠ 0x3d) = key := by
    rw [List.takeWhile_append_of_pos fun u hu => decide_eq_true (by rintro rfl; exact hequals hu),
      List.takeWhile_cons_of_neg (by decide), List.append_nil]
  have hdone : ∀ fuel, paxLoop fuel [] = [] := by
    intro fuel
    cases fuel <;> rfl
  have hparse := parseInt_digits (by decide) hne hdigits
  rw [hn] at hparse
  have hlen : (digits.map Char.toNat ++ 0x20 :: text).length = digits.length + 1 + text.length := by
    rw [List.length_append, List.length_map, List.length_cons]
    omega
  have hslice : ((digits.map Char.toNat ++ 0x20 :: text).take n).drop (digits.length + 1) =
      key ++ 0x3d :: value := by
    rw [← hrecord, List.drop_take]
    congr 1
    rw [show digits.map Char.toNat ++ 0x20 :: text = (digits.map Char.toNat ++ [0x20]) ++ text by simp]
    exact List.drop_left' (by simp)
  obtain ⟨u, rest, hcons⟩ : ∃ u rest, digits.map Char.toNat ++ 0x20 :: text = u :: rest :=
    List.exists_cons_of_ne_nil (by simp)
  rw [hcons] at hnumber hlen hslice ⊢
  have hrest : (u :: rest).drop (n + 1) = [] := List.drop_of_length_le (by omega)
  rw [paxLoop, hnumber, hunits, hparse]
  · dsimp only
    rw [List.length_map, if_neg (by omega), hslice, htake, if_neg (by simp [hkey]),
      hrest, hdone]
    simp
  · simp

/-- The reader finds the path of a record. -/
theorem paxRecords_paxPath {name : String} (hsize : (paxPath name).length < 8 ^ 11) :
    (paxRecords P (paxPath name)).get? "path" = some (paxName name) := by
  obtain ⟨n, hn⟩ : ∃ n, paxTotal name = n + 1 := by
    have hpos := Nat.length_toDigits_pos (b := 10) (n := paxTotal name)
    have htotal := paxTotal_eq name
    exact ⟨paxTotal name - 1, by omega⟩
  have hdigits : ∀ c ∈ Nat.toDigits 10 (n + 1), '0'.toNat ≤ c.toNat ∧ c.toNat < '0'.toNat + 10 :=
    fun c hc => Text.digit_of_mem_toDigits (by decide) (by decide) hc
  have hne : Nat.toDigits 10 (n + 1) ≠ [] := Nat.toDigits_ne_nil
  have hspace : (encodeText " ").length = 1 := by decide
  have hbytes : n + 1 = (Nat.toDigits 10 (n + 1)).length + 1 +
      (encodeText ("path=" ++ name ++ "\n")).length := by
    have htotal := paxTotal_eq name
    rw [hn, paxBody_eq, encodeText_append, List.length_append, hspace] at htotal
    omega
  have htext : decodeText P (paxPath name) = toString (n + 1) ++ paxBody name := by
    rw [paxPath_eq, decodeText_eq, hn]
    obtain ⟨c, cs, hcs⟩ := List.exists_cons_of_ne_nil hne
    refine stripPrefix_of_head (c := c) (show _ = c :: (cs ++ (paxBody name).toList) from ?_) ?_
    · rw [String.toList_append, toList_toString, hcs]
      rfl
    · rintro rfl
      exact absurd (hdigits '\uFEFF' (by simp [hcs])).2 (by decide)
  have hunits : Text.units (toString (n + 1) ++ paxBody name) =
      (Nat.toDigits 10 (n + 1)).map Char.toNat ++ 0x20 :: Text.units ("path=" ++ name ++ "\n") := by
    rw [units_append, units_ascii (digits_ascii _), toList_toString, paxBody_eq, units_append]
    rfl
  have hfuel : ∃ fuel, (Text.units (toString (n + 1) ++ paxBody name)).length = fuel + 1 := by
    rw [hunits]
    exact ⟨_, by rw [List.length_append, List.length_cons, ← Nat.add_assoc]⟩
  obtain ⟨fuel, hfuel⟩ := hfuel
  have hkey : Text.units ("path=" ++ paxName name) = Text.units "path" ++ 0x3d :: Text.units (paxName name) := by
    have hsplit : "path=" ++ paxName name = "path" ++ ("=" ++ paxName name) := by
      rw [← String.append_assoc]
      rfl
    have hequals : Text.units "=" = [0x3d] := by decide
    rw [hsplit, units_append, units_append, hequals, List.singleton_append]
  have hloop : paxLoop (fuel + 1) ((Nat.toDigits 10 (n + 1)).map Char.toNat ++
      0x20 :: Text.units ("path=" ++ name ++ "\n")) =
      [(Text.units "path", Text.units (paxName name))] := by
    have hle := (length_units_le ("path=" ++ name ++ "\n")).1
    refine paxLoop_record hne hdigits Nat.ofDigitChars_ten_toDigits ?_ (by omega) ?_ (by decide)
      (by decide) fuel
    · rw [length_paxPath, hn] at hsize
      exact Nat.lt_trans hsize (by decide +kernel)
    · have htake : n - ((Nat.toDigits 10 (n + 1)).length + 1) =
          (encodeText ("path=" ++ name ++ "\n")).length - 1 := by omega
      rw [htake, take_record, hkey]
  rw [paxRecords, htext, hfuel, hunits, hloop]
  simp [Table.ofList, fromUnits_units]

/-- The longest string of the runtime, in code units. -/
def MAX_STRING_LENGTH : Nat := 2 ^ 31 - 1

/-- A length that a bound allows stays below it. -/
theorem paxLength_le {body bound : Nat} (hbound : (Nat.toDigits 10 bound).length + body ≤ bound) :
    ∀ (fuel length : Nat), length ≤ bound → paxLength body fuel length ≤ bound := by
  intro fuel
  induction fuel with
  | zero => exact fun _ h => h
  | succ fuel ih =>
    intro length h
    rw [paxLength]
    split
    · exact h
    · have hmono := length_toDigits_mono h
      exact ih _ (by omega)

/-- The record of a path fits the size field of its header. -/
theorem length_paxPath_lt {name : String} (h : (Text.units name).length ≤ MAX_STRING_LENGTH) :
    (paxPath name).length < 8 ^ 11 := by
  have hbody : (encodeText (paxBody name)).length = 7 + (encodeText name).length := by
    have hends : (encodeText " path=").length = 6 ∧ (encodeText "\n").length = 1 := by decide
    rw [paxBody, encodeText_append, encodeText_append, List.length_append, List.length_append,
      hends.1, hends.2]
    omega
  have hname := (length_units_le name).2
  have hdigits : (Nat.toDigits 10 (8 ^ 11 - 1)).length ≤ 10 := by
    rw [Nat.length_toDigits_le_iff (by decide) (by decide)]
    decide
  have hmax : MAX_STRING_LENGTH = 2147483647 := rfl
  have hle := @paxLength_le (encodeText (paxBody name)).length (8 ^ 11 - 1) (by omega)
    ((encodeText (paxBody name)).length + 1) ((encodeText (paxBody name)).length + 1) (by omega)
  rw [length_paxPath, paxTotal]
  omega

end Akua
