import Akua.Lib.FileSystem

/-! The bytes of a string. A character below 128 is one byte, its own code; every byte of another
    character is 128 or more. So an ASCII byte in an encoded string is an ASCII character of it. -/

/-- The byte of an ASCII character is its code, and the bytes of others are beyond ASCII. -/
theorem mem_utf8EncodeChar {c : Char} {b : UInt8} (h : b ∈ String.utf8EncodeChar c) :
    (c.toNat < 128 ∧ b.toNat = c.toNat) ∨ (128 ≤ c.toNat ∧ 128 ≤ b.toNat) := by
  have hc : c.val.toNat = c.toNat := rfl
  unfold String.utf8EncodeChar at h
  rw [hc] at h
  dsimp only at h
  split at h
  · rw [List.mem_singleton.mp h, UInt8.toNat_ofNat']
    omega
  · refine Or.inr ⟨by omega, ?_⟩
    split at h
    · simp only [List.mem_cons, List.not_mem_nil, or_false] at h
      rcases h with rfl | rfl <;> rw [UInt8.toNat_ofNat'] <;> omega
    · split at h <;> simp only [List.mem_cons, List.not_mem_nil, or_false] at h
      · rcases h with rfl | rfl | rfl <;> rw [UInt8.toNat_ofNat'] <;> omega
      · rcases h with rfl | rfl | rfl | rfl <;> rw [UInt8.toNat_ofNat'] <;> omega

theorem utf8EncodeChar_ascii {c : Char} (h : c.toNat < 128) :
    String.utf8EncodeChar c = [UInt8.ofNat c.toNat] := by
  have hc : c.val.toNat = c.toNat := rfl
  rw [String.utf8EncodeChar, hc]
  exact if_pos (by omega)

theorem encodeText_eq (s : String) : encodeText s = s.toList.flatMap String.utf8EncodeChar := by
  rw [encodeText, String.toUTF8_eq_toByteArray, ← String.utf8Encode_toList, List.utf8Encode]
  simp

/-- No character's bytes start another's. -/
theorem utf8EncodeChar_append_inj {c d : Char} {x y : Bytes}
    (h : String.utf8EncodeChar c ++ x = String.utf8EncodeChar d ++ y) : c = d ∧ x = y := by
  have hdecode : ∀ (c : Char) (x : Bytes),
      (String.utf8EncodeChar c ++ x).toByteArray.utf8DecodeChar? 0 = some c := by
    intro c x
    rw [List.toByteArray_append]
    exact ByteArray.utf8DecodeChar?_utf8EncodeChar_append
  have hc := hdecode c x
  rw [h, hdecode d y] at hc
  obtain rfl := Option.some.inj hc
  exact ⟨rfl, List.append_cancel_left h⟩

theorem encodeText_injective : Function.Injective encodeText := by
  intro s t h
  have hdecode := decodeUtf8_encodeText s
  rw [h, decodeUtf8_encodeText] at hdecode
  exact (Option.some.inj hdecode).symm

/-- An ASCII byte of an encoded string is a character of it. -/
theorem ascii_mem_encodeText {s : String} {c : Char} (hc : c.toNat < 128)
    (h : UInt8.ofNat c.toNat ∈ encodeText s) : c ∈ s.toList := by
  rw [encodeText_eq, List.mem_flatMap] at h
  obtain ⟨d, hd, hb⟩ := h
  have hcode : (UInt8.ofNat c.toNat).toNat = c.toNat := by
    rw [UInt8.toNat_ofNat']
    omega
  rcases mem_utf8EncodeChar hb with ⟨-, hdc⟩ | ⟨-, hge⟩
  · rw [hcode] at hdc
    rwa [Char.toNat_inj.mp hdc]
  · omega

theorem zero_not_mem_encodeText {s : String} (h : '\x00' ∉ s.toList) : 0 ∉ encodeText s :=
  fun hmem => h (ascii_mem_encodeText (c := '\x00') (by decide) hmem)

theorem length_encodeText (s : String) :
    (encodeText s).length = (s.toList.map fun c => c.utf8Size).foldr (· + ·) 0 := by
  rw [encodeText_eq]
  induction s.toList with
  | nil => rfl
  | cons c cs ih => simp [ih]

theorem length_units (s : String) :
    (Text.units s).length = (s.toList.map fun c => (Text.utf16 c).length).foldr (· + ·) 0 := by
  rw [Text.units]
  induction s.toList with
  | nil => rfl
  | cons c cs ih => simp [ih]

theorem utf8Size_eq (c : Char) : c.utf8Size =
    if c.toNat ≤ 0x7f then 1 else if c.toNat ≤ 0x7ff then 2 else if c.toNat ≤ 0xffff then 3 else 4 := by
  simp only [Char.utf8Size, UInt32.le_iff_toNat_le]
  rfl

/-- A character takes more bytes than code units where it is beyond ASCII, and at most three a
    unit. -/
theorem utf8Size_bounds (c : Char) :
    (c.toNat < 128 ∧ c.utf8Size = 1 ∧ (Text.utf16 c).length = 1) ∨
      (128 ≤ c.toNat ∧ (Text.utf16 c).length < c.utf8Size ∧
        c.utf8Size ≤ 3 * (Text.utf16 c).length) := by
  by_cases h₁ : c.toNat ≤ 0x7f
  · have h₂ : c.toNat < 0x10000 := by omega
    left
    refine ⟨by omega, ?_, ?_⟩
    · rw [utf8Size_eq, if_pos h₁]
    · rw [Text.utf16, if_pos h₂]
      rfl
  · right
    refine ⟨by omega, ?_⟩
    rw [utf8Size_eq, if_neg h₁, Text.utf16]
    by_cases h₂ : c.toNat < 0x10000
    · rw [if_pos h₂, List.length_singleton]
      split
      · omega
      · rw [if_pos (by omega)]
        omega
    · rw [if_neg h₂, if_neg (by omega), if_neg (by omega)]
      simp

theorem length_units_le (s : String) : (Text.units s).length ≤ (encodeText s).length ∧
    (encodeText s).length ≤ 3 * (Text.units s).length := by
  rw [length_encodeText, length_units]
  induction s.toList with
  | nil => simp
  | cons c cs ih =>
    simp only [List.map_cons, List.foldr_cons]
    rcases utf8Size_bounds c with ⟨-, h8, h16⟩ | ⟨-, hlt, hle⟩ <;> omega

/-- A string is as long in bytes as in code units just where it is ASCII. -/
theorem length_units_lt {s : String} :
    (Text.units s).length < (encodeText s).length ↔ ¬ ∀ c ∈ s.toList, c.toNat < 128 := by
  have hle : ∀ l : List Char, (l.map fun c => (Text.utf16 c).length).foldr (· + ·) 0 ≤
      (l.map fun c => c.utf8Size).foldr (· + ·) 0 := by
    intro l
    induction l with
    | nil => simp
    | cons c cs ih =>
      simp only [List.map_cons, List.foldr_cons]
      rcases utf8Size_bounds c with ⟨-, h8, h16⟩ | ⟨-, hlt, -⟩ <;> omega
  rw [length_encodeText, length_units]
  generalize s.toList = l
  induction l with
  | nil => simp
  | cons c cs ih =>
    have hcs := hle cs
    rw [List.forall_mem_cons, not_and_or]
    simp only [List.map_cons, List.foldr_cons]
    rcases utf8Size_bounds c with ⟨hc, h8, h16⟩ | ⟨hc, hlt, -⟩
    · rw [h8, h16, Nat.add_lt_add_iff_left]
      exact ih.trans ⟨Or.inr, fun h => h.resolve_left (not_not.mpr hc)⟩
    · exact iff_of_true (by omega) (Or.inl (by omega))

/-- The bytes and the code units of an ASCII string are the codes of its characters. -/
theorem encodeText_ascii {s : String} (h : ∀ c ∈ s.toList, c.toNat < 128) :
    encodeText s = s.toList.map fun c => UInt8.ofNat c.toNat := by
  rw [encodeText_eq]
  generalize s.toList = l at h ⊢
  induction l with
  | nil => rfl
  | cons c cs ih =>
    obtain ⟨hc, hcs⟩ := List.forall_mem_cons.mp h
    rw [List.flatMap_cons, utf8EncodeChar_ascii hc, ih hcs]
    rfl

theorem units_ascii {s : String} (h : ∀ c ∈ s.toList, c.toNat < 128) :
    Text.units s = s.toList.map Char.toNat := by
  rw [Text.units]
  generalize s.toList = l at h ⊢
  induction l with
  | nil => rfl
  | cons c cs ih =>
    obtain ⟨hc, hcs⟩ := List.forall_mem_cons.mp h
    have hunit : Text.utf16 c = [c.toNat] := if_pos (by omega)
    rw [List.flatMap_cons, hunit, ih hcs]
    rfl

theorem units_append (s t : String) : Text.units (s ++ t) = Text.units s ++ Text.units t := by
  simp [Text.units]
