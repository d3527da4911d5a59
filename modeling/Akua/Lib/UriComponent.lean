import Akua.Lib.Utf8

/-! `encodeURIComponent` on JavaScript strings, which are lists of code units and may have surrogates
    that belong to no character. Of a string without those, each byte of its UTF-8 is written as it is
    or as `%XX`; what is written can be read in one way only (`encode_injective`). -/

/-- A JavaScript string, by its UTF-16 code units. -/
abbrev CodeUnits := List UInt16

namespace UriComponent

/-- The code unit of an ASCII character. -/
def unit (c : Char) : UInt16 := UInt16.ofNat c.toNat

/-- The characters of a string; none where a surrogate stands alone. -/
def fromUtf16 : CodeUnits → Option (List Char)
  | [] => some []
  | [u] => if 0xD800 ≤ u.toNat ∧ u.toNat < 0xE000 then none else some [Char.ofNat u.toNat]
  | u :: v :: rest =>
    if 0xD800 ≤ u.toNat ∧ u.toNat < 0xDC00 then
      if 0xDC00 ≤ v.toNat ∧ v.toNat < 0xE000 then
        (Char.ofNat (0x10000 + (u.toNat - 0xD800) * 0x400 + (v.toNat - 0xDC00)) :: ·) <$> fromUtf16 rest
      else none
    else if 0xDC00 ≤ u.toNat ∧ u.toNat < 0xE000 then none
    else (Char.ofNat u.toNat :: ·) <$> fromUtf16 (v :: rest)

/-- The characters that stay as they are. -/
def UNRESERVED : List Char :=
  "ABCDEFGHIJKLMNOPQRSTUVWXYZabcdefghijklmnopqrstuvwxyz0123456789-_.!~*'()".toList

def hexDigit (n : Nat) : Char := "0123456789ABCDEF".toList.getD n '0'

def escapeByte (b : UInt8) : List Char :=
  if Char.ofNat b.toNat ∈ UNRESERVED then [Char.ofNat b.toNat]
  else ['%', hexDigit (b.toNat / 16), hexDigit (b.toNat % 16)]

/-- The escaped bytes of some characters. -/
def escape (cs : List Char) : List Char := (cs.flatMap String.utf8EncodeChar).flatMap escapeByte

/-- `encodeURIComponent(value)`; none where it throws. -/
def encode (value : CodeUnits) : Option CodeUnits := (fromUtf16 value).map fun cs => (escape cs).map unit

/-! ### Reading back -/

theorem toNat_ofNat {n : Nat} (h : n < 0xD800 ∨ 0xDFFF < n ∧ n < 0x110000) : (Char.ofNat n).toNat = n := by
  rw [Char.ofNat, dif_pos h]
  rfl

/-- A string's characters have its code units. -/
theorem utf16_of_fromUtf16 : ∀ {value : CodeUnits} {cs : List Char}, fromUtf16 value = some cs →
    value.map UInt16.toNat = cs.flatMap Text.utf16
  | [], cs, h => by
      cases h
      rfl
  | [u], cs, h => by
      have hu := u.toNat_lt
      rw [fromUtf16] at h
      split at h
      · cases h
      · rename_i hsurrogate
        cases h
        have hcode : (Char.ofNat u.toNat).toNat = u.toNat := toNat_ofNat (by omega)
        rw [List.map_singleton, List.flatMap_singleton, Text.utf16, hcode, if_pos (by omega)]
  | u :: v :: rest, cs, h => by
      have hu := u.toNat_lt
      have hv := v.toNat_lt
      rw [fromUtf16] at h
      split at h
      · rename_i hhigh
        split at h
        · rename_i hlow
          obtain ⟨tail, htail, rfl⟩ := Option.map_eq_some_iff.mp h
          obtain ⟨n, hn⟩ : ∃ n, n = 0x10000 + (u.toNat - 0xD800) * 0x400 + (v.toNat - 0xDC00) := ⟨_, rfl⟩
          have hcode : (Char.ofNat n).toNat = n := toNat_ofNat (by omega)
          have hhead : u.toNat = 0xD800 + (n - 0x10000) / 0x400 := by omega
          have hnext : v.toNat = 0xDC00 + (n - 0x10000) % 0x400 := by omega
          rw [← hn, List.map_cons, List.map_cons, utf16_of_fromUtf16 htail, List.flatMap_cons, Text.utf16, hcode,
            if_neg (by omega), ← hhead, ← hnext]
          rfl
        · cases h
      · split at h
        · cases h
        · rename_i hhigh hlow
          obtain ⟨tail, htail, rfl⟩ := Option.map_eq_some_iff.mp h
          have hcode : (Char.ofNat u.toNat).toNat = u.toNat := toNat_ofNat (by omega)
          rw [List.map_cons, utf16_of_fromUtf16 htail, List.flatMap_cons, Text.utf16, hcode, if_pos (by omega),
            List.singleton_append]

theorem hexDigit_mem {n : Nat} (h : n < 16) : hexDigit n ∈ UNRESERVED := by
  have hall : ∀ n < 16, hexDigit n ∈ UNRESERVED := by decide
  exact hall n h

theorem hexDigit_inj {m n : Nat} (hm : m < 16) (hn : n < 16) (h : hexDigit m = hexDigit n) : m = n := by
  have hall : ∀ m < 16, ∀ n < 16, hexDigit m = hexDigit n → m = n := by decide
  exact hall m hm n hn h

/-- What is written: characters that stay as they are, and `%`. -/
theorem mem_escapeByte {b : UInt8} {c : Char} (h : c ∈ escapeByte b) : c ∈ UNRESERVED ∨ c = '%' := by
  have hb := b.toNat_lt
  rw [escapeByte] at h
  split at h
  · rename_i hunreserved
    rw [List.mem_singleton.mp h]
    exact .inl hunreserved
  · simp only [List.mem_cons, List.not_mem_nil, or_false] at h
    rcases h with rfl | rfl | rfl
    · exact .inr rfl
    · exact .inl (hexDigit_mem (by omega))
    · exact .inl (hexDigit_mem (by omega))

theorem escapeByte_ne_nil (b : UInt8) : escapeByte b ≠ [] := by
  rw [escapeByte]
  split <;> exact List.cons_ne_nil _ _

/-- No byte's text starts another's. -/
theorem escapeByte_append_inj {a b : UInt8} {x y : List Char} (h : escapeByte a ++ x = escapeByte b ++ y) :
    a = b ∧ x = y := by
  have ha := a.toNat_lt
  have hb := b.toNat_lt
  have hpercent : '%' ∉ UNRESERVED := by decide
  have hcode : ∀ n < 256, (Char.ofNat n).toNat = n := fun n hn => toNat_ofNat (by omega)
  rw [escapeByte, escapeByte] at h
  split at h <;> rename_i hplain <;> split at h <;> rename_i hplain'
  · obtain ⟨hhead, rfl⟩ := List.cons.inj h
    have hnat := congrArg Char.toNat hhead
    rw [hcode _ ha, hcode _ hb] at hnat
    exact ⟨UInt8.toNat_inj.mp hnat, rfl⟩
  · obtain ⟨hhead, -⟩ := List.cons.inj h
    rw [hhead] at hplain
    exact absurd hplain hpercent
  · obtain ⟨hhead, -⟩ := List.cons.inj h
    rw [← hhead] at hplain'
    exact absurd hplain' hpercent
  · simp only [List.cons_append, List.nil_append, List.cons.injEq, true_and] at h
    obtain ⟨hhigh, hlow, rfl⟩ := h
    have hhigh := hexDigit_inj (by omega) (by omega) hhigh
    have hlow := hexDigit_inj (by omega) (by omega) hlow
    exact ⟨UInt8.toNat_inj.mp (by omega), rfl⟩

theorem flatMap_inj {α β : Type} {f : α → List β} (hne : ∀ x, f x ≠ [])
    (hinj : ∀ {a b : α} {x y : List β}, f a ++ x = f b ++ y → a = b ∧ x = y) :
    ∀ {l m : List α}, l.flatMap f = m.flatMap f → l = m
  | [], [], _ => rfl
  | [], b :: m, h => by
      rw [List.flatMap_nil, List.flatMap_cons] at h
      exact absurd (List.append_eq_nil_iff.mp h.symm).1 (hne b)
  | a :: l, [], h => by
      rw [List.flatMap_nil, List.flatMap_cons] at h
      exact absurd (List.append_eq_nil_iff.mp h).1 (hne a)
  | a :: l, b :: m, h => by
      rw [List.flatMap_cons, List.flatMap_cons] at h
      obtain ⟨hhead, htail⟩ := hinj h
      rw [hhead, flatMap_inj hne hinj htail]

theorem utf8EncodeChar_ne_nil (c : Char) : String.utf8EncodeChar c ≠ [] := by
  intro h
  have hlength := congrArg List.length h
  rw [String.length_utf8EncodeChar] at hlength
  exact absurd hlength c.utf8Size_pos.ne'

theorem escape_injective : Function.Injective escape := fun _ _ h =>
  flatMap_inj utf8EncodeChar_ne_nil utf8EncodeChar_append_inj (flatMap_inj escapeByte_ne_nil escapeByte_append_inj h)

/-- An ASCII character is its code unit's. -/
theorem unit_inj {c d : Char} (hc : c.toNat < 128) (hd : d.toNat < 128) (h : unit c = unit d) : c = d := by
  have hnat := congrArg UInt16.toNat h
  rw [unit, unit, UInt16.toNat_ofNat', UInt16.toNat_ofNat', Nat.mod_eq_of_lt (by omega), Nat.mod_eq_of_lt (by omega)] at hnat
  exact Char.toNat_inj.mp hnat

theorem ascii_of_unreserved {c : Char} (h : c ∈ UNRESERVED ∨ c = '%') : c.toNat < 128 := by
  have hall : UNRESERVED.all (fun c => c.toNat < 128) = true := by decide
  rcases h with h | rfl
  · simpa using List.all_eq_true.mp hall c h
  · decide

theorem mem_escape {cs : List Char} {c : Char} (h : c ∈ escape cs) : c ∈ UNRESERVED ∨ c = '%' := by
  obtain ⟨b, -, hb⟩ := List.mem_flatMap.mp h
  exact mem_escapeByte hb

/-- Different strings are written differently. -/
theorem encode_injective {value other text : CodeUnits} (h : encode value = some text) (hother : encode other = some text) :
    value = other := by
  obtain ⟨cs, hcs, htext⟩ := Option.map_eq_some_iff.mp h
  obtain ⟨ds, hds, htext'⟩ := Option.map_eq_some_iff.mp hother
  have hmap : ∀ {l m : List Char}, (∀ c ∈ l, c.toNat < 128) → (∀ c ∈ m, c.toNat < 128) → l.map unit = m.map unit → l = m := by
    intro l
    induction l with
    | nil =>
      intro m _ _ he
      exact (List.map_eq_nil_iff.mp he.symm).symm
    | cons c l ih =>
      intro m hl hm he
      cases m with
      | nil => cases he
      | cons d m =>
        obtain ⟨hhead, htail⟩ := List.cons.inj he
        rw [unit_inj (hl c List.mem_cons_self) (hm d List.mem_cons_self) hhead,
          ih (fun c hc => hl c (List.mem_cons_of_mem _ hc)) (fun c hc => hm c (List.mem_cons_of_mem _ hc)) htail]
  have hescape := hmap (fun c hc => ascii_of_unreserved (mem_escape hc)) (fun c hc => ascii_of_unreserved (mem_escape hc))
    (htext.trans htext'.symm)
  have hchars := escape_injective hescape
  subst hchars
  have hunits := (utf16_of_fromUtf16 hcs).trans (utf16_of_fromUtf16 hds).symm
  exact List.map_injective_iff.mpr (fun a b he => UInt16.toNat_inj.mp he) hunits

/-- A unit of what is written. -/
def written (u : UInt16) : Bool := u ∈ (UNRESERVED ++ ['%']).map unit

theorem written_of_mem {value text : CodeUnits} (h : encode value = some text) {u : UInt16} (hu : u ∈ text) : written u = true := by
  obtain ⟨cs, -, rfl⟩ := Option.map_eq_some_iff.mp h
  obtain ⟨c, hc, rfl⟩ := List.mem_map.mp hu
  have hmem : c ∈ UNRESERVED ++ ['%'] := by
    rw [List.mem_append, List.mem_singleton]
    exact mem_escape hc
  exact decide_eq_true (List.mem_map_of_mem hmem)

theorem encode_nil : encode [] = some [] := rfl

end UriComponent
