import Akua.Lib.TomlSpelling
import Akua.TomlWrite

/-! The strings, keys and values of the TOML writer, each read back as what it was: the metrics decide
    the quoting style, and every style spells the string it was chosen for. -/

namespace Akua

open Toml (Spelled ReadsString ReadsKey ReadsLiteral)

/-! ### What the metrics say -/

section Metrics

variable {m : Metrics} {cs : List Char}

/-- No run of quotes `q` is longer than `limit`; `k` of them come right before. -/
def Runs (q : Char) (limit : Nat) : Nat → List Char → Prop
  | _, [] => True
  | k, c :: cs => (if c = q then k + 1 else 0) ≤ limit ∧ Runs q limit (if c = q then k + 1 else 0) cs

theorem maxSingleQuotes_add (m : Metrics) (c : Char) :
    (m.add c).singles = (if c = '\'' then m.singles + 1 else 0) ∧
    (m.add c).maxSingleQuotes = max m.maxSingleQuotes (if c = '\'' then m.singles + 1 else 0) := by
  unfold Metrics.add
  dsimp only
  split_ifs <;> exact ⟨rfl, rfl⟩

theorem maxSingleQuotes_foldl : ∀ (cs : List Char) (m : Metrics), m.maxSingleQuotes ≤ (cs.foldl Metrics.add m).maxSingleQuotes ∧
    Runs '\'' (cs.foldl Metrics.add m).maxSingleQuotes m.singles cs
  | [], m => ⟨le_rfl, trivial⟩
  | c :: cs, m => by
    obtain ⟨hrun, hmax⟩ := maxSingleQuotes_add m c
    obtain ⟨hle, hruns⟩ := maxSingleQuotes_foldl cs (m.add c)
    rw [List.foldl_cons]
    rw [hmax] at hle
    rw [hrun] at hruns
    exact ⟨(le_max_left _ _).trans hle, (le_max_right _ _).trans hle, hruns⟩

/-- A character that each flag of the metrics is about. -/
theorem flags_add (m : Metrics) (c : Char) :
    ((m.add c).escape = false ↔ m.escape = false ∧ c ≠ '\\') ∧
    ((m.add c).newline = false ↔ m.newline = false ∧ c ≠ '\n') ∧
    ((m.add c).escapeCodes = false ↔ m.escapeCodes = false ∧ (isControl c.toNat = true → c = '\n')) := by
  by_cases hescape : c = '\\'
  · subst hescape
    simp [Metrics.add, isControl]
  · by_cases hnewline : c = '\n'
    · subst hnewline
      simp [Metrics.add]
    · by_cases hcontrol : isControl c.toNat = true <;> simp [Metrics.add, hescape, hnewline, hcontrol]

theorem flags_foldl : ∀ (cs : List Char) (m : Metrics),
    ((cs.foldl Metrics.add m).escape = false ↔ m.escape = false ∧ '\\' ∉ cs) ∧
    ((cs.foldl Metrics.add m).newline = false ↔ m.newline = false ∧ '\n' ∉ cs) ∧
    ((cs.foldl Metrics.add m).escapeCodes = false ↔
      m.escapeCodes = false ∧ ∀ c ∈ cs, isControl c.toNat = true → c = '\n')
  | [], m => by simp
  | c :: cs, m => by
    obtain ⟨hescape, hnewline, hcodes⟩ := flags_foldl cs (m.add c)
    obtain ⟨hescape', hnewline', hcodes'⟩ := flags_add m c
    rw [List.foldl_cons, hescape, hnewline, hcodes, hescape', hnewline', hcodes']
    have hsymm : ∀ d : Char, c ≠ d ↔ ¬ d = c := fun d => ⟨Ne.symm, Ne.symm⟩
    simp only [List.mem_cons, not_or, forall_eq_or_imp, and_assoc, hsymm, and_self]

end Metrics

/-! ### Strings and keys -/

theorem isControl_eq {c : Char} (h : isControl c.toNat = true → c = '\n') (hnewline : c ≠ '\n') :
    Toml.isControl c = false := by
  by_contra hc
  refine hnewline (h ?_)
  simp only [Bool.not_eq_false, Toml.isControl, Bool.or_eq_true, Bool.and_eq_true, decide_eq_true_eq, bne_iff_ne,
    beq_iff_eq] at hc
  simp only [isControl, Bool.or_eq_true, Bool.and_eq_true, decide_eq_true_eq, bne_iff_ne, beq_iff_eq]
  refine hc.imp_left fun hc => ⟨by omega, fun htab => hc.2 ?_⟩
  exact Char.toNat_inj.mp htab

/-- Characters that may stand in a string as they are. -/
theorem spelled_raw {q : Char} {multi : Bool} (hq : q ≠ '"') {cs : List Char} {k : Nat}
    (hruns : Runs q (if multi then 2 else 0) k cs)
    (hcodes : ∀ c ∈ cs, isControl c.toNat = true → c = '\n') (hnewline : multi = false → '\n' ∉ cs) :
    Spelled q multi k cs cs := by
  induction cs generalizing k with
  | nil => exact .nil k
  | cons c cs ih =>
    obtain ⟨hle, hruns⟩ := hruns
    have ih := ih hruns (fun d hd => hcodes d (List.mem_cons_of_mem _ hd))
      fun hmulti hmem => hnewline hmulti (List.mem_cons_of_mem _ hmem)
    by_cases hc : c = q
    · subst hc
      rw [if_pos rfl] at hle ih
      cases multi with
      | false => exact absurd hle (by simp)
      | true => exact .quote rfl (by simp only [if_true] at hle; omega) ih
    · rw [if_neg hc] at ih
      have hcontrol : (Toml.isControl c && !(multi && c == '\n')) = false := by
        by_cases hline : c = '\n'
        · subst hline
          cases multi with
          | false => exact absurd List.mem_cons_self (hnewline rfl)
          | true => rfl
        · rw [isControl_eq (hcodes c List.mem_cons_self) hline, Bool.false_and]
      have hreads : ∀ after, Toml.body q multi .plain (c :: [] ++ after) = Toml.put c (Toml.body q multi .plain after) :=
        Toml.body_plain hc (fun h => hq h.2) hcontrol
      exact .piece hc hreads ih

theorem hex_hexDigit : ∀ n < 16, Toml.hex (hexDigit n) = some n := by decide

theorem isValidChar_toNat (c : Char) : c.toNat.isValidChar := c.valid

/-- Each character of a basic string is escaped so that it reads as itself, other than a quote that
    stays one. -/
theorem body_escapeChar {multi : Bool} {quotes : Nat} {c : Char}
    (h : c = '"' → (if multi then 2 else 0) < quotes) :
    ∃ d rest, (escapeChar multi quotes c).toList = d :: rest ∧ d ≠ '"' ∧ ∀ after,
      Toml.body '"' multi .plain (d :: rest ++ after) = Toml.put c (Toml.body '"' multi .plain after) := by
  have hbackslash : ∀ rest, Toml.body '"' multi .plain ('\\' :: rest) = Toml.body '"' multi .backslash rest := by
    intro rest
    rw [Toml.body, Toml.closing_of_ne (by decide)]
    rfl
  have hshort : ∀ {e : Char}, e ≠ 'u' → e ≠ 'U' → Toml.shortEscape e = some c → ∀ after,
      Toml.body '"' multi .plain ('\\' :: e :: after) = Toml.put c (Toml.body '"' multi .plain after) := by
    intro e hu hU he after
    rw [hbackslash, Toml.body, if_neg hu, if_neg hU, he]
  have hkeep : c ≠ '"' → c ≠ '\\' → (Toml.isControl c && !(multi && c == '\n')) = false → ∀ after,
      Toml.body '"' multi .plain (c :: [] ++ after) = Toml.put c (Toml.body '"' multi .plain after) :=
    fun hquote hescape hcontrol after => Toml.body_plain hquote (fun h => hescape h.1) hcontrol after
  unfold escapeChar
  by_cases hquote : c = '"'
  · rw [if_pos hquote, if_pos (h hquote)]
    exact ⟨'\\', ['"'], rfl, by decide, hshort (by decide) (by decide) (by subst hquote; rfl)⟩
  rw [if_neg hquote]
  split_ifs with hnewline hmulti hbs htab hff hcr hescape hcode
  · subst hnewline
    exact ⟨'\n', [], rfl, by decide, hkeep (by decide) (by decide) (by rw [hmulti]; rfl)⟩
  · exact ⟨'\\', ['n'], rfl, by decide, hshort (by decide) (by decide) (by subst hnewline; rfl)⟩
  · exact ⟨'\\', ['b'], rfl, by decide, hshort (by decide) (by decide) (by subst hbs; rfl)⟩
  · exact ⟨'\\', ['t'], rfl, by decide, hshort (by decide) (by decide) (by subst htab; rfl)⟩
  · exact ⟨'\\', ['f'], rfl, by decide, hshort (by decide) (by decide) (by subst hff; rfl)⟩
  · exact ⟨'\\', ['r'], rfl, by decide, hshort (by decide) (by decide) (by subst hcr; rfl)⟩
  · exact ⟨'\\', ['\\'], rfl, by decide, hshort (by decide) (by decide) (by subst hescape; rfl)⟩
  · have hlt : c.toNat < 128 := by omega
    refine ⟨'\\', ['u', '0', '0', hexDigit (c.toNat / 16), hexDigit (c.toNat % 16)], ?_, by decide, fun after => ?_⟩
    · simp [String.toList_append]
    · have hvalue : 16 * (16 * (16 * (16 * 0 + 0) + 0) + c.toNat / 16) + c.toNat % 16 = c.toNat := by omega
      have hzero : Toml.hex '0' = some 0 := rfl
      simp only [List.cons_append, List.nil_append]
      rw [hbackslash, Toml.body, if_pos rfl, Toml.body, hzero]
      simp only [show (1 < 4) = True by simp, if_true]
      rw [Toml.body, hzero]
      simp only [show (1 < 4 - 1) = True by simp, if_true]
      rw [Toml.body, hex_hexDigit _ (by omega)]
      simp only [show (1 < 4 - 1 - 1) = True by simp, if_true]
      rw [Toml.body, hex_hexDigit _ (by omega)]
      simp only [hvalue, show (1 < 4 - 1 - 1 - 1) = False by simp, if_false, if_pos (isValidChar_toNat c),
        Char.ofNat_toNat]
  · refine ⟨c, [], String.toList_ofList, hquote, hkeep hquote hescape ?_⟩
    have hcontrol : Toml.isControl c = false := by
      simp only [Toml.isControl, Bool.or_eq_false_iff, Bool.and_eq_false_iff, decide_eq_false_iff_not,
        beq_eq_false_iff_ne, ne_eq]
      exact ⟨Or.inl (by omega), by omega⟩
    rw [hcontrol, Bool.false_and]

theorem spelled_escapeBasic (multi : Bool) : ∀ (cs : List Char) (k : Nat),
    Spelled '"' multi k cs (escapeBasic multi k cs).toList
  | [], k => .nil k
  | c :: cs, k => by
    rw [escapeBasic, String.toList_append]
    have ih := spelled_escapeBasic multi cs (if c = '"' then k + 1 else 0)
    by_cases hraw : c = '"' ∧ multi = true ∧ k < 2
    · obtain ⟨rfl, rfl, hk⟩ := hraw
      have hchar : escapeChar true (k + 1) '"' = "\"" := by
        rw [escapeChar, if_pos rfl, if_neg (by simp only [if_true]; omega)]
      rw [if_pos rfl] at ih ⊢
      rw [hchar]
      exact .quote rfl hk ih
    · have hescaped : c = '"' → (if multi then 2 else 0) < if c = '"' then k + 1 else 0 := by
        intro hc
        rw [if_pos hc]
        cases multi with
        | false => simp
        | true =>
          have hk := not_and.mp (not_and.mp hraw hc) rfl
          simp only [if_true]
          omega
      obtain ⟨d, rest, htext, hd, hreads⟩ := body_escapeChar hescaped
      rw [htext]
      exact .piece hd hreads (ih.mono (Nat.zero_le _))

theorem Runs.mono {q : Char} {limit limit' : Nat} (hle : limit ≤ limit') : ∀ {k : Nat} {cs : List Char},
    Runs q limit k cs → Runs q limit' k cs
  | _, [], _ => trivial
  | _, _ :: _, h => ⟨h.1.trans hle, Runs.mono hle h.2⟩

theorem newline_of_escapeChar {multi : Bool} {quotes : Nat} {c : Char}
    (h : '\n' ∈ (escapeChar multi quotes c).toList) : c = '\n' := by
  unfold escapeChar at h
  by_contra hc
  rw [if_neg hc] at h
  have hhex : ∀ n < 16, hexDigit n ≠ '\n' := by decide
  split_ifs at h with hquote hcode _ _ _ _ _ hlow
  all_goals try exact absurd h (by decide)
  · rw [String.toList_append, List.mem_append] at h
    have hlt : c.toNat < 128 := by omega
    have hhigh := hhex (c.toNat / 16) (by omega)
    have hlow := hhex (c.toNat % 16) (by omega)
    have hu : '\n' ∉ "\\u00".toList := by decide
    have h := h.resolve_left hu
    rw [String.toList_ofList] at h
    simp only [List.mem_cons, List.not_mem_nil, or_false] at h
    exact h.elim (fun h => hhigh h.symm) fun h => hlow h.symm
  · rw [String.toList_ofList, List.mem_singleton] at h
    exact hc h.symm

theorem newline_of_escapeBasic {multi : Bool} : ∀ {cs : List Char} {k : Nat},
    '\n' ∈ (escapeBasic multi k cs).toList → '\n' ∈ cs
  | [], _, h => absurd h (by simp [escapeBasic])
  | c :: cs, k, h => by
    rw [escapeBasic, String.toList_append, List.mem_append] at h
    rcases h with h | h
    · exact List.mem_cons.mpr (Or.inl (newline_of_escapeChar h).symm)
    · exact List.mem_cons_of_mem _ (newline_of_escapeBasic h)

theorem readsString_of_basic (value : String) : ReadsString (basic value).toList value := by
  have h := Toml.readsString_basic (spelled_escapeBasic false value.toList 0)
  rw [String.ofList_toList] at h
  have htext : (basic value).toList = '"' :: (escapeBasic false 0 value.toList).toList ++ ['"'] := by
    simp [basic]
  rwa [htext]

theorem readsKey_of_basic (value : String) : ReadsKey (basic value).toList value := by
  have h := Toml.readsKey_basic (spelled_escapeBasic false value.toList 0)
  rw [String.ofList_toList] at h
  have htext : (basic value).toList = '"' :: (escapeBasic false 0 value.toList).toList ++ ['"'] := by
    simp [basic]
  rwa [htext]

theorem readsString_multilineBasic {value : String} {newline : Bool}
    (h : newline = false → '\n' ∉ value.toList) : ReadsString (multilineBasic value newline).toList value := by
  have hread := Toml.readsString_multi (Or.inl rfl) (spelled_escapeBasic true value.toList 0)
    fun hnewline hmem => h hnewline (newline_of_escapeBasic hmem)
  rw [String.ofList_toList] at hread
  have htext : (multilineBasic value newline).toList =
      '"' :: '"' :: '"' :: (Toml.opening newline ++ (escapeBasic true 0 value.toList).toList) ++ ['"', '"', '"'] := by
    cases newline <;> simp [multilineBasic, Toml.opening]
  rwa [htext]

section

variable {value : String}

theorem metrics_codes (h : (metrics value).escapeCodes = false) :
    ∀ c ∈ value.toList, isControl c.toNat = true → c = '\n' :=
  ((flags_foldl value.toList {}).2.2.mp h).2

theorem metrics_newline (h : (metrics value).newline = false) : '\n' ∉ value.toList :=
  ((flags_foldl value.toList {}).2.1.mp h).2

theorem metrics_singles (limit : Nat) (h : (metrics value).maxSingleQuotes ≤ limit) :
    Runs '\'' limit 0 value.toList :=
  (maxSingleQuotes_foldl value.toList {}).2.mono h

theorem literal_spelled (hcodes : (metrics value).escapeCodes = false)
    (hsingles : (metrics value).maxSingleQuotes = 0) (hnewline : (metrics value).newline = false) :
    Spelled '\'' false 0 value.toList value.toList :=
  spelled_raw (by decide) (metrics_singles 0 hsingles.le) (metrics_codes hcodes) fun _ => metrics_newline hnewline

theorem quoted_toList (value : String) : ("'" ++ value ++ "'").toList = '\'' :: value.toList ++ ['\''] := by simp

end

theorem readsString_multilineLiteral {value : String} (hcodes : (metrics value).escapeCodes = false)
    (hsingles : (metrics value).maxSingleQuotes ≤ 2) :
    ReadsString ("'''" ++ (if (metrics value).newline then "\n" else "") ++ value ++ "'''").toList value := by
  have hspelled : Spelled '\'' true 0 value.toList value.toList :=
    spelled_raw (by decide) (metrics_singles 2 hsingles) (metrics_codes hcodes) fun h => by cases h
  have hread := Toml.readsString_multi (Or.inr rfl) hspelled metrics_newline
  rw [String.ofList_toList] at hread
  have htext : ("'''" ++ (if (metrics value).newline then "\n" else "") ++ value ++ "'''").toList =
      '\'' :: '\'' :: '\'' :: (Toml.opening (metrics value).newline ++ value.toList) ++ ['\'', '\'', '\''] := by
    cases (metrics value).newline <;> simp [Toml.opening]
  rwa [htext]

/-- Whatever style it takes, a string reads as itself. -/
theorem readsString_tomlString (value : String) : ReadsString (tomlString value).toList value := by
  unfold tomlString
  dsimp only
  split
  · exact readsString_of_basic value
  · split
    · rename_i hliteral
      simp only [Bool.and_eq_true, Bool.not_eq_true', beq_iff_eq] at hliteral
      have h := Toml.readsString_literal (literal_spelled hliteral.1.1 hliteral.1.2 hliteral.2)
      rw [String.ofList_toList] at h
      rwa [quoted_toList]
    · split
      · exact readsString_multilineBasic metrics_newline
      · split
        · rename_i hraw
          simp only [Bool.and_eq_true, Bool.not_eq_true', decide_eq_true_eq] at hraw
          exact readsString_multilineLiteral hraw.1 hraw.2
        · split
          · exact readsString_multilineBasic fun h => by cases h
          · exact readsString_of_basic value

theorem readsKey_tomlKey (name : String) : ReadsKey (tomlKey name).toList name := by
  unfold tomlKey
  split
  · rename_i hbare
    simp only [Bool.and_eq_true, List.all_eq_true, decide_eq_true_eq] at hbare
    exact Toml.readsKey_bare hbare.1 hbare.2
  · dsimp only
    split
    · exact readsKey_of_basic name
    · split
      · rename_i hliteral
        simp only [Bool.and_eq_true, Bool.not_eq_true', beq_iff_eq, Bool.or_eq_false_iff] at hliteral
        have h := Toml.readsKey_literal (literal_spelled hliteral.1.1 hliteral.2 hliteral.1.2)
        rw [String.ofList_toList] at h
        rwa [quoted_toList]
      · exact readsKey_of_basic name

/-! ### Values -/

/-- Numbers are the integers that a double holds exactly. -/
def isExact (text : String) : Prop := ∃ n : Int, text = toString n ∧ n.natAbs < 2 ^ 53

def TomlValue.Valid : TomlValue → Prop
  | .number text => isExact text
  | _ => True

/-- What TOML makes of a value. -/
def TomlValue.literal : TomlValue → Toml.Literal
  | .string value => .scalar (.string value)
  | .number text => .scalar (.integer (((Toml.integer text.toList).map Prod.fst).getD 0))
  | .bool value => .scalar (.bool value)
  | .strings values => .array (values.map .string)

theorem integer_toString (n : Int) : Toml.integer (toString n).toList = some (n, []) := by
  have h : Toml.integer ((toString n).toList ++ []) = some (n, []) := Toml.integer_toString n (by simp)
  rwa [List.append_nil] at h

theorem concat_toList (parts : List String) : (concat parts).toList = parts.flatMap String.toList := by
  induction parts with
  | nil => rfl
  | cons part parts ih =>
    have h : concat (part :: parts) = part ++ concat parts := rfl
    rw [h, String.toList_append, ih, List.flatMap_cons]

theorem readsLiteral_tomlValue {value : TomlValue} (h : value.Valid) :
    ReadsLiteral (tomlValue value).toList value.literal := by
  cases value with
  | string value => exact (readsString_tomlString value).literal
  | number text =>
    obtain ⟨n, rfl, -⟩ := h
    rw [TomlValue.literal, integer_toString]
    exact Toml.readsLiteral_integer n
  | bool value => exact Toml.readsLiteral_bool value
  | strings values =>
    rw [tomlValue]
    split
    · have hitems : ∀ item ∈ values.map fun item => ((tomlString item).toList, item), ReadsString item.1 item.2 := by
        simp only [List.forall_mem_map]
        exact fun item _ => readsString_tomlString item
      have hread := Toml.readsLiteral_stacked hitems
      rw [List.map_map] at hread
      have htext : ("[\n" ++ concat (values.map fun item => "    " ++ tomlString item ++ ",\n") ++ "]").toList =
          '[' :: '\n' :: Toml.stacked (values.map fun item => ((tomlString item).toList, item)) ++ [']'] := by
        simp [concat_toList, Toml.stacked, List.flatMap_map]
      rw [htext]
      exact hread
    · rename_i hlength
      match values, hlength with
      | [], _ => exact Toml.readsLiteral_empty
      | [value], _ =>
        have hread := Toml.readsLiteral_single (readsString_tomlString value)
        have htext : ("[" ++ concat ([value].map tomlString) ++ "]").toList =
            '[' :: (tomlString value).toList ++ [']'] := by simp [concat_toList]
        rw [htext]
        exact hread
      | _ :: _ :: _, hlength => exact absurd (by simp) hlength

end Akua
