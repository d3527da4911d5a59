import Mathlib.Data.List.TakeWhile
import Akua.Oci

/-! What `bearerChallenge` reads in a registry's `WWW-Authenticate` header: exactly what its parameters say,
    in whatever order, spacing and quoting they are written. -/

namespace Akua

/-! ### The header -/

/-- The characters of a token. -/
def isTokenChar (c : Char) : Bool := c.isAlphanum || "!#$%&'*+-.^_`|~".toList.contains c

/-- The characters a header's value can hold: bytes, without NUL and line breaks. -/
def isFieldChar (c : Char) : Bool := c.toNat < 0x100 && c.toNat ∉ [0x00, 0x0a, 0x0d]

structure AuthToken where
  chars : List Char
  ne_nil : chars ≠ []
  isToken : ∀ c ∈ chars, isTokenChar c = true

/-- White space, possibly none. -/
structure Blanks where
  chars : List Char
  blank : ∀ c ∈ chars, isSpace c = true

/-- A character of a quoted string, as it is or behind a backslash. -/
structure QuotedChar where
  char : Char
  escaped : Bool
  isField : isFieldChar char = true
  plain : escaped = false → char ≠ '"' ∧ char ≠ '\\'

inductive AuthValue where
  | token (word : AuthToken)
  | quoted (chars : List QuotedChar)

/-- `name=value` with the white space around its parts. -/
structure AuthParam where
  name : AuthToken
  value : AuthValue
  beforeName : Blanks
  afterName : Blanks
  beforeValue : Blanks
  afterValue : Blanks

def QuotedChar.text (q : QuotedChar) : List Char := if q.escaped then ['\\', q.char] else [q.char]

def AuthValue.text : AuthValue → List Char
  | .token word => word.chars
  | .quoted chars => '"' :: chars.flatMap QuotedChar.text ++ ['"']

/-- What a value says. -/
def AuthValue.denoted : AuthValue → String
  | .token word => String.ofList word.chars
  | .quoted chars => String.ofList (chars.map QuotedChar.char)

def AuthParam.text (param : AuthParam) : List Char :=
  param.beforeName.chars ++ param.name.chars ++ param.afterName.chars ++ '=' ::
    (param.beforeValue.chars ++ param.value.text ++ param.afterValue.chars)

def AuthParam.key (param : AuthParam) : String := String.ofList param.name.chars

/-- Parameters with commas between them. -/
def paramsText : List AuthParam → List Char
  | [] => []
  | [param] => param.text
  | param :: next :: params => param.text ++ ',' :: paramsText (next :: params)

/-- A `WWW-Authenticate` value of the scheme `Bearer`: parameters of distinct names behind the scheme and
    its spaces. -/
structure BearerHeader where
  spaces : Nat
  params : List AuthParam
  parted : params ≠ [] → 0 < spaces
  distinct : (params.map AuthParam.key).Nodup

def BearerHeader.text (header : BearerHeader) : String :=
  String.ofList ("Bearer".toList ++ List.replicate header.spaces ' ' ++ paramsText header.params)

/-- The value of a parameter. -/
def BearerHeader.value (header : BearerHeader) (name : String) : Option String :=
  (header.params.find? fun param => param.key = name).map fun param => param.value.denoted

/-- The challenge that a header makes, when it has a realm. -/
def BearerHeader.denoted (header : BearerHeader) : Option Challenge :=
  ((header.value "realm").filter (· ≠ "")).map fun realm =>
    { realm, service := header.value "service", scope := header.value "scope" }

/-! ### Characters -/

theorem isTokenChar_range {c : Char} (h : isTokenChar c = true) :
    0x21 ≤ c.toNat ∧ c.toNat ≤ 0x7e ∧ c ≠ '"' ∧ c ≠ ',' ∧ c ≠ '=' := by
  rw [isTokenChar, Bool.or_eq_true] at h
  rcases h with h | h
  · have hrange := Text.isAlphanum_iff.mp h
    refine ⟨by omega, by omega, ?_, ?_, ?_⟩ <;>
    · rintro rfl
      simp at hrange
  · have hmem : c ∈ "!#$%&'*+-.^_`|~".toList := by simpa using h
    revert c
    simp

theorem isSpace_of_token {c : Char} (h : isTokenChar c = true) : isSpace c = false := by
  obtain ⟨hlow, hhigh, -⟩ := isTokenChar_range h
  simp only [isSpace, List.mem_cons, List.not_mem_nil, or_false, Bool.or_eq_false_iff, decide_eq_false_iff_not,
    Bool.and_eq_false_iff]
  omega

theorem isSpace_ne {c d : Char} (hc : isSpace c = true) (hd : isSpace d = false) : c ≠ d := by
  rintro rfl
  rw [hc] at hd
  cases hd

theorem dropWhile_blanks (blanks : Blanks) {c : Char} (hc : isSpace c = false) (rest : List Char) :
    (blanks.chars ++ c :: rest).dropWhile isSpace = c :: rest := by
  rw [List.dropWhile_append_of_pos blanks.blank, List.dropWhile_cons_of_neg (by simp [hc])]

/-- A run of characters goes up to the first that is none of them. -/
theorem takeWhile_run {p : Char → Bool} {run rest : List Char} (hrun : ∀ c ∈ run, p c = true)
    (hrest : ∀ c ∈ rest.head?, p c = false) :
    (run ++ rest).takeWhile p = run ∧ (run ++ rest).dropWhile p = rest := by
  rw [List.takeWhile_append_of_pos hrun, List.dropWhile_append_of_pos hrun]
  rcases rest with _ | ⟨c, rest⟩
  · simp
  · simp [hrest c rfl]

theorem trim_text {cs : List Char} (blanks : Blanks) (h : ∀ c ∈ cs, isSpace c = false) :
    trim (String.ofList (cs ++ blanks.chars)) = String.ofList cs := by
  have hstart : (cs ++ blanks.chars).dropWhile isSpace = cs ++ blanks.chars ∨
      cs = [] ∧ (cs ++ blanks.chars).dropWhile isSpace = [] := by
    rcases cs with _ | ⟨c, cs⟩
    · exact .inr ⟨rfl, List.dropWhile_eq_nil_iff.mpr fun c hc => blanks.blank c hc⟩
    · exact .inl (List.dropWhile_cons_of_neg (by simp [h c List.mem_cons_self]))
  rw [trim, String.toList_ofList]
  rcases hstart with hstart | ⟨rfl, hstart⟩
  · rw [hstart, List.reverse_append, List.dropWhile_append_of_pos fun c hc => blanks.blank c (List.mem_reverse.mp hc),
      List.dropWhile_eq_self_iff.mpr, List.reverse_reverse]
    intro hlen
    simpa using h _ (List.mem_reverse.mp (List.get_mem cs.reverse ⟨0, hlen⟩))
  · rw [hstart]
    rfl

/-! ### One parameter -/

/-- `tail` ends a parameter, with `rest` behind it. -/
def Ends (tail rest : List Char) : Prop := tail = [] ∧ rest = [] ∨ tail = ',' :: rest

theorem quotedContent_text (chars : List QuotedChar) (rest : List Char) :
    quotedContent (chars.flatMap QuotedChar.text ++ '"' :: rest) = some (chars.map QuotedChar.char, rest) := by
  induction chars with
  | nil => simp [quotedContent]
  | cons q chars ih =>
    rw [List.flatMap_cons, List.append_assoc, QuotedChar.text]
    have hfield := q.isField
    by_cases hescaped : q.escaped = true
    · have hline : q.char ∉ ['\n', '\r', '\u2028', '\u2029'] := by
        intro hmem
        simp only [List.mem_cons, List.not_mem_nil, or_false] at hmem
        rcases hmem with h | h | h | h <;>
        · rw [h] at hfield
          exact absurd hfield (by decide)
      rw [if_pos hescaped, List.cons_append, List.singleton_append]
      simp [quotedContent, hline, ih]
    · obtain ⟨hquote, hback⟩ := q.plain (by simpa using hescaped)
      rw [if_neg hescaped, List.singleton_append, quotedContent, ih]
      · rfl
      · exact hquote
      · exact fun h => absurd h hback
      · exact fun _ _ h => absurd h hback

theorem afterValue_blanks (blanks : Blanks) {tail rest : List Char} (h : Ends tail rest) :
    afterValue (blanks.chars ++ tail) = some rest := by
  rw [afterValue]
  rcases h with ⟨rfl, rfl⟩ | rfl
  · rw [List.append_nil, List.dropWhile_eq_nil_iff.mpr blanks.blank]
  · rw [dropWhile_blanks blanks (by decide)]
    rfl

theorem challengeValue_bare (before : Blanks) {c : Char} (hc : isSpace c = false) (hquote : c ≠ '"')
    (rest : List Char) : challengeValue (before.chars ++ c :: rest) =
      (trim (String.ofList ((c :: rest).takeWhile (· ≠ ','))), ((c :: rest).dropWhile (· ≠ ',')).drop 1) := by
  rw [challengeValue, dropWhile_blanks before hc]
  simp [hquote]

theorem challengeValue_text (before after : Blanks) (value : AuthValue) {tail rest : List Char}
    (h : Ends tail rest) :
    challengeValue (before.chars ++ value.text ++ after.chars ++ tail) = (value.denoted, rest) := by
  rw [List.append_assoc, List.append_assoc]
  cases value with
  | quoted chars =>
    have htext : (AuthValue.quoted chars).text ++ (after.chars ++ tail) =
        '"' :: (chars.flatMap QuotedChar.text ++ '"' :: (after.chars ++ tail)) := by
      simp [AuthValue.text]
    rw [challengeValue, htext, dropWhile_blanks before (by decide)]
    simp [quotedContent_text, afterValue_blanks after h, AuthValue.denoted]
  | token word =>
    obtain ⟨c, cs, hword⟩ := List.exists_cons_of_ne_nil word.ne_nil
    have hc := word.isToken c (hword ▸ List.mem_cons_self)
    have hcomma : ∀ x ∈ word.chars ++ after.chars, (decide (x ≠ ',')) = true := by
      intro x hx
      rcases List.mem_append.mp hx with hx | hx
      · exact decide_eq_true (isTokenChar_range (word.isToken x hx)).2.2.2.1
      · exact decide_eq_true (isSpace_ne (after.blank x hx) (by decide))
    have htext : (AuthValue.token word).text ++ (after.chars ++ tail) = c :: (cs ++ (after.chars ++ tail)) := by
      rw [AuthValue.text, hword, List.cons_append]
    have hbare : c :: (cs ++ (after.chars ++ tail)) = (word.chars ++ after.chars) ++ tail := by
      rw [hword, List.append_assoc, List.cons_append]
    rw [htext, challengeValue_bare before (isSpace_of_token hc) (isTokenChar_range hc).2.2.1, hbare,
      List.takeWhile_append_of_pos hcomma, List.dropWhile_append_of_pos hcomma]
    have htrim := trim_text after fun x hx => isSpace_of_token (word.isToken x hx)
    have hend : tail.takeWhile (· ≠ ',') = [] ∧ (tail.dropWhile (· ≠ ',')).drop 1 = rest := by
      rcases h with ⟨rfl, rfl⟩ | rfl
      · simp
      · simp
    rw [hend.1, hend.2, List.append_nil, htrim]
    rfl

theorem challengeField_text (param : AuthParam) {tail rest : List Char} (h : Ends tail rest) :
    challengeField (param.text ++ tail) = some ((param.key, param.value.denoted), rest) := by
  obtain ⟨c, cs, hname⟩ := List.exists_cons_of_ne_nil param.name.ne_nil
  have hc := param.name.isToken c (hname ▸ List.mem_cons_self)
  have hkey : ∀ x ∈ param.name.chars, (x ≠ '=' && x ≠ ',' && !isSpace x) = true := by
    intro x hx
    have hx := param.name.isToken x hx
    simp [(isTokenChar_range hx).2.2.2, isSpace_of_token hx]
  have hstop : ∀ more : List Char, ∀ x ∈ (param.afterName.chars ++ '=' :: more).head?,
      (x ≠ '=' && x ≠ ',' && !isSpace x) = false := by
    intro more x hx
    rcases hblanks : param.afterName.chars with _ | ⟨b, bs⟩
    · rw [hblanks] at hx
      simp [← Option.mem_some.mp hx]
    · rw [hblanks] at hx
      have hb := param.afterName.blank b (hblanks ▸ List.mem_cons_self)
      simp [← Option.mem_some.mp hx, hb]
  have htext : param.text ++ tail = param.beforeName.chars ++ c :: (cs ++ (param.afterName.chars ++ '=' ::
      (param.beforeValue.chars ++ param.value.text ++ param.afterValue.chars ++ tail))) := by
    simp [AuthParam.text, hname]
  have hrun := takeWhile_run hkey (hstop
    (param.beforeValue.chars ++ param.value.text ++ param.afterValue.chars ++ tail))
  rw [challengeField, htext, dropWhile_blanks param.beforeName (isSpace_of_token hc), ← List.cons_append, ← hname]
  simp only [hrun, dropWhile_blanks param.afterName (by decide : isSpace '=' = false), if_neg param.name.ne_nil,
    challengeValue_text _ _ _ h]
  rfl

/-! ### The header as a whole -/

theorem length_paramsText (params : List AuthParam) : params.length ≤ (paramsText params).length := by
  have htext : ∀ param : AuthParam, 1 ≤ param.text.length := by
    intro param
    simp only [AuthParam.text, List.length_append, List.length_cons]
    omega
  induction params with
  | nil => exact Nat.le_refl _
  | cons param params ih =>
    have hparam := htext param
    cases params with
    | nil => simpa [paramsText] using hparam
    | cons next params =>
      simp only [paramsText, List.length_cons, List.length_append] at ih ⊢
      omega

theorem challengeFields_paramsText {params : List AuthParam} : ∀ {fuel : Nat}, params.length ≤ fuel →
    challengeFields fuel (paramsText params) = params.map fun param => (param.key, param.value.denoted) := by
  induction params with
  | nil =>
    intro fuel _
    cases fuel <;> rfl
  | cons param params ih =>
    intro fuel hfuel
    obtain ⟨fuel, rfl⟩ : ∃ n, fuel = n + 1 := ⟨fuel - 1, by simp at hfuel; omega⟩
    -- the parameter's text goes up to a comma or the end
    obtain ⟨tail, htext, hends⟩ : ∃ tail, paramsText (param :: params) = param.text ++ tail ∧
        Ends tail (paramsText params) := by
      cases params with
      | nil => exact ⟨[], (List.append_nil _).symm, .inl ⟨rfl, rfl⟩⟩
      | cons next params => exact ⟨_, rfl, .inr rfl⟩
    have hne : param.text ++ tail ≠ [] := by simp [AuthParam.text]
    obtain ⟨c, cs, hcons⟩ := List.exists_cons_of_ne_nil hne
    have hfield := challengeField_text param hends
    rw [hcons] at hfield
    rw [htext, hcons, challengeFields]
    simp only [hfield, List.map_cons]
    rw [ih (by simpa using hfuel)]

theorem challengeFields_blanks : ∀ {fuel : Nat} {cs : List Char}, (∀ c ∈ cs, isSpace c = true) →
    challengeFields fuel cs = []
  | 0, _, _ => rfl
  | _ + 1, [], _ => rfl
  | fuel + 1, c :: cs, h => by
      have hfield : challengeField (c :: cs) = none := by
        rw [challengeField, List.dropWhile_eq_nil_iff.mpr h]
        rfl
      rw [challengeFields]
      simp only [hfield]
      exact challengeFields_blanks fun x hx => h x (List.mem_cons_of_mem _ hx)

/-- Spaces behind the scheme belong to what stands before the first parameter. -/
theorem challengeFields_spaces (n : Nat) {params : List AuthParam} {fuel : Nat} (h : params.length ≤ fuel) :
    challengeFields fuel (List.replicate n ' ' ++ paramsText params) =
      params.map fun param => (param.key, param.value.denoted) := by
  have hspaces : ∀ c ∈ List.replicate n ' ', isSpace c = true := by
    intro c hc
    rw [List.eq_of_mem_replicate hc]
    rfl
  rcases params with _ | ⟨param, params⟩
  · rw [paramsText, List.append_nil, challengeFields_blanks hspaces]
    rfl
  · let spaced : AuthParam := { param with
      beforeName := ⟨List.replicate n ' ' ++ param.beforeName.chars, fun c hc =>
        (List.mem_append.mp hc).elim (hspaces c) (param.beforeName.blank c)⟩ }
    have htext : List.replicate n ' ' ++ paramsText (param :: params) = paramsText (spaced :: params) := by
      cases params <;> simp [paramsText, AuthParam.text, spaced]
    have hfuel : (spaced :: params).length ≤ fuel := h
    rw [htext, challengeFields_paramsText hfuel]
    rfl

theorem BearerHeader.lookup (header : BearerHeader) (name : String) :
    (Table.ofList (header.params.map fun param => (param.key, param.value.denoted))).get? name =
      header.value name := by
  have hlookup : ∀ params : List AuthParam,
      (params.map fun param => (param.key, param.value.denoted)).lookup name =
        (params.find? fun param => param.key = name).map fun param => param.value.denoted := by
    intro params
    induction params with
    | nil => rfl
    | cons param params ih =>
      rw [List.map_cons, List.lookup_cons, ih, List.find?_cons]
      by_cases hkey : param.key = name
      · simp [hkey]
      · have hne : (name == param.key) = false := beq_eq_false_iff_ne.mpr (Ne.symm hkey)
        simp [hkey, hne]
  have hdistinct : ((header.params.map fun param => (param.key, param.value.denoted)).map Prod.fst).Nodup := by
    simpa [List.map_map, Function.comp_def] using header.distinct
  rw [Table.get?, Table.entries_ofList hdistinct, hlookup]
  rfl

theorem BearerHeader.toList_text (header : BearerHeader) :
    header.text.toList = "Bearer".toList ++ List.replicate header.spaces ' ' ++ paramsText header.params :=
  String.toList_ofList

/-- `bearerChallenge` returns the challenge its header denotes. -/
theorem bearerChallenge_denoted (header : BearerHeader) :
    bearerChallenge (some header.text) = header.denoted := by
  have htoList := header.toList_text
  rcases hspaces : header.spaces with _ | spaces
  · have hnil : header.params = [] := by
      by_contra hne
      have hparted := header.parted hne
      omega
    have htext : header.text = "Bearer" := by
      apply String.toList_inj.mp
      simp [htoList, hspaces, hnil, paramsText]
    have hdenoted : header.denoted = none := by
      simp [BearerHeader.denoted, BearerHeader.value, hnil]
    rw [htext, hdenoted]
    decide
  · have htext : header.text = "Bearer " ++ String.ofList (List.replicate spaces ' ' ++ paramsText header.params) := by
      apply String.toList_inj.mp
      simp [htoList, hspaces, List.replicate_succ]
    have hfuel : header.params.length ≤ (List.replicate spaces ' ' ++ paramsText header.params).length + 1 := by
      have hlength := length_paramsText header.params
      rw [List.length_append]
      omega
    rw [bearerChallenge, htext]
    simp only [Text.startsWith_append, Bool.not_true, Bool.false_eq_true, if_false, Text.after_append,
      String.toList_ofList, challengeFields_spaces spaces hfuel, header.lookup, BearerHeader.denoted]
    rcases hrealm : header.value "realm" with _ | realm
    · rfl
    · by_cases hempty : realm = ""
      · subst hempty
        rfl
      · simp [Option.filter, hempty]

end Akua
