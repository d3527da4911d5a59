import Akua.Lib.Toml

/-! How TOML is spelled: which texts the reader takes for a string, a key, a value, a statement. The
    quotes of a multi-line string are the delicate part, as its own may run into them. -/

namespace Toml

/-! ### How strings are spelled -/

section Spelling

variable {q : Char} {multi : Bool}

theorem closing_of_ne {c : Char} (h : c ≠ q) (rest : List Char) : closing q multi (c :: rest) = none := by
  have hrun : (c :: rest).takeWhile (· == q) = [] := by simp [h]
  simp [closing, hrun]

/-- Quotes up to a character that is none. -/
theorem takeWhile_quotes {rest : List Char} (h : rest.head? ≠ some q) (n : Nat) :
    (List.replicate n q ++ rest).takeWhile (· == q) = List.replicate n q := by
  rw [List.takeWhile_append_of_pos (by simp)]
  cases rest with
  | nil => simp
  | cons c rest =>
    have hc : c ≠ q := fun hc => h (by rw [hc]; rfl)
    simp [hc]

/-- A run of quotes ends a multi-line string when it has three of them or up to two more. -/
theorem closing_quotes {rest : List Char} (h : rest.head? ≠ some q) {n : Nat} (hn : n ≤ 2) :
    closing q true (List.replicate (n + 3) q ++ rest) = some (some (List.replicate n q, rest)) := by
  have hdrop : (List.replicate (n + 3) q ++ rest).drop (n + 3) = rest := by
    rw [List.drop_append_of_le_length (by simp), List.drop_of_length_le (by simp), List.nil_append]
  rw [closing, takeWhile_quotes h]
  simp only [List.length_replicate, if_true]
  rw [if_neg (by omega), if_pos (by omega), hdrop, Nat.add_sub_cancel]

/-- Fewer do not. -/
theorem closing_of_few {rest : List Char} (h : rest.head? ≠ some q) {n : Nat} (hn : n ≤ 2) :
    closing q true (List.replicate n q ++ rest) = none := by
  rw [closing, takeWhile_quotes h]
  simp only [List.length_replicate, if_true]
  rw [if_pos (by omega)]

/-- `text` spells `cs` between quotes `q`, with `k` quotes right before it: each character by a piece
    that reads as it and starts with no quote, or, in a multi-line string, by itself when it is a quote
    and at most the second of a run. -/
inductive Spelled (q : Char) (multi : Bool) : Nat → List Char → List Char → Prop where
  | nil (k : Nat) : Spelled q multi k [] []
  | quote {k : Nat} {cs text : List Char} (hmulti : multi = true) (hk : k < 2)
      (h : Spelled q multi (k + 1) cs text) : Spelled q multi k (q :: cs) (q :: text)
  | piece {k : Nat} {c d : Char} {rest cs text : List Char} (hd : d ≠ q)
      (hreads : ∀ after, body q multi .plain (d :: rest ++ after) = put c (body q multi .plain after))
      (h : Spelled q multi 0 cs text) : Spelled q multi k (c :: cs) (d :: rest ++ text)

theorem Spelled.mono {k k' : Nat} {cs text : List Char} (hk : k ≤ k') (h : Spelled q multi k' cs text) :
    Spelled q multi k cs text := by
  induction h generalizing k with
  | nil => exact .nil k
  | quote hmulti hk' _ ih => exact .quote hmulti (by omega) (ih (by omega))
  | piece hd hreads h _ => exact .piece hd hreads h

/-- A character that stands for itself. -/
theorem body_plain {c : Char} (hc : c ≠ q) (hescape : ¬ (c = '\\' ∧ q = '"'))
    (hcontrol : (isControl c && !(multi && c == '\n')) = false) (after : List Char) :
    body q multi .plain (c :: after) = put c (body q multi .plain after) := by
  rw [body, closing_of_ne hc]
  simp only [if_neg hescape, hcontrol, Bool.false_eq_true, if_false]

/-- A spelled string is read up to its closing quotes. -/
theorem body_single {k : Nat} {cs text : List Char} (h : Spelled q false k cs text) (rest : List Char) :
    body q false .plain (text ++ q :: rest) = some (cs, rest) := by
  induction h with
  | nil =>
    have hclosing : closing q false (q :: rest) = some (some ([], rest)) := by simp [closing]
    rw [List.nil_append, body, hclosing]
  | quote hmulti => cases hmulti
  | piece hd hreads _ ih => rw [List.append_assoc, hreads, ih]; rfl

/-- A quote that does not end the string stands for itself. -/
theorem body_quote (hq : q ≠ '\\') (hcontrol : isControl q = false) {after : List Char}
    (hclosing : closing q true (q :: after) = none) :
    body q true .plain (q :: after) = put q (body q true .plain after) := by
  rw [body, hclosing]
  simp [hq, hcontrol]

theorem body_closing {text : List Char} {ending : Option (List Char × List Char)} (hne : text ≠ [])
    (hclosing : closing q multi text = some ending) : body q multi .plain text = ending := by
  cases text with
  | nil => exact absurd rfl hne
  | cons c text => rw [body, hclosing]

theorem body_multi (hq : q ≠ '\\') (hcontrol : isControl q = false) {k : Nat} {cs text rest : List Char}
    (hrest : rest.head? ≠ some q) (h : Spelled q true k cs text) :
    body q true .plain (text ++ q :: q :: q :: rest) = some (cs, rest) := by
  induction h with
  | nil => exact body_closing (List.cons_ne_nil _ _) (closing_quotes hrest (Nat.zero_le 2))
  | quote _ hk h ih =>
    -- The quotes at the end of the text run into the closing ones: up to two before them are read as
    -- part of the string there, and elsewhere one or two are followed by a character that is none.
    cases h with
    | nil => exact body_closing (List.cons_ne_nil _ _) (closing_quotes (n := 1) hrest (by omega))
    | @piece _ c d tail cs text hd hreads h =>
      have hclosing : closing q true (q :: (d :: tail ++ text ++ q :: q :: q :: rest)) = none :=
        closing_of_few (n := 1) (by simpa using hd) (by omega)
      rw [List.cons_append, body_quote hq hcontrol hclosing, ih]
      rfl
    | @quote _ cs text _ hk' h =>
      cases h with
      | nil => exact body_closing (List.cons_ne_nil _ _) (closing_quotes (n := 2) hrest (Nat.le_refl 2))
      | quote _ hk'' => omega
      | @piece _ c d tail cs text hd hreads h =>
        have hclosing : closing q true (q :: q :: (d :: tail ++ text ++ q :: q :: q :: rest)) = none :=
          closing_of_few (n := 2) (by simpa using hd) (Nat.le_refl 2)
        rw [List.cons_append, List.cons_append, body_quote hq hcontrol hclosing]
        rw [List.cons_append] at ih
        rw [ih]
        rfl
  | piece hd hreads _ ih => rw [List.append_assoc, hreads, ih]; rfl

end Spelling

/-! ### How statements are spelled -/

/-- `text` reads as a key, whatever comes after it that no bare key could go on with. -/
def ReadsKey (text : List Char) (name : String) : Prop :=
  ∀ rest, (∀ c ∈ rest.head?, isBare c = false) → key (text ++ rest) = some (name, rest)

/-- `text` reads as a value at the end of its line. -/
def ReadsLiteral (text : List Char) (value : Literal) : Prop :=
  ∀ rest, literal (text ++ '\n' :: rest) = some (value, '\n' :: rest)

theorem takeWhile_all {p : Char → Bool} {name rest : List Char} (h : ∀ c ∈ name, p c = true)
    (hrest : ∀ c ∈ rest.head?, p c = false) :
    (name ++ rest).takeWhile p = name ∧ (name ++ rest).dropWhile p = rest := by
  rw [List.takeWhile_append_of_pos h, List.dropWhile_append_of_pos h]
  cases rest with
  | nil => simp
  | cons c rest => simp [hrest c rfl]

theorem readsKey_bare {name : String} (hne : name ≠ "") (h : ∀ c ∈ name.toList, isBare c = true) :
    ReadsKey name.toList name := by
  intro rest hrest
  obtain ⟨htake, hdrop⟩ := takeWhile_all h hrest
  obtain ⟨c, cs, hname⟩ : ∃ c cs, name.toList = c :: cs := by
    cases hlist : name.toList with
    | nil => exact absurd (String.toList_eq_nil_iff.mp hlist) hne
    | cons c cs => exact ⟨c, cs, rfl⟩
  have hc : isBare c = true := h c (by simp [hname])
  have hquotes : c ≠ '"' ∧ c ≠ '\'' := by
    constructor <;> rintro rfl <;> exact absurd hc (by decide)
  rw [key.eq_def]
  split
  · rename_i heq
    rw [hname, List.cons_append, List.cons.injEq] at heq
    exact absurd heq.1 hquotes.1
  · rename_i heq
    rw [hname, List.cons_append, List.cons.injEq] at heq
    exact absurd heq.1 hquotes.2
  · rw [htake, hdrop, if_neg (by simp [hname]), String.ofList_toList]

theorem head_notBare {c : Char} (h : isBare c = false) (rest : List Char) :
    ∀ d ∈ (c :: rest).head?, isBare d = false := by
  simp [h]

/-- A key starts with a quote or with a bare character. -/
theorem ReadsKey.head {text : List Char} {name : String} (h : ReadsKey text name) :
    ∃ c rest, text = c :: rest ∧ (c = '"' ∨ c = '\'' ∨ isBare c = true) := by
  have hkey := h [] (by simp)
  rw [List.append_nil] at hkey
  cases text with
  | nil => simp [key] at hkey
  | cons c rest =>
    refine ⟨c, rest, rfl, ?_⟩
    by_contra hc
    simp only [not_or, Bool.not_eq_true] at hc
    rw [key.eq_def] at hkey
    split at hkey
    · exact absurd (by simp_all) hc.1
    · exact absurd (by simp_all) hc.2.1
    · simp [hc.2.2] at hkey

theorem path_join {rest : List Char} : ∀ {keys : List (List Char × String)} {fuel : Nat}, keys ≠ [] →
    (∀ k ∈ keys, ReadsKey k.1 k.2) → keys.length ≤ fuel →
    path fuel (['.'].intercalate (keys.map Prod.fst) ++ ']' :: rest) = some (keys.map Prod.snd, ']' :: rest)
  | [], _, hne, _, _ => absurd rfl hne
  | [k], fuel + 1, _, h, _ => by
    have hkey := h k (by simp) (']' :: rest) (head_notBare (by decide) _)
    have hjoin : ['.'].intercalate ([k].map Prod.fst) = k.1 := by simp [List.intercalate]
    rw [hjoin, path, hkey]
    rfl
  | k :: k' :: keys, fuel + 1, _, h, hfuel => by
    have hjoin : ['.'].intercalate ((k :: k' :: keys).map Prod.fst) =
        k.1 ++ '.' :: ['.'].intercalate ((k' :: keys).map Prod.fst) := by
      simp [List.intercalate]
    have hkey := h k (by simp) ('.' :: (['.'].intercalate ((k' :: keys).map Prod.fst) ++ ']' :: rest))
      (head_notBare (by decide) _)
    have ih : path fuel (['.'].intercalate ((k' :: keys).map Prod.fst) ++ ']' :: rest) =
        some ((k' :: keys).map Prod.snd, ']' :: rest) :=
      path_join (by simp) (fun k hk => h k (List.mem_cons_of_mem _ hk)) (by simpa using hfuel)
    rw [hjoin, List.append_assoc, List.cons_append, path, hkey]
    simp only [ih]
    rfl

/-- `text` reads as the statements, before any rest that does. -/
def Reads (text : List Char) (list : List Statement) : Prop :=
  ∀ fuel, text.length ≤ fuel → statements fuel text = some list

def Lines (text : List Char) (list : List Statement) : Prop :=
  ∀ rest after, Reads rest after → Reads (text ++ rest) (list ++ after)

theorem reads_nil : Reads [] [] := fun fuel _ => by cases fuel <;> rfl

theorem Lines.nil : Lines [] [] := fun _ _ h => h

theorem Lines.append {text text' : List Char} {list list' : List Statement} (h : Lines text list)
    (h' : Lines text' list') : Lines (text ++ text') (list ++ list') := by
  intro rest after hrest
  rw [List.append_assoc, List.append_assoc]
  exact h _ _ (h' _ _ hrest)

theorem lines_of_statement {text : List Char} (first : Option Statement) (hne : text ≠ [])
    (h : ∀ rest, statement (text ++ rest) = some (first, rest)) : Lines text first.toList := by
  intro rest after hrest fuel hfuel
  obtain ⟨c, text, rfl⟩ := List.exists_cons_of_ne_nil hne
  cases fuel with
  | zero => simp at hfuel
  | succ fuel =>
    have hlength : rest.length ≤ fuel := by simp at hfuel; omega
    rw [List.cons_append, statements.eq_3 _ _ (by simp), ← List.cons_append, h]
    simp [hrest fuel hlength]

theorem lineEnd_newline (rest : List Char) : lineEnd ('\n' :: rest) = some rest := rfl

theorem lines_blank : Lines ['\n'] [] := lines_of_statement none (List.cons_ne_nil _ _) fun _ => rfl

theorem dropWhile_of_head {p : Char → Bool} {c : Char} (h : p c = false) (rest : List Char) :
    (c :: rest).dropWhile p = c :: rest := by simp [h]

theorem statement_line {c : Char} (hblank : isBlank c = false) (hbracket : c ≠ '[') (rest : List Char) :
    statement (c :: rest) = line (c :: rest) := by
  rw [statement, dropWhile_of_head hblank]
  split
  · simp_all
  · simp_all
  · rfl

theorem lines_comment {comment : List Char} (h : ∀ c ∈ comment, isControl c = false) :
    Lines ('#' :: comment ++ ['\n']) [] := by
  refine lines_of_statement none (List.cons_ne_nil _ _) fun rest => ?_
  have hhead : ∀ c ∈ ('\n' :: rest).head?, (fun c => !isControl c) c = false := by
    rintro c ⟨⟩
    rfl
  have hdrop : (comment ++ '\n' :: rest).dropWhile (fun c => !isControl c) = '\n' :: rest :=
    (takeWhile_all (fun c hc => by simp [h c hc]) hhead).2
  have hend : lineEnd ('#' :: (comment ++ '\n' :: rest)) = some rest := by
    rw [lineEnd, dropWhile_of_head (by decide)]
    simp only [hdrop, newline]
  have htext : '#' :: comment ++ ['\n'] ++ rest = '#' :: (comment ++ '\n' :: rest) := by simp
  rw [htext, statement_line (by decide) (by decide), line, hend]

/-! ### How values are spelled -/

theorem head_toDigits {n : Nat} (h : 0 < n) : ∃ c rest, Nat.toDigits 10 n = c :: rest ∧ c ≠ '0' := by
  induction n using Nat.strongRecOn with
  | ind n ih =>
    by_cases hlt : n < 10
    · refine ⟨n.digitChar, [], Nat.toDigits_of_lt_base hlt, ?_⟩
      have hdigits : ∀ d < 10, 0 < d → Nat.digitChar d ≠ '0' := by decide
      exact hdigits n hlt h
    · obtain ⟨c, rest, hhead, hc⟩ := ih (n / 10) (by omega) (by omega)
      rw [Nat.toDigits_of_base_le (by decide) (by omega), hhead]
      exact ⟨c, _, rfl, hc⟩

theorem natural_toDigits (n : Nat) {rest : List Char} (h : ∀ c ∈ rest.head?, c.isDigit = false) :
    natural (Nat.toDigits 10 n ++ rest) = some (n, rest) := by
  obtain ⟨htake, hdrop⟩ := takeWhile_all (p := Char.isDigit)
    (fun c (hc : c ∈ Nat.toDigits 10 n) => Nat.isDigit_of_mem_toDigits (by decide) (by decide) hc) h
  have hzero : ¬ (Nat.toDigits 10 n = [] ∨
      (Nat.toDigits 10 n).head? = some '0' ∧ 1 < (Nat.toDigits 10 n).length) := by
    rintro (hnil | ⟨hhead, hlength⟩)
    · exact Nat.toDigits_ne_nil hnil
    · rcases Nat.eq_zero_or_pos n with rfl | hpos
      · simp [Nat.toDigits_zero] at hlength
      · obtain ⟨c, tail, hdigits, hc⟩ := head_toDigits hpos
        rw [hdigits] at hhead
        exact hc (by simpa using hhead)
  simp only [natural, htake, hdrop, if_neg hzero, Nat.ofDigitChars_ten_toDigits]

theorem toString_int (n : Int) : (toString n).toList =
    if n < 0 then '-' :: Nat.toDigits 10 n.natAbs else Nat.toDigits 10 n.natAbs := by
  cases n with
  | ofNat n => simp [toString, Int.repr, Nat.toList_repr]
  | negSucc n => simp [toString, Int.repr, Nat.toList_repr, Int.negSucc_lt_zero]

/-- A number is read as it is printed. -/
theorem integer_toString (n : Int) {rest : List Char} (h : ∀ c ∈ rest.head?, c.isDigit = false) :
    integer ((toString n).toList ++ rest) = some (n, rest) := by
  rw [toString_int]
  split
  · rename_i hneg
    rw [List.cons_append, integer, natural_toDigits _ h]
    simp only [Option.map_some, Option.some.injEq, Prod.mk.injEq, and_true]
    omega
  · rename_i hpos
    have hminus : ∀ tail, Nat.toDigits 10 n.natAbs ++ rest = '-' :: tail → False := by
      intro tail heq
      cases hdigits : Nat.toDigits 10 n.natAbs with
      | nil => exact Nat.toDigits_ne_nil hdigits
      | cons c cs =>
        rw [hdigits, List.cons_append, List.cons.injEq] at heq
        have hc : c.isDigit = true :=
          Nat.isDigit_of_mem_toDigits (b := 10) (by decide) (by decide) (hdigits ▸ List.mem_cons_self)
        rw [heq.1] at hc
        exact absurd hc (by decide)
    rw [integer.eq_2 _ hminus, natural_toDigits _ h]
    simp only [Option.map_some, Option.some.injEq, Prod.mk.injEq, and_true]
    omega

/-- `text` reads as a string, before what is no quote. -/
def ReadsString (text : List Char) (value : String) : Prop :=
  ∀ rest, rest.head? ≠ some '"' → rest.head? ≠ some '\'' → string (text ++ rest) = some (value, rest)

/-- A string starts with a quote. -/
theorem quote_of_string {text rest : List Char} {value : String} (h : string text = some (value, rest)) :
    ∃ tail, text = '"' :: tail ∨ text = '\'' :: tail := by
  rw [string.eq_def] at h
  split at h
  · exact ⟨_, Or.inl rfl⟩
  · exact ⟨_, Or.inr rfl⟩
  · exact ⟨_, Or.inl rfl⟩
  · exact ⟨_, Or.inr rfl⟩
  · cases h

theorem scalar_of_string {text rest : List Char} {value : String} (h : string text = some (value, rest)) :
    scalar text = some (.string value, rest) := by
  obtain ⟨tail, rfl | rfl⟩ := quote_of_string h
  · rw [scalar.eq_3 _ (by simp) (by simp), h]
  · rw [scalar.eq_3 _ (by simp) (by simp), h]

theorem literal_of_string {text rest : List Char} {value : String} (h : string text = some (value, rest)) :
    literal text = some (.scalar (.string value), rest) := by
  have hscalar := scalar_of_string h
  obtain ⟨tail, rfl | rfl⟩ := quote_of_string h
  · rw [literal.eq_2 _ (by simp), hscalar]; rfl
  · rw [literal.eq_2 _ (by simp), hscalar]; rfl

theorem ReadsString.literal {text : List Char} {value : String} (h : ReadsString text value) :
    ReadsLiteral text (.scalar (.string value)) :=
  fun rest => literal_of_string (h ('\n' :: rest) (by simp) (by simp))

theorem readsLiteral_bool (b : Bool) :
    ReadsLiteral (if b then "true" else "false").toList (.scalar (.bool b)) := by
  intro rest
  cases b <;> rfl

theorem readsLiteral_integer (n : Int) : ReadsLiteral (toString n).toList (.scalar (.integer n)) := by
  intro rest
  have hnewline : ∀ c ∈ ('\n' :: rest).head?, c.isDigit = false := by
    rintro c ⟨⟩
    decide
  have hinteger := integer_toString n hnewline
  obtain ⟨c, tail, htext, hc⟩ : ∃ c tail, (toString n).toList = c :: tail ∧ (c = '-' ∨ c.isDigit = true) := by
    rw [toString_int]
    split
    · exact ⟨_, _, rfl, Or.inl rfl⟩
    · cases hdigits : Nat.toDigits 10 n.natAbs with
      | nil => exact absurd hdigits Nat.toDigits_ne_nil
      | cons c cs => exact ⟨c, cs, rfl, Or.inr (Nat.isDigit_of_mem_toDigits (b := 10) (by decide) (by decide)
          (hdigits ▸ List.mem_cons_self))⟩
  have hne : ∀ d, d.isDigit = false → d ≠ '-' → c ≠ d := by
    rintro d hd hminus rfl
    rcases hc with rfl | hc
    · exact hminus rfl
    · rw [hd] at hc
      cases hc
  have hstring : string (c :: (tail ++ '\n' :: rest)) = none := by
    cases hread : string (c :: (tail ++ '\n' :: rest)) with
    | none => rfl
    | some q =>
      obtain ⟨_, heq | heq⟩ := quote_of_string hread
      · exact absurd (List.cons.inj heq).1 (hne '"' (by decide) (by decide))
      · exact absurd (List.cons.inj heq).1 (hne '\'' (by decide) (by decide))
  rw [htext, List.cons_append] at hinteger ⊢
  rw [Toml.literal.eq_2 _ (fun _ heq => hne '[' (by decide) (by decide) (List.cons.inj heq).1),
    scalar.eq_3 _ (fun _ heq => hne 't' (by decide) (by decide) (List.cons.inj heq).1)
      (fun _ heq => hne 'f' (by decide) (by decide) (List.cons.inj heq).1), hstring]
  simp only [hinteger, Option.map_some]

/-- An array with one string a line. -/
def stacked (items : List (List Char × String)) : List Char :=
  items.flatMap fun item => "    ".toList ++ item.1 ++ [',', '\n']

theorem elements_stacked {rest : List Char} : ∀ {items : List (List Char × String)} {fuel : Nat},
    (∀ item ∈ items, ReadsString item.1 item.2) → items.length < fuel →
    elements fuel ('\n' :: (stacked items ++ ']' :: rest)) = some (items.map fun item => .string item.2, rest)
  | [], fuel + 1, _, _ => rfl
  | (text, value) :: items, fuel + 1, h, hfuel => by
    have ih : elements fuel ('\n' :: (stacked items ++ ']' :: rest)) =
        some (items.map fun item => .string item.2, rest) :=
      elements_stacked (fun item hitem => h item (List.mem_cons_of_mem _ hitem)) (by simpa using hfuel)
    have hread := h (text, value) (by simp) (',' :: '\n' :: (stacked items ++ ']' :: rest)) (by simp) (by simp)
    have hline : stacked ((text, value) :: items) ++ ']' :: rest =
        "    ".toList ++ (text ++ ',' :: '\n' :: (stacked items ++ ']' :: rest)) := by simp [stacked]
    have hspaces : ∀ tail, ('\n' :: ("    ".toList ++ tail)).dropWhile isSpace = tail.dropWhile isSpace :=
      fun _ => rfl
    obtain ⟨c, tail, htext, hspace, hbracket⟩ : ∃ c tail,
        text ++ ',' :: '\n' :: (stacked items ++ ']' :: rest) = c :: tail ∧ isSpace c = false ∧ c ≠ ']' := by
      obtain ⟨tail, htail | htail⟩ := quote_of_string hread
      · exact ⟨_, _, htail, by decide, by decide⟩
      · exact ⟨_, _, htail, by decide, by decide⟩
    have hscalar := scalar_of_string hread
    rw [hline, elements, hspaces, htext, dropWhile_of_head hspace]
    rw [htext] at hscalar
    split
    · simp_all
    · rw [hscalar]
      simp only [dropWhile_of_head (show isSpace ',' = false by decide), ih]
      rfl

theorem length_le_stacked (items : List (List Char × String)) : items.length ≤ (stacked items).length := by
  induction items with
  | nil => simp
  | cons item items ih =>
    have hline : stacked (item :: items) = "    ".toList ++ item.1 ++ [',', '\n'] ++ stacked items := by
      simp [stacked]
    rw [hline]
    simp only [List.length_cons, List.length_append, List.length_nil]
    omega

theorem readsLiteral_stacked {items : List (List Char × String)} (h : ∀ item ∈ items, ReadsString item.1 item.2) :
    ReadsLiteral ('[' :: '\n' :: stacked items ++ [']']) (.array (items.map fun item => .string item.2)) := by
  intro rest
  have htext : '[' :: '\n' :: stacked items ++ [']'] ++ '\n' :: rest =
      '[' :: '\n' :: (stacked items ++ ']' :: '\n' :: rest) := by simp
  have hlength := length_le_stacked items
  rw [htext, Toml.literal, elements_stacked h (by simp only [List.length_cons, List.length_append]; omega)]
  rfl

theorem readsLiteral_single {text : List Char} {value : String} (h : ReadsString text value) :
    ReadsLiteral ('[' :: text ++ [']']) (.array [.string value]) := by
  intro rest
  have hread := h (']' :: '\n' :: rest) (by simp) (by simp)
  have hscalar := scalar_of_string hread
  obtain ⟨c, tail, htext, hspace, hbracket⟩ : ∃ c tail,
      text ++ ']' :: '\n' :: rest = c :: tail ∧ isSpace c = false ∧ c ≠ ']' := by
    obtain ⟨tail, htail | htail⟩ := quote_of_string hread
    · exact ⟨_, _, htail, by decide, by decide⟩
    · exact ⟨_, _, htail, by decide, by decide⟩
  have hline : '[' :: text ++ [']'] ++ '\n' :: rest = '[' :: (c :: tail) := by simp [← htext]
  rw [htext] at hscalar
  rw [hline, Toml.literal, elements, dropWhile_of_head hspace]
  split
  · simp_all
  · rw [hscalar]
    simp only [dropWhile_of_head (show isSpace ']' = false by decide)]
    rfl

theorem readsLiteral_empty : ReadsLiteral ['[', ']'] (.array []) := fun _ => rfl

/-! ### The quoting styles -/

section Quotes

variable {q : Char} {cs text : List Char}

/-- What stands between single quotes does not start with one. -/
theorem Spelled.head {k : Nat} (h : Spelled q false k cs text) : text.head? ≠ some q := by
  cases h with
  | nil => simp
  | quote hmulti => cases hmulti
  | piece hd => simpa using hd

theorem readsKey_basic {k : Nat} (h : Spelled '"' false k cs text) :
    ReadsKey ('"' :: text ++ ['"']) (String.ofList cs) := by
  intro rest _
  have htext : '"' :: text ++ ['"'] ++ rest = '"' :: (text ++ '"' :: rest) := by simp
  rw [htext, key, body_single h]
  rfl

theorem readsKey_literal {k : Nat} (h : Spelled '\'' false k cs text) :
    ReadsKey ('\'' :: text ++ ['\'']) (String.ofList cs) := by
  intro rest _
  have htext : '\'' :: text ++ ['\''] ++ rest = '\'' :: (text ++ '\'' :: rest) := by simp
  rw [htext, key, body_single h]
  rfl

theorem readsString_basic {k : Nat} (h : Spelled '"' false k cs text) :
    ReadsString ('"' :: text ++ ['"']) (String.ofList cs) := by
  intro rest hrest _
  have hhead := h.head
  have htext : '"' :: text ++ ['"'] ++ rest = '"' :: (text ++ '"' :: rest) := by simp
  have hthree : ∀ tail, text ++ '"' :: rest = '"' :: '"' :: tail → False := by
    intro tail heq
    cases text with
    | nil => exact hrest (by rw [(List.cons.inj heq).2]; rfl)
    | cons c text => exact hhead (by rw [(List.cons.inj heq).1]; rfl)
  rw [htext, string.eq_3 _ hthree, body_single h]
  rfl

theorem readsString_literal {k : Nat} (h : Spelled '\'' false k cs text) :
    ReadsString ('\'' :: text ++ ['\'']) (String.ofList cs) := by
  intro rest _ hrest
  have hhead := h.head
  have htext : '\'' :: text ++ ['\''] ++ rest = '\'' :: (text ++ '\'' :: rest) := by simp
  have hthree : ∀ tail, text ++ '\'' :: rest = '\'' :: '\'' :: tail → False := by
    intro tail heq
    cases text with
    | nil => exact hrest (by rw [(List.cons.inj heq).2]; rfl)
    | cons c text => exact hhead (by rw [(List.cons.inj heq).1]; rfl)
  rw [htext, string.eq_4 _ hthree, body_single h]
  rfl

/-- The newline that a multi-line string starts with when it has any. -/
def opening (newline : Bool) : List Char := if newline then ['\n'] else []

theorem afterNewline_opening {newline : Bool} (hq : q ≠ '\n' ∧ q ≠ '\r') (h : newline = false → '\n' ∉ text)
    (rest : List Char) :
    afterNewline (opening newline ++ text ++ q :: rest) = text ++ q :: rest := by
  cases newline with
  | true => rfl
  | false =>
    have hnone := h rfl
    rw [opening, if_neg (by decide), List.nil_append, afterNewline.eq_def]
    split
    · rename_i heq
      cases text with
      | nil => exact absurd (List.cons.inj heq).1 hq.1
      | cons c text => exact absurd (by rw [(List.cons.inj heq).1]; simp) hnone
    · rename_i heq
      cases text with
      | nil => exact absurd (List.cons.inj heq).1 hq.2
      | cons c text =>
        cases text with
        | nil => exact absurd (List.cons.inj (List.cons.inj heq).2).1 hq.1
        | cons d text => exact absurd (by rw [(List.cons.inj (List.cons.inj heq).2).1]; simp) hnone
    · rfl

theorem readsString_multi {newline : Bool} (hq : q = '"' ∨ q = '\'') (h : Spelled q true 0 cs text)
    (hnewline : newline = false → '\n' ∉ text) :
    ReadsString (q :: q :: q :: (opening newline ++ text) ++ [q, q, q]) (String.ofList cs) := by
  intro rest hdouble hsingle
  have htext : q :: q :: q :: (opening newline ++ text) ++ [q, q, q] ++ rest =
      q :: q :: q :: (opening newline ++ text ++ q :: q :: q :: rest) := by simp
  obtain rfl | rfl := hq
  · rw [htext, string, afterNewline_opening (by decide) hnewline, body_multi (by decide) (by decide) hdouble h]
    rfl
  · rw [htext, string, afterNewline_opening (by decide) hnewline, body_multi (by decide) (by decide) hsingle h]
    rfl

end Quotes

/-- A value starts with no blank. -/
theorem ReadsLiteral.head {text : List Char} {value : Literal} (h : ReadsLiteral text value) :
    ∃ c rest, text = c :: rest ∧ isBlank c = false := by
  have hread := h []
  cases text with
  | nil => cases hread
  | cons c rest =>
    refine ⟨c, rest, rfl, ?_⟩
    by_contra hc
    obtain rfl | rfl : c = ' ' ∨ c = '\t' := by simpa [isBlank, or_iff_not_imp_left] using hc
    · cases hread
    · cases hread

theorem notBlank_of_key {c : Char} (h : c = '"' ∨ c = '\'' ∨ isBare c = true) :
    isBlank c = false ∧ c ≠ '[' ∧ c ≠ '#' ∧ c ≠ '\n' ∧ c ≠ '\r' := by
  obtain rfl | rfl | h := h
  · decide
  · decide
  · refine ⟨?_, ?_, ?_, ?_, ?_⟩
    · by_contra hc
      obtain rfl | rfl : c = ' ' ∨ c = '\t' := by simpa [isBlank, or_iff_not_imp_left] using hc
      · exact absurd h (by decide)
      · exact absurd h (by decide)
    all_goals rintro rfl; exact absurd h (by decide)

theorem lines_pair {text value : List Char} {name : String} {held : Literal} (hkey : ReadsKey text name)
    (hvalue : ReadsLiteral value held) :
    Lines (text ++ " = ".toList ++ value ++ ['\n']) [.pair name held] := by
  obtain ⟨c, tail, rfl, hc⟩ := hkey.head
  obtain ⟨d, dtail, rfl, hd⟩ := hvalue.head
  obtain ⟨hblank, hbracket, hhash, hnewline, hreturn⟩ := notBlank_of_key hc
  refine lines_of_statement (some (.pair name held)) (by simp) fun rest => ?_
  have htext : c :: tail ++ " = ".toList ++ (d :: dtail) ++ ['\n'] ++ rest =
      c :: (tail ++ ' ' :: '=' :: ' ' :: (d :: dtail ++ '\n' :: rest)) := by simp
  have hend : lineEnd (c :: (tail ++ ' ' :: '=' :: ' ' :: (d :: dtail ++ '\n' :: rest))) = none := by
    rw [lineEnd, dropWhile_of_head hblank]
    split
    · simp_all
    · rw [newline.eq_def]
      split <;> simp_all
  have hread : key (c :: (tail ++ ' ' :: '=' :: ' ' :: (d :: dtail ++ '\n' :: rest))) =
      some (name, ' ' :: '=' :: ' ' :: (d :: dtail ++ '\n' :: rest)) :=
    hkey _ (head_notBare (by decide) _)
  have hliteral := hvalue rest
  have hequals : (' ' :: '=' :: ' ' :: (d :: dtail ++ '\n' :: rest)).dropWhile isBlank =
      '=' :: ' ' :: (d :: dtail ++ '\n' :: rest) := rfl
  have hafter : (' ' :: (d :: dtail ++ '\n' :: rest)).dropWhile isBlank = d :: dtail ++ '\n' :: rest := by
    rw [List.dropWhile_cons_of_pos (by decide), List.cons_append, dropWhile_of_head hd]
  rw [htext, statement_line hblank hbracket, line, hend, hread]
  simp only [hequals, hafter, hliteral, lineEnd_newline, Option.map_some]

/-- The key of a header, written with dots. -/
def dotted (keys : List (List Char × String)) : List Char := ['.'].intercalate (keys.map Prod.fst)

theorem dotted_head {keys : List (List Char × String)} (hne : keys ≠ []) (h : ∀ k ∈ keys, ReadsKey k.1 k.2) :
    ∃ c rest, dotted keys = c :: rest ∧ c ≠ '[' := by
  obtain ⟨k, keys, rfl⟩ := List.exists_cons_of_ne_nil hne
  obtain ⟨c, rest, hk, hc⟩ := (h k (by simp)).head
  cases keys with
  | nil => exact ⟨c, rest, by simp [dotted, List.intercalate, hk], (notBlank_of_key hc).2.1⟩
  | cons k' keys =>
    exact ⟨c, rest ++ '.' :: dotted (k' :: keys), by simp [dotted, List.intercalate, hk], (notBlank_of_key hc).2.1⟩

theorem length_le_dotted : ∀ {keys : List (List Char × String)}, (∀ k ∈ keys, ReadsKey k.1 k.2) →
    keys.length ≤ (dotted keys).length + 1
  | [], _ => by simp
  | [k], _ => by simp
  | k :: k' :: keys, h => by
    have ih : (k' :: keys).length ≤ (dotted (k' :: keys)).length + 1 :=
      length_le_dotted fun k hk => h k (List.mem_cons_of_mem _ hk)
    have hjoin : dotted (k :: k' :: keys) = k.1 ++ '.' :: dotted (k' :: keys) := by
      simp [dotted, List.intercalate]
    rw [hjoin]
    simp only [List.length_cons, List.length_append] at ih ⊢
    omega

theorem lines_table {keys : List (List Char × String)} (hne : keys ≠ []) (h : ∀ k ∈ keys, ReadsKey k.1 k.2) :
    Lines ('[' :: dotted keys ++ [']', '\n']) [.table (keys.map Prod.snd)] := by
  refine lines_of_statement (some (.table (keys.map Prod.snd))) (List.cons_ne_nil _ _) fun rest => ?_
  obtain ⟨c, tail, hdotted, hc⟩ := dotted_head hne h
  have htext : '[' :: dotted keys ++ [']', '\n'] ++ rest = '[' :: (dotted keys ++ ']' :: '\n' :: rest) := by simp
  have hpath : path ((dotted keys ++ ']' :: '\n' :: rest).length + 1) (dotted keys ++ ']' :: '\n' :: rest) =
      some (keys.map Prod.snd, ']' :: '\n' :: rest) :=
    path_join hne h (by have := length_le_dotted h; simp only [List.length_append]; omega)
  rw [htext, statement, dropWhile_of_head (by decide)]
  split
  · rename_i heq
    rw [hdotted] at heq
    simp_all
  · rename_i heq
    obtain rfl := (List.cons.inj heq).2
    simp only [hpath, lineEnd_newline, Option.map_some]
  · simp_all

theorem lines_element {keys : List (List Char × String)} (hne : keys ≠ []) (h : ∀ k ∈ keys, ReadsKey k.1 k.2) :
    Lines ('[' :: '[' :: dotted keys ++ [']', ']', '\n']) [.element (keys.map Prod.snd)] := by
  refine lines_of_statement (some (.element (keys.map Prod.snd))) (List.cons_ne_nil _ _) fun rest => ?_
  have htext : '[' :: '[' :: dotted keys ++ [']', ']', '\n'] ++ rest =
      '[' :: '[' :: (dotted keys ++ ']' :: ']' :: '\n' :: rest) := by simp
  have hpath : path ((dotted keys ++ ']' :: ']' :: '\n' :: rest).length + 1)
      (dotted keys ++ ']' :: ']' :: '\n' :: rest) = some (keys.map Prod.snd, ']' :: ']' :: '\n' :: rest) :=
    path_join hne h (by have := length_le_dotted h; simp only [List.length_append]; omega)
  rw [htext, statement, dropWhile_of_head (by decide)]
  simp only [hpath, lineEnd_newline, Option.map_some]

/-- A text whose lines read as statements holds the document that they build. -/
theorem parse_of_lines {text : String} {list : List Statement} {final : State} (h : Lines text.toList list)
    (hfinal : list.foldlM step {} = some final) : parse text = some final.root := by
  have hreads := h [] [] reads_nil text.toList.length (by simp)
  rw [List.append_nil, List.append_nil] at hreads
  simp only [parse, hreads, hfinal, Option.bind_eq_bind, Option.bind_some]

/-- Texts with blank lines between them. -/
theorem lines_join {texts : List (List Char)} {lists : List (List Statement)}
    (h : List.Forall₂ Lines texts lists) : Lines (['\n'].intercalate texts) lists.flatten := by
  induction h with
  | nil => exact Lines.nil
  | @cons text list texts lists hfirst hrest ih =>
    cases hrest with
    | nil => simpa [List.intercalate] using hfirst
    | @cons text' list' texts lists hnext hrest =>
      have hjoin : ['\n'].intercalate (text :: text' :: texts) =
          text ++ (['\n'] ++ ['\n'].intercalate (text' :: texts)) := by simp [List.intercalate]
      rw [hjoin, List.flatten_cons]
      exact hfirst.append (lines_blank.append ih)

end Toml
