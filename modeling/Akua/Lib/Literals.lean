import Akua.Lib.Cutting

/-! String literals of a scripting language: one or three double quotes delimit a literal, a
    backslash takes the next character with it, its escapes denote other text, and `$` and a brace
    start an expression in the text. What an escape denotes beyond the usual ones, and what an
    expression without its closing brace means, is left to the dialect. -/

namespace Literal

/-- How a kind of literal is delimited. -/
structure Quoting where
  /-- How many quotes open and close it. -/
  quotes : Nat
  /-- A backslash takes the next character with it. -/
  escapes : Bool
  /-- The literal may run over several lines. -/
  multiline : Bool
  pos : 0 < quotes

def short : Quoting := ⟨1, true, false, Nat.one_pos⟩

def long : Quoting := ⟨3, true, true, by decide⟩

namespace Quoting

def closer (q : Quoting) : List Char := List.replicate q.quotes '"'

/-- The text of a literal from behind its opening quotes up to the first closing ones, and the text
    behind these; none when it does not close. `escaped` says that a backslash took the next
    character. -/
def scan (q : Quoting) : Bool → List Char → Option (List Char × List Char)
  | _, [] => none
  | true, c :: cs => (q.scan false cs).map fun p => (c :: p.1, p.2)
  | false, c :: cs =>
    if q.closer.isPrefixOf (c :: cs) then some ([], (c :: cs).drop q.quotes)
    else if c = '\n' ∧ q.multiline = false then none
    else (q.scan (decide (c = '\\') && q.escapes) cs).map fun p => (c :: p.1, p.2)

variable {q : Quoting}

theorem closer_cons (q : Quoting) : q.closer = '"' :: List.replicate (q.quotes - 1) '"' := by
  have h := q.pos
  rw [closer, ← List.replicate_succ, Nat.sub_add_cancel h]

theorem not_closer {c : Char} (h : c ≠ '"') (cs : List Char) : q.closer.isPrefixOf (c :: cs) = false := by
  rw [closer_cons, List.isPrefixOf_cons_cons, Bool.and_eq_false_iff]
  exact Or.inl (beq_false_of_ne h.symm)

theorem scan_closer (rest : List Char) : q.scan false (q.closer ++ rest) = some ([], rest) := by
  obtain ⟨cs, hcs⟩ : ∃ cs, q.closer ++ rest = '"' :: cs := ⟨_, by rw [closer_cons, List.cons_append]⟩
  have hpre : q.closer.isPrefixOf ('"' :: cs) = true :=
    List.isPrefixOf_iff_prefix.mpr ⟨rest, hcs⟩
  rw [hcs, scan, if_pos hpre, ← hcs]
  simp [closer]

/-- A character that neither quotes, escapes nor breaks the line belongs to the literal. -/
theorem scan_char {c : Char} (hq : c ≠ '"') (he : c ≠ '\\') (hn : c ≠ '\n' ∨ q.multiline = true)
    (rest : List Char) :
    q.scan false (c :: rest) = (q.scan false rest).map fun p => (c :: p.1, p.2) := by
  rw [scan, not_closer hq, if_neg Bool.false_ne_true, if_neg]
  · simp [he]
  · rintro ⟨hc, hm⟩
    rcases hn with hn | hn
    · exact hn hc
    · rw [hn] at hm
      cases hm

theorem scan_backslash (h : q.escapes = true) (c : Char) (rest : List Char) :
    q.scan false ('\\' :: c :: rest) = (q.scan false rest).map fun p => ('\\' :: c :: p.1, p.2) := by
  rw [scan, not_closer (by decide), if_neg Bool.false_ne_true, if_neg (by simp), h]
  simp only [decide_true, Bool.and_true, scan, Option.map_map]
  rfl

/-- A quote that does not begin the closing quotes belongs to the literal. -/
theorem scan_quote {rest : List Char} (h : ¬ q.closer <+: '"' :: rest) :
    q.scan false ('"' :: rest) = (q.scan false rest).map fun p => ('"' :: p.1, p.2) := by
  rw [scan, if_neg (fun hp => h (List.isPrefixOf_iff_prefix.mp hp)), if_neg (by simp)]
  simp

/-- What is read is the text, the closing quotes and the rest. -/
theorem eq_of_scan {e : Bool} {l b r : List Char} (h : q.scan e l = some (b, r)) : l = b ++ q.closer ++ r := by
  induction l generalizing e b with
  | nil => cases e <;> cases h
  | cons c cs ih =>
    have hcons : ∀ e', (q.scan e' cs).map (fun p => (c :: p.1, p.2)) = some (b, r) →
        c :: cs = b ++ q.closer ++ r := by
      intro e' h
      obtain ⟨⟨b', r'⟩, hscan, hpair⟩ := Option.map_eq_some_iff.mp h
      obtain ⟨rfl, rfl⟩ := Prod.mk.inj hpair
      rw [ih hscan]
      rfl
    cases e with
    | true => exact hcons false h
    | false =>
      rw [scan] at h
      split at h
      · rename_i hpre
        obtain ⟨t, ht⟩ := List.isPrefixOf_iff_prefix.mp hpre
        obtain ⟨rfl, rfl⟩ := Prod.mk.inj (Option.some.inj h)
        rw [← ht]
        simp [closer]
      · split at h
        · cases h
        · exact hcons _ h

/-- A text without the closing quotes in it, whose last character neither quotes nor escapes, is all of
    the literal. -/
theorem scan_of_no_closer (hm : q.multiline = true) {b : List Char} (hq : ¬ q.closer <:+: b)
    (hlast : ∀ c ∈ b.getLast?, c ≠ '"' ∧ c ≠ '\\') {e : Bool} (he : e = true → b ≠ []) (rest : List Char) :
    q.scan e (b ++ q.closer ++ rest) = some (b, rest) := by
  induction b generalizing e with
  | nil =>
    cases e with
    | true => exact absurd rfl (he rfl)
    | false => rw [List.nil_append, scan_closer]
  | cons c cs ih =>
    have hq' : ¬ q.closer <:+: cs := fun h => hq (h.trans (List.suffix_cons c cs).isInfix)
    have hlast' : ∀ x ∈ cs.getLast?, x ≠ '"' ∧ x ≠ '\\' := by
      intro x hx
      cases cs with
      | nil => cases hx
      | cons d ds => exact hlast x (by rwa [List.getLast?_cons_cons])
    rw [List.cons_append, List.cons_append]
    cases e with
    | true => rw [scan, ih hq' hlast' (by simp)]; rfl
    | false =>
      have hpre : ¬ q.closer.isPrefixOf (c :: (cs ++ q.closer ++ rest)) = true := by
        intro h
        have h := List.isPrefixOf_iff_prefix.mp h
        rcases Nat.lt_or_ge (c :: cs).length q.closer.length with hlt | hge
        · -- a shorter text would be quotes to its end
          have hsub : c :: cs <+: q.closer := List.prefix_of_prefix_length_le
            ⟨q.closer ++ rest, by simp⟩ h (Nat.le_of_lt hlt)
          have hmem : (c :: cs).getLast (by simp) ∈ q.closer := hsub.subset (List.getLast_mem _)
          exact (hlast _ (List.getLast?_eq_some_getLast (by simp))).1 (List.eq_of_mem_replicate hmem)
        · exact hq (List.prefix_of_prefix_length_le h ⟨q.closer ++ rest, by simp⟩ hge).isInfix
      rw [scan, if_neg hpre, if_neg (by simp [hm]), ih hq' hlast']
      · rfl
      · intro h hnil
        have hc : c = '\\' := by
          rw [Bool.and_eq_true, decide_eq_true_eq] at h
          exact h.1
        exact (hlast c (by rw [hnil]; rfl)).2 hc

end Quoting

/-! ### What a literal denotes -/

/-- What the text behind a backslash makes of it. -/
inductive Escape where
  /-- Nothing that is known: the backslash stays. -/
  | stays
  /-- The text that the escape of so many characters denotes. -/
  | denotes (text : List Char) (used : Nat)
  | refused

/-- The escapes of a language, and what an expression without its closing brace means. -/
structure Dialect where
  escape : List Char → Escape
  /-- An expression that is not closed is text; otherwise the literal is refused. -/
  openIsText : Bool
  backslash : ∀ l, escape ('\\' :: l) = .denotes ['\\'] 1
  quote : ∀ l, escape ('"' :: l) = .denotes ['"'] 1
  newline : ∀ l, escape ('n' :: l) = .denotes ['\n'] 1
  carriageReturn : ∀ l, escape ('r' :: l) = .denotes ['\r'] 1
  tab : ∀ l, escape ('t' :: l) = .denotes ['\t'] 1
  lineBreak : ∀ l, escape ('\n' :: l) = .denotes [] 1
  /-- An escape is written with more characters than it denotes. -/
  shorter : ∀ l text used, escape l = .denotes text used → text.length ≤ used ∧ used ≤ l.length
  /-- The white space within a line. -/
  blank : Char → Bool
  visible : ∀ c, 0x20 < c.toNat → c.toNat < 0x7f → blank c = false

inductive Value where
  | plain (text : List Char)
  /-- A text with expressions in it, which are evaluated. -/
  | joined (text : List Char)
deriving DecidableEq

namespace Dialect

variable (D : Dialect)

/-- The text that a literal's text denotes; `skip` characters belong to the last escape. -/
def unescape : Nat → List Char → Option (List Char)
  | _, [] => some []
  | skip + 1, _ :: cs => unescape skip cs
  | 0, c :: cs =>
    if c = '\\' then
      match D.escape cs with
      | .stays => (unescape 0 cs).map (c :: ·)
      | .denotes text used => (unescape used cs).map (text ++ ·)
      | .refused => none
    else (unescape 0 cs).map (c :: ·)

/-- A text with its expressions: with `${` and a `}` behind it, an expression is in it. -/
def join (text : List Char) : Option Value :=
  match Text.cutList ['$', '\x7b'] text with
  | none => some (.plain text)
  | some (_, rest) =>
    if '\x7d' ∈ rest then some (.joined text) else if D.openIsText then some (.plain text) else none

/-- The value of a literal's text. -/
def value (body : List Char) : Option Value := (D.unescape 0 body).bind D.join

/-- The literal at the start of a text, and the text behind it. -/
def read (l : List Char) : Option (Value × List Char) :=
  if long.closer.isPrefixOf l then (long.scan false (l.drop 3)).bind fun p => (D.value p.1).map (·, p.2)
  else if short.closer.isPrefixOf l then
    (short.scan false (l.drop 1)).bind fun p => (D.value p.1).map (·, p.2)
  else none

/-- A line that says nothing: blank, or a comment. -/
def InertLine (line : List Char) : Prop :=
  line.dropWhile D.blank = [] ∨ (line.dropWhile D.blank).head? = some '#'

/-- A text of whole lines that say nothing. -/
def Inert (text : List Char) : Prop := ∀ line ∈ text.splitOn '\n', D.InertLine line

/-- The text has no expression: no `${`, or only such as the dialect takes for text. -/
def NoExpression (text : List Char) : Prop :=
  ∀ a rest, text = a ++ ['$', '\x7b'] ++ rest → D.openIsText = true ∧ '\x7d' ∉ rest

variable {D}

/-- A text is plain when nothing in it is an expression. -/
theorem join_eq_plain_iff {text text' : List Char} :
    D.join text = some (.plain text') ↔ text = text' ∧ D.NoExpression text := by
  rw [join]
  rcases hcut : Text.cutList ['$', '\x7b'] text with _ | ⟨a, rest⟩
  · have hno : D.NoExpression text := by
      rintro b rest rfl
      obtain ⟨_, _, h, -⟩ := Text.cutList_of_append ['$', '\x7b'] b rest
      rw [hcut] at h
      cases h
    simp [hno]
  · have htext := Text.cutList_eq_some hcut
    have hiff : D.NoExpression text ↔ D.openIsText = true ∧ '\x7d' ∉ rest := by
      constructor
      · intro h
        exact h a rest htext
      · rintro ⟨hopen, hrest⟩ b rest' hb
        obtain ⟨_, rest'', h, hsuffix⟩ := Text.cutList_of_append ['$', '\x7b'] b rest'
        rw [← hb, hcut] at h
        obtain ⟨-, rfl⟩ := Prod.mk.inj (Option.some.inj h)
        exact ⟨hopen, fun hmem => hrest (hsuffix.subset hmem)⟩
    rw [hiff]
    by_cases hclose : '\x7d' ∈ rest
    · simp [hclose]
    · cases hopen : D.openIsText <;> simp [hclose]

/-- A value is plain when its text is, behind its escapes. -/
theorem value_eq_plain_iff {body text : List Char} :
    D.value body = some (.plain text) ↔ D.unescape 0 body = some text ∧ D.NoExpression text := by
  rw [value, Option.bind_eq_some_iff]
  constructor
  · rintro ⟨text', h, hjoin⟩
    obtain ⟨rfl, hno⟩ := join_eq_plain_iff.mp hjoin
    exact ⟨h, hno⟩
  · rintro ⟨h, hno⟩
    exact ⟨text, h, join_eq_plain_iff.mpr ⟨rfl, hno⟩⟩

/-! ### Escapes -/

theorem unescape_char {c : Char} (h : c ≠ '\\') (cs : List Char) :
    D.unescape 0 (c :: cs) = (D.unescape 0 cs).map (c :: ·) := by
  rw [unescape, if_neg h]

/-- An escape of one character. -/
theorem unescape_one {c d : Char} {cs : List Char} (h : D.escape (c :: cs) = .denotes [d] 1) :
    D.unescape 0 ('\\' :: c :: cs) = (D.unescape 0 cs).map (d :: ·) := by
  rw [unescape, if_pos rfl, h]
  rfl

/-- No escape: every backslash stays as it is. -/
def NoEscape (D : Dialect) (text : List Char) : Prop :=
  ∀ a cs, text = a ++ '\\' :: cs → D.escape cs = .stays

/-- Escapes make a text shorter. -/
theorem length_unescape_le {skip : Nat} {l text : List Char} (h : D.unescape skip l = some text)
    (hskip : skip ≤ l.length) : text.length + skip ≤ l.length := by
  induction l generalizing skip text with
  | nil =>
    cases skip with
    | zero =>
      obtain rfl : [] = text := Option.some.inj h
      exact Nat.le_refl _
    | succ skip => exact absurd hskip (by simp)
  | cons c cs ih =>
    cases skip with
    | succ skip =>
      have := ih h (Nat.le_of_succ_le_succ hskip)
      rw [List.length_cons]
      omega
    | zero =>
      rw [unescape] at h
      split at h
      · rcases hescape : D.escape cs with _ | ⟨t, used⟩ | _
        · rw [hescape] at h
          obtain ⟨t, ht, rfl⟩ := Option.map_eq_some_iff.mp h
          have := ih ht (Nat.zero_le _)
          simp only [List.length_cons]
          omega
        · rw [hescape] at h
          obtain ⟨t', ht, rfl⟩ := Option.map_eq_some_iff.mp h
          obtain ⟨hshort, hused⟩ := D.shorter _ _ _ hescape
          have := ih ht hused
          simp only [List.length_cons, List.length_append]
          omega
        · rw [hescape] at h
          cases h
      · obtain ⟨t, ht, rfl⟩ := Option.map_eq_some_iff.mp h
        have := ih ht (Nat.zero_le _)
        simp only [List.length_cons]
        omega

/-- A text denotes itself when there is no escape in it. -/
theorem unescape_eq_self_iff {l : List Char} : D.unescape 0 l = some l ↔ D.NoEscape l := by
  induction l with
  | nil => exact iff_of_true rfl fun a cs h => by simp at h
  | cons c cs ih =>
    have hsplit : D.NoEscape (c :: cs) ↔ (c = '\\' → D.escape cs = .stays) ∧ D.NoEscape cs := by
      constructor
      · intro h
        refine ⟨fun hc => h [] cs (by rw [hc]; rfl), fun a ds hds => h (c :: a) ds (by rw [hds]; rfl)⟩
      · rintro ⟨hhead, htail⟩ a ds hds
        cases a with
        | nil =>
          obtain ⟨rfl, rfl⟩ := List.cons.inj hds
          exact hhead rfl
        | cons x a => exact htail a ds (List.cons.inj hds).2
    rw [hsplit, ← ih]
    by_cases hc : c = '\\'
    · rw [unescape, if_pos hc]
      rcases hescape : D.escape cs with _ | ⟨t, used⟩ | _
      · simp [hc]
      · refine iff_of_false (fun h => ?_) (fun h => by cases h.1 hc)
        obtain ⟨t', ht, heq⟩ := Option.map_eq_some_iff.mp h
        obtain ⟨hshort, hused⟩ := D.shorter _ _ _ hescape
        have hlen := length_unescape_le ht hused
        have heq := congrArg List.length heq
        rw [List.length_append, List.length_cons] at heq
        omega
      · exact iff_of_false (fun h => by cases h) (fun h => by cases h.1 hc)
    · rw [unescape_char hc]
      simp [hc]

/-- The dialect with the usual escapes only. -/
def usual : Dialect where
  escape
    | '\\' :: _ => .denotes ['\\'] 1
    | '"' :: _ => .denotes ['"'] 1
    | 'n' :: _ => .denotes ['\n'] 1
    | 'r' :: _ => .denotes ['\r'] 1
    | 't' :: _ => .denotes ['\t'] 1
    | '\n' :: _ => .denotes [] 1
    | _ => .stays
  openIsText := true
  backslash _ := rfl
  quote _ := rfl
  newline _ := rfl
  carriageReturn _ := rfl
  tab _ := rfl
  lineBreak _ := rfl
  shorter l text used h := by
    split at h <;> first | (cases h; simp) | cases h
  blank c := c = ' ' || c = '\t'
  visible c h _ := by
    rw [Bool.or_eq_false_iff, decide_eq_false_iff_not, decide_eq_false_iff_not]
    refine ⟨?_, ?_⟩ <;> rintro rfl <;> exact absurd h (by decide)

end Dialect

end Literal
