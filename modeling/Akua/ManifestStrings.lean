import Akua.Lib.RegularHeads
import Akua.Render

/-! The strings of a manifest that some YAML reader would take for a number, a bool or a null: the test
    that finds them covers the implicit resolvers of YAML 1.1 and of the core schema of YAML 1.2, and
    every such string is written between single quotes, as a key and as a value. -/

namespace Akua

open RegularExpression RegularHeads

/-! ### The implicit resolvers -/

inductive YamlVersion where
  | v1_1
  | v1_2
deriving DecidableEq

inductive YamlTag where
  | null
  | bool
  | int
  | float
deriving DecidableEq

namespace Yaml

/-- One character of a text. -/
def among (text : String) : RegularExpression Char := anyOf text.toList

def literal (text : String) : RegularExpression Char := word text.toList

def sign : RegularExpression Char := optional (among "-+")

def digit : RegularExpression Char := among "0123456789"

/-- Digits that may have underscores between them. -/
def digits_ : RegularExpression Char := star (among "0123456789_")

def hexadecimal : String := "0123456789abcdefABCDEF"

/-- The groups of a sexagesimal: `(:[0-5]?[0-9])+`. -/
def sixties : RegularExpression Char := atLeastOnce (char ':' * (optional (among "012345") * digit))

def infinity : RegularExpression Char := sign * (char '.' * anyWord ["inf".toList, "Inf".toList, "INF".toList])

def notANumber : RegularExpression Char := char '.' * anyWord ["nan".toList, "NaN".toList, "NAN".toList]

/-- Binary, octal, hexadecimal, sexagesimal and decimal. -/
def int1_1 : RegularExpression Char :=
  sign * (literal "0b" * atLeastOnce (among "01_")) +
    (sign * (char '0' * atLeastOnce (among "01234567_")) +
      (sign * (literal "0x" * atLeastOnce (among (hexadecimal ++ "_"))) +
        (sign * (among "123456789" * (digits_ * sixties)) +
          sign * (char '0' + among "123456789" * digits_))))

/-- Decimal (with underscores in the fraction, as implementations read it) and sexagesimal. -/
def float1_1 : RegularExpression Char :=
  sign * (optional (digit * digits_) *
      (char '.' * (star (among "0123456789._") * optional (among "eE" * (sign * atLeastOnce digit))))) +
    (sign * (digit * (digits_ * (sixties * (char '.' * digits_)))) + (infinity + notANumber))

def int1_2 : RegularExpression Char :=
  sign * atLeastOnce digit +
    (literal "0o" * atLeastOnce (among "01234567") + literal "0x" * atLeastOnce (among hexadecimal))

def float1_2 : RegularExpression Char :=
  sign * ((char '.' * atLeastOnce digit + atLeastOnce digit * optional (char '.' * star digit)) *
      optional (among "eE" * (sign * atLeastOnce digit))) +
    (infinity + notANumber)

def nulls : List String := ["", "~", "null", "Null", "NULL"]

def bools1_1 : List String :=
  ["y", "Y", "yes", "Yes", "YES", "n", "N", "no", "No", "NO", "true", "True", "TRUE", "false", "False", "FALSE",
    "on", "On", "ON", "off", "Off", "OFF"]

def bools1_2 : List String := ["true", "True", "TRUE", "false", "False", "FALSE"]

end Yaml

/-- What a version reads as a tag without being told to. -/
def resolver : YamlVersion → YamlTag → RegularExpression Char
  | _, .null => anyWord (Yaml.nulls.map String.toList)
  | .v1_1, .bool => anyWord (Yaml.bools1_1.map String.toList)
  | .v1_2, .bool => anyWord (Yaml.bools1_2.map String.toList)
  | .v1_1, .int => Yaml.int1_1
  | .v1_1, .float => Yaml.float1_1
  | .v1_2, .int => Yaml.int1_2
  | .v1_2, .float => Yaml.float1_2

def ReadsAs (version : YamlVersion) (tag : YamlTag) (s : String) : Prop :=
  s.toList ∈ (resolver version tag).matches'

/-! ### The document -/

/-- A scalar node; `quoteSingle` when its type is `QUOTE_SINGLE`. -/
structure YamlScalar where
  value : Value
  quoteSingle : Bool := false

inductive YamlNode where
  | scalar (scalar : YamlScalar)
  | seq (items : List YamlNode)
  | map (pairs : List (YamlScalar × YamlNode))

mutual

/-- `new YAML.Document(resource)`. -/
def createNode : Value → YamlNode
  | .array values => .seq (createItems values)
  | .object entries => .map (createPairs entries)
  | value => .scalar { value }

def createItems : List Value → List YamlNode
  | [] => []
  | value :: values => createNode value :: createItems values

def createPairs : List (String × Value) → List (YamlScalar × YamlNode)
  | [] => []
  | (key, value) :: entries => ({ value := .string key }, createNode value) :: createPairs entries

end

mutual

/-- `YAML.visit(document, { Scalar })`: keys and values. -/
def visitScalars (f : YamlScalar → YamlScalar) : YamlNode → YamlNode
  | .scalar scalar => .scalar (f scalar)
  | .seq items => .seq (visitItems f items)
  | .map pairs => .map (visitPairs f pairs)

def visitItems (f : YamlScalar → YamlScalar) : List YamlNode → List YamlNode
  | [] => []
  | item :: items => visitScalars f item :: visitItems f items

def visitPairs (f : YamlScalar → YamlScalar) : List (YamlScalar × YamlNode) → List (YamlScalar × YamlNode)
  | [] => []
  | (key, value) :: pairs => (f key, visitScalars f value) :: visitPairs f pairs

end

/-- `if (typeof node.value === "string" && ambiguous(node.value)) node.type = "QUOTE_SINGLE"`. -/
def quote (ambiguous : String → Bool) (scalar : YamlScalar) : YamlScalar :=
  match scalar.value with
  | .string s => if ambiguous s then { scalar with quoteSingle := true } else scalar
  | _ => scalar

mutual

/-- The scalars of a document, in its order. -/
def YamlNode.scalars : YamlNode → List YamlScalar
  | .scalar scalar => [scalar]
  | .seq items => itemScalars items
  | .map pairs => pairScalars pairs

def itemScalars : List YamlNode → List YamlScalar
  | [] => []
  | item :: items => item.scalars ++ itemScalars items

def pairScalars : List (YamlScalar × YamlNode) → List YamlScalar
  | [] => []
  | (key, value) :: pairs => key :: (value.scalars ++ pairScalars pairs)

end

mutual

/-- The keys and values of a resource that are no collections. -/
def occurrences : Value → List Value
  | .array values => itemOccurrences values
  | .object entries => entryOccurrences entries
  | value => [value]

def itemOccurrences : List Value → List Value
  | [] => []
  | value :: values => occurrences value ++ itemOccurrences values

def entryOccurrences : List (String × Value) → List Value
  | [] => []
  | (key, value) :: entries => .string key :: (occurrences value ++ entryOccurrences entries)

end

/-! ### The writer -/

/-- A part of the text of a document: a scalar as it is written, or what stands between scalars. -/
structure YamlPiece where
  scalar : Option YamlScalar
  text : String

/-- Printable ASCII. -/
def Printable (s : String) : Prop := ∀ c ∈ s.toList, 0x20 ≤ c.toNat ∧ c.toNat < 0x7f

/-- `document.toString({ singleQuote: true, lineWidth: 0, indentSeq: false })`: each scalar is written
    once, in order, and between single quotes, each quote in it doubled, where that is its type and
    nothing in it asks for an escape. -/
structure YamlWriter where
  pieces : YamlNode → List YamlPiece
  scalars_written : ∀ node, (pieces node).filterMap YamlPiece.scalar = node.scalars
  single_quoted : ∀ node, ∀ piece ∈ pieces node, ∀ s, piece.scalar = some ⟨.string s, true⟩ → Printable s →
    piece.text = String.ofList ('\'' :: (s.toList.flatMap fun c => if c = '\'' then ['\'', '\''] else [c]) ++ ['\''])

def YamlWriter.toString (W : YamlWriter) (node : YamlNode) : String :=
  (W.pieces node).foldl (fun text piece => text ++ piece.text) ""

/-! ### Every string that is read otherwise is ambiguous -/

theorem lowerList_ascii (casing : Text.Casing) {cs : List Char} (h : ∀ c ∈ cs, c.toNat < 128) (before : List Char) :
    Text.lowerList casing before cs = cs.map Char.toLower := by
  induction cs generalizing before with
  | nil => rfl
  | cons c cs ih =>
    rw [Text.lowerList, if_pos (h c List.mem_cons_self), ih fun d hd => h d (List.mem_cons_of_mem _ hd)]
    rfl

/-- Words that are one of the ambiguous words but for their case. -/
theorem ambiguous_of_word (P : Platform) {words : List String} {s : String} (hs : s ∈ words)
    (hwords : ∀ w ∈ words, w.toList.all (fun c => c.toNat < 128 && c != '\n') = true ∧
      (w.toList.map Char.toLower = [] ∨ String.ofList (w.toList.map Char.toLower) ∈ AMBIGUOUS_WORDS)) :
    ambiguous P s = true := by
  obtain ⟨hall, hlower⟩ := hwords s hs
  have hascii : ∀ c ∈ s.toList, c.toNat < 128 ∧ c ≠ '\n' := by simpa using hall
  have hline : Text.includes s '\n' = false := by
    simpa [Text.includes] using fun h => (hascii '\n' h).2 rfl
  rw [ambiguous, hline, Text.toLowerCase, lowerList_ascii _ fun c hc => (hascii c hc).1]
  rcases hlower with hnil | hmem
  · rw [hnil]
    rfl
  · simp [hmem]

/-- A number begins with a digit, a dot or a sign, and has no line break. -/
theorem ambiguous_of_number (P : Platform) {R : RegularExpression Char} {s : String} (hs : s.toList ∈ R.matches')
    (hempty : R.matchEpsilon = false)
    (hheads : (heads R).all (fun c => c.toNat < 128 &&
      (c.toLower.isDigit || c.toLower == '.' || c.toLower == '+' || c.toLower == '-')) = true)
    (hline : '\n' ∉ symbols R) : ambiguous P s = true := by
  obtain ⟨c, rest, heq, hc⟩ := exists_head hs hempty
  obtain ⟨hlt, hstart⟩ := Bool.and_eq_true_iff.mp (List.all_eq_true.mp hheads c hc)
  have hascii : c.toNat < 128 := of_decide_eq_true hlt
  have hbreak : Text.includes s '\n' = false := by
    simpa [Text.includes] using fun h => hline (subset_symbols hs h)
  have hlower : (Text.toLowerCase P.casing s).toList.head? = some c.toLower := by
    rw [Text.toLowerCase, String.toList_ofList, heq, Text.lowerList, if_pos hascii]
    rfl
  rw [ambiguous, hbreak]
  simp only [hlower, Option.any_some, hstart, Bool.true_or, Bool.or_true, Bool.not_false, Bool.true_and]

theorem mem_words {words : List String} {s : String} (h : s.toList ∈ (anyWord (words.map String.toList)).matches') :
    s ∈ words := by
  obtain ⟨w, hw, heq⟩ := List.mem_map.mp (mem_anyWord.mp h)
  exact String.toList_inj.mp heq ▸ hw

theorem ambiguous_of_readsAs (P : Platform) {version : YamlVersion} {tag : YamlTag} {s : String}
    (h : ReadsAs version tag s) : ambiguous P s = true := by
  cases tag with
  | null =>
    have hs : s ∈ Yaml.nulls := by cases version <;> exact mem_words h
    exact ambiguous_of_word P hs (by decide)
  | bool =>
    cases version with
    | v1_1 => exact ambiguous_of_word P (mem_words h) (by decide)
    | v1_2 => exact ambiguous_of_word P (mem_words h) (by decide)
  | int =>
    cases version with
    | v1_1 => exact ambiguous_of_number P h (by decide) (by decide) (by decide)
    | v1_2 => exact ambiguous_of_number P h (by decide) (by decide) (by decide)
  | float =>
    cases version with
    | v1_1 => exact ambiguous_of_number P h (by decide) (by decide) (by decide)
    | v1_2 => exact ambiguous_of_number P h (by decide) (by decide) (by decide)

/-- Nothing in such a string asks for an escape. -/
theorem plain_of_readsAs {version : YamlVersion} {tag : YamlTag} {s : String} (h : ReadsAs version tag s) :
    ∀ c ∈ s.toList, (0x20 ≤ c.toNat ∧ c.toNat < 0x7f) ∧ c ≠ '\'' := by
  have hsymbols : (symbols (resolver version tag)).all
      (fun c => (0x20 ≤ c.toNat ∧ c.toNat < 0x7f) ∧ c ≠ '\'') = true := by
    cases version <;> cases tag <;> decide +kernel
  exact fun c hc => of_decide_eq_true (List.all_eq_true.mp hsymbols c (subset_symbols h hc))

/-! ### The scalars of a manifest -/

mutual

theorem scalars_visit (f : YamlScalar → YamlScalar) : ∀ value : Value,
    (visitScalars f (createNode value)).scalars = (occurrences value).map fun v => f { value := v }
  | .null | .string _ | .number _ | .bool _ | .date _ => rfl
  | .array values => by
      rw [createNode, visitScalars, YamlNode.scalars, occurrences, scalars_visitItems f values]
  | .object entries => by
      rw [createNode, visitScalars, YamlNode.scalars, occurrences, scalars_visitPairs f entries]

theorem scalars_visitItems (f : YamlScalar → YamlScalar) : ∀ values : List Value,
    itemScalars (visitItems f (createItems values)) = (itemOccurrences values).map fun v => f { value := v }
  | [] => rfl
  | value :: values => by
      rw [createItems, visitItems, itemScalars, itemOccurrences, List.map_append, scalars_visit f value,
        scalars_visitItems f values]

theorem scalars_visitPairs (f : YamlScalar → YamlScalar) : ∀ entries : List (String × Value),
    pairScalars (visitPairs f (createPairs entries)) = (entryOccurrences entries).map fun v => f { value := v }
  | [] => rfl
  | (key, value) :: entries => by
      rw [createPairs, visitPairs, pairScalars, entryOccurrences, List.map_cons, List.map_append, scalars_visit f value,
        scalars_visitPairs f entries]

end

theorem quote_value (test : String → Bool) (scalar : YamlScalar) : (quote test scalar).value = scalar.value := by
  rw [quote]
  split
  · split <;> rfl
  · rfl

theorem quote_ambiguous {test : String → Bool} {s : String} (h : test s = true) :
    quote test { value := .string s } = { value := .string s, quoteSingle := true } := by
  simp only [quote, h, if_true]

/-- A string that YAML 1.1 or 1.2 reads as a null, a bool or a number is ambiguous; in every manifest, whose
    scalars are those of the resource in order, each of its occurrences is written between single quotes. -/
theorem strings_stay_strings (P : Platform) (W : YamlWriter)
    (hprint : ∀ test value, P.printYaml test value = W.toString (visitScalars (quote test) (createNode value)))
    {version : YamlVersion} {tag : YamlTag} {s : String} (h : ReadsAs version tag s) :
    ambiguous P s = true ∧ ∀ resource, ∃ pieces : List YamlPiece,
      toYaml P resource = pieces.foldl (fun text piece => text ++ piece.text) "" ∧
      (pieces.filterMap YamlPiece.scalar).map YamlScalar.value = occurrences resource ∧
      ∀ piece ∈ pieces, piece.scalar.map YamlScalar.value = some (.string s) → piece.text = "'" ++ s ++ "'" := by
  have hambiguous := ambiguous_of_readsAs P h
  refine ⟨hambiguous, fun resource =>
    ⟨W.pieces (visitScalars (quote (ambiguous P)) (createNode resource)), hprint _ _, ?_, fun piece hpiece hs => ?_⟩⟩
  · rw [W.scalars_written, scalars_visit, List.map_map]
    exact List.map_id'' (fun v => quote_value _ _) _
  · obtain ⟨scalar, hscalar, hvalue⟩ := Option.map_eq_some_iff.mp hs
    -- the scalar is one that was visited, so it is quoted
    have hmem : scalar ∈ (occurrences resource).map fun v => quote (ambiguous P) { value := v } := by
      rw [← scalars_visit, ← W.scalars_written]
      exact List.mem_filterMap.mpr ⟨piece, hpiece, hscalar⟩
    obtain ⟨v, -, rfl⟩ := List.mem_map.mp hmem
    rw [quote_value] at hvalue
    obtain rfl : v = .string s := hvalue
    rw [quote_ambiguous hambiguous] at hscalar
    have hplain := plain_of_readsAs h
    rw [W.single_quoted _ piece hpiece s hscalar fun c hc => (hplain c hc).1]
    have hquotes : (s.toList.flatMap fun c => if c = '\'' then ['\'', '\''] else [c]) = s.toList := by
      rw [List.flatMap_congr fun c hc => if_neg (hplain c hc).2]
      exact List.flatMap_singleton' _
    rw [hquotes]
    apply String.toList_inj.mp
    simp

/-! ### A writer -/

/-- A scalar on one line. -/
def scalarText (scalar : YamlScalar) : String :=
  match scalar.value, scalar.quoteSingle with
  | .string s, true =>
    String.ofList ('\'' :: (s.toList.flatMap fun c => if c = '\'' then ['\'', '\''] else [c]) ++ ['\''])
  | .string s, false | .number s, _ | .date s, _ => s
  | .bool b, _ => if b then "true" else "false"
  | _, _ => "null"

def piece (scalar : YamlScalar) : YamlPiece := ⟨some scalar, scalarText scalar⟩

mutual

/-- A map of scalars, one entry a line; of collections in collections, only the scalars. -/
def linePieces : YamlNode → List YamlPiece
  | .scalar scalar => [piece scalar, ⟨none, "\n"⟩]
  | .seq items => lineItems items
  | .map pairs => linePairs pairs

def lineItems : List YamlNode → List YamlPiece
  | [] => []
  | item :: items => ⟨none, "- "⟩ :: (linePieces item ++ lineItems items)

def linePairs : List (YamlScalar × YamlNode) → List YamlPiece
  | [] => []
  | (key, value) :: pairs => piece key :: ⟨none, ": "⟩ :: (linePieces value ++ linePairs pairs)

end

mutual

theorem linePieces_scalars : ∀ node : YamlNode, (linePieces node).filterMap YamlPiece.scalar = node.scalars ∧
    ∀ p ∈ linePieces node, ∀ scalar, p.scalar = some scalar → p.text = scalarText scalar
  | .scalar scalar => by
      refine ⟨rfl, fun p hp s hs => ?_⟩
      rcases List.mem_pair.mp hp with rfl | rfl
      · obtain rfl := Option.some.inj hs
        rfl
      · cases hs
  | .seq items => by
      rw [linePieces, YamlNode.scalars]
      exact lineItems_scalars items
  | .map pairs => by
      rw [linePieces, YamlNode.scalars]
      exact linePairs_scalars pairs

theorem lineItems_scalars : ∀ items : List YamlNode, (lineItems items).filterMap YamlPiece.scalar = itemScalars items ∧
    ∀ p ∈ lineItems items, ∀ scalar, p.scalar = some scalar → p.text = scalarText scalar
  | [] => ⟨rfl, fun _ hp => absurd hp List.not_mem_nil⟩
  | item :: items => by
      obtain ⟨hitem, htext⟩ := linePieces_scalars item
      obtain ⟨hitems, htexts⟩ := lineItems_scalars items
      rw [lineItems, itemScalars]
      refine ⟨by simp [hitem, hitems], fun p hp scalar hs => ?_⟩
      rcases List.mem_cons.mp hp with rfl | hp
      · cases hs
      · rcases List.mem_append.mp hp with hp | hp
        · exact htext p hp scalar hs
        · exact htexts p hp scalar hs

theorem linePairs_scalars : ∀ pairs : List (YamlScalar × YamlNode),
    (linePairs pairs).filterMap YamlPiece.scalar = pairScalars pairs ∧
    ∀ p ∈ linePairs pairs, ∀ scalar, p.scalar = some scalar → p.text = scalarText scalar
  | [] => ⟨rfl, fun _ hp => absurd hp List.not_mem_nil⟩
  | (key, value) :: pairs => by
      obtain ⟨hvalue, htext⟩ := linePieces_scalars value
      obtain ⟨hpairs, htexts⟩ := linePairs_scalars pairs
      rw [linePairs, pairScalars]
      refine ⟨by simp [hvalue, hpairs, piece], fun p hp scalar hs => ?_⟩
      rcases List.mem_cons.mp hp with rfl | hp
      · obtain rfl := Option.some.inj hs
        rfl
      · rcases List.mem_cons.mp hp with rfl | hp
        · cases hs
        · rcases List.mem_append.mp hp with hp | hp
          · exact htext p hp scalar hs
          · exact htexts p hp scalar hs

end

/-- A writer of flat maps. -/
def lineWriter : YamlWriter where
  pieces := linePieces
  scalars_written node := (linePieces_scalars node).1
  single_quoted node p hp _ hs _ := (linePieces_scalars node).2 p hp _ hs

def linePlatform : Platform :=
  { Platform.ofTables [] [] [] [] with
    printYaml := fun test value => lineWriter.toString (visitScalars (quote test) (createNode value)) }

/-- An octal number under a key that is a bool: both are quoted. -/
theorem octal_quoted : ambiguous linePlatform "0777" = true ∧
    toYaml linePlatform (.object [("on", .string "0777")]) = "'on': '0777'\n" ∧
    ∃ pieces : List YamlPiece,
      toYaml linePlatform (.object [("on", .string "0777")]) = pieces.foldl (fun text piece => text ++ piece.text) "" ∧
      ∀ piece ∈ pieces, piece.scalar.map YamlScalar.value = some (.string "0777") → piece.text = "'0777'" := by
  have hreads : ReadsAs .v1_1 .int "0777" := by
    change "0777".toList ∈ Yaml.int1_1.matches'
    decide
  obtain ⟨hambiguous, hwritten⟩ := strings_stay_strings linePlatform lineWriter (fun _ _ => rfl) hreads
  obtain ⟨pieces, htext, -, hpieces⟩ := hwritten (.object [("on", .string "0777")])
  exact ⟨hambiguous, by decide, pieces, htext, hpieces⟩

end Akua
