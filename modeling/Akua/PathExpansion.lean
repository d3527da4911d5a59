import Akua.CommandInputs
import Akua.Lib.UriComponent

/-! The path of an API request: an operation's template with the values of its parameters, each encoded.
    The values are looked at one by one, but the route is the whole path's: an empty value makes an
    empty segment, and a value with half a surrogate pair makes the encoding throw. -/

namespace Akua.Api

open UriComponent

/-! ### Templates -/

/-- A code unit of the template, or `{name}` or `{name:*}`. -/
inductive Part where
  | literal (u : UInt16)
  | param (name : CodeUnits) (wildcard : Bool)

def SLASH : UInt16 := unit '/'

/-- A match of `/\{([^}:]+)(:\*)?\}/` at the beginning: the name, whether it is a wildcard, the length. -/
def placeholder : CodeUnits → Option (CodeUnits × Bool × Nat)
  | [] => none
  | c :: rest =>
    let name := rest.takeWhile fun u => u ≠ unit '}' && u ≠ unit ':'
    let behind := rest.drop name.length
    if c ≠ unit '{' ∨ name = [] then none
    else if [unit ':', unit '*', unit '}'].isPrefixOf behind then some (name, true, name.length + 4)
    else if [unit '}'].isPrefixOf behind then some (name, false, name.length + 2)
    else none

/-- The template, with what is replaced in it; `skip` units belong to the last match. -/
def templateParts : Nat → CodeUnits → List Part
  | _, [] => []
  | skip + 1, _ :: cs => templateParts skip cs
  | 0, c :: cs =>
    match placeholder (c :: cs) with
    | some (name, wildcard, length) => .param name wildcard :: templateParts (length - 1) cs
    | none => .literal c :: templateParts 0 cs

/-! ### Expansion -/

/-- The parameters' values by name; a parameter without one has the empty text. -/
abbrev Values := CodeUnits → CodeUnits

/-- `[text]`, or the parts of `text.split('/')`. -/
def segmentsOf (values : Values) (name : CodeUnits) (wildcard : Bool) : List CodeUnits :=
  if wildcard then (values name).splitOn SLASH else [values name]

/-- `segments.join('/')`. -/
def joinSegments (segments : List CodeUnits) : CodeUnits := [SLASH].intercalate segments

def isDots (segment : CodeUnits) : Bool := segment = [unit '.'] || segment = [unit '.', unit '.']

/-- The text for a part; none where `encodeURIComponent` throws. -/
def expandPart (values : Values) : Part → Option CodeUnits
  | .literal u => some [u]
  | .param name wildcard => ((segmentsOf values name wildcard).mapM encode).map joinSegments

def expandParts (values : Values) : List Part → Option CodeUnits
  | [] => some []
  | part :: parts => do
    let text ← expandPart values part
    let rest ← expandParts values parts
    some (text ++ rest)

/-- The first parameter with a segment that is `.` or `..`. -/
def rejectedName (values : Values) : List Part → Option CodeUnits
  | [] => none
  | .literal _ :: parts => rejectedName values parts
  | .param name wildcard :: parts =>
    if (segmentsOf values name wildcard).any isDots then some name else rejectedName values parts

/-- The path, or the name that is rejected; none where it throws. -/
def expandPath (template : CodeUnits) (values : Values) : Option (Except CodeUnits CodeUnits) :=
  (expandParts values (templateParts 0 template)).map fun path =>
    match rejectedName values (templateParts 0 template) with
    | some name => .error name
    | none => .ok path

/-! ### Routes -/

def behindSlash : List CodeUnits → List CodeUnits
  | [] :: segment :: segments => segment :: segments
  | segments => segments

/-- The segments, behind a leading slash. -/
def pathSegments (path : CodeUnits) : List CodeUnits := behindSlash (path.splitOn SLASH)

/-- Not empty, `.` or `..`. -/
def Proper (segment : CodeUnits) : Prop := segment ≠ [] ∧ isDots segment = false

instance (segment : CodeUnits) : Decidable (Proper segment) := inferInstanceAs (Decidable (_ ∧ _))

/-- Every plain parameter has a text. -/
def PlainFilled (parts : List Part) (values : Values) : Prop := ∀ name, Part.param name false ∈ parts → values name ≠ []

/-- The path is the template with these values, encoded. -/
def Matches (parts : List Part) (path : CodeUnits) (values : Values) : Prop :=
  PlainFilled parts values ∧ expandParts values parts = some path

/-- The same values for the parameters. -/
def Agree (parts : List Part) (values others : Values) : Prop :=
  ∀ name wildcard, Part.param name wildcard ∈ parts → others name = values name

/-- Nothing is thrown, and a path that is returned has proper segments and is matched by the template with
    the values, and with no others. -/
structure OnRoute (template : CodeUnits) (values : Values) : Prop where
  total : expandPath template values ≠ none
  recovered : ∀ path, expandPath template values = some (.ok path) → ∀ others : Values,
    Matches (templateParts 0 template) path others ↔ Agree (templateParts 0 template) values others
  segments : ∀ path, expandPath template values = some (.ok path) → ∀ segment ∈ pathSegments path, Proper segment

/-! ### Conditions on templates and values -/

/-- No value has a surrogate that stands alone. -/
def WellFormed (parts : List Part) (values : Values) : Prop :=
  ∀ name wildcard, Part.param name wildcard ∈ parts → ∀ segment ∈ segmentsOf values name wildcard,
    (fromUtf16 segment).isSome

def MARK : UInt16 := unit 'x'

/-- The template with an `x` for each unit of a value; a wildcard's slashes are kept. -/
def outline (values : Values) : List Part → CodeUnits
  | [] => []
  | .literal u :: parts => u :: outline values parts
  | .param name wildcard :: parts =>
    joinSegments ((segmentsOf values name wildcard).map fun segment => List.replicate segment.length MARK) ++
      outline values parts

/-- A unit that no value's text has. -/
def foreign (wildcard : Bool) (u : UInt16) : Bool := !written u && (!wildcard || u ≠ SLASH)

/-- Behind a parameter the template ends, or has a foreign unit before the next parameter. -/
def setApart (wildcard : Bool) : List Part → Bool
  | [] => true
  | .literal u :: parts => foreign wildcard u || setApart wildcard parts
  | .param _ _ :: _ => false

/-- Each parameter is set apart from the next one. -/
def delimited : List Part → Bool
  | [] => true
  | .literal _ :: parts => delimited parts
  | .param _ wildcard :: parts => setApart wildcard parts && delimited parts

/-- The text can be cut in one way. -/
def OneCut (parts : List Part) (values : Values) : Prop :=
  ∀ others, PlainFilled parts others → expandParts others parts = expandParts values parts → Agree parts values others

/-- The values are well formed, and one is rejected; or the plain ones are not empty, no segment of the
    outline is empty or dots, and the parameters are set apart (or the text happens to be cut in one way). -/
def Expandable (parts : List Part) (values : Values) : Prop :=
  WellFormed parts values ∧ (rejectedName values parts ≠ none ∨
    PlainFilled parts values ∧ (∀ segment ∈ pathSegments (outline values parts), Proper segment) ∧
      (delimited parts = true ∨ OneCut parts values))

/-! ### Encoded segments -/

variable {values others : Values}

theorem encode_isSome {segment : CodeUnits} : (encode segment).isSome = (fromUtf16 segment).isSome := by
  rw [encode, Option.isSome_map]

theorem mapM_encode_isSome {segments : List CodeUnits} :
    (segments.mapM encode).isSome ↔ ∀ segment ∈ segments, (fromUtf16 segment).isSome := by
  induction segments with
  | nil => simp
  | cons segment segments ih =>
    rw [List.mapM_cons, List.forall_mem_cons, ← ih, ← encode_isSome]
    cases encode segment with
    | none => simp
    | some text => cases segments.mapM encode <;> simp

/-- Everything is encoded just when the values are well formed. -/
theorem expandParts_isSome {parts : List Part} : (expandParts values parts).isSome ↔ WellFormed parts values := by
  induction parts with
  | nil => exact iff_of_true rfl fun _ _ h => absurd h List.not_mem_nil
  | cons part parts ih =>
    have hparts : (expandParts values (part :: parts)).isSome ↔
        (expandPart values part).isSome ∧ (expandParts values parts).isSome := by
      rw [expandParts]
      cases expandPart values part with
      | none => simp
      | some text => cases expandParts values parts <;> simp
    rw [hparts, ih]
    constructor
    · rintro ⟨hpart, hrest⟩ name wildcard hmem
      rcases List.mem_cons.mp hmem with rfl | hmem
      · rw [expandPart, Option.isSome_map, mapM_encode_isSome] at hpart
        exact hpart
      · exact hrest name wildcard hmem
    · intro h
      refine ⟨?_, fun name wildcard hmem => h name wildcard (List.mem_cons_of_mem _ hmem)⟩
      cases part with
      | literal u => rfl
      | param name wildcard =>
        rw [expandPart, Option.isSome_map, mapM_encode_isSome]
        exact h name wildcard List.mem_cons_self

theorem expandParts_cons {part : Part} {parts : List Part} {path : CodeUnits} (h : expandParts values (part :: parts) = some path) :
    ∃ text rest, expandPart values part = some text ∧ expandParts values parts = some rest ∧ path = text ++ rest := by
  rw [expandParts] at h
  obtain ⟨text, htext, h⟩ := Option.bind_eq_some_iff.mp h
  obtain ⟨rest, hrest, h⟩ := Option.bind_eq_some_iff.mp h
  cases h
  exact ⟨text, rest, htext, hrest, rfl⟩

theorem slash_not_written : written SLASH = false := by decide

theorem slash_notMem {segment text : CodeUnits} (h : encode segment = some text) : SLASH ∉ text := by
  intro hmem
  have hwritten := written_of_mem h hmem
  rw [slash_not_written] at hwritten
  cases hwritten

/-- Equal values are expanded equally. -/
theorem expandParts_congr {parts : List Part} (h : Agree parts values others) :
    expandParts others parts = expandParts values parts := by
  induction parts with
  | nil => rfl
  | cons part parts ih =>
    have hpart : expandPart others part = expandPart values part := by
      cases part with
      | literal u => rfl
      | param name wildcard => rw [expandPart, expandPart, segmentsOf, segmentsOf, h name wildcard List.mem_cons_self]
    rw [expandParts, expandParts, hpart, ih fun name wildcard hmem => h name wildcard (List.mem_cons_of_mem _ hmem)]

/-- A parameter's text is of one value. -/
theorem value_of_text {name : CodeUnits} {wildcard : Bool} {text : CodeUnits} (h : expandPart values (.param name wildcard) = some text)
    (hother : expandPart others (.param name wildcard) = some text) : others name = values name := by
  obtain ⟨texts, htexts, rfl⟩ := Option.map_eq_some_iff.mp h
  obtain ⟨texts', htexts', hjoin⟩ := Option.map_eq_some_iff.mp hother
  have hslash : ∀ {segments texts : List CodeUnits}, segments.mapM encode = some texts → ∀ text ∈ texts, SLASH ∉ text := by
    intro segments texts h text htext
    obtain ⟨segment, -, hsegment⟩ := exists_of_mem_right (forall₂_of_mapM h) htext
    exact slash_notMem hsegment
  have hne : ∀ {values : Values} {texts : List CodeUnits}, (segmentsOf values name wildcard).mapM encode = some texts → texts ≠ [] := by
    intro values texts h hnil
    have hlength := (forall₂_of_mapM h).length_eq
    rw [hnil, List.length_nil, List.length_eq_zero_iff, segmentsOf] at hlength
    split at hlength
    · exact List.splitOn_ne_nil _ _ hlength
    · cases hlength
  have htextsEq : texts' = texts := by
    have hsplit := congrArg (List.splitOn SLASH) hjoin
    rwa [joinSegments, joinSegments, List.splitOn_intercalate _ (hslash htexts') (hne htexts'),
      List.splitOn_intercalate _ (hslash htexts) (hne htexts)] at hsplit
  subst htextsEq
  have hsegments : segmentsOf others name wildcard = segmentsOf values name wildcard := by
    have hleft := forall₂_of_mapM htexts'
    have hright := forall₂_of_mapM htexts
    generalize segmentsOf others name wildcard = segments at hleft
    generalize segmentsOf values name wildcard = segments' at hright
    clear htexts htexts' hjoin h hother
    induction hleft generalizing segments' with
    | nil =>
      cases hright
      rfl
    | cons h _ ih =>
      cases hright with
      | cons h' hrest => rw [encode_injective h h', ih _ hrest]
  rw [segmentsOf, segmentsOf] at hsegments
  split at hsegments
  · have hvalues := congrArg ([SLASH].intercalate) hsegments
    rwa [List.intercalate_splitOn, List.intercalate_splitOn] at hvalues
  · exact List.singleton_inj.mp hsegments

/-! ### Segments of the path and of the outline -/

/-- A segment of the path and one of the outline: the same literal units, and for each value that is not
    empty its text and its marks. -/
inductive Alike : CodeUnits → CodeUnits → Prop where
  | nil : Alike [] []
  | literal {u : UInt16} {a b : CodeUnits} (h : Alike a b) : Alike (u :: a) (u :: b)
  | value {text : CodeUnits} {n : Nat} {a b : CodeUnits} (hne : text ≠ []) (hdots : isDots text = false) (h : Alike a b) :
      Alike (text ++ a) (List.replicate (n + 1) MARK ++ b)

theorem Alike.eq_nil {a b : CodeUnits} (h : Alike a b) : a = [] ↔ b = [] := by
  cases h with
  | nil => exact Iff.rfl
  | literal _ => exact iff_of_false (List.cons_ne_nil _ _) (List.cons_ne_nil _ _)
  | value hne _ _ => exact iff_of_false (fun h => hne (List.append_eq_nil_iff.mp h).1) fun h => by cases h

theorem isDots_iff {segment : CodeUnits} :
    isDots segment = true ↔ segment = [unit '.'] ∨ segment = [unit '.', unit '.'] := by
  simp [isDots]

/-- What begins dots is dots. -/
theorem isDots_of_append {text a : CodeUnits} (hne : text ≠ []) (h : isDots (text ++ a) = true) : isDots text = true := by
  cases text with
  | nil => exact absurd rfl hne
  | cons u text =>
    rw [isDots_iff, List.cons_append, List.cons_eq_cons, List.cons_eq_cons] at h
    rw [isDots_iff, List.cons_eq_cons, List.cons_eq_cons]
    rcases h with ⟨hu, htail⟩ | ⟨hu, htail⟩
    · exact .inl ⟨hu, (List.append_eq_nil_iff.mp htail).1⟩
    · cases text with
      | nil => exact .inl ⟨hu, rfl⟩
      | cons v text =>
        obtain ⟨hv, hmore⟩ := List.cons.inj htail
        rw [hv, (List.append_eq_nil_iff.mp hmore).1]
        exact .inr ⟨hu, rfl⟩

theorem not_dots_of_marks (n : Nat) (b : CodeUnits) : isDots (List.replicate (n + 1) MARK ++ b) = false := by
  rw [Bool.eq_false_iff, ne_eq, isDots_iff]
  rintro (h | h)
  · exact absurd (List.cons.inj h).1 (by decide)
  · exact absurd (List.cons.inj h).1 (by decide)

theorem Alike.isDot {a b : CodeUnits} (h : Alike a b) : a = [unit '.'] ↔ b = [unit '.'] := by
  cases h with
  | nil => exact Iff.rfl
  | literal h => rw [List.cons_eq_cons, List.cons_eq_cons, h.eq_nil]
  | @value text n a b hne hdots _ =>
    refine iff_of_false (fun he => ?_) fun he => ?_
    · rw [isDots_of_append hne (isDots_iff.mpr (.inl he))] at hdots
      cases hdots
    · have hmarks := not_dots_of_marks n b
      rw [isDots_iff.mpr (.inl he)] at hmarks
      cases hmarks

/-- Of a path and its outline the same segments are proper. -/
theorem Alike.proper {a b : CodeUnits} (h : Alike a b) : Proper a ↔ Proper b := by
  have hdots : isDots a = isDots b := by
    cases h with
    | nil => rfl
    | literal h =>
      rw [Bool.eq_iff_iff, isDots_iff, isDots_iff, List.cons_eq_cons, List.cons_eq_cons, List.cons_eq_cons,
        List.cons_eq_cons, h.eq_nil, h.isDot]
    | @value text n a b hne htext _ =>
      rw [not_dots_of_marks, Bool.eq_false_iff]
      intro he
      rw [isDots_of_append hne he] at htext
      cases htext
  rw [Proper, Proper, ne_eq, ne_eq, h.eq_nil, hdots]

/-- What a text without a slash adds to the first segment. -/
theorem splitOn_append {text : CodeUnits} (h : SLASH ∉ text) (path : CodeUnits) :
    (text ++ path).splitOn SLASH = (path.splitOn SLASH).modifyHead (text ++ ·) := by
  induction text with
  | nil =>
    rw [List.nil_append]
    cases path.splitOn SLASH <;> rfl
  | cons u text ih =>
    obtain ⟨hu, htext⟩ := List.ne_and_not_mem_of_not_mem_cons h
    rw [List.cons_append, List.splitOn_cons_eq_if_modifyHead, if_neg (by simpa using hu.symm), ih htext,
      List.modifyHead_modifyHead]
    rfl

theorem modifyHead_alike {as bs : List CodeUnits} {f g : CodeUnits → CodeUnits} (h : List.Forall₂ Alike as bs)
    (hfg : ∀ a b, Alike a b → Alike (f a) (g b)) : List.Forall₂ Alike (as.modifyHead f) (bs.modifyHead g) := by
  cases h with
  | nil => exact .nil
  | cons h hrest => exact .cons (hfg _ _ h) hrest

/-- An encoded segment and its marks, before like segments. -/
theorem alike_value {segment text a b : CodeUnits} (h : encode segment = some text) (hdots : isDots segment = false)
    (hab : Alike a b) : Alike (text ++ a) (List.replicate segment.length MARK ++ b) := by
  cases segment with
  | nil =>
    cases encode_nil.symm.trans h
    exact hab
  | cons u segment =>
    have hne : text ≠ [] := by
      rintro rfl
      exact absurd (encode_injective h encode_nil) (List.cons_ne_nil _ _)
    refine .value hne ?_ hab
    rw [Bool.eq_false_iff]
    intro htext
    have hone : encode [unit '.'] = some [unit '.'] := by decide
    have htwo : encode [unit '.', unit '.'] = some [unit '.', unit '.'] := by decide
    rcases isDots_iff.mp htext with rfl | rfl
    · rw [encode_injective h hone] at hdots
      cases hdots
    · rw [encode_injective h htwo] at hdots
      cases hdots

theorem joinSegments_append (first second : CodeUnits) (more : List CodeUnits) (behind : CodeUnits) :
    joinSegments (first :: second :: more) ++ behind = first ++ SLASH :: (joinSegments (second :: more) ++ behind) := by
  simp [joinSegments, List.intercalate]

/-- The encoded segments of a value and their marks. -/
theorem alike_values {segments texts : List CodeUnits} (h : List.Forall₂ (fun segment text => encode segment = some text) segments texts)
    (hne : segments ≠ []) (hdots : ∀ segment ∈ segments, isDots segment = false) {path lines : CodeUnits}
    (hpath : List.Forall₂ Alike (path.splitOn SLASH) (lines.splitOn SLASH)) :
    List.Forall₂ Alike ((joinSegments texts ++ path).splitOn SLASH)
      ((joinSegments (segments.map fun segment => List.replicate segment.length MARK) ++ lines).splitOn SLASH) := by
  have hmarks : ∀ n, SLASH ∉ List.replicate n MARK := by
    intro n hmem
    exact absurd (List.eq_of_mem_replicate hmem) (by decide)
  induction h with
  | nil => exact absurd rfl hne
  | @cons segment text segments texts h hrest ih =>
    have hslash := slash_notMem h
    have hsegment := hdots segment List.mem_cons_self
    cases hrest with
    | nil =>
      rw [joinSegments, List.map_singleton, joinSegments, List.intercalate_singleton, List.intercalate_singleton,
        splitOn_append hslash, splitOn_append (hmarks _)]
      exact modifyHead_alike hpath fun a b hab => alike_value h hsegment hab
    | @cons segment' text' segments texts h' hrest =>
      have htail := ih (List.cons_ne_nil _ _) fun s hs => hdots s (List.mem_cons_of_mem _ hs)
      rw [joinSegments_append, List.map_cons, List.map_cons, joinSegments_append, List.splitOn_append_cons_self, List.splitOn_append_cons_self,
        List.splitOn_eq_singleton hslash, List.splitOn_eq_singleton (hmarks _), List.singleton_append,
        List.singleton_append]
      refine .cons ?_ (by rwa [List.map_cons] at htail)
      have halike := alike_value h hsegment Alike.nil
      rwa [List.append_nil, List.append_nil] at halike

/-- The path's segments and the outline's. -/
theorem alike_outline {parts : List Part} {path : CodeUnits} (h : expandParts values parts = some path)
    (hdots : rejectedName values parts = none) :
    List.Forall₂ Alike (path.splitOn SLASH) ((outline values parts).splitOn SLASH) := by
  induction parts generalizing path with
  | nil =>
    cases h
    exact .cons .nil .nil
  | cons part parts ih =>
    obtain ⟨text, rest, htext, hrest, rfl⟩ := expandParts_cons h
    cases part with
    | literal u =>
      cases htext
      have htail := ih hrest hdots
      rw [outline, List.singleton_append, List.splitOn_cons_eq_if_modifyHead, List.splitOn_cons_eq_if_modifyHead]
      split
      · exact .cons .nil htail
      · exact modifyHead_alike htail fun a b hab => .literal hab
    | param name wildcard =>
      rw [rejectedName] at hdots
      split at hdots
      · cases hdots
      · rename_i hany
        obtain ⟨texts, htexts, rfl⟩ := Option.map_eq_some_iff.mp htext
        have hne : segmentsOf values name wildcard ≠ [] := by
          rw [segmentsOf]
          split
          · exact List.splitOn_ne_nil _ _
          · exact List.cons_ne_nil _ _
        refine alike_values (forall₂_of_mapM htexts) hne (fun segment hmem => ?_) (ih hrest hdots)
        rw [Bool.eq_false_iff]
        exact fun he => hany (List.any_eq_true.mpr ⟨segment, hmem, he⟩)

/-- The path's segments are proper just when the outline's are. -/
theorem proper_segments_iff {parts : List Part} {path : CodeUnits} (h : expandParts values parts = some path)
    (hdots : rejectedName values parts = none) :
    (∀ segment ∈ pathSegments path, Proper segment) ↔ ∀ segment ∈ pathSegments (outline values parts), Proper segment := by
  have halike := alike_outline h hdots
  have hall : ∀ {as bs : List CodeUnits}, List.Forall₂ Alike as bs → ((∀ a ∈ as, Proper a) ↔ ∀ b ∈ bs, Proper b) := by
    intro as bs h
    induction h with
    | nil => exact Iff.rfl
    | cons h _ ih => rw [List.forall_mem_cons, List.forall_mem_cons, h.proper, ih]
  have hbehind : List.Forall₂ Alike (behindSlash (path.splitOn SLASH)) (behindSlash ((outline values parts).splitOn SLASH)) := by
    generalize path.splitOn SLASH = as at halike
    generalize (outline values parts).splitOn SLASH = bs at halike
    cases halike with
    | nil => exact .nil
    | @cons a b as bs h hrest =>
      cases a with
      | cons u a =>
        cases b with
        | nil => exact absurd (h.eq_nil.mpr rfl) (List.cons_ne_nil _ _)
        | cons v b => exact .cons h hrest
      | nil =>
        obtain rfl := h.eq_nil.mp rfl
        cases hrest with
        | nil => exact .cons h .nil
        | cons h' hrest => exact .cons h' hrest
  exact hall hbehind

/-! ### One cut -/

/-- The template's text behind a parameter, for any values: the same literal units up to a foreign one or the end. -/
theorem setApart_texts {wildcard : Bool} {parts : List Part} {path path' : CodeUnits} (h : setApart wildcard parts = true)
    (hpath : expandParts values parts = some path) (hpath' : expandParts others parts = some path') :
    ∃ literals, (path = literals ∧ path' = literals) ∨
      ∃ u rest rest', foreign wildcard u = true ∧ (∀ l ∈ literals, foreign wildcard l = false) ∧
        path = literals ++ u :: rest ∧ path' = literals ++ u :: rest' := by
  induction parts generalizing path path' with
  | nil =>
    cases hpath
    cases hpath'
    exact ⟨[], .inl ⟨rfl, rfl⟩⟩
  | cons part parts ih =>
    cases part with
    | param name wildcard' => cases h
    | literal u =>
      obtain ⟨text, rest, htext, hrest, rfl⟩ := expandParts_cons hpath
      obtain ⟨text', rest', htext', hrest', rfl⟩ := expandParts_cons hpath'
      cases htext
      cases htext'
      by_cases hu : foreign wildcard u = true
      · exact ⟨[], .inr ⟨u, rest, rest', hu, fun l hl => absurd hl List.not_mem_nil, rfl, rfl⟩⟩
      · rw [setApart, Bool.or_eq_true, or_iff_right hu] at h
        obtain ⟨literals, ⟨rfl, rfl⟩ | ⟨v, more, more', hv, hliterals, rfl, rfl⟩⟩ := ih h hrest hrest'
        · exact ⟨_, .inl ⟨rfl, rfl⟩⟩
        · refine ⟨u :: literals, .inr ⟨v, more, more', hv, fun l hl => ?_, rfl, rfl⟩⟩
          rcases List.mem_cons.mp hl with rfl | hl
          · simpa using hu
          · exact hliterals l hl

/-- What is in joined segments is in one of them, or it is a slash between two. -/
theorem mem_joinSegments {u : UInt16} : ∀ {segments : List CodeUnits}, u ∈ joinSegments segments →
    (u = SLASH ∧ 1 < segments.length) ∨ ∃ segment ∈ segments, u ∈ segment
  | [], h => by cases h
  | [segment], h => by
      rw [joinSegments, List.intercalate_singleton] at h
      exact .inr ⟨segment, List.mem_singleton_self segment, h⟩
  | first :: second :: more, h => by
      rw [← List.append_nil (joinSegments _), joinSegments_append, List.append_nil, List.mem_append, List.mem_cons] at h
      rcases h with h | rfl | h
      · exact .inr ⟨first, List.mem_cons_self, h⟩
      · exact .inl ⟨rfl, by simp⟩
      · rcases mem_joinSegments h with ⟨rfl, -⟩ | ⟨segment, hsegment, hu⟩
        · exact .inl ⟨rfl, by simp⟩
        · exact .inr ⟨segment, List.mem_cons_of_mem _ hsegment, hu⟩

/-- A value's text has no foreign unit. -/
theorem not_foreign {name text : CodeUnits} {wildcard : Bool} (h : expandPart values (.param name wildcard) = some text) :
    ∀ u ∈ text, foreign wildcard u = false := by
  obtain ⟨texts, htexts, rfl⟩ := Option.map_eq_some_iff.mp h
  intro u hu
  rcases mem_joinSegments hu with ⟨rfl, hlength⟩ | ⟨text, htext, hu⟩
  · cases wildcard with
    | true => decide
    | false =>
      have hone := (forall₂_of_mapM htexts).length_eq
      rw [← hone] at hlength
      exact absurd hlength (lt_irrefl 1)
  · obtain ⟨segment, -, hsegment⟩ := exists_of_mem_right (forall₂_of_mapM htexts) htext
    rw [foreign, written_of_mem hsegment hu]
    rfl

/-- Where each parameter is set apart, the text is of one list of values. -/
theorem oneCut_of_delimited {parts : List Part} {path : CodeUnits} (h : delimited parts = true)
    (hpath : expandParts values parts = some path) (hpath' : expandParts others parts = some path) :
    Agree parts values others := by
  induction parts generalizing path with
  | nil => exact fun _ _ hmem => absurd hmem List.not_mem_nil
  | cons part parts ih =>
    obtain ⟨text, rest, htext, hrest, rfl⟩ := expandParts_cons hpath
    obtain ⟨text', rest', htext', hrest', he⟩ := expandParts_cons hpath'
    cases part with
    | literal u =>
      cases htext
      cases htext'
      obtain rfl := (List.cons.inj he).2
      intro name wildcard hmem
      refine ih h hrest hrest' name wildcard ((List.mem_cons.mp hmem).resolve_left fun hne => ?_)
      cases hne
    | param name wildcard =>
      rw [delimited, Bool.and_eq_true] at h
      have hsame : text' = text := by
        obtain ⟨literals, ⟨rfl, rfl⟩ | ⟨u, more, more', hu, hliterals, rfl, rfl⟩⟩ := setApart_texts h.1 hrest hrest'
        · exact (List.append_cancel_right he).symm
        · have htake : ∀ {text more : CodeUnits}, (∀ l ∈ text, foreign wildcard l = false) →
              (text ++ (literals ++ u :: more)).takeWhile (fun l => !foreign wildcard l) = text ++ literals := by
            intro text more htext
            rw [← List.append_assoc, List.takeWhile_append_of_pos]
            · rw [List.takeWhile_cons_of_neg (by simp [hu]), List.append_nil]
            · intro l hl
              rcases List.mem_append.mp hl with hl | hl
              · simp [htext l hl]
              · simp [hliterals l hl]
          have hprefix := congrArg (List.takeWhile fun l => !foreign wildcard l) he
          rw [htake (not_foreign htext), htake (not_foreign htext')] at hprefix
          exact (List.append_cancel_right hprefix).symm
      subst hsame
      obtain rfl := List.append_cancel_left he
      intro other wildcard' hmem
      rcases List.mem_cons.mp hmem with hsame | hmem
      · cases hsame
        exact value_of_text htext htext'
      · exact ih h.2 hrest hrest' other wildcard' hmem

/-! ### Routes -/

/-- What is returned stays on the route just when the template and the values can be expanded. -/
theorem expand_path_iff (template : CodeUnits) (values : Values) :
    OnRoute template values ↔ Expandable (templateParts 0 template) values := by
  have hexpand : ∀ path, expandPath template values = some (.ok path) ↔
      expandParts values (templateParts 0 template) = some path ∧ rejectedName values (templateParts 0 template) = none := by
    intro path
    rw [expandPath, Option.map_eq_some_iff]
    constructor
    · rintro ⟨other, hother, h⟩
      split at h
      · cases h
      · rename_i hnone
        cases h
        exact ⟨hother, hnone⟩
    · rintro ⟨hpath, hnone⟩
      exact ⟨path, hpath, by rw [hnone]⟩
  constructor
  · intro h
    have hsome : (expandParts values (templateParts 0 template)).isSome := by
      have htotal := h.total
      rw [expandPath, ne_eq, Option.map_eq_none_iff] at htotal
      exact Option.isSome_iff_ne_none.mpr htotal
    refine ⟨expandParts_isSome.mp hsome, ?_⟩
    by_cases hrejected : rejectedName values (templateParts 0 template) = none
    · obtain ⟨path, hpath⟩ := Option.isSome_iff_exists.mp hsome
      have hreturned := (hexpand path).mpr ⟨hpath, hrejected⟩
      have hmatch := (h.recovered path hreturned values).mpr fun _ _ _ => rfl
      refine .inr ⟨hmatch.1, (proper_segments_iff hpath hrejected).mp (h.segments path hreturned), .inr ?_⟩
      intro others hfilled hsame
      exact (h.recovered path hreturned others).mp ⟨hfilled, hsame.trans hpath⟩
    · exact .inl hrejected
  · rintro ⟨hwell, hcases⟩
    obtain ⟨path, hpath⟩ := Option.isSome_iff_exists.mp (expandParts_isSome.mpr hwell)
    have hok : ∀ other, expandPath template values = some (.ok other) → other = path ∧
        rejectedName values (templateParts 0 template) = none := by
      intro other h
      obtain ⟨hother, hnone⟩ := (hexpand other).mp h
      exact ⟨Option.some.inj (hother.symm.trans hpath), hnone⟩
    refine ⟨?_, ?_, ?_⟩
    · rw [expandPath, hpath]
      exact Option.some_ne_none _
    · intro other hreturned others
      obtain ⟨rfl, hnone⟩ := hok other hreturned
      obtain ⟨hfilled, -, hcut⟩ := hcases.resolve_left fun hrejected => hrejected hnone
      constructor
      · rintro ⟨hfilled', hpath'⟩
        rcases hcut with hdelimited | hcut
        · exact oneCut_of_delimited hdelimited hpath hpath'
        · exact hcut others hfilled' (hpath'.trans hpath.symm)
      · intro hagree
        refine ⟨fun name hmem => ?_, (expandParts_congr hagree).trans hpath⟩
        rw [hagree name false hmem]
        exact hfilled name hmem
    · intro other hreturned
      obtain ⟨rfl, hnone⟩ := hok other hreturned
      obtain ⟨-, hproper, -⟩ := hcases.resolve_left fun hrejected => hrejected hnone
      exact (proper_segments_iff hpath hnone).mpr hproper

/-- The units of an ASCII text. -/
def ascii (text : String) : CodeUnits := text.toList.map unit

example : delimited (templateParts 0 (ascii "/clusters/\x7bid\x7d/kube_proxy/\x7bpath:*\x7d")) = true := by rfl

/-- An empty value makes an empty segment, and half a surrogate pair throws. -/
theorem empty_value_misroutes :
    expandPath (ascii "/clusters/{id}/pods") (fun _ => []) = some (.ok (ascii "/clusters//pods")) ∧
      ¬ OnRoute (ascii "/clusters/{id}/pods") (fun _ => []) ∧
      expandPath (ascii "/clusters/{id}/pods") (fun _ => [0xD800]) = none := by
  have hreturned : expandPath (ascii "/clusters/{id}/pods") (fun _ => []) = some (.ok (ascii "/clusters//pods")) := by
    rfl
  refine ⟨hreturned, fun h => ?_, by rfl⟩
  have hproper := h.segments _ hreturned [] (by decide)
  exact hproper.1 rfl

end Akua.Api
