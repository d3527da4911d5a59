import Akua.Lib.BestSoFar
import Akua.Lib.Disk
import Akua.Lib.Semver
import Akua.Sources

/-! Which version a Helm fetch selects and reports: of the index, the first of the highest versions that the
    requirement admits; from the cache, the requirement itself, as it is written. -/

namespace Akua

variable (P : Platform)

/-! ### Version texts -/

/-- The characters of a suffix's identifiers, with the dots between them. -/
def isSuffixChar (c : Char) : Bool := c.isAlphanum || c = '.' || c = '-'

theorem isSuffixChar_of_identifier {c : Char} (h : Semver.isIdentifierChar c = true) : isSuffixChar c = true := by
  rw [Semver.isIdentifierChar, Bool.or_eq_true] at h
  rw [isSuffixChar, Bool.or_eq_true, Bool.or_eq_true]
  exact h.imp .inl id

theorem suffixGroups_chars {cs : List Char} (h : ∀ c ∈ cs, isSuffixChar c = true) (hne : cs ≠ []) (more : List Char) :
    ∀ open_, suffixGroups open_ cs = true ∧ suffixGroups open_ (cs ++ '+' :: more) = suffixGroups true more := by
  induction cs with
  | nil => exact absurd rfl hne
  | cons c cs ih =>
    intro open_
    have hc : (c.isAlphanum || c = '.' || c = '-') = true := h c List.mem_cons_self
    rw [List.cons_append, suffixGroups, suffixGroups, if_pos hc, if_pos hc]
    by_cases hcs : cs = []
    · subst hcs
      exact ⟨rfl, rfl⟩
    · exact ih (fun d hd => h d (List.mem_cons_of_mem _ hd)) hcs false

theorem mapM_some {α β : Type} {f : α → Option β} : ∀ {l : List α} {m : List β}, l.mapM f = some m →
    ∀ x ∈ l, (f x).isSome
  | [], _, _, x, hx => absurd hx List.not_mem_nil
  | a :: l, m, h, x, hx => by
      rw [List.mapM_cons] at h
      obtain ⟨b, hb, h⟩ := Option.bind_eq_some_iff.mp h
      obtain ⟨bs, hbs, -⟩ := Option.bind_eq_some_iff.mp h
      rcases List.mem_cons.mp hx with rfl | hx
      · rw [hb]; rfl
      · exact mapM_some hbs x hx

/-- Identifiers that can be read are not empty and have only their characters. -/
theorem chars_of_identifiers {α : Type} {read : List Char → Option α}
    (hread : ∀ cs, (read cs).isSome → cs ≠ [] ∧ ∀ c ∈ cs, Semver.isIdentifierChar c = true)
    {cs : List Char} {ids : List α} (h : Semver.identifiers read cs = some ids) :
    cs ≠ [] ∧ ∀ c ∈ cs, isSuffixChar c = true := by
  have hpieces := mapM_some h
  constructor
  · rintro rfl
    exact (hread [] (hpieces [] (by simp))).1 rfl
  · intro c hc
    by_cases hdot : c = '.'
    · subst hdot; rfl
    · have hmem : c ∈ (String.ofList cs).toList := by simpa using hc
      obtain ⟨piece, hpiece, hcp⟩ := Text.mem_split_of_mem hmem hdot
      obtain ⟨list, hlist, rfl⟩ := List.mem_map.mp hpiece
      rw [String.toList_ofList] at hlist hcp
      exact isSuffixChar_of_identifier ((hread list (hpieces list hlist)).2 c hcp)

theorem chars_of_identifier (cs : List Char) (h : (Semver.identifier cs).isSome) :
    cs ≠ [] ∧ ∀ c ∈ cs, Semver.isIdentifierChar c = true := by
  rw [Semver.identifier] at h
  split at h
  · rename_i hdigits
    refine ⟨fun hnil => ?_, fun c hc => ?_⟩
    · subst hnil
      cases h
    · have hdigit := List.all_eq_true.mp hdigits c hc
      simp [Semver.isIdentifierChar, Char.isAlphanum, hdigit]
  · rename_i hdigits
    split at h
    · rename_i hchars
      refine ⟨?_, List.all_eq_true.mp hchars⟩
      rintro rfl
      exact hdigits rfl
    · cases h

theorem chars_of_buildIdentifier (cs : List Char) (h : (Semver.buildIdentifier cs).isSome) :
    cs ≠ [] ∧ ∀ c ∈ cs, Semver.isIdentifierChar c = true := by
  rw [Semver.buildIdentifier] at h
  split at h
  · rename_i hchars
    exact ⟨hchars.1, List.all_eq_true.mp hchars.2⟩
  · cases h

/-- What can stand behind the numbers of a version can stand behind those of an entry's. -/
theorem suffixGroups_of_suffix {rest : List Char} {read : List Semver.Identifier × List String}
    (h : Semver.suffix rest = some read) :
    rest = [] ∨ ∃ c cs, rest = c :: cs ∧ (c = '-' ∨ c = '+') ∧ suffixGroups true cs = true := by
  have hbuild : ∀ {cs : List Char} {ids : List String}, Semver.identifiers Semver.buildIdentifier cs = some ids →
      suffixGroups true cs = true := by
    intro cs ids hids
    obtain ⟨hne, hchars⟩ := chars_of_identifiers chars_of_buildIdentifier hids
    exact (suffixGroups_chars hchars hne [] true).1
  unfold Semver.suffix at h
  split at h
  · exact .inl rfl
  · rename_i cs
    obtain ⟨ids, hids, -⟩ := Option.map_eq_some_iff.mp h
    exact .inr ⟨'+', cs, rfl, .inr rfl, hbuild hids⟩
  · rename_i cs
    obtain ⟨ids, hids, h⟩ := Option.bind_eq_some_iff.mp h
    obtain ⟨hne, hchars⟩ := chars_of_identifiers chars_of_identifier hids
    refine .inr ⟨'-', cs, rfl, .inl rfl, ?_⟩
    have hsplit := List.takeWhile_append_dropWhile (p := (· ≠ '+')) (l := cs)
    split at h
    · rename_i hrest
      rw [hrest, List.append_nil] at hsplit
      rw [← hsplit]
      exact (suffixGroups_chars hchars hne [] true).1
    · rename_i plus rest hrest
      obtain ⟨build, hids', -⟩ := Option.map_eq_some_iff.mp h
      have hplus : plus = '+' := by
        have hhead := List.head?_dropWhile_not (fun c => decide (c ≠ '+')) cs
        rw [hrest] at hhead
        simpa using hhead
      rw [hrest, hplus] at hsplit
      rw [← hsplit, (suffixGroups_chars hchars hne rest true).2]
      exact hbuild hids'
  · cases h

/-- A version has the numbers that an entry must have. -/
theorem afterCore_of_parse {text : String} {v : Semver.Version} (h : Semver.parse text = some v) :
    ∃ rest, afterCore text.toList = some rest ∧ (Semver.suffix rest).isSome := by
  have hnumber : ∀ {cs : List Char} {read : ℕ × List Char}, Semver.leadingNumber cs = some read →
      cs.takeWhile Char.isDigit ≠ [] ∧ read.2 = cs.dropWhile Char.isDigit := by
    intro cs read hread
    obtain ⟨n, hn, rfl⟩ := Option.map_eq_some_iff.mp hread
    refine ⟨fun hnil => ?_, rfl⟩
    rw [hnil] at hn
    cases hn
  have hdot : ∀ {cs rest : List Char}, Semver.dot cs = some rest → cs = '.' :: rest := by
    intro cs rest hread
    unfold Semver.dot at hread
    split at hread
    · rw [Option.some.inj hread]
    · cases hread
  rw [Semver.parse] at h
  obtain ⟨⟨major, cs₁⟩, h₁, h⟩ := Option.bind_eq_some_iff.mp h
  obtain ⟨cs₂, h₂, h⟩ := Option.bind_eq_some_iff.mp h
  obtain ⟨⟨minor, cs₃⟩, h₃, h⟩ := Option.bind_eq_some_iff.mp h
  obtain ⟨cs₄, h₄, h⟩ := Option.bind_eq_some_iff.mp h
  obtain ⟨⟨patch, cs₅⟩, h₅, h⟩ := Option.bind_eq_some_iff.mp h
  obtain ⟨read, h₆, -⟩ := Option.bind_eq_some_iff.mp h
  refine ⟨cs₅, ?_, by rw [h₆]; rfl⟩
  have hafter₁ : text.toList.dropWhile Char.isDigit = '.' :: cs₂ := (hnumber h₁).2.symm.trans (hdot h₂)
  have hafter₃ : cs₂.dropWhile Char.isDigit = '.' :: cs₄ := (hnumber h₃).2.symm.trans (hdot h₄)
  have hafter₅ : cs₄.dropWhile Char.isDigit = cs₅ := (hnumber h₅).2.symm
  have hpass : ∀ {cs rest : List Char}, cs.takeWhile Char.isDigit ≠ [] → cs.dropWhile Char.isDigit = rest →
      (if cs.takeWhile Char.isDigit = [] then none else some (cs.dropWhile Char.isDigit)) = some rest := by
    intro cs rest hdigits hrest
    rw [if_neg hdigits, hrest]
  unfold afterCore
  refine Option.bind_eq_some_iff.mpr ⟨_, hpass (hnumber h₁).1 hafter₁, ?_⟩
  refine Option.bind_eq_some_iff.mpr ⟨_, rfl, ?_⟩
  refine Option.bind_eq_some_iff.mpr ⟨_, hpass (hnumber h₃).1 hafter₃, ?_⟩
  exact Option.bind_eq_some_iff.mpr ⟨_, rfl, hpass (hnumber h₅).1 hafter₅⟩

/-- Every version is an entry that is not skipped. -/
theorem isSemver_of_parse {text : String} (h : (Semver.parse text).isSome) : isSemver text = true := by
  obtain ⟨v, hv⟩ := Option.isSome_iff_exists.mp h
  obtain ⟨rest, hcore, hsuffix⟩ := afterCore_of_parse hv
  obtain ⟨read, hread⟩ := Option.isSome_iff_exists.mp hsuffix
  rw [isSemver, hcore]
  rcases suffixGroups_of_suffix hread with rfl | ⟨c, cs, rfl, hc, hgroups⟩
  · rfl
  · simpa [hgroups] using hc

/-- What is before the rest are digits and dots. -/
theorem afterCore_split {cs rest : List Char} (h : afterCore cs = some rest) :
    ∃ core, cs = core ++ rest ∧ ∀ c ∈ core, c.isDigit = true ∨ c = '.' := by
  have hnumber : ∀ {cs rest : List Char},
      (if cs.takeWhile Char.isDigit = [] then none else some (cs.dropWhile Char.isDigit)) = some rest →
        ∃ digits, cs = digits ++ rest ∧ ∀ c ∈ digits, c.isDigit = true ∨ c = '.' := by
    intro cs rest hread
    split at hread
    · cases hread
    · rw [← Option.some.inj hread]
      exact ⟨_, List.takeWhile_append_dropWhile.symm, fun c hc => .inl (List.all_eq_true.mp List.all_takeWhile c hc)⟩
  unfold afterCore at h
  obtain ⟨cs₁, h₁, h⟩ := Option.bind_eq_some_iff.mp h
  obtain ⟨cs₂, h₂, h⟩ := Option.bind_eq_some_iff.mp h
  obtain ⟨cs₃, h₃, h⟩ := Option.bind_eq_some_iff.mp h
  obtain ⟨cs₄, h₄, h₅⟩ := Option.bind_eq_some_iff.mp h
  obtain ⟨major, rfl, hmajor⟩ := hnumber h₁
  obtain ⟨cs₁', rfl⟩ : ∃ cs, cs₁ = '.' :: cs := by
    beta_reduce at h₂
    split at h₂
    · exact ⟨_, rfl⟩
    · cases h₂
  obtain rfl := Option.some.inj h₂
  obtain ⟨minor, rfl, hminor⟩ := hnumber h₃
  obtain ⟨cs₃', rfl⟩ : ∃ cs, cs₃ = '.' :: cs := by
    beta_reduce at h₄
    split at h₄
    · exact ⟨_, rfl⟩
    · cases h₄
  obtain rfl := Option.some.inj h₄
  obtain ⟨patch, rfl, hpatch⟩ := hnumber h₅
  refine ⟨major ++ '.' :: (minor ++ '.' :: patch), by simp, fun c hc => ?_⟩
  rw [List.mem_append, List.mem_cons, List.mem_append, List.mem_cons] at hc
  rcases hc with hc | hc | hc | hc | hc
  · exact hmajor c hc
  · exact .inr hc
  · exact hminor c hc
  · exact .inr hc
  · exact hpatch c hc

theorem chars_of_suffixGroups : ∀ {cs : List Char} {open_ : Bool}, suffixGroups open_ cs = true →
    ∀ c ∈ cs, isSuffixChar c = true ∨ c = '+'
  | [], _, _, _, hc => absurd hc List.not_mem_nil
  | d :: cs, open_, h, c, hc => by
      rw [suffixGroups] at h
      split at h
      · rename_i hd
        rcases List.mem_cons.mp hc with rfl | hc
        · exact .inl hd
        · exact chars_of_suffixGroups h c hc
      · simp only [Bool.and_eq_true, decide_eq_true_eq] at h
        rcases List.mem_cons.mp hc with rfl | hc
        · exact .inr h.1.1
        · exact chars_of_suffixGroups h.2 c hc

/-- The characters of an entry's version. -/
theorem chars_of_isSemver {text : String} (h : isSemver text = true) :
    ∀ c ∈ text.toList, isSuffixChar c = true ∨ c = '+' := by
  have hcoreChar : ∀ c : Char, c.isDigit = true ∨ c = '.' → isSuffixChar c = true ∨ c = '+' := by
    rintro c (hc | rfl)
    · exact .inl (by simp [isSuffixChar, Char.isAlphanum, hc])
    · exact .inl rfl
  rcases hcore : afterCore text.toList with _ | rest
  · simp [isSemver, hcore] at h
  obtain ⟨core, hsplit, hchars⟩ := afterCore_split hcore
  intro c hc
  rw [hsplit, List.mem_append] at hc
  rcases hc with hc | hc
  · exact hcoreChar c (hchars c hc)
  rcases rest with _ | ⟨d, cs⟩
  · cases hc
  have hsuffix : (d = '-' ∨ d = '+') ∧ suffixGroups true cs = true := by simpa [isSemver, hcore] using h
  rcases List.mem_cons.mp hc with rfl | hc
  · rcases hsuffix.1 with rfl | rfl
    · exact .inl rfl
    · exact .inr rfl
  · exact chars_of_suffixGroups hsuffix.2 c hc

theorem isSuffixChar_range {c : Char} (h : isSuffixChar c = true ∨ c = '+') : 0x21 ≤ c.toNat ∧ c.toNat ≤ 0x7e := by
  rcases h with h | rfl
  · rw [isSuffixChar, Bool.or_eq_true, Bool.or_eq_true, Text.isAlphanum_iff] at h
    rcases h with (h | h) | h
    · omega
    · obtain rfl := of_decide_eq_true h
      decide
    · obtain rfl := of_decide_eq_true h
      decide
  · decide

/-- An entry's version is a plain version, without white space. -/
theorem isPlainVersion_of_isSemver {text : String} (h : isSemver text = true) : isPlainVersion text = true := by
  have hline : ∀ c ∈ text.toList, c ∉ ['\n', '\r', '\u2028', '\u2029'] := by
    intro c hc hmem
    have hrange := isSuffixChar_range (chars_of_isSemver h c hc)
    simp only [List.mem_cons, List.not_mem_nil, or_false] at hmem
    rcases hmem with rfl | rfl | rfl | rfl <;> simp at hrange
  rcases hcore : afterCore text.toList with _ | rest
  · simp [isSemver, hcore] at h
  rcases rest with _ | ⟨c, cs⟩
  · simp [isPlainVersion, hcore]
  · obtain ⟨core, hsplit, -⟩ := afterCore_split hcore
    have hsuffix : (c = '-' ∨ c = '+') ∧ suffixGroups true cs = true := by simpa [isSemver, hcore] using h
    have hall : ∀ d ∈ cs, d ∉ ['\n', '\r', '\u2028', '\u2029'] := fun d hd => hline d (by rw [hsplit]; simp [hd])
    simp only [isPlainVersion, hcore, Bool.and_eq_true, Bool.or_eq_true, decide_eq_true_eq, List.all_eq_true]
    exact ⟨hsuffix.1, hall⟩

theorem trim_eq_self {text : String} (h : ∀ c ∈ text.toList, isSpace c = false) : trim text = text := by
  have hstart : ∀ cs : List Char, (∀ c ∈ cs, isSpace c = false) → cs.dropWhile isSpace = cs := by
    intro cs hcs
    rcases cs with _ | ⟨c, cs⟩
    · rfl
    · exact List.dropWhile_cons_of_neg (by simp [hcs c List.mem_cons_self])
  rw [trim, hstart _ h, hstart _ fun c hc => h c (List.mem_reverse.mp hc), List.reverse_reverse, String.ofList_toList]

/-- A requirement that is a version, or one behind `v`, is the range of that version alone. -/
theorem versionRange_of_version {requirement : String} (h : isSemver (Text.stripPrefix requirement "v") = true) :
    versionRange requirement = "=" ++ Text.stripPrefix requirement "v" := by
  have hspace : ∀ c ∈ requirement.toList, isSpace c = false := by
    intro c hc
    have hchar : (isSuffixChar c = true ∨ c = '+') ∨ c = 'v' := by
      by_cases hv : Text.startsWith requirement "v"
      · obtain ⟨rest, rfl⟩ := Text.startsWith_iff.mp hv
        rw [Text.stripPrefix_append] at h
        rw [String.toList_append, List.mem_append] at hc
        rcases hc with hc | hc
        · exact .inr (by simpa using hc)
        · exact .inl (chars_of_isSemver h c hc)
      · rw [Text.stripPrefix, if_neg hv] at h
        exact .inl (chars_of_isSemver h c hc)
    have hrange : 0x21 ≤ c.toNat ∧ c.toNat ≤ 0x7e := by
      rcases hchar with hchar | rfl
      · exact isSuffixChar_range hchar
      · decide
    simp only [isSpace, List.mem_cons, List.not_mem_nil, or_false, Bool.or_eq_false_iff, decide_eq_false_iff_not,
      Bool.and_eq_false_iff]
    omega
  rw [versionRange, trim_eq_self hspace]
  simp only [isPlainVersion_of_isSemver h, if_true]

/-! ### Selecting -/

/-- What is documented of `Bun.semver`: only versions satisfy a range, `=version` admits the versions of its
    precedence, and `order` compares precedence. -/
structure SemverLaws (P : Platform) : Prop where
  valid : ∀ {version range}, P.semverSatisfies version range = true → (Semver.parse version).isSome
  exact : ∀ {version other v w}, Semver.parse version = some v → Semver.parse other = some w →
    P.semverSatisfies version ("=" ++ other) = decide (v.precedence = w.precedence)
  order : ∀ {version other v w}, Semver.parse version = some v → Semver.parse other = some w →
    P.semverGreater version other = decide (w.precedence < v.precedence)

/-- The precedence of a text, below all others when it is no version. -/
def precedence (version : String) : WithBot Semver.Precedence :=
  match Semver.parse version with
  | none => ⊥
  | some v => v.precedence

/-- What is kept of an entry. -/
def selectedOf (entry : IndexEntry) : SelectedVersion where
  version := Text.stripPrefix entry.version "v"
  url := entry.urls.bind fun urls => urls.bind List.head?

/-- The pass of `selectVersion` over the entries of a chart. -/
def bestEntry (requirement : String) : Option IndexEntry → IndexEntry → Option IndexEntry :=
  BestSoFar.keep (fun entry => satisfies P requirement entry.version) fun entry => precedence (selectedOf entry).version

section Select

variable {P} (laws : SemverLaws P) {requirement : String}
include laws

theorem parse_of_satisfies {version : String} (h : satisfies P requirement version = true) :
    ∃ v, Semver.parse (Text.stripPrefix version "v") = some v := by
  rw [satisfies, Bool.and_eq_true] at h
  exact Option.isSome_iff_exists.mp (laws.valid h.2)

theorem betterVersion_selectedOf {best : Option IndexEntry}
    (hbest : ∀ b, best = some b → satisfies P requirement b.version = true) (entry : IndexEntry) :
    betterVersion P requirement (best.map selectedOf) entry = (bestEntry P requirement best entry).map selectedOf := by
  rw [betterVersion, bestEntry, BestSoFar.keep]
  by_cases hsat : satisfies P requirement entry.version = true
  · obtain ⟨v, hv⟩ := parse_of_satisfies laws hsat
    have hgreater : (best.map selectedOf).all (fun b => P.semverGreater (Text.stripPrefix entry.version "v") b.version) =
        best.all fun b => decide (precedence (selectedOf b).version < precedence (selectedOf entry).version) := by
      cases best with
      | none => rfl
      | some b =>
        obtain ⟨w, hw⟩ := parse_of_satisfies laws (hbest b rfl)
        have horder := laws.order hv hw
        simp only [Option.map_some, Option.all_some, selectedOf, precedence, hv, hw, horder, WithBot.coe_lt_coe]
    rw [hsat, Bool.true_and, hgreater, Bool.true_and]
    split <;> rfl
  · rw [Bool.not_eq_true] at hsat
    rw [hsat, Bool.false_and, Bool.false_and, if_neg Bool.false_ne_true, if_neg Bool.false_ne_true]

theorem foldl_betterVersion (entries : List IndexEntry) :
    entries.foldl (betterVersion P requirement) none = (entries.foldl (bestEntry P requirement) none).map selectedOf := by
  induction entries using List.reverseRecOn with
  | nil => rfl
  | append_singleton entries entry ih =>
    rw [List.foldl_append, List.foldl_append, List.foldl_cons, List.foldl_cons, List.foldl_nil, List.foldl_nil, ih]
    exact betterVersion_selectedOf laws (fun b hb => ((BestSoFar.foldl_keep_spec entries).1 b hb).mem.2) entry

end Select

/-- The entries of a chart. -/
def chartEntries (index : RepositoryIndex) (chart : String) : Option (List IndexEntry) :=
  index.entries.bind fun entries => (entries.get? chart).bind id

/-- The version that a requirement without comparators names. -/
def plainVersion (requirement : String) : String := Text.stripPrefix (trim requirement) "v"

/-- The first entry of a version's precedence: the version itself, or one that differs in its build. -/
def firstOf (entries : List IndexEntry) (version : String) : Option IndexEntry :=
  entries.find? fun entry => precedence (selectedOf entry).version = precedence version

/-- A selection is an entry that the requirement admits, none it admits is higher, and in another order of the
    entries one of the same precedence is selected. -/
structure Selects (requirement : String) (entries : List IndexEntry) (version url : String) : Prop where
  entry : ∃ entry ∈ entries, satisfies P requirement entry.version = true ∧ selectedOf entry = ⟨version, some url⟩
  highest : ∀ entry ∈ entries, satisfies P requirement entry.version = true →
    P.semverGreater (selectedOf entry).version version = false
  order : ∀ entries' : List IndexEntry, entries'.Perm entries → ∃ best,
    entries'.foldl (betterVersion P requirement) none = some best ∧ precedence best.version = precedence version

section Selects

variable {P} (laws : SemverLaws P) {requirement version url : String} {entries : List IndexEntry}

theorem selectVersion_ok {index : RepositoryIndex} {chart : String}
    (h : selectVersion P index chart requirement = .ok (version, url)) :
    ∃ entries, chartEntries index chart = some entries ∧
      entries.foldl (betterVersion P requirement) none = some ⟨version, some url⟩ := by
  unfold selectVersion at h
  rcases hentries : chartEntries index chart with _ | entries <;> rw [chartEntries] at hentries <;>
    simp only [hentries] at h
  · cases h
  refine ⟨entries, rfl, ?_⟩
  rcases hbest : entries.foldl (betterVersion P requirement) none with _ | ⟨best, found⟩ <;>
    simp only [hbest] at h
  · cases h
  rcases found with _ | found
  · cases h
  · obtain ⟨rfl, rfl⟩ := Prod.mk.inj (Except.ok.inj h)
    rfl

include laws

/-- What is selected is the first of the highest entries that the requirement admits. -/
theorem first_of_selected (h : entries.foldl (betterVersion P requirement) none = some ⟨version, some url⟩) :
    ∃ entry, selectedOf entry = ⟨version, some url⟩ ∧
      BestSoFar.First (fun entry => satisfies P requirement entry.version)
        (fun entry => precedence (selectedOf entry).version) entries entry := by
  rw [foldl_betterVersion laws] at h
  obtain ⟨entry, hentry, hselected⟩ := Option.map_eq_some_iff.mp h
  exact ⟨entry, hselected, (BestSoFar.foldl_keep_spec entries).1 entry hentry⟩

theorem selects_of_selected (h : entries.foldl (betterVersion P requirement) none = some ⟨version, some url⟩) :
    Selects P requirement entries version url := by
  obtain ⟨entry, hselected, hfirst⟩ := first_of_selected laws h
  have hversion : (selectedOf entry).version = version := by rw [hselected]
  refine ⟨⟨entry, hfirst.mem.1, hfirst.mem.2, hselected⟩, fun other hother hsat => ?_, fun entries' hperm => ?_⟩
  · obtain ⟨v, hv⟩ := parse_of_satisfies laws hfirst.mem.2
    obtain ⟨w, hw⟩ := parse_of_satisfies laws hsat
    have hle := hfirst.le hother hsat
    have horder := laws.order hw hv
    rw [← hversion]
    simp only [precedence, selectedOf, hv, hw, WithBot.coe_le_coe] at hle
    simp only [selectedOf, horder, decide_eq_false_iff_not]
    exact not_lt_of_ge hle
  · rw [foldl_betterVersion laws] at h
    obtain ⟨best, hbest, hmap⟩ := Option.map_eq_some_iff.mp h
    obtain ⟨best', hbest', hscore⟩ := BestSoFar.foldl_keep_perm hperm hbest
    refine ⟨selectedOf best', ?_, ?_⟩
    · rw [foldl_betterVersion laws, bestEntry, hbest', Option.map_some]
    · rw [hscore, hmap]

/-- A requirement that names a version admits the entries of its precedence. -/
theorem satisfies_plain {w : Semver.Version} (hplain : Semver.parse (plainVersion requirement) = some w)
    (entry : IndexEntry) : satisfies P requirement entry.version = true ↔
      precedence (selectedOf entry).version = precedence (plainVersion requirement) := by
  have hrange : versionRange requirement = "=" ++ plainVersion requirement := by
    have hshape := isPlainVersion_of_isSemver (isSemver_of_parse (Option.isSome_iff_exists.mpr ⟨w, hplain⟩))
    rw [plainVersion] at hshape
    rw [versionRange, plainVersion]
    simp only [hshape, if_true]
  rw [satisfies, hrange, Bool.and_eq_true, precedence, precedence, hplain, selectedOf]
  simp only
  rcases hv : Semver.parse (Text.stripPrefix entry.version "v") with _ | v
  · constructor
    · rintro ⟨-, hsat⟩
      have hvalid := laws.valid hsat
      rw [hv] at hvalid
      cases hvalid
    · exact fun h => absurd h WithBot.bot_ne_coe
  · rw [laws.exact hv hplain, decide_eq_true_eq]
    constructor
    · exact fun h => congrArg _ h.2
    · exact fun h => ⟨isSemver_of_parse (Option.isSome_iff_exists.mpr ⟨v, hv⟩), WithBot.coe_injective h⟩

/-- For a requirement that names a version, it is selected when it is the first of its precedence. -/
theorem selected_plain_iff {w : Semver.Version} (hplain : Semver.parse (plainVersion requirement) = some w)
    (h : entries.foldl (betterVersion P requirement) none = some ⟨version, some url⟩) :
    version = plainVersion requirement ↔
      (firstOf entries (plainVersion requirement)).map (fun entry => (selectedOf entry).version) =
        some (plainVersion requirement) := by
  obtain ⟨entry, hselected, before, after, rfl, hentry, hbefore, -⟩ := first_of_selected laws h
  have hsame := satisfies_plain laws hplain
  have hfirst : firstOf (before ++ entry :: after) (plainVersion requirement) = some entry := by
    rw [firstOf, List.find?_append, List.find?_eq_none.mpr, Option.none_or, List.find?_cons_of_pos]
    · simpa using (hsame entry).mp hentry
    · intro other hother hprecedence
      have hsat := (hsame other).mpr (by simpa using hprecedence)
      have hlt : precedence (selectedOf other).version < precedence (selectedOf entry).version :=
        hbefore other hother hsat
      rw [(hsame other).mp hsat, (hsame entry).mp hentry] at hlt
      exact lt_irrefl _ hlt
  rw [hfirst, Option.map_some, hselected, Option.some_inj]

end Selects

/-! ### Fetching -/

/-- The directory has a chart. -/
def chartThere {φ : Type} [FileSystem φ] (fs : φ) (directory : FilePath) : Bool :=
  (FileSystem.fileExists (FilePath.join directory "Chart.yaml") fs : Except PlatformError Bool).toOption.getD false

/-- The chart is in the slot of its pin. -/
def ChartCached {φ : Type} [FileSystem φ] (request : ChartRequest) (fs : φ) : Prop :=
  ∃ pin, request.pin = some pin ∧
    (chartThere fs (FilePath.join (helmSlot P pin) request.chart) = true ∨ chartThere fs (helmSlot P pin) = true)

section Fetch

variable {φ : Type} [FileSystem φ] {request : ChartRequest} {w w' : World φ} {fetched : FetchedChart}

theorem cachedChart_run {ε : Type} (digest chart : String) (w : World φ) :
    ∃ found trace, (cachedChart P digest chart : Run φ ε (Option FilePath)) w = (.ok found, { w with trace }) ∧
      (found.isSome ↔ chartThere w.fs (FilePath.join (helmSlot P digest) chart) = true ∨
        chartThere w.fs (helmSlot P digest) = true) := by
  have hlog : (Run.log (.cacheSlot (cacheRoot P .helm) (helmSlot P digest)) : Run φ ε Unit) w =
      (.ok (), { w with trace := .cacheSlot (cacheRoot P .helm) (helmSlot P digest) :: w.trace }) := rfl
  have hthere : ∀ (directory : FilePath) (w : World φ), ((FileSystem.fileExists
      (FilePath.join directory "Chart.yaml")).orElseSucceed false : Reading φ ε Bool) w.fs =
        .ok (chartThere w.fs directory) := fun _ _ => rfl
  rw [cachedChart, Effect.bind_of_ok hlog, Run.read_bind_of_ok (hthere _ _)]
  by_cases hnested : chartThere w.fs (FilePath.join (helmSlot P digest) chart) = true
  · rw [if_pos hnested]
    exact ⟨_, _, rfl, by simp [hnested]⟩
  · rw [if_neg hnested, Run.read_bind_of_ok (hthere _ _)]
    refine ⟨_, _, rfl, ?_⟩
    by_cases hroot : chartThere w.fs (helmSlot P digest) = true
    · simp [hroot]
    · simp [hnested, hroot]

/-- The look at the cache finds the chart of the pin, and changes nothing but the log. -/
theorem helmFetch_lookup (request : ChartRequest) (w : World φ) :
    ∃ hit trace, (onPin request.pin (fun pin => do
      let directory ← cachedChart P pin request.chart
      pure (directory.map fun directory => (directory, pin))) : Run φ HelmRepositoryFailed _) w =
        (.ok hit, { w with trace }) ∧ (hit.isSome ↔ ChartCached P request w.fs) := by
  rcases hpin : request.pin with _ | pin
  · exact ⟨none, w.trace, rfl, by simp [ChartCached, hpin]⟩
  · obtain ⟨found, trace, hcached, hfound⟩ :=
      cachedChart_run P pin request.chart w (ε := HelmRepositoryFailed)
    refine ⟨found.map fun directory => (directory, pin), trace, ?_, ?_⟩
    · rw [onPin, Effect.bind_of_ok hcached]
      rfl
    · rw [ChartCached, hpin, Option.isSome_map, hfound]
      simp

/-- A fetch that succeeds found the chart in the cache and reports the requirement, or reports what it
    selected from an index. -/
theorem helmFetch_version (h : helmFetch P request w = (.ok fetched, w')) :
    (ChartCached P request w.fs ∧ fetched.version = request.version) ∨
      (¬ ChartCached P request w.fs ∧ ∃ index url,
        selectVersion P index request.chart request.version = .ok (fetched.version, url)) := by
  rw [helmFetch] at h
  obtain ⟨hit, trace, hlookup, hhit⟩ := helmFetch_lookup P request w
  rw [Effect.bind_of_ok hlookup] at h
  rcases hit with _ | ⟨directory, pin⟩
  · refine .inr ⟨fun hcached => (by cases hhit.mpr hcached), ?_⟩
    simp only at h
    split at h
    · cases h
    obtain ⟨bytes, w₁, -, h⟩ := Effect.bind_ok.mp h
    obtain ⟨index, -, h⟩ := Effect.ofExcept_bind_ok.mp h
    obtain ⟨⟨version, url⟩, hselect, h⟩ := Effect.ofExcept_bind_ok.mp h
    have hselect := except_mapError_ok.mp hselect
    obtain ⟨download, -, h⟩ := Effect.ofExcept_bind_ok.mp h
    obtain ⟨tarball, w₂, -, h⟩ := Effect.bind_ok.mp h
    split at h
    · cases h
    obtain ⟨entries, -, h⟩ := Effect.ofExcept_bind_ok.mp h
    obtain ⟨_, w₃, -, h⟩ := Effect.bind_ok.mp h
    obtain ⟨_, w₄, -, h⟩ := Effect.bind_ok.mp h
    obtain ⟨directory, w₅, -, h⟩ := Effect.bind_ok.mp h
    rcases directory with _ | directory
    · cases h
    · obtain ⟨hfetched, -⟩ := Prod.mk.inj h
      rw [← Except.ok.inj hfetched]
      exact ⟨index, url, hselect⟩
  · obtain ⟨hfetched, -⟩ := Prod.mk.inj h
    rw [← Except.ok.inj hfetched]
    exact .inl ⟨hhit.mp rfl, rfl⟩

end Fetch

/-! ### Exact versions -/

/-- An entry's version does not start with `v`. -/
theorem stripPrefix_of_isSemver {text : String} (h : isSemver text = true) : Text.stripPrefix text "v" = text := by
  rw [Text.stripPrefix]
  split
  · rename_i hv
    obtain ⟨rest, rfl⟩ := Text.startsWith_iff.mp hv
    simp [isSemver, afterCore] at h
  · rfl

variable {P}

theorem satisfies_selectedOf {requirement : String} {entry : IndexEntry}
    (h : satisfies P requirement entry.version = true) :
    satisfies P requirement (selectedOf entry).version = true := by
  have hsemver : isSemver (Text.stripPrefix entry.version "v") = true := by
    rw [satisfies, Bool.and_eq_true] at h
    exact h.1
  rw [satisfies, selectedOf, stripPrefix_of_isSemver hsemver]
  exact h

/-- A requirement is a version that it admits exactly when it is a version. -/
theorem satisfies_self_iff (laws : SemverLaws P) (requirement : String) :
    satisfies P requirement requirement = true ↔ (Semver.parse (Text.stripPrefix requirement "v")).isSome := by
  constructor
  · intro h
    exact Option.isSome_iff_exists.mpr (parse_of_satisfies laws h)
  · intro h
    obtain ⟨v, hv⟩ := Option.isSome_iff_exists.mp h
    have hsemver := isSemver_of_parse h
    rw [satisfies, hsemver, versionRange_of_version hsemver, Bool.true_and, laws.exact hv hv]
    exact decide_eq_true rfl

/-- A selection is a highest entry that the requirement admits, whatever the order of the entries; for a
    requirement that names a version it is that version exactly when the first entry of its precedence is. What
    a fetch reports from a download is selected so, and what it reports at all is a version that the
    requirement admits exactly when the chart is not cached or the requirement itself is a version. -/
theorem helm_version_exact (laws : SemverLaws P) :
    (∀ index chart requirement version url, selectVersion P index chart requirement = .ok (version, url) →
      ∃ entries, chartEntries index chart = some entries ∧ Selects P requirement entries version url ∧
        ((Semver.parse (plainVersion requirement)).isSome → (version = plainVersion requirement ↔
          (firstOf entries (plainVersion requirement)).map (fun entry => (selectedOf entry).version) =
            some (plainVersion requirement)))) ∧
    ∀ (φ : Type) [FileSystem φ] (request : ChartRequest) (w w' : World φ) (fetched : FetchedChart),
      helmFetch P request w = (.ok fetched, w') →
        (¬ ChartCached P request w.fs → ∃ index url,
          selectVersion P index request.chart request.version = .ok (fetched.version, url)) ∧
        (satisfies P request.version fetched.version = true ↔
          (ChartCached P request w.fs → (Semver.parse (Text.stripPrefix request.version "v")).isSome)) := by
  constructor
  · intro index chart requirement version url h
    obtain ⟨entries, hentries, hbest⟩ := selectVersion_ok h
    refine ⟨entries, hentries, selects_of_selected laws hbest, fun hplain => ?_⟩
    obtain ⟨v, hv⟩ := Option.isSome_iff_exists.mp hplain
    exact selected_plain_iff laws hv hbest
  · intro φ _ request w w' fetched h
    rcases helmFetch_version P h with ⟨hcached, hversion⟩ | ⟨hcached, index, url, hselect⟩
    · refine ⟨fun hnot => absurd hcached hnot, ?_⟩
      rw [hversion, satisfies_self_iff laws]
      exact ⟨fun hself _ => hself, fun hself => hself hcached⟩
    · refine ⟨fun _ => ⟨index, url, hselect⟩, iff_of_true ?_ fun hc => absurd hc hcached⟩
      obtain ⟨entries, -, hbest⟩ := selectVersion_ok hselect
      obtain ⟨entry, hselected, hfirst⟩ := first_of_selected laws hbest
      have hsat := satisfies_selectedOf hfirst.mem.2
      rwa [hselected] at hsat

/-- Two version texts that compare by their precedence so. -/
def comparesSo (compare : Semver.Precedence → Semver.Precedence → Bool) (version other : String) : Bool :=
  match Semver.parse version, Semver.parse other with
  | some v, some w => compare v.precedence w.precedence
  | _, _ => false

/-- A platform whose ranges are single versions. -/
def semverPlatform : Platform := { Platform.ofTables [] [] [] [] with
  semverSatisfies := fun version range =>
    Text.startsWith range "=" && comparesSo (fun a b => decide (a = b)) version (Text.after range "=")
  semverGreater := comparesSo fun a b => decide (b < a) }

theorem semverPlatform_laws : SemverLaws semverPlatform where
  valid := by
    intro version range h
    rcases hv : Semver.parse version with _ | v
    · simp [semverPlatform, comparesSo, hv] at h
    · rfl
  exact := by
    intro version other v w hv hw
    simp [semverPlatform, comparesSo, hv, hw]
  order := by
    intro version other v w hv hw
    simp [semverPlatform, comparesSo, hv, hw]

/-- Of a higher, a lower and the wanted version, the wanted one. -/
theorem wanted_version_selected :
    ∃ entries, chartEntries { entries := some (Table.empty.set "web" (some [{ version := "1.3.0" },
        { version := "v1.2.3", urls := some (some ["web.tgz"]) }, { version := "1.2.2" }])) } "web" = some entries ∧
      Selects semverPlatform "v1.2.3" entries "1.2.3" "web.tgz" := by
  have hall := (helm_version_exact semverPlatform_laws).1 { entries := some (Table.empty.set "web"
    (some [{ version := "1.3.0" }, { version := "v1.2.3", urls := some (some ["web.tgz"]) },
      { version := "1.2.2" }])) } "web" "v1.2.3" "1.2.3" "web.tgz" (by decide)
  obtain ⟨entries, hentries, hselects, -⟩ := hall
  exact ⟨entries, hentries, hselects⟩

/-- A chart in the cache, asked for by a range. -/
def cachedRange : ChartRequest where
  repository := "https://charts"
  chart := "web"
  version := ">=1.0.0"
  pin := some "sha256:aa"
  offline := true

def cachedWeb : World Disk where
  fs := ⟨Table.empty.set [".akua", "cache", "helm", "aa", "web", "Chart.yaml"] (.file [] 0o644)⟩

/-- The version `1.2.3+a` selects the build `1.2.3+b`; and from the cache a fetch reports its range. -/
theorem range_reported :
    (selectVersion semverPlatform { entries := some (Table.empty.set "web"
        (some [{ version := "1.2.3+b", urls := some (some ["web.tgz"]) }])) } "web" "1.2.3+a" =
      .ok ("1.2.3+b", "web.tgz") ∧ plainVersion "1.2.3+a" ≠ "1.2.3+b") ∧
    ((helmFetch semverPlatform cachedRange cachedWeb).1.map FetchedChart.version = .ok ">=1.0.0" ∧
      satisfies semverPlatform ">=1.0.0" ">=1.0.0" = false) := by
  decide

end Akua
