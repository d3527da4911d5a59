import Akua.GitUrls
import Akua.Lib.LongestPrefix
import Akua.Lib.Utf8
import Akua.RustResolver
import Akua.Vendor

/-! Which credential a URL gets: that of the longest key of the auth map that covers the URL's match
    key, in both implementations. -/

namespace Akua

open LongestPrefix (longest longest_eq_some_iff longest_isSome)

/-! ### The match key -/

namespace Rust

/-- `host[:port]/path` with no trailing `/`; none when the URL has no host. -/
def matchKey (url : String) : Option String :=
  let afterUserinfo := stripUserinfo (stripScheme url)
  if afterUserinfo = "" then none else some (Text.trimEnd afterUserinfo '/')

/-- True when `start` is a path-aware prefix of `key`. -/
def prefixMatches (key start : String) : Bool :=
  if !Text.startsWith key start then false
  else if (encodeText key).length = (encodeText start).length then true
  else
    let next := (encodeText key)[(encodeText start).length]?
    next = some 0x2f || next = some 0x3a

/-- The credential whose key is the longest prefix of the URL's scheme-less form. -/
def lookup (map : HostAuthMap) (url : String) : Option BasicAuth :=
  if map.entries = [] then none
  else
    (matchKey url).bind fun key =>
      let prefixes := map.keys.insertionSort fun a b => (encodeText b).length ≤ (encodeText a).length
      (prefixes.find? (prefixMatches key)).bind map.get?

end Rust

theorem stripScheme_eq (url : String) :
    Rust.stripScheme url = ((Text.cut url "://").map Prod.snd).getD url := by
  rw [Rust.stripScheme]
  cases Text.cut url "://" <;> rfl

theorem matchKey_eq (url : String) :
    matchKey url = Text.trimEnd (Rust.stripUserinfo (Rust.stripScheme url)) '/' := by
  have hrest : ∀ rest : String, Rust.stripUserinfo rest =
      ((Text.cutLast (String.ofList (rest.toList.takeWhile (· ≠ '/'))) '@').map Prod.snd).getD
        (String.ofList (rest.toList.takeWhile (· ≠ '/'))) ++
      String.ofList (rest.toList.dropWhile (· ≠ '/')) := by
    intro rest
    apply String.toList_inj.mp
    rw [toList_stripUserinfo, String.toList_append, Text.cutLast_snd, String.toList_ofList,
      String.toList_ofList, String.toList_ofList]
  rw [hrest, stripScheme_eq]
  rfl

theorem rustMatchKey_eq (url : String) : Rust.matchKey url =
    if Rust.stripUserinfo (Rust.stripScheme url) = "" then none else some (matchKey url) := by
  rw [Rust.matchKey, matchKey_eq]

/-- The match key of a URL says nothing of its scheme and its user info. -/
theorem matchKey_url {scheme user host path : String} (hs : '/' ∉ scheme.toList) (hu : '/' ∉ user.toList)
    (hh : '/' ∉ host.toList) (ha : '@' ∉ host.toList)
    (hp : path.toList = [] ∨ ∃ t, path.toList = '/' :: t) :
    matchKey (scheme ++ "://" ++ user ++ "@" ++ host ++ path) = Text.trimEnd (host ++ path) '/' ∧
      matchKey (scheme ++ "://" ++ host ++ path) = Text.trimEnd (host ++ path) '/' := by
  have hafter : ∀ rest : String, matchKey (scheme ++ "://" ++ rest) =
      Text.trimEnd (Rust.stripUserinfo rest) '/' := by
    intro rest
    have hcut := Text.cutList_of_not_mem (p := ['/']) hs (by decide : ':' ≠ '/') rest.toList
    rw [matchKey_eq, Rust.stripScheme, Text.cut, String.toList_append, String.toList_append,
      show "://".toList = ':' :: '/' :: ['/'] by rfl, hcut]
    simp
  have hhost : ∀ before : List Char, '/' ∉ before → (before = [] ∨ ∃ u, before = u ++ ['@']) →
      Text.trimEnd (Rust.stripUserinfo (String.ofList before ++ (host ++ path))) '/' =
        Text.trimEnd (host ++ path) '/' := by
    intro before hslash hbefore
    have hself : host.toList.rtakeWhile (· ≠ '@') = host.toList :=
      List.rtakeWhile_eq_self_iff.mpr fun x hx => by
        rw [decide_eq_true_eq]
        rintro rfl
        exact ha hx
    have htaken : (before ++ host.toList).rtakeWhile (· ≠ '@') = host.toList := by
      rcases hbefore with rfl | ⟨u, rfl⟩
      · exact hself
      · rw [List.append_assoc, List.singleton_append, Text.rtakeWhile_append_cons (by simp), hself]
    have hauthority : '/' ∉ before ++ host.toList := by simp [hslash, hh]
    have hstripped : Rust.stripUserinfo (String.ofList before ++ (host ++ path)) = host ++ path := by
      apply String.toList_inj.mp
      rw [toList_stripUserinfo, String.toList_append, String.toList_ofList, String.toList_append,
        ← List.append_assoc, (Text.takeWhile_append_of_not_mem hauthority hp).1,
        (Text.takeWhile_append_of_not_mem hauthority hp).2, htaken]
    rw [hstripped]
  constructor
  · have htext : scheme ++ "://" ++ user ++ "@" ++ host ++ path =
        scheme ++ "://" ++ (String.ofList (user.toList ++ ['@']) ++ (host ++ path)) := by
      apply String.toList_inj.mp
      simp
    rw [htext, hafter, hhost _ (by simp [hu]) (.inr ⟨_, rfl⟩)]
  · have htext : scheme ++ "://" ++ host ++ path = scheme ++ "://" ++ (String.ofList [] ++ (host ++ path)) := by
      apply String.toList_inj.mp
      simp
    rw [htext, hafter, hhost [] (by simp) (.inl rfl)]

/-! ### Keys that cover a match key -/

/-- A key of an auth map covers a match key: it is the match key, or a prefix of it that ends before
    `/` or `:`. -/
def Covers (start key : String) : Prop :=
  key = start ∨ ∃ rest, key = start ++ "/" ++ rest ∨ key = start ++ ":" ++ rest

theorem covers_append_iff (start rest : String) :
    Covers start (start ++ rest) ↔ rest = "" ∨ ∃ c t, rest.toList = c :: t ∧ (c = '/' ∨ c = ':') := by
  have hcut : ∀ {x : String}, start ++ rest = start ++ x ↔ rest = x := by
    intro x
    rw [← String.toList_inj, String.toList_append, String.toList_append, List.append_cancel_left_eq,
      String.toList_inj]
  rw [Covers]
  constructor
  · rintro (h | ⟨t, h | h⟩)
    · exact .inl (hcut.mp (by rw [h, String.append_empty]))
    · rw [String.append_assoc, hcut] at h
      exact .inr ⟨'/', t.toList, by simp [h], .inl rfl⟩
    · rw [String.append_assoc, hcut] at h
      exact .inr ⟨':', t.toList, by simp [h], .inr rfl⟩
  · rintro (rfl | ⟨c, t, hrest, hc⟩)
    · exact .inl (by rw [String.append_empty])
    · have hrest' : rest = String.ofList (c :: t) := by rw [← hrest, String.ofList_toList]
      refine .inr ⟨String.ofList t, ?_⟩
      rcases hc with rfl | rfl
      · exact .inl (by rw [String.append_assoc, hcut, hrest']; apply String.toList_inj.mp; simp)
      · exact .inr (by rw [String.append_assoc, hcut, hrest']; apply String.toList_inj.mp; simp)

theorem prefix_of_covers {start key : String} (h : Covers start key) : start.toList <+: key.toList := by
  rcases h with rfl | ⟨rest, rfl | rfl⟩
  · exact List.prefix_rfl
  · exact ⟨"/".toList ++ rest.toList, by simp⟩
  · exact ⟨":".toList ++ rest.toList, by simp⟩

/-- What `lookupAuth` asks of a candidate. -/
def matching (key candidate : String) : Bool :=
  Text.startsWith key candidate &&
    match (Text.after key candidate).toList with
    | [] => true
    | c :: _ => c = '/' || c = ':'

theorem matching_iff {key candidate : String} : matching key candidate = true ↔ Covers candidate key := by
  by_cases hstart : Text.startsWith key candidate = true
  · obtain ⟨rest, rfl⟩ := Text.startsWith_iff.mp hstart
    rw [covers_append_iff, matching, hstart, Text.after_append, Bool.true_and]
    rcases hrest : rest.toList with _ | ⟨c, t⟩
    · simp [String.toList_inj.mp (hrest.trans String.toList_empty.symm)]
    · have hne : rest ≠ "" := by rintro rfl; simp at hrest
      simp [hne]
  · refine iff_of_false (by simp [matching, hstart]) fun h => hstart ?_
    obtain ⟨t, ht⟩ := prefix_of_covers h
    exact Text.startsWith_iff.mpr ⟨String.ofList t, String.toList_inj.mp (by simp [ht])⟩

/-- The first byte of a text is an ASCII character's code when the character comes first. -/
theorem head_encodeText (rest : String) {c : Char} (hc : c.toNat < 128) :
    (encodeText rest).head? = some (UInt8.ofNat c.toNat) ↔ rest.toList.head? = some c := by
  rw [encodeText_eq]
  cases rest.toList with
  | nil => simp
  | cons d t =>
    rw [List.flatMap_cons, List.head?_cons, Option.some.injEq]
    constructor
    · intro h
      have hmem : UInt8.ofNat c.toNat ∈ String.utf8EncodeChar d := by
        rcases hd : String.utf8EncodeChar d with _ | ⟨b, bs⟩
        · exact absurd hd String.utf8EncodeChar_ne_nil
        · rw [hd, List.cons_append, List.head?_cons] at h
          rw [← Option.some.inj h]
          exact List.mem_cons_self
      have hcode : (UInt8.ofNat c.toNat).toNat = c.toNat := by
        rw [UInt8.toNat_ofNat']
        omega
      rcases mem_utf8EncodeChar hmem with ⟨-, h⟩ | ⟨-, h⟩ <;> rw [hcode] at h
      · exact Char.toNat_inj.mp h.symm
      · omega
    · rintro rfl
      rw [utf8EncodeChar_ascii hc]
      rfl

theorem prefixMatches_iff {key start : String} :
    Rust.prefixMatches key start = true ↔ Covers start key := by
  by_cases hstart : Text.startsWith key start = true
  · obtain ⟨rest, rfl⟩ := Text.startsWith_iff.mp hstart
    have hempty : (encodeText rest).length = 0 ↔ rest = "" := by
      rw [List.length_eq_zero_iff, ← encodeText_injective.eq_iff (b := "")]
      exact Iff.rfl
    have hnext : (encodeText (start ++ rest))[(encodeText start).length]? = (encodeText rest).head? := by
      rw [encodeText_append, List.getElem?_append_right le_rfl, Nat.sub_self, List.head?_eq_getElem?]
    have hslash := head_encodeText rest (c := '/') (by decide)
    have hcolon := head_encodeText rest (c := ':') (by decide)
    rw [covers_append_iff, Rust.prefixMatches, hstart, hnext, encodeText_append, List.length_append]
    by_cases hrest : rest = ""
    · rw [hempty.mpr hrest]
      simp [hrest]
    · have hlen : ¬ (encodeText start).length + (encodeText rest).length = (encodeText start).length :=
        fun h => hrest (hempty.mp (by omega))
      have hhead : ∀ c, rest.toList.head? = some c ↔ ∃ t, rest.toList = c :: t := fun c => by
        rw [List.head?_eq_some_iff]
      rw [hhead] at hslash hcolon
      simp only [Bool.not_true, Bool.false_eq_true, if_false, hlen, Bool.or_eq_true, decide_eq_true_eq,
        hrest, false_or]
      rw [show (0x2f : UInt8) = UInt8.ofNat '/'.toNat by decide, hslash,
        show (0x3a : UInt8) = UInt8.ofNat ':'.toNat by decide, hcolon]
      constructor
      · rintro (⟨t, ht⟩ | ⟨t, ht⟩)
        · exact ⟨_, t, ht, .inl rfl⟩
        · exact ⟨_, t, ht, .inr rfl⟩
      · rintro ⟨c, t, ht, rfl | rfl⟩
        · exact .inl ⟨t, ht⟩
        · exact .inr ⟨t, ht⟩
  · refine iff_of_false (by simp [Rust.prefixMatches, hstart]) fun h => hstart ?_
    obtain ⟨t, ht⟩ := prefix_of_covers h
    exact Text.startsWith_iff.mpr ⟨String.ofList t, String.toList_inj.mp (by simp [ht])⟩

/-! ### The longest key -/

/-- A size that grows with every character. -/
structure Grows (size : String → Nat) : Prop where
  append : ∀ s t, size (s ++ t) = size s + size t
  positive : ∀ s, size s = 0 → s = ""

theorem grows_units : Grows fun s => (Text.units s).length where
  append s t := by rw [units_append, List.length_append]
  positive s h := Text.units_injective (List.eq_nil_of_length_eq_zero h)

theorem grows_bytes : Grows fun s => (encodeText s).length where
  append s t := by rw [encodeText_append, List.length_append]
  positive s h := encodeText_injective (List.eq_nil_of_length_eq_zero h)

theorem grows_length : Grows String.length where
  append _ _ := String.length_append _ _
  positive s h := by simpa using h

/-- Of two prefixes of one text, one is a prefix of the other, and its size is the smaller. -/
theorem Grows.le_iff {size : String → Nat} (h : Grows size) {a b key : String}
    (ha : a.toList <+: key.toList) (hb : b.toList <+: key.toList) :
    size a ≤ size b ↔ a.toList <+: b.toList := by
  have hgrow : ∀ {a b : String}, a.toList <+: b.toList → size a ≤ size b ∧ (size b ≤ size a → a = b) := by
    rintro a b ⟨t, ht⟩
    obtain rfl : a ++ String.ofList t = b := String.toList_inj.mp (by simp [ht])
    rw [h.append]
    refine ⟨Nat.le_add_right _ _, fun hle => ?_⟩
    rw [h.positive (String.ofList t) (by omega), String.append_empty]
  refine ⟨fun hle => ?_, fun hpre => (hgrow hpre).1⟩
  rcases List.prefix_or_prefix_of_prefix ha hb with hpre | hpre
  · exact hpre
  · obtain rfl := (hgrow hpre).2 hle
    exact List.prefix_rfl

/-- The credential of the longest key that covers a match key. -/
def IsGranted {β : Type} (auth : Table String β) (key : String) (credential : β) : Prop :=
  ∃ p, auth.get? p = some credential ∧ Covers p key ∧ ∀ q ∈ auth.keys, Covers q key → q.length ≤ p.length

/-- Sorting by any size that grows finds it, whatever order the map lists its keys in. -/
theorem longest_granted_iff {β : Type} {size : String → Nat} (h : Grows size) {key : String}
    {covering : String → Bool} (hc : ∀ p, covering p = true ↔ Covers p key) {auth : Table String β}
    {credential : β} :
    (longest size covering auth.keys).bind auth.get? = some credential ↔ IsGranted auth key credential := by
  have hle : ∀ {p q : String}, Covers p key → Covers q key → (size p ≤ size q ↔ p.length ≤ q.length) := by
    intro p q hp hq
    rw [h.le_iff (prefix_of_covers hp) (prefix_of_covers hq),
      grows_length.le_iff (prefix_of_covers hp) (prefix_of_covers hq)]
  have hinj : ∀ p q, covering p = true → covering q = true → size p = size q → p = q := by
    intro p q hp hq hsize
    have hp := prefix_of_covers ((hc p).mp hp)
    have hq := prefix_of_covers ((hc q).mp hq)
    exact String.toList_inj.mp (((h.le_iff hp hq).mp hsize.le).eq_of_length_le
      ((h.le_iff hq hp).mp hsize.ge).length_le)
  rw [Option.bind_eq_some_iff, IsGranted]
  refine exists_congr fun p => ?_
  rw [longest_eq_some_iff hinj, hc]
  constructor
  · rintro ⟨⟨-, hcovers, hmax⟩, hget⟩
    exact ⟨hget, hcovers, fun q hq hq' => (hle hq' hcovers).mp (hmax q hq ((hc q).mpr hq'))⟩
  · rintro ⟨hget, hcovers, hmax⟩
    have hmem : p ∈ auth.keys := List.mem_map_of_mem (Table.get?_eq_some.mp hget)
    exact ⟨⟨hmem, hcovers, fun q hq hq' => (hle ((hc q).mp hq') hcovers).mpr (hmax q hq ((hc q).mp hq'))⟩,
      hget⟩

theorem lookupAuth_iff {auth : HostAuthMap} {url : String} {credential : BasicAuth} :
    lookupAuth auth url = some credential ↔
      matchKey url ≠ "" ∧ IsGranted auth (matchKey url) credential := by
  have hlookup : lookupAuth auth url = if matchKey url = "" then none else
      (longest (fun s => (Text.units s).length) (matching (matchKey url)) auth.keys).bind auth.get? := rfl
  rw [hlookup, Option.ite_none_left_eq_some, longest_granted_iff grows_units fun _ => matching_iff]

theorem rustLookup_iff {map : Rust.HostAuthMap} {url : String} {credential : Rust.BasicAuth} :
    Rust.lookup map url = some credential ↔
      Rust.stripUserinfo (Rust.stripScheme url) ≠ "" ∧ IsGranted map (matchKey url) credential := by
  have hlookup : Rust.lookup map url = if map.entries = [] then none else
      (Rust.matchKey url).bind fun key =>
        (longest (fun s => (encodeText s).length) (Rust.prefixMatches key) map.keys).bind map.get? := rfl
  have hentries : IsGranted map (matchKey url) credential → ¬ map.entries = [] := by
    rintro ⟨p, hget, -⟩ hnil
    have := Table.get?_eq_some.mp hget
    simp [hnil] at this
  rw [hlookup, Option.ite_none_left_eq_some, rustMatchKey_eq]
  by_cases hhost : Rust.stripUserinfo (Rust.stripScheme url) = ""
  · simp [hhost]
  · rw [if_neg hhost, Option.bind_some, longest_granted_iff grows_bytes fun _ => prefixMatches_iff]
    exact ⟨fun ⟨_, h⟩ => ⟨hhost, h⟩, fun ⟨_, h⟩ => ⟨hentries h, h⟩⟩

theorem covers_empty_iff {start : String} : Covers start "" ↔ start = "" := by
  refine ⟨fun h => ?_, fun h => .inl h.symm⟩
  exact String.toList_inj.mp (List.prefix_nil.mp (prefix_of_covers h))

/-- The credential as the other implementation holds it. -/
def BasicAuth.toRust (credential : BasicAuth) : Rust.BasicAuth :=
  ⟨credential.username, credential.password⟩

theorem mem_keys_iff {β : Type} {auth : Table String β} {p : String} :
    p ∈ auth.keys ↔ (auth.get? p).isSome := by
  rw [← not_iff_not, Option.not_isSome_iff_eq_none, Table.get?_eq_none]

theorem isGranted_map {β γ : Type} {f : β → γ} {auth : Table String β} {map : Table String γ}
    (h : ∀ p, map.get? p = (auth.get? p).map f) {key : String} {credential : γ} :
    IsGranted map key credential ↔ ∃ c, IsGranted auth key c ∧ f c = credential := by
  have hkeys : ∀ q, q ∈ map.keys ↔ q ∈ auth.keys := fun q => by
    rw [mem_keys_iff, mem_keys_iff, h, Option.isSome_map]
  simp only [IsGranted, h, Option.map_eq_some_iff, hkeys]
  constructor
  · rintro ⟨p, ⟨c, hget, hc⟩, hcovers, hmax⟩
    exact ⟨c, ⟨p, hget, hcovers, hmax⟩, hc⟩
  · rintro ⟨c, ⟨p, hget, hcovers, hmax⟩, hc⟩
    exact ⟨p, ⟨c, hget, hc⟩, hcovers, hmax⟩

/-- Some key covers the match key when a credential is granted: one of them is the longest. -/
theorem exists_granted_iff {β : Type} {auth : Table String β} {key : String} :
    (∃ credential, IsGranted auth key credential) ↔ ∃ p ∈ auth.keys, Covers p key := by
  constructor
  · rintro ⟨credential, p, hget, hcovers, -⟩
    exact ⟨p, mem_keys_iff.mpr (by rw [hget]; rfl), hcovers⟩
  · rintro ⟨p, hmem, hcovers⟩
    have hfound : (longest String.length (matching key) auth.keys).isSome :=
      longest_isSome.mpr ⟨p, hmem, matching_iff.mpr hcovers⟩
    obtain ⟨q, hq⟩ := Option.isSome_iff_exists.mp hfound
    obtain ⟨hmem', hcovers', hmax⟩ := LongestPrefix.longest_spec hq
    obtain ⟨credential, hget⟩ := Option.isSome_iff_exists.mp (mem_keys_iff.mp hmem')
    exact ⟨credential, q, hget, matching_iff.mp hcovers', fun r hr hr' => hmax r hr (matching_iff.mpr hr')⟩

/-- `lookupAuth` answers exactly when the match key is not empty and some key covers it, with the
    credential of the longest such key, in whatever order the map lists its keys. The other
    implementation gives the same answer, for the same credentials in any order, unless a key of the map
    is empty and slashes are all that the URL has besides its scheme and user-info. -/
theorem longest_key_granted (auth : HostAuthMap) (url : String) :
    ((lookupAuth auth url).isSome ↔ matchKey url ≠ "" ∧ ∃ p ∈ auth.keys, Covers p (matchKey url)) ∧
    (∀ credential, lookupAuth auth url = some credential →
      ∃ p, auth.get? p = some credential ∧ Covers p (matchKey url) ∧
        ∀ q ∈ auth.keys, Covers q (matchKey url) → q.length ≤ p.length) ∧
    (∀ auth' : HostAuthMap, (∀ p, auth'.get? p = auth.get? p) → lookupAuth auth' url = lookupAuth auth url) ∧
    ∀ map : Rust.HostAuthMap, (∀ p, map.get? p = (auth.get? p).map BasicAuth.toRust) →
      (matchKey url ≠ "" ∨ "" ∉ auth.keys ∨ Rust.stripUserinfo (Rust.stripScheme url) = "") →
      Rust.lookup map url = (lookupAuth auth url).map BasicAuth.toRust := by
  refine ⟨?_, fun credential h => (lookupAuth_iff.mp h).2, fun auth' h => ?_, fun map h hempty => ?_⟩
  · simp only [Option.isSome_iff_exists, lookupAuth_iff, exists_and_left, exists_granted_iff]
  · refine Option.ext fun credential => ?_
    have hmap : ∀ p, auth'.get? p = (auth.get? p).map id := by simpa using h
    have hsame : IsGranted auth' (matchKey url) credential ↔ IsGranted auth (matchKey url) credential :=
      (isGranted_map hmap).trans (by simp)
    rw [lookupAuth_iff, lookupAuth_iff, hsame]
  · refine Option.ext fun credential => ?_
    rw [rustLookup_iff, isGranted_map h, Option.map_eq_some_iff]
    simp only [lookupAuth_iff]
    by_cases hkey : matchKey url = ""
    · -- an empty match key is covered by the empty key only
      refine iff_of_false ?_ ?_
      · rintro ⟨hhost, c, ⟨p, hget, hcovers, -⟩, -⟩
        rw [hkey, covers_empty_iff] at hcovers
        rcases hempty.resolve_left (not_not.mpr hkey) with hmem | hnone
        · exact hmem (mem_keys_iff.mpr (by rw [← hcovers, hget]; rfl))
        · exact hhost hnone
      · rintro ⟨c, ⟨hne, -⟩, -⟩
        exact hne hkey
    · have hhost : Rust.stripUserinfo (Rust.stripScheme url) ≠ "" := by
        intro h
        rw [matchKey_eq, h] at hkey
        exact hkey rfl
      constructor
      · rintro ⟨-, c, hgranted, hc⟩
        exact ⟨c, ⟨hkey, hgranted⟩, hc⟩
      · rintro ⟨c, ⟨-, hgranted⟩, hc⟩
        exact ⟨hhost, c, hgranted, hc⟩

/-- The empty key equals the match key of a URL without a host, and its credential is not given. -/
theorem empty_key_not_granted :
    let auth : HostAuthMap := Table.ofList [("", ⟨"user", "secret"⟩)]
    (∃ p ∈ auth.keys, p = matchKey "https://") ∧ lookupAuth auth "https://" = none := by
  decide

end Akua
