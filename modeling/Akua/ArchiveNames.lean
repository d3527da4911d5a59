import Akua.PaxReading
import Mathlib.Data.List.Find

/-! The names of an archive's files. A name stands in the header's fields, in a GNU long-name entry
    or in a PAX `path` record, as bytes that should be UTF-8. Here they are read from the archive
    as they stand, with the lengths of PAX records in bytes, and compared with the names that
    `untar` gives: it decodes the two extensions without checking, counts the lengths of PAX
    records in characters, and every decoder drops a byte order mark. -/

namespace Akua

open AsciiText

variable (P : Platform)

/-! ### The bytes that name a file -/

/-- The naming entries met before the entry they are for. -/
structure NamingEntries where
  longName : Option Bytes := none
  pax : Option Bytes := none

/-- A regular file of an archive. -/
structure Member where
  header : Bytes
  naming : NamingEntries
  data : Bytes

/-- The regular files of an archive, up to its end or the place where it is cut off. -/
def membersLoop : Nat → NamingEntries → Bytes → List Member
  | 0, _, _ => []
  | fuel + 1, naming, bytes =>
    if bytes.length < 512 then []
    else
      let header := bytes.take 512
      if header.all (· = 0) then []
      else
        match octal P header 124 12 with
        | some (.ofNat size) =>
          if bytes.length < 512 + size then []
          else
            let type := (header[156]?.getD 0).toNat
            let data := slice bytes 512 size
            let rest := bytes.drop (512 + (size + 511) / 512 * 512)
            if type = 'x'.toNat then membersLoop fuel { naming with pax := some data } rest
            else if type = 'g'.toNat then membersLoop fuel naming rest
            else if type = 'L'.toNat then
              membersLoop fuel { naming with longName := some (field data 0 size) } rest
            else if type ≠ '0'.toNat ∧ type ≠ 0 ∧ type ≠ '7'.toNat then membersLoop fuel {} rest
            else { header, naming, data } :: membersLoop fuel {} rest
        | _ => []

def members (bytes : Bytes) : List Member := membersLoop P (bytes.length / 512 + 1) {} bytes

/-- The value of the last `path` record, where the lengths of records count bytes. -/
def paxPathBytes (data : Bytes) : Option Bytes :=
  ((paxLoop data.length (data.map UInt8.toNat)).reverse.find? fun r =>
    r.1 = Text.units "path").map fun r => r.2.map UInt8.ofNat

/-- The bytes that name a file, by where they stand. -/
inductive NameBytes where
  | pax (value : Bytes)
  | long (value : Bytes)
  | fields (directory name : Bytes)
deriving DecidableEq

def Member.nameBytes (m : Member) : NameBytes :=
  match m.naming.pax.bind paxPathBytes, m.naming.longName with
  | some value, _ => .pax value
  | none, some value => .long value
  | none, none =>
    let ustar := decodeText P (slice m.header 257 5) = "ustar"
    .fields (if ustar then field m.header 345 155 else []) (field m.header 0 100)

/-- The name as its bytes say it; none where they are not UTF-8. -/
def NameBytes.strict : NameBytes → Option String
  | .pax value => decodeUtf8 value
  | .long value => decodeUtf8 value
  | .fields directory name =>
    if directory = [] then decodeUtf8 name
    else do
      let directory ← decodeUtf8 directory
      let name ← decodeUtf8 name
      some (directory ++ "/" ++ name)

/-- A name with backslashes mapped and without empty and `.` segments. -/
def cleaned (raw : String) : String := Text.join (FilePath.segments (slashed raw)) '/'

/-- The entry has the name that the file's bytes say, and its content. -/
def NamedExactly (m : Member) (entry : ArchiveEntry) : Prop :=
  (∃ name, (m.nameBytes P).strict = some name ∧ entry.path = cleaned name) ∧ entry.data = m.data

/-! ### What `untar` reads -/

/-- The name that `untar` reads for a file. -/
def Member.readName (m : Member) : Option String :=
  (m.naming.pax.bind fun data => (paxRecords P data).get? "path") <|>
    m.naming.longName.map (decodeText P) <|> headerName P m.header

def NamingEntries.read (naming : NamingEntries) : PendingNames where
  longName := naming.longName.map (decodeText P)
  pax := naming.pax.map (paxRecords P)

variable {P}

theorem cleaned_of_entryPath {raw path : String} (h : entryPath raw = some path) :
    path = cleaned raw := by
  unfold entryPath at h
  dsimp only at h
  split at h
  · cases h
  · exact (Option.some.inj h).symm

/-- `untar` gives an entry for each regular file, by the name it reads. The induction is on the
    fuel. -/
theorem untarLoop_members : ∀ {fuel : Nat} (naming : NamingEntries) {bytes : Bytes}
    {entries : List ArchiveEntry}, untarLoop P fuel (naming.read P) bytes = .ok entries →
    List.Forall₂ (fun m entry => (∃ raw, m.readName P = some raw ∧ entry.path = cleaned raw) ∧
      entry.data = m.data) (membersLoop P fuel naming bytes) entries
  | 0, _, _, _, h => by
      cases h
      exact List.Forall₂.nil
  | fuel + 1, naming, bytes, entries, h => by
      unfold untarLoop at h
      unfold membersLoop
      dsimp only at h ⊢
      split at h
      · cases h
        rw [if_pos ‹_›]
        exact List.Forall₂.nil
      rw [if_neg ‹_›]
      split at h
      · cases h
        rw [if_pos ‹_›]
        exact List.Forall₂.nil
      rw [if_neg ‹_›]
      rcases hsize : octal P (bytes.take 512) 124 12 with _ | size | size <;> simp only [hsize] at h ⊢
      · cases h
      · split at h
        · cases h
        rw [if_neg ‹_›]
        split at h
        · rw [if_pos ‹_›]
          exact untarLoop_members { naming with pax := some _ } h
        rw [if_neg ‹_›]
        split at h
        · rw [if_pos ‹_›]
          exact untarLoop_members naming h
        rw [if_neg ‹_›]
        split at h
        · rw [if_pos ‹_›]
          exact untarLoop_members { naming with longName := some _ } h
        rw [if_neg ‹_›]
        split at h
        · cases h
        rename_i raw hraw
        split at h
        · rw [if_pos ‹_›]
          exact untarLoop_members {} h
        rw [if_neg ‹_›]
        split at h
        · cases h
        rename_i path hpath
        obtain ⟨found, hfound, h⟩ := except_bind_ok.mp h
        cases h
        refine List.Forall₂.cons ⟨⟨raw, ?_, cleaned_of_entryPath hpath⟩, rfl⟩
          (untarLoop_members {} hfound)
        rw [← hraw]
        simp only [Member.readName, NamingEntries.read, Option.bind_map]
        rfl
      · cases h

/-! ### Decoding -/

theorem decodeUtf8_eq_some {bytes : Bytes} {s : String} :
    decodeUtf8 bytes = some s ↔ bytes = encodeText s := by
  constructor
  · intro h
    unfold decodeUtf8 String.fromUTF8? at h
    split at h
    · rename_i hvalid
      obtain rfl := Option.some.inj h
      simp [encodeText, String.fromUTF8]
    · cases h
  · rintro rfl
    exact decodeUtf8_encodeText s

/-- The text without the byte order mark it may start with. -/
def unmarked (s : String) : String := Text.stripPrefix s "\uFEFF"

/-- The strict decoder reads what is UTF-8, and drops a mark. -/
theorem decodeStrict_eq_some {bytes : Bytes} {raw : String} :
    decodeStrict bytes = some raw ↔ ∃ s, decodeUtf8 bytes = some s ∧ raw = unmarked s := by
  constructor
  · intro h
    have hrest : dropMark bytes = encodeText raw := decodeUtf8_eq_some.mp h
    by_cases hmark : [0xEF, 0xBB, 0xBF].isPrefixOf bytes = true
    · obtain ⟨rest, rfl⟩ := List.isPrefixOf_iff_prefix.mp hmark
      have hdrop : dropMark ([0xEF, 0xBB, 0xBF] ++ rest) = rest := by
        rw [dropMark, if_pos hmark]
        rfl
      have hbytes : [0xEF, 0xBB, 0xBF] ++ rest = encodeText ("\uFEFF" ++ raw) := by
        rw [encodeText_append, ← hrest, hdrop]
        rfl
      refine ⟨"\uFEFF" ++ raw, decodeUtf8_eq_some.mpr hbytes, ?_⟩
      rw [hbytes, decodeStrict_eq] at h
      exact (Option.some.inj h).symm
    · rw [dropMark, if_neg hmark] at hrest
      refine ⟨raw, decodeUtf8_eq_some.mpr hrest, ?_⟩
      rw [hrest, decodeStrict_eq] at h
      exact (Option.some.inj h).symm
  · rintro ⟨s, hs, rfl⟩
    rw [decodeUtf8_eq_some.mp hs, decodeStrict_eq]
    rfl

theorem decodeText_of_utf8 {bytes : Bytes} {s : String} (h : decodeUtf8 bytes = some s) :
    decodeText P bytes = unmarked s := by
  rw [decodeUtf8_eq_some.mp h, decodeText_eq]
  rfl

/-! ### Cleaning keeps the other characters -/

/-- How often a character stands in a text. -/
def count (c : Char) (s : String) : Nat := s.toList.count c

theorem count_append (c : Char) (s t : String) : count c (s ++ t) = count c s + count c t := by
  simp [count]

theorem count_join {c sep : Char} (h : sep ≠ c) : ∀ parts : List String,
    count c (Text.join parts sep) = (parts.map (count c)).sum
  | [] => rfl
  | [p] => by simp [Text.join, count, List.intercalate]
  | p :: q :: parts => by
      have ih := count_join h (q :: parts)
      rw [Text.join_cons_cons, count_append, count_append, ih]
      simp [count, h]

variable {c : Char}

theorem count_segments (hslash : '/' ≠ c) (hdot : '.' ≠ c) (path : String) :
    ((FilePath.segments path).map (count c)).sum = count c path := by
  have hsplit : ((Text.split path '/').map (count c)).sum = count c path := by
    rw [← count_join hslash, Text.join_split]
  rw [← hsplit, FilePath.segments]
  induction Text.split path '/' with
  | nil => rfl
  | cons part parts ih =>
    rw [List.filter_cons]
    split
    · rw [List.map_cons, List.sum_cons, ih, List.map_cons, List.sum_cons]
    · rename_i hdropped
      have hzero : count c part = 0 := by
        by_cases h : part = ""
        · rw [h]
          rfl
        · have hpart : part = "." := by simpa [h] using hdropped
          rw [hpart]
          simp [count, hdot]
      rw [ih, List.map_cons, List.sum_cons, hzero, Nat.zero_add]

theorem count_slashed (hslash : '/' ≠ c) (hback : '\\' ≠ c) (raw : String) :
    count c (slashed raw) = count c raw := by
  rw [count, slashed, String.toList_ofList, count]
  induction raw.toList with
  | nil => rfl
  | cons d ds ih =>
    rw [List.map_cons, List.count_cons, List.count_cons, ih]
    congr 1
    by_cases hd : d = '\\'
    · rw [if_pos hd, hd]
      simp [hslash, hback]
    · rw [if_neg hd]

theorem count_cleaned (hslash : '/' ≠ c) (hback : '\\' ≠ c) (hdot : '.' ≠ c) (raw : String) :
    count c (cleaned raw) = count c raw := by
  rw [cleaned, count_join hslash, count_segments hslash hdot, count_slashed hslash hback]

/-- How many byte order marks a text has. -/
def marks (s : String) : Nat := count '\uFEFF' s

theorem marks_cleaned (raw : String) : marks (cleaned raw) = marks raw :=
  count_cleaned (by decide) (by decide) (by decide) raw

/-- Dropping a mark loses it. -/
theorem marks_unmarked (s : String) : marks (unmarked s) ≤ marks s ∧
    (marks (unmarked s) = marks s → unmarked s = s) := by
  unfold unmarked Text.stripPrefix
  split
  · rename_i h
    obtain ⟨rest, rfl⟩ := Text.startsWith_iff.mp h
    have hone : count '\uFEFF' "\uFEFF" = 1 := by decide
    rw [Text.after_append, marks, marks, count_append, hone]
    exact ⟨by omega, fun he => by omega⟩
  · exact ⟨Nat.le_refl _, fun _ => rfl⟩

/-- A name that is cleaned to the same path with and without its mark has none. -/
theorem unmarked_of_cleaned {s : String} (h : cleaned (unmarked s) = cleaned s) : unmarked s = s := by
  refine (marks_unmarked s).2 ?_
  rw [← marks_cleaned, h, marks_cleaned]

/-! ### ASCII records -/

theorem map_ofNat_toNat (data : Bytes) : (data.map UInt8.toNat).map UInt8.ofNat = data := by
  simp [List.map_map, Function.comp_def]

/-- Bytes below 128. -/
def AsciiBytes (data : Bytes) : Prop := ∀ b ∈ data, b.toNat < 128

/-- Codes below 128 are the code units and the bytes of one string. -/
theorem ascii_string {us : List Nat} (h : ∀ u ∈ us, u < 128) : ∃ s : String,
    (∀ c ∈ s.toList, c.toNat < 128) ∧ Text.units s = us ∧ encodeText s = us.map UInt8.ofNat := by
  have hcode : ∀ u ∈ us, (Char.ofNat u).toNat = u := by
    intro u hu
    have hu := h u hu
    have hvalid : u.isValidChar := Or.inl (by omega)
    rw [Char.ofNat, dif_pos hvalid]
    rfl
  have hascii : ∀ c ∈ (String.ofList (us.map Char.ofNat)).toList, c.toNat < 128 := by
    rw [String.toList_ofList]
    intro c hc
    obtain ⟨u, hu, rfl⟩ := List.mem_map.mp hc
    rw [hcode u hu]
    exact h u hu
  refine ⟨String.ofList (us.map Char.ofNat), hascii, ?_, ?_⟩
  · rw [units_ascii hascii, String.toList_ofList, List.map_map]
    exact (List.map_congr_left hcode).trans (List.map_id us)
  · rw [encodeText_ascii hascii, String.toList_ofList, List.map_map]
    exact List.map_congr_left fun u hu => congrArg UInt8.ofNat (hcode u hu)

/-- The records take their keys and values from the text. -/
theorem mem_of_mem_paxLoop : ∀ {fuel : Nat} {text : List Nat} {r : List Nat × List Nat},
    r ∈ paxLoop fuel text → (∀ u ∈ r.1, u ∈ text) ∧ ∀ u ∈ r.2, u ∈ text
  | 0, _, _, h => absurd h List.not_mem_nil
  | _ + 1, [], _, h => absurd h List.not_mem_nil
  | fuel + 1, v :: text, r, h => by
      unfold paxLoop at h
      dsimp only at h
      split at h
      · rename_i length hlength
        split at h
        · exact absurd h List.not_mem_nil
        have hrecord : ∀ u ∈ ((v :: text).take length).drop
            (((v :: text).takeWhile (· ≠ 0x20)).length + 1), u ∈ v :: text :=
          fun u hu => List.mem_of_mem_take (List.mem_of_mem_drop hu)
        rcases List.mem_append.mp h with h | h
        · split at h
          · exact absurd h List.not_mem_nil
          · obtain rfl := List.mem_singleton.mp h
            exact ⟨fun u hu => hrecord u ((List.takeWhile_prefix _).subset hu),
              fun u hu => hrecord u (List.mem_of_mem_drop hu)⟩
        · obtain ⟨hkey, hvalue⟩ := mem_of_mem_paxLoop h
          exact ⟨fun u hu => List.mem_of_mem_drop (hkey u hu),
            fun u hu => List.mem_of_mem_drop (hvalue u hu)⟩
      · exact absurd h List.not_mem_nil

/-! ### The path of an ASCII start -/

/-- What the decoder without checks makes of bytes that are not UTF-8: ASCII stands for itself, and a run
    of other bytes for characters beyond it. -/
def ReplacesInvalid (P : Platform) : Prop :=
  ∀ bytes, Alike (bytes.map UInt8.toNat) (Text.units (P.replaceInvalid bytes))

theorem alike_text (s : String) : Alike ((encodeText s).map UInt8.toNat) (Text.units s) := by
  rw [encodeText_eq, Text.units]
  induction s.toList with
  | nil => exact .nil
  | cons c cs ih =>
    rw [List.flatMap_cons, List.flatMap_cons, List.map_append]
    by_cases hc : c.toNat < 128
    · have hbytes : (String.utf8EncodeChar c).map UInt8.toNat = [c.toNat] := by
        have hascii : ∀ d ∈ (String.ofList [c]).toList, d.toNat < 128 := by simpa using hc
        have hencoded := encodeText_ascii hascii
        rw [encodeText_eq, String.toList_ofList, List.flatMap_singleton, List.map_singleton] at hencoded
        rw [hencoded, List.map_singleton, UInt8.toNat_ofNat_of_lt' (show c.toNat < 256 by omega)]
      have hunits : Text.utf16 c = [c.toNat] := if_pos (by omega)
      rw [hbytes, hunits]
      exact .ascii hc ih
    · refine .beyond ?_ ?_ (fun u hu => ?_) (fun u hu => ?_) ih
      · simp
      · unfold Text.utf16
        split <;> simp
      · obtain ⟨b, hb, rfl⟩ := List.mem_map.mp hu
        rcases mem_utf8EncodeChar hb with ⟨hlow, -⟩ | ⟨-, hhigh⟩
        · exact absurd hlow hc
        · exact hhigh
      · unfold Text.utf16 at hu
        split at hu
        · rw [List.mem_singleton.mp hu]
          omega
        · simp only [List.mem_cons, List.not_mem_nil, or_false] at hu
          omega

theorem alike_decodeText (hdecoder : ReplacesInvalid P) (data : Bytes) :
    Alike ((dropMark data).map UInt8.toNat) (Text.units (decodeText P data)) := by
  rw [decodeText]
  cases hutf8 : decodeUtf8 (dropMark data) with
  | none => exact hdecoder _
  | some s =>
    rw [decodeUtf8_eq_some.mp hutf8]
    exact alike_text s

/-- Code units are read as a word of ASCII only when they are its codes. -/
theorem fromUnits_ascii {us : List Nat} {word : List Char} (hword : ∀ c ∈ word, 0 < c.toNat ∧ c.toNat < 128)
    (h : fromUnits us = word) : us = word.map Char.toNat := by
  have hone : ∀ {u : Nat} {c : Char}, 0 < c.toNat → c.toNat < 128 →
      (if 0xD800 ≤ u ∧ u < 0xE000 then '\uFFFD' else Char.ofNat u) = c → u = c.toNat := by
    rintro u c hpos hlow rfl
    split at hpos
    · rename_i hsurrogate
      rw [if_pos hsurrogate] at hlow
      exact absurd hlow (by decide)
    · rename_i hsurrogate
      rw [if_neg hsurrogate]
      by_cases hvalid : u.isValidChar
      · rw [Char.ofNat, dif_pos hvalid]
        rfl
      · rw [Char.ofNat, dif_neg hvalid] at hpos
        exact absurd hpos (by decide)
  induction us using fromUnits.induct generalizing word with
  | case1 =>
    rw [← h]
    rfl
  | case2 u =>
    rw [fromUnits] at h
    subst h
    obtain ⟨hpos, hlow⟩ := hword _ List.mem_cons_self
    rw [List.map_singleton, ← hone hpos hlow rfl]
  | case3 u v rest hpair ih =>
    rw [fromUnits, if_pos hpair] at h
    subst h
    obtain ⟨hpos, hlow⟩ := hword _ List.mem_cons_self
    -- a pair is read as a character beyond ASCII
    have hvalid : (0x10000 + (u - 0xD800) * 0x400 + (v - 0xDC00)).isValidChar := Or.inr (by omega)
    rw [Char.ofNat, dif_pos hvalid] at hlow
    have hcode : 0x10000 + (u - 0xD800) * 0x400 + (v - 0xDC00) < 128 := hlow
    omega
  | case4 u v rest hpair ih =>
    rw [fromUnits, if_neg hpair] at h
    subst h
    obtain ⟨hpos, hlow⟩ := hword _ List.mem_cons_self
    rw [List.map_cons, ← ih (fun c hc => hword c (List.mem_cons_of_mem _ hc)) rfl, ← hone hpos hlow rfl]

/-- `paxRecords` reads the last path of its text. -/
theorem path_read (data : Bytes) : (paxRecords P data).get? "path" =
    (Pax.lastPath (Text.units (decodeText P data))).map fun us => String.ofList (fromUnits us) := by
  have hword : ∀ c ∈ "path".toList, 0 < c.toNat ∧ c.toNat < 128 := by simp
  have hkeys : ∀ r ∈ (Pax.records (Text.units (decodeText P data))).reverse,
      decide (String.ofList (fromUnits r.1) = "path") = decide (r.1 = Pax.PATH) := by
    intro r _
    refine decide_eq_decide.mpr ⟨fun he => ?_, fun he => ?_⟩
    · have hlist := congrArg String.toList he
      rw [String.toList_ofList] at hlist
      exact fromUnits_ascii hword hlist
    · rw [he, Pax.PATH, fromUnits_units, String.ofList_toList]
  rw [paxRecords, Table.get?_ofList, ← List.map_reverse, List.find?_map, Option.map_map, Pax.lastPath, Pax.lastOf,
    Option.map_map]
  exact congrArg _ (List.find?_congr hkeys)

theorem paxPathBytes_eq (data : Bytes) :
    paxPathBytes data = (Pax.lastPath (data.map UInt8.toNat)).map fun us => us.map UInt8.ofNat := by
  rw [paxPathBytes, Pax.lastPath, Pax.lastOf, Pax.records, List.length_map, Option.map_map]
  rfl

/-- The bytes before the first that is not ASCII, and the others. -/
def asciiStart (data : Bytes) : Bytes := data.takeWhile fun b => b.toNat < 128

def behindStart (data : Bytes) : Bytes := data.dropWhile fun b => b.toNat < 128

/-- The ASCII start of a header says its path, and no `path=` stands behind it. -/
def PathSettled (data : Bytes) : Prop :=
  paxPathBytes data = paxPathBytes (asciiStart data) ∧ ¬ encodeText "path=" <:+: behindStart data

theorem mem_of_lastPath {text v : List Nat} (h : Pax.lastPath text = some v) : ∀ u ∈ v, u ∈ text := by
  obtain ⟨r, hr, rfl⟩ := Option.map_eq_some_iff.mp h
  exact (mem_of_mem_paxLoop (List.mem_reverse.mp (List.mem_of_find?_eq_some hr))).2

theorem codes_start_behind (data : Bytes) :
    data.map UInt8.toNat = (asciiStart data).map UInt8.toNat ++ (behindStart data).map UInt8.toNat := by
  rw [← List.map_append, asciiStart, behindStart, List.takeWhile_append_dropWhile]

theorem beyond_behindStart (data : Bytes) : Beyond ((behindStart data).map UInt8.toNat) := by
  intro u hu
  have hstop := List.head?_dropWhile_not (fun b : UInt8 => decide (b.toNat < 128)) data
  rw [behindStart, List.head?_map] at hu
  obtain ⟨b, hb, rfl⟩ := Option.map_eq_some_iff.mp hu
  rw [hb] at hstop
  simpa using hstop

theorem PathSettled.not_behind {data : Bytes} (h : PathSettled data) :
    ¬ Pax.PATH_IS <:+: (behindStart data).map UInt8.toNat := by
  intro hin
  have hmapped := hin.map UInt8.ofNat
  rw [map_ofNat_toNat] at hmapped
  exact h.2 hmapped

/-- The bytes' own path is that of the start, and takes nothing from behind it. -/
theorem PathSettled.takes_nothing {data : Bytes} (h : PathSettled data) {k : Nat}
    (hk : Pax.lastPath (data.map UInt8.toNat) =
      (Pax.lastPath ((asciiStart data).map UInt8.toNat)).map (· ++ ((behindStart data).map UInt8.toNat).take k)) :
    Pax.lastPath (data.map UInt8.toNat) = Pax.lastPath ((asciiStart data).map UInt8.toNat) ∧
      (Pax.lastPath ((asciiStart data).map UInt8.toNat) ≠ none → ((behindStart data).map UInt8.toNat).take k = []) := by
  have hsame := h.1
  rw [paxPathBytes_eq, paxPathBytes_eq, hk] at hsame
  rw [hk]
  cases hpath : Pax.lastPath ((asciiStart data).map UInt8.toNat) with
  | none => exact ⟨rfl, fun hne => absurd rfl hne⟩
  | some v =>
    rw [hpath] at hsame
    have hlength := congrArg List.length (Option.some.inj hsame)
    have hnil : ((behindStart data).map UInt8.toNat).take k = [] := by
      refine List.length_eq_zero_iff.mp ?_
      rw [List.length_map, List.length_map, List.length_append] at hlength
      omega
    rw [hnil]
    exact ⟨by simp, fun _ => rfl⟩

/-- The reader finds the path of the start as well. -/
theorem lastPath_settled (hdecoder : ReplacesInvalid P) {data : Bytes} (h : PathSettled data) :
    Pax.lastPath (Text.units (decodeText P data)) = Pax.lastPath ((asciiStart data).map UInt8.toNat) ∧
      Pax.lastPath (data.map UInt8.toNat) = Pax.lastPath ((asciiStart data).map UInt8.toNat) := by
  have hbytes := codes_start_behind data
  obtain ⟨k, hk⟩ := Pax.lastPath_append ((asciiStart data).map UInt8.toNat)
  have hlast := hk _ (beyond_behindStart data) h.not_behind
  rw [← hbytes] at hlast
  obtain ⟨hexact, hnothing⟩ := h.takes_nothing hlast
  refine ⟨?_, hexact⟩
  have halike := alike_decodeText hdecoder data
  by_cases hmark : [0xEF, 0xBB, 0xBF].isPrefixOf data = true
  · -- the mark is not ASCII, so the start is empty
    have hempty : asciiStart data = [] := by
      obtain ⟨rest, rfl⟩ := List.isPrefixOf_iff_prefix.mp hmark
      rfl
    rw [hempty, List.map_nil, Pax.lastPath_nil]
    refine Pax.lastPath_none fun hin => h.not_behind ?_
    have hfound := halike.isInfix (by decide) Pax.path_is_ascii hin
    rw [hempty, List.map_nil, List.nil_append] at hbytes
    rw [← hbytes]
    rw [dropMark, if_pos hmark] at hfound
    exact hfound.trans ((List.drop_suffix 3 data).map UInt8.toNat).isInfix
  · rw [dropMark, if_neg hmark] at halike
    obtain ⟨rest, hcodes, hrest, hrestAlike⟩ := halike.split
    rw [show (data.map UInt8.toNat).takeWhile (· < 128) = (asciiStart data).map UInt8.toNat by
      rw [List.takeWhile_map]; rfl] at hcodes
    rw [show (data.map UInt8.toNat).dropWhile (· < 128) = (behindStart data).map UInt8.toNat by
      rw [List.dropWhile_map]; rfl] at hrestAlike
    have hrestNot : ¬ Pax.PATH_IS <:+: rest := fun hin =>
      h.not_behind (hrestAlike.isInfix (by decide) Pax.path_is_ascii hin)
    rw [hcodes, hk rest hrest hrestNot]
    cases hpath : Pax.lastPath ((asciiStart data).map UInt8.toNat) with
    | none => rfl
    | some v =>
      have hpiece : rest.take k = [] := by
        rcases List.take_eq_nil_iff.mp (hnothing (by rw [hpath]; simp)) with hzero | hnil
        · rw [hzero, List.take_zero]
        · rw [hnil] at hrestAlike
          rw [hrestAlike.eq_nil, List.take_nil]
      rw [Option.map_some, hpiece, List.append_nil]

/-- In a settled header `paxRecords` reads the path that the bytes say, which is ASCII. -/
theorem paxRecords_settled (hdecoder : ReplacesInvalid P) {data : Bytes} (h : PathSettled data) :
    (paxRecords P data).get? "path" = (paxPathBytes data).bind decodeUtf8 ∧
      ∀ value, paxPathBytes data = some value → AsciiBytes value ∧ (decodeUtf8 value).isSome := by
  obtain ⟨hread, hbytes⟩ := lastPath_settled hdecoder h
  rw [path_read, paxPathBytes_eq, hread, hbytes]
  cases hpath : Pax.lastPath ((asciiStart data).map UInt8.toNat) with
  | none => exact ⟨rfl, by simp⟩
  | some us =>
    have hcodes : ∀ u ∈ us, u < 128 := by
      intro u hu
      obtain ⟨b, hb, rfl⟩ := List.mem_map.mp (mem_of_lastPath hpath u hu)
      simpa using List.mem_takeWhile_imp hb
    obtain ⟨name, hascii, hunits, hencoded⟩ := ascii_string hcodes
    have hdecode : decodeUtf8 (us.map UInt8.ofNat) = some name := decodeUtf8_eq_some.mpr hencoded.symm
    refine ⟨?_, fun value hvalue => ?_⟩
    · rw [Option.map_some, Option.map_some, Option.bind_some, hdecode, ← hunits, fromUnits_units, String.ofList_toList]
    · obtain rfl := Option.some.inj hvalue
      refine ⟨fun b hb => ?_, by rw [hdecode]; rfl⟩
      obtain ⟨u, hu, rfl⟩ := List.mem_map.mp hb
      have hlow := hcodes u hu
      rw [UInt8.toNat_ofNat_of_lt' (show u < 256 by omega)]
      exact hlow

/-! ### A lone path record -/

/-- The path of a header that is one record. -/
theorem paxPathBytes_paxPath {name : String} (hsize : (paxPath name).length < 8 ^ 11) :
    paxPathBytes (paxPath name) = some (encodeText name) := by
  obtain ⟨n, hn⟩ : ∃ n, paxTotal name = n + 1 := by
    have hpos := Nat.length_toDigits_pos (b := 10) (n := paxTotal name)
    have htotal := paxTotal_eq name
    exact ⟨paxTotal name - 1, by omega⟩
  have hdigits : ∀ c ∈ Nat.toDigits 10 (n + 1), '0'.toNat ≤ c.toNat ∧ c.toNat < '0'.toNat + 10 :=
    fun c hc => Text.digit_of_mem_toDigits (by decide) (by decide) hc
  have hspace : (encodeText " ").length = 1 := by decide
  have hbytes : n + 1 = (Nat.toDigits 10 (n + 1)).length + 1 +
      (encodeText ("path=" ++ name ++ "\n")).length := by
    have htotal := paxTotal_eq name
    rw [hn, paxBody_eq, encodeText_append, List.length_append, hspace] at htotal
    omega
  have hcodes : (paxPath name).map UInt8.toNat = (Nat.toDigits 10 (n + 1)).map Char.toNat ++
      0x20 :: (encodeText ("path=" ++ name ++ "\n")).map UInt8.toNat := by
    rw [paxPath_eq, hn, paxBody_eq, encodeText_append, encodeText_append,
      encodeText_ascii (digits_ascii _), toList_toString, List.map_append, List.map_append, List.map_map]
    refine congrArg₂ _ (List.map_congr_left fun c hc => ?_) rfl
    have hlt := (hdigits c hc).2
    have hzero : '0'.toNat = 48 := rfl
    exact UInt8.toNat_ofNat_of_lt' (show c.toNat < 256 by omega)
  have htake : ((encodeText ("path=" ++ name ++ "\n")).map UInt8.toNat).take
      ((encodeText ("path=" ++ name ++ "\n")).length - 1) =
      Text.units "path" ++ 0x3d :: (encodeText name).map UInt8.toNat := by
    have hend : (encodeText "\n").length = 1 := by decide
    rw [encodeText_append, List.length_append, hend, Nat.add_sub_cancel, List.map_append,
      List.take_left' (by rw [List.length_map]), encodeText_append, List.map_append]
    rfl
  have hlength : (paxPath name).length = n + 1 := by rw [length_paxPath, hn]
  have hloop : paxLoop (n + 1) ((paxPath name).map UInt8.toNat) =
      [(Text.units "path", (encodeText name).map UInt8.toNat)] := by
    rw [hcodes]
    refine paxLoop_record Nat.toDigits_ne_nil hdigits Nat.ofDigitChars_ten_toDigits ?_
      (by rw [List.length_map]; omega) ?_ (by decide) (by decide) n
    · exact Nat.lt_trans (hlength ▸ hsize) (by decide +kernel)
    · have hn' : n - ((Nat.toDigits 10 (n + 1)).length + 1) =
          (encodeText ("path=" ++ name ++ "\n")).length - 1 := by omega
      rw [hn', htake]
  rw [paxPathBytes, hlength, hloop]
  exact congrArg some (map_ofNat_toNat (encodeText name))

/-- A name that its record's reading leaves as it is, is ASCII. -/
theorem cleaned_paxName {name : String} :
    cleaned (paxName name) = cleaned name ↔ Text.isAscii name = true := by
  unfold paxName
  split
  · rename_i h
    exact iff_of_true rfl h
  · rename_i h
    refine iff_of_false (fun he => ?_) h
    have hcount := congrArg (count '\n') he
    have hone : count '\n' "\n" = 1 := by decide
    rw [count_cleaned (by decide) (by decide) (by decide),
      count_cleaned (by decide) (by decide) (by decide), count_append, hone] at hcount
    omega

/-! ### Exact names -/

/-- The bytes decode to a name without a loss: a PAX path is ASCII, a long name is UTF-8, and
    nothing starts with a byte order mark. -/
def NameBytes.Plain : NameBytes → Prop
  | .pax value => AsciiBytes value
  | .long value => (decodeUtf8 value).isSome ∧ dropMark value = value
  | .fields directory name => dropMark directory = directory ∧ dropMark name = name

theorem dropMark_eq_iff {bytes : Bytes} {s : String} (h : decodeUtf8 bytes = some s) :
    dropMark bytes = bytes ↔ unmarked s = s := by
  rw [decodeUtf8_eq_some.mp h, dropMark_encodeText]
  exact encodeText_injective.eq_iff

theorem NameBytes.strict_fields (directory name : Bytes) : (NameBytes.fields directory name).strict =
    if directory = [] then decodeUtf8 name
    else (do
      let directory ← decodeUtf8 directory
      let name ← decodeUtf8 name
      some (directory ++ "/" ++ name)) := rfl

theorem NameBytes.plain_fields {directory name : Bytes} : (NameBytes.fields directory name).Plain ↔
    dropMark directory = directory ∧ dropMark name = name := Iff.rfl

/-- A name in the header's fields. -/
theorem fields_exact_iff {directory name : Bytes} {raw : String}
    (h : (if directory = [] then decodeStrict name
      else do
        let directory ← decodeStrict directory
        let name ← decodeStrict name
        some (directory ++ "/" ++ name)) = some raw) :
    (∃ exact, (NameBytes.fields directory name).strict = some exact ∧ cleaned raw = cleaned exact) ↔
      (NameBytes.fields directory name).Plain := by
  rw [NameBytes.strict_fields, NameBytes.plain_fields]
  by_cases hempty : directory = []
  · rw [if_pos hempty] at h ⊢
    obtain ⟨s, hs, rfl⟩ := decodeStrict_eq_some.mp h
    have hnone : dropMark directory = directory := by
      rw [hempty]
      rfl
    rw [hs, dropMark_eq_iff hs]
    constructor
    · rintro ⟨exact, he, hclean⟩
      obtain rfl := Option.some.inj he
      exact ⟨hnone, unmarked_of_cleaned hclean⟩
    · rintro ⟨-, hmark⟩
      exact ⟨s, rfl, by rw [hmark]⟩
  · rw [if_neg hempty] at h ⊢
    obtain ⟨d', hd', h⟩ := Option.bind_eq_some_iff.mp h
    obtain ⟨n', hn', h⟩ := Option.bind_eq_some_iff.mp h
    obtain ⟨d, hd, rfl⟩ := decodeStrict_eq_some.mp hd'
    obtain ⟨n, hn, rfl⟩ := decodeStrict_eq_some.mp hn'
    obtain rfl := Option.some.inj h
    rw [hd, hn, dropMark_eq_iff hd, dropMark_eq_iff hn]
    constructor
    · rintro ⟨exact, he, hclean⟩
      obtain rfl := Option.some.inj he
      have hmarks : marks (unmarked d ++ "/" ++ unmarked n) = marks (d ++ "/" ++ n) := by
        rw [← marks_cleaned, hclean, marks_cleaned]
      have hdir := marks_unmarked d
      have hname := marks_unmarked n
      simp only [marks, count_append] at hmarks hdir hname
      exact ⟨hdir.2 (by omega), hname.2 (by omega)⟩
    · rintro ⟨hmarkd, hmarkn⟩
      exact ⟨d ++ "/" ++ n, rfl, by rw [hmarkd, hmarkn]⟩

/-- A PAX header whose reading is known: a settled one, or a lone path record, as `tar` writes it. -/
def KnownHeader (data : Bytes) : Prop :=
  PathSettled data ∨ ∃ name, data = paxPath name ∧ data.length < 8 ^ 11

/-- The path of a known header: the name that is read is the exact one when the path is ASCII. -/
theorem pax_exact_iff (hdecoder : ReplacesInvalid P) {data value : Bytes} (h : KnownHeader data)
    (hvalue : paxPathBytes data = some value) : ∃ raw, (paxRecords P data).get? "path" = some raw ∧
      ((∃ name, decodeUtf8 value = some name ∧ cleaned raw = cleaned name) ↔ AsciiBytes value) := by
  rcases h with h | ⟨name, rfl, hsize⟩
  · obtain ⟨hget, hplain⟩ := paxRecords_settled hdecoder h
    obtain ⟨hascii, hsome⟩ := hplain value hvalue
    rw [hvalue] at hget
    obtain ⟨name, hname⟩ := Option.isSome_iff_exists.mp hsome
    exact ⟨name, hget.trans hname, iff_of_true ⟨name, hname, rfl⟩ hascii⟩
  · rw [paxPathBytes_paxPath hsize] at hvalue
    obtain rfl := Option.some.inj hvalue
    refine ⟨paxName name, paxRecords_paxPath P hsize, ?_⟩
    have hascii : AsciiBytes (encodeText name) ↔ Text.isAscii name = true := by
      rw [Text.isAscii_iff]
      constructor
      · intro h c hc
        by_contra hlarge
        obtain ⟨b, hb⟩ : ∃ b, b ∈ String.utf8EncodeChar c :=
          List.exists_mem_of_ne_nil _ String.utf8EncodeChar_ne_nil
        have hmem : b ∈ encodeText name := by
          rw [encodeText_eq]
          exact List.mem_flatMap.mpr ⟨c, hc, hb⟩
        have hlt := h b hmem
        rcases mem_utf8EncodeChar hb with ⟨hc, -⟩ | ⟨-, hb⟩ <;> omega
      · intro h b hb
        rw [encodeText_eq] at hb
        obtain ⟨c, hc, hb⟩ := List.mem_flatMap.mp hb
        have hlt := h c hc
        rcases mem_utf8EncodeChar hb with ⟨-, hb⟩ | ⟨hc, -⟩ <;> omega
    rw [hascii, ← cleaned_paxName, decodeUtf8_encodeText]
    simp

/-- A header without a path record gives no path. -/
theorem pax_none (hdecoder : ReplacesInvalid P) {data : Bytes} (h : KnownHeader data) (hvalue : paxPathBytes data = none) :
    (paxRecords P data).get? "path" = none := by
  rcases h with h | ⟨name, rfl, hsize⟩
  · rw [(paxRecords_settled hdecoder h).1, hvalue]
    rfl
  · rw [paxPathBytes_paxPath hsize] at hvalue
    cases hvalue

/-- The name of one file, whose PAX header is known. -/
theorem name_exact_iff (hdecoder : ReplacesInvalid P) {m : Member} {raw : String} (h : m.readName P = some raw)
    (hpax : ∀ data, m.naming.pax = some data → KnownHeader data) :
    (∃ name, (m.nameBytes P).strict = some name ∧ cleaned raw = cleaned name) ↔
      (m.nameBytes P).Plain := by
  unfold Member.readName at h
  unfold Member.nameBytes
  cases hpath : m.naming.pax.bind paxPathBytes with
  | some value =>
    obtain ⟨data, hdata, hvalue⟩ := Option.bind_eq_some_iff.mp hpath
    obtain ⟨read, hread, hexact⟩ := pax_exact_iff hdecoder (hpax data hdata) hvalue
    rw [hdata, Option.bind_some, hread] at h
    obtain rfl := Option.some.inj h
    exact hexact
  | none =>
    have hnone : (m.naming.pax.bind fun data => (paxRecords P data).get? "path") = none := by
      cases hdata : m.naming.pax with
      | none => rfl
      | some data =>
        rw [hdata] at hpath
        exact pax_none hdecoder (hpax data hdata) hpath
    rw [hnone] at h
    cases hlong : m.naming.longName with
    | some value =>
      rw [hlong] at h
      have hraw : decodeText P value = raw := Option.some.inj h
      constructor
      · rintro ⟨name, hname, hclean⟩
        have hname : decodeUtf8 value = some name := hname
        rw [← hraw, decodeText_of_utf8 hname] at hclean
        exact ⟨by rw [hname]; rfl, (dropMark_eq_iff hname).mpr (unmarked_of_cleaned hclean)⟩
      · rintro ⟨hutf8, hmark⟩
        obtain ⟨name, hname⟩ := Option.isSome_iff_exists.mp hutf8
        refine ⟨name, hname, ?_⟩
        rw [← hraw, decodeText_of_utf8 hname, (dropMark_eq_iff hname).mp hmark]
    | none =>
      rw [hlong] at h
      exact fields_exact_iff h

/-- Every entry has the name that its file's bytes say, and an archive with a file whose name is not
    UTF-8 fails. -/
structure StrictNames (P : Platform) (bytes : Bytes) : Prop where
  exact_names : ∀ entries, untar P bytes = .ok entries →
    List.Forall₂ (NamedExactly P) (members P bytes) entries
  refused : ∀ m ∈ members P bytes, (m.nameBytes P).strict = none → ∃ message,
    untar P bytes = .error message

/-- Entries by the names that are read have the exact names when every name is plain. -/
theorem named_exactly_iff (hdecoder : ReplacesInvalid P) {ms : List Member} {entries : List ArchiveEntry}
    (h : List.Forall₂ (fun m entry => (∃ raw, m.readName P = some raw ∧ entry.path = cleaned raw) ∧
      entry.data = m.data) ms entries)
    (hpax : ∀ m ∈ ms, ∀ data, m.naming.pax = some data → KnownHeader data) :
    List.Forall₂ (NamedExactly P) ms entries ↔ ∀ m ∈ ms, (m.nameBytes P).Plain := by
  induction h with
  | nil => exact iff_of_true List.Forall₂.nil (by simp)
  | cons hfirst hrest ih =>
    obtain ⟨⟨raw, hraw, hpath⟩, hdata⟩ := hfirst
    rw [List.forall_mem_cons] at hpax ⊢
    rw [List.forall₂_cons, ih hpax.2, NamedExactly, hpath, and_iff_left hdata,
      name_exact_iff hdecoder hraw hpax.1]

/-- An archive that `untar` accepts, with known PAX headers, has strict names exactly when no name
    loses anything in decoding. -/
theorem strict_names_iff (hdecoder : ReplacesInvalid P) {bytes : Bytes} {entries : List ArchiveEntry}
    (h : untar P bytes = .ok entries)
    (hpax : ∀ m ∈ members P bytes, ∀ data, m.naming.pax = some data → KnownHeader data) :
    StrictNames P bytes ↔ ∀ m ∈ members P bytes, (m.nameBytes P).Plain := by
  have hexact := named_exactly_iff hdecoder (untarLoop_members {} h) hpax
  constructor
  · intro hstrict
    exact hexact.mp (hstrict.exact_names entries h)
  · intro hplain
    have hnamed := hexact.mpr hplain
    constructor
    · intro entries' h'
      rw [h] at h'
      obtain rfl := Except.ok.inj h'
      exact hnamed
    · intro m hm hnone
      obtain ⟨entry, -, ⟨name, hname, -⟩, -⟩ := exists_of_forall₂ hnamed hm
      rw [hnone] at hname
      cases hname

/-! ### Two archives -/

/-- A decoder that replaces every byte beyond ASCII. -/
def plainPlatform : Platform :=
  { Platform.ofTables [] [] [] [] with
    replaceInvalid := fun bytes => String.ofList (bytes.map fun b =>
      if b.toNat < 128 then Char.ofNat b.toNat else '\uFFFD') }

theorem plainPlatform_replaces : ReplacesInvalid plainPlatform := by
  intro bytes
  show Alike _ (Text.units (String.ofList _))
  rw [Text.units, String.toList_ofList]
  induction bytes with
  | nil => exact .nil
  | cons b bytes ih =>
    rw [List.map_cons, List.map_cons, List.flatMap_cons]
    by_cases hb : b.toNat < 128
    · have hcode : (Char.ofNat b.toNat).toNat = b.toNat := by
        have hvalid : b.toNat.isValidChar := Or.inl (by omega)
        rw [Char.ofNat, dif_pos hvalid]
        rfl
      rw [if_pos hb, Text.utf16, hcode, if_pos (by omega)]
      exact .ascii hb ih
    · rw [if_neg hb]
      exact .beyond (x := [b.toNat]) (y := [0xFFFD]) (by simp) (by simp) (by simpa using hb) (by decide) ih

/-- An archive of one file, with this PAX header. -/
def paxArchive (record : Bytes) : Bytes :=
  tarHeader (encodeText "PaxHeader/f") record.length 0o644 'x' ++ padded record ++
    tarHeader (encodeText "f") 1 0o644 '0' ++ padded [97] ++ List.replicate 1024 0

/-- A name of one letter beyond ASCII gets a line break. -/
theorem accented_name_misread : ¬ StrictNames plainPlatform (paxArchive (paxPath "é")) ∧
    untar plainPlatform (paxArchive (paxPath "é")) = .ok [{ path := "é\n", data := [97] }] := by
  have huntar : untar plainPlatform (paxArchive (paxPath "é")) = .ok [{ path := "é\n", data := [97] }] := by
    decide +kernel
  refine ⟨fun h => ?_, huntar⟩
  have hnames : (members plainPlatform (paxArchive (paxPath "é"))).map
      (fun m => (m.nameBytes plainPlatform).strict) = [some "é"] := by decide +kernel
  have hexact := h.exact_names _ huntar
  obtain ⟨m, ms, ⟨⟨name, hname, hpath⟩, -⟩, -, hmembers⟩ := List.forall₂_cons_right_iff.mp hexact
  rw [hmembers, List.map_cons] at hnames
  have hread : some name = some "é" := hname.symm.trans (List.cons.inj hnames).1
  rw [Option.some.inj hread] at hpath
  exact absurd hpath (by decide +kernel)

/-- A path record of ASCII, and a letter behind it. -/
def accentBehind : Bytes := paxPath "e" ++ encodeText "é"

/-- A name of one ASCII letter is read as it is, whatever stands behind its record. -/
theorem ascii_name_read :
    untar plainPlatform (paxArchive accentBehind) = .ok [{ path := "e", data := [97] }] ∧
    StrictNames plainPlatform (paxArchive accentBehind) := by
  have huntar : untar plainPlatform (paxArchive accentBehind) = .ok [{ path := "e", data := [97] }] := by
    decide +kernel
  have hmembers : ∀ m ∈ members plainPlatform (paxArchive accentBehind),
      m.naming.pax = some accentBehind ∧ m.nameBytes plainPlatform = .pax [101] := by
    have hall : (members plainPlatform (paxArchive accentBehind)).all (fun m =>
        m.naming.pax = some accentBehind ∧ m.nameBytes plainPlatform = .pax [101]) = true := by
      decide +kernel
    simpa using hall
  have hsettled : PathSettled accentBehind := ⟨by decide +kernel, by decide +kernel⟩
  refine ⟨huntar, (strict_names_iff plainPlatform_replaces huntar ?_).mpr ?_⟩
  · intro m hm data hdata
    rw [(hmembers m hm).1] at hdata
    rw [← Option.some.inj hdata]
    exact Or.inl hsettled
  · intro m hm
    rw [(hmembers m hm).2]
    intro b hb
    rw [List.mem_singleton.mp hb]
    decide

end Akua
