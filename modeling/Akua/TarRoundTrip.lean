import Akua.PaxRecord

/-! Writing an archive and reading it back. Reading takes the files in turn, each under the name its
    headers give: a short name without the byte order mark it may start with, a long one with a
    line feed behind it where it is not ASCII. All other names, and all contents, come back. -/

namespace Akua

variable (P : Platform)

/-! ### Paths -/

/-- A relative path in its one form, of characters a file name can have. -/
structure CanonicalPath (path : String) : Prop where
  segments : ∀ s ∈ Text.split path '/', FilePath.Plain s
  no_backslash : '\\' ∉ path.toList
  no_nul : '\x00' ∉ path.toList

/-- The reader takes a canonical path as it is. -/
theorem entryPath_canonical {path : String} (h : CanonicalPath path) : entryPath path = some path := by
  have hslashed : slashed path = path := by
    have hmap : (path.toList.map fun c => if c = '\\' then '/' else c) = path.toList := by
      refine (List.map_congr_left fun c hc => if_neg ?_).trans (List.map_id _)
      rintro rfl
      exact h.no_backslash hc
    rw [slashed, hmap, String.ofList_toList]
  have hsegments : FilePath.segments path = Text.split path '/' := by
    rw [FilePath.segments, List.filter_eq_self]
    intro s hs
    exact decide_eq_true ⟨(h.segments s hs).1, (h.segments s hs).2.1⟩
  rw [entryPath, hslashed, hsegments, Text.join_split]
  refine if_neg ?_
  rintro (habs | hparent | hempty)
  · obtain ⟨rest, hrest⟩ := Text.startsWith_iff.mp habs
    have hslash := @Text.split_append "" rest "/" '/' rfl
    rw [String.empty_append, ← hrest] at hslash
    exact (h.segments "" (hslash ▸ List.mem_append_left _ (by decide))).1 rfl
  · exact (h.segments _ hparent).2.2.1 rfl
  · exact Text.split_ne_nil path '/' hempty

/-- A canonical path stays one with a line feed at its end. -/
theorem CanonicalPath.feed {path : String} (h : CanonicalPath path) : CanonicalPath (path ++ "\n") := by
  have hsplit : ∃ init last, Text.split path '/' = init ++ [last] :=
    ⟨_, _, (List.dropLast_concat_getLast (Text.split_ne_nil path '/')).symm⟩
  obtain ⟨init, last, hsplit⟩ := hsplit
  have hparts : ∀ s ∈ init ++ [last ++ "\n"], FilePath.Plain s := by
    intro s hs
    rcases List.mem_append.mp hs with hs | hs
    · exact h.segments s (hsplit ▸ List.mem_append_left _ hs)
    · have hlast := h.segments last (hsplit ▸ List.mem_append_right _ List.mem_cons_self)
      rw [List.mem_singleton.mp hs]
      have hfeed : '\n' ∈ (last ++ "\n").toList := by simp
      refine ⟨?_, ?_, ?_, by simpa using hlast.2.2.2⟩ <;> intro he <;> rw [he] at hfeed <;>
        exact absurd hfeed (by decide)
  have hjoin : path ++ "\n" = Text.join (init ++ [last ++ "\n"]) '/' := by
    rw [Text.join_append_last, ← hsplit, Text.join_split]
  refine ⟨?_, by simpa using h.no_backslash, by simpa using h.no_nul⟩
  rwa [hjoin, Text.split_join (by simp) fun s hs => (hparts s hs).2.2.2]

/-- Segments, each with a separator behind it. -/
def spread (segments : List String) : Nat :=
  (segments.map fun s => s.toList.length + 1).foldr (· + ·) 0

theorem spread_join : ∀ {segments : List String}, segments ≠ [] →
    (Text.join segments '/').toList.length + 1 = spread segments
  | [], h => absurd rfl h
  | [s], _ => by simp [spread]
  | s :: t :: rest, _ => by
      have ih := spread_join (List.cons_ne_nil t rest)
      rw [Text.join_cons_cons]
      simp only [spread, List.map_cons, List.foldr_cons, String.toList_append, List.length_append,
        String.toList_ofList, List.length_singleton] at ih ⊢
      omega

theorem spread_sublist {a b : List String} (h : a.Sublist b) : spread a ≤ spread b := by
  induction h with
  | slnil => exact Nat.le_refl _
  | cons s _ ih =>
    simp only [spread, List.map_cons, List.foldr_cons] at ih ⊢
    omega
  | cons_cons s _ ih =>
    simp only [spread, List.map_cons, List.foldr_cons] at ih ⊢
    omega

/-- Making a path relative does not make it longer. -/
theorem entryPath_length {raw path : String} (h : entryPath raw = some path) :
    path.toList.length ≤ raw.toList.length := by
  unfold entryPath at h
  dsimp only at h
  split at h
  · cases h
  · rename_i hbad
    simp only [not_or] at hbad
    obtain rfl := Option.some.inj h
    have hspread := spread_sublist (List.filter_sublist (l := Text.split (slashed raw) '/')
      (p := fun c => c ≠ "" ∧ c ≠ "."))
    have hparts := spread_join hbad.2.2
    have hraw := spread_join (Text.split_ne_nil (slashed raw) '/')
    rw [Text.join_split] at hraw
    have hslashed : (slashed raw).toList.length = raw.toList.length := by simp [slashed]
    have hsegments : spread (FilePath.segments (slashed raw)) ≤
      spread (Text.split (slashed raw) '/') := hspread
    omega

/-! ### Files -/

/-- The name an archive gives back for a path. -/
def readName (path : String) : String :=
  if (encodeText path).length ≤ 100 then Text.stripPrefix path "\uFEFF" else paxName path

/-- The path comes back from an archive: it is short and has no byte order mark, or is ASCII. -/
def ReadsBack (path : String) : Prop :=
  if (encodeText path).length ≤ 100 then Text.startsWith path "\uFEFF" = false
  else Text.isAscii path = true

instance : DecidablePred ReadsBack := fun path =>
  inferInstanceAs (Decidable (if (encodeText path).length ≤ 100 then _ else _))

theorem entryOf_readName {path : String} {data : Bytes} (h : CanonicalPath path) :
    entryOf (readName path) data = .ok { path, data } ↔ ReadsBack path := by
  have hsame : entryOf path data = .ok { path, data } := by
    rw [entryOf, entryPath_canonical h]
  have hother : ∀ raw, entryPath raw ≠ some path → entryOf raw data ≠ .ok { path, data } := by
    intro raw hraw he
    unfold entryOf at he
    split at he
    · cases he
    · rename_i found hfound
      cases he
      exact hraw hfound
  rw [readName, ReadsBack]
  split
  · by_cases hmark : Text.startsWith path "\uFEFF" = true
    · obtain ⟨rest, rfl⟩ := Text.startsWith_iff.mp hmark
      rw [Text.stripPrefix_append]
      refine iff_of_false (hother rest fun he => ?_) (by simp)
      have hlength := entryPath_length he
      have hmark : "\uFEFF".toList.length = 1 := by decide
      rw [String.toList_append, List.length_append] at hlength
      omega
    · rw [Text.stripPrefix, if_neg hmark]
      exact iff_of_true hsame (by simpa using hmark)
  · rw [paxName]
    split
    · rename_i hascii
      exact iff_of_true hsame hascii
    · rename_i hascii
      refine iff_of_false (hother _ fun he => ?_) hascii
      rw [entryPath_canonical h.feed] at he
      have hlength := congrArg (fun p => p.toList.length) (Option.some.inj he)
      simp at hlength

theorem noPending (name : Option String) :
    ((({} : PendingNames).pax.bind fun pax => pax.get? "path") <|> ({} : PendingNames).longName <|> name) =
      name := by
  cases name <;> rfl

/-- The zero blocks end the archive. -/
theorem untar_end : untar P (tar []) = .ok [] := by
  have hzeros : tar [] = List.replicate 1024 0 := rfl
  rw [untar, untarLoop, if_neg]
  · dsimp only
    rw [if_pos]
    rw [hzeros, List.take_replicate, List.all_replicate]
    decide
  · rw [hzeros, List.length_replicate]
    decide

/-- A file in front of other blocks is read before them. -/
theorem untar_tarFile {file : TarFile} (hpath : CanonicalPath file.path)
    (hlong : (Text.units file.path).length ≤ MAX_STRING_LENGTH) (hdata : file.data.length < 8 ^ 11)
    (rest : Bytes) :
    untar P (tarFile file ++ rest) =
      entryOf (readName file.path) file.data >>= fun entry => (entry :: ·) <$> untar P rest := by
  have hnul := zero_not_mem_encodeText hpath.no_nul
  have hrest : ∀ fuel, rest.length / 512 + 1 ≤ fuel → untarLoop P fuel {} rest = untar P rest :=
    fun fuel h => untarLoop_fuel P h
  have hblock : ∀ (header data rest : Bytes), header.length = 512 →
      rest.length / 512 + 1 ≤ (header ++ (padded data ++ rest)).length / 512 := by
    intro header data rest hheader
    rw [List.length_append, List.length_append, hheader]
    omega
  by_cases hshort : (encodeText file.path).length ≤ 100
  · have hfile : tarFile file ++ rest = tarHeader (encodeText file.path) file.data.length file.mode '0' ++
        (padded file.data ++ rest) := by
      simp only [tarFile, if_neg (Nat.not_lt.mpr hshort), List.nil_append, List.append_assoc]
    have hname : readName file.path = Text.stripPrefix file.path "\uFEFF" := if_pos hshort
    rw [hfile, untar, hname, untarLoop_file P hdata]
    · rw [hrest _ (hblock _ _ _ length_tarHeader)]
    · rw [noPending, headerName_tarHeader P hshort hnul, decodeStrict_eq]
  · have hrecord := length_paxPath_lt hlong
    have hfile : tarFile file ++ rest =
        tarHeader (encodeText ("PaxHeader/" ++ file.path)) (paxPath file.path).length 0o644 'x' ++
          (padded (paxPath file.path) ++
            (tarHeader (encodeText file.path) file.data.length file.mode '0' ++
              (padded file.data ++ rest))) := by
      simp only [tarFile, if_pos (Nat.not_le.mp hshort), List.append_assoc]
    have hname : readName file.path = paxName file.path := if_neg hshort
    have hlast := hblock (tarHeader (encodeText file.path) file.data.length file.mode '0') file.data rest
      length_tarHeader
    have hfirst := hblock (tarHeader (encodeText ("PaxHeader/" ++ file.path)) (paxPath file.path).length
      0o644 'x') (paxPath file.path) (tarHeader (encodeText file.path) file.data.length file.mode '0' ++
        (padded file.data ++ rest)) length_tarHeader
    rw [hfile, untar, hname, untarLoop_pax P hrecord]
    obtain ⟨fuel, hfuel⟩ := Nat.exists_eq_add_of_le' (Nat.le_trans (Nat.le_add_left 1 _) hfirst)
    rw [hfuel, untarLoop_file P hdata]
    · rw [hrest fuel (by omega)]
    · rw [Option.bind_some, paxRecords_paxPath P hrecord]
      rfl

/-- An archive gives its files back, paths and contents, just where every path is short without a
    byte order mark, or ASCII. -/
theorem tar_untar_iff {files : List TarFile} (hpaths : ∀ file ∈ files, CanonicalPath file.path)
    (hlong : ∀ file ∈ files, (Text.units file.path).length ≤ MAX_STRING_LENGTH)
    (hdata : ∀ file ∈ files, file.data.length < 8 ^ 11) :
    untar P (tar files) = .ok (files.map fun file => { path := file.path, data := file.data }) ↔
      ∀ file ∈ files, ReadsBack file.path := by
  induction files with
  | nil => exact iff_of_true (untar_end P) fun _ h => absurd h List.not_mem_nil
  | cons file files ih =>
    obtain ⟨hpath, hpaths⟩ := List.forall_mem_cons.mp hpaths
    obtain ⟨hlong, hlongs⟩ := List.forall_mem_cons.mp hlong
    obtain ⟨hdata, hdatas⟩ := List.forall_mem_cons.mp hdata
    have htar : tar (file :: files) = tarFile file ++ tar files := by
      rw [tar, tar, List.flatMap_cons, List.append_assoc]
    rw [htar, untar_tarFile P hpath hlong hdata, List.forall_mem_cons, ← ih hpaths hlongs hdatas,
      ← entryOf_readName hpath, List.map_cons, except_bind_ok]
    constructor
    · rintro ⟨entry, hentry, hmap⟩
      cases hfound : untar P (tar files) with
      | error message =>
        rw [hfound] at hmap
        cases hmap
      | ok found =>
        rw [hfound] at hmap
        cases hmap
        exact ⟨hentry, rfl⟩
    · rintro ⟨hentry, hfound⟩
      exact ⟨_, hentry, by rw [hfound]; rfl⟩

/-! ### Long names -/

/-- One character, again and again. -/
def repeated (c : Char) (n : Nat) : String := String.ofList (List.replicate n c)

theorem canonicalPath_repeated {c : Char} (hc : c ∉ ['/', '\\', '\x00', '.']) (n : Nat) :
    CanonicalPath (repeated c (n + 1)) := by
  simp only [List.mem_cons, List.not_mem_nil, or_false, not_or] at hc
  have hmem : ∀ d ∈ (repeated c (n + 1)).toList, d = c := by
    intro d hd
    rw [repeated, String.toList_ofList] at hd
    exact List.eq_of_mem_replicate hd
  have hfirst : c ∈ (repeated c (n + 1)).toList := by simp [repeated]
  refine ⟨?_, fun h => hc.2.1 (hmem _ h).symm, fun h => hc.2.2.1 (hmem _ h).symm⟩
  rw [Text.split_of_not_mem fun h => hc.1 (hmem _ h).symm]
  intro s hs
  rw [List.mem_singleton.mp hs]
  refine ⟨?_, ?_, ?_, fun h => hc.1 (hmem _ h).symm⟩ <;> intro he <;> rw [he] at hfirst
  · exact List.not_mem_nil hfirst
  · exact hc.2.2.2 (List.mem_singleton.mp hfirst)
  · rcases List.mem_cons.mp hfirst with h | h
    · exact hc.2.2.2 h
    · exact hc.2.2.2 (List.mem_singleton.mp h)

/-- A name of 60 accented letters, 120 bytes. -/
def accented : TarFile := { path := repeated 'é' 60, data := [1], mode := 0o644 }

theorem accented_path_changes : CanonicalPath accented.path ∧
    (Text.units accented.path).length ≤ MAX_STRING_LENGTH ∧ accented.data.length < 8 ^ 11 ∧
    untar (.ofTables [] [] [] []) (tar [accented]) =
      .ok [{ path := accented.path ++ "\n", data := accented.data }] := by
  have hpath : CanonicalPath accented.path := canonicalPath_repeated (by decide) 59
  have hlong : (Text.units accented.path).length ≤ MAX_STRING_LENGTH := by decide +kernel
  have htar : tar [accented] = tarFile accented ++ tar [] := by
    rw [tar, tar, List.flatMap_cons, List.append_assoc]
  have hname : readName accented.path = accented.path ++ "\n" := by
    rw [readName, if_neg (by decide +kernel), paxName, if_neg (by decide +kernel)]
  refine ⟨hpath, hlong, by decide, ?_⟩
  rw [htar, untar_tarFile _ hpath hlong (by decide), untar_end, hname, entryOf,
    entryPath_canonical hpath.feed]
  rfl

/-- A file of a chart, next to one with a long name. -/
def chartFiles : List TarFile :=
  [{ path := "charts/über.yaml", data := [0, 10, 255], mode := 0o644 },
   { path := repeated 'x' 120, data := [], mode := 0o755 }]

theorem chart_files_come_back : untar (.ofTables [] [] [] []) (tar chartFiles) =
    .ok (chartFiles.map fun file => { path := file.path, data := file.data }) := by
  refine (tar_untar_iff _ ?_ (by decide +kernel) (by decide)).mpr (by decide +kernel)
  intro file hfile
  simp only [chartFiles, List.mem_cons, List.not_mem_nil, or_false] at hfile
  rcases hfile with rfl | rfl
  · exact ⟨by decide +kernel, by decide +kernel, by decide +kernel⟩
  · exact canonicalPath_repeated (by decide) 119

end Akua
