import Mathlib.Data.Finset.Max
import Akua.Lib.Keyed
import Akua.Plugins

/-! What the Kustomize engine is given: an archive of the overlay's parent under `pkg/`, and the overlay's
    place in it. The overlay's files stand there, and so do those of a base that is reached without
    leaving the parent. The package root has no parent, and its place is taken by the files of a
    directory called `overlay`. -/

namespace Akua

/-! ### Paths by their components -/

/-- A component a normalized path can have. -/
def IsSegment (s : String) : Prop := s ≠ "" ∧ '/' ∉ s.toList

/-- Where a path leads from a directory; none when it leaves the tree. -/
def resolveFrom (start : List String) (path : String) : Option (List String) :=
  (Text.split path '/').foldlM resolveSegment start

theorem foldlM_resolveSegment {segments : List String} (h : ∀ s ∈ segments, '/' ∉ s.toList) :
    ∀ {start out : List String}, (∀ c ∈ start, IsSegment c) → segments.foldlM resolveSegment start = some out →
      ∀ c ∈ out, IsSegment c := by
  induction segments with
  | nil =>
    intro start out hstart hout
    obtain rfl : start = out := Option.some.inj hout
    exact hstart
  | cons s segments ih =>
    intro start out hstart hout
    rw [List.foldlM_cons] at hout
    obtain ⟨next, hnext, hout⟩ := Option.bind_eq_some_iff.mp hout
    refine ih (fun t ht => h t (List.mem_cons_of_mem _ ht)) (fun c hc => ?_) hout
    rw [resolveSegment] at hnext
    split at hnext
    · exact hstart c (Option.some.inj hnext ▸ hc)
    rename_i hne
    split at hnext
    · obtain rfl := Option.some.inj hnext
      rcases List.mem_append.mp hc with hc | hc
      · exact hstart c hc
      · rw [List.mem_singleton.mp hc]
        exact ⟨fun h => hne (.inl h), h s List.mem_cons_self⟩
    split at hnext
    · cases hnext
    · obtain rfl := Option.some.inj hnext
      exact hstart c (List.dropLast_subset _ hc)

theorem resolveFrom_segments {start out : List String} {path : String} (hstart : ∀ c ∈ start, IsSegment c)
    (h : resolveFrom start path = some out) : ∀ c ∈ out, IsSegment c :=
  foldlM_resolveSegment (fun _ hs => Text.not_mem_of_mem_split hs) hstart h

/-- A walk that stays below a directory is the same walk from anywhere above it. -/
theorem foldlM_resolveSegment_append {segments : List String} (above : List String) :
    ∀ {start out : List String}, segments.foldlM resolveSegment start = some out →
      segments.foldlM resolveSegment (above ++ start) = some (above ++ out) := by
  induction segments with
  | nil =>
    intro start out h
    obtain rfl : start = out := Option.some.inj h
    rfl
  | cons s segments ih =>
    intro start out h
    rw [List.foldlM_cons] at h ⊢
    obtain ⟨next, hnext, h⟩ := Option.bind_eq_some_iff.mp h
    have hstep : resolveSegment (above ++ start) s = some (above ++ next) := by
      rw [resolveSegment] at hnext ⊢
      split at hnext
      · rename_i hskip
        rw [if_pos hskip, Option.some.inj hnext]
      rename_i hskip
      rw [if_neg hskip]
      split at hnext
      · rename_i hname
        rw [if_pos hname, ← Option.some.inj hnext, List.append_assoc]
      rename_i hup
      rw [if_neg hup]
      split at hnext
      · cases hnext
      · rename_i hne
        rw [if_neg (by simp [hne]), ← Option.some.inj hnext, List.dropLast_append_of_ne_nil hne]
    rw [hstep]
    exact ih h

theorem resolveInSnapshot_some {path directory : String} (h : resolveInSnapshot path = some directory) :
    ∃ comps, (∀ c ∈ comps, IsSegment c) ∧ directory = Text.join comps '/' := by
  rw [resolveInSnapshot] at h
  split at h
  · cases h
  obtain ⟨comps, hcomps, rfl⟩ := Option.map_eq_some_iff.mp h
  exact ⟨comps, resolveFrom_segments (by simp) hcomps, rfl⟩

section Segments

variable {comps : List String} (h : ∀ c ∈ comps, IsSegment c)
include h

theorem join_segments_eq_empty : Text.join comps '/' = "" ↔ comps = [] := by
  constructor
  · intro hempty
    rcases comps with _ | ⟨c, comps⟩
    · rfl
    · obtain ⟨x, hx⟩ := List.exists_mem_of_ne_nil c.toList fun hc =>
        (h c List.mem_cons_self).1 (String.toList_inj.mp hc)
      have hmem : x ∈ (Text.join (c :: comps) '/').toList := Text.mem_join_of_mem List.mem_cons_self hx
      rw [hempty] at hmem
      cases hmem
  · rintro rfl
    rfl

theorem split_segments (hne : comps ≠ []) : Text.split (Text.join comps '/') '/' = comps :=
  Text.split_join hne fun c hc => (h c hc).2

theorem lastSegment_join (fallback : String) :
    lastSegment (Text.join comps '/') fallback = comps.getLast?.getD fallback := by
  by_cases hne : comps = []
  · subst hne; rfl
  · rw [lastSegment, split_segments h hne, List.filter_eq_self.mpr fun c hc => by simpa using (h c hc).1]

theorem parent_join : Text.join (Text.split (Text.join comps '/') '/').dropLast '/' =
    Text.join comps.dropLast '/' := by
  by_cases hne : comps = []
  · subst hne; rfl
  · rw [split_segments h hne]

end Segments

/-! ### The request -/

/-- The files of a snapshot in an archive, under `directory/`. -/
def archived (files : Snapshot) (directory : String) : List TarFile :=
  (files.entries.insertionSort fun a b => comparePaths a.1 b.1).map fun f =>
    { path := directory ++ "/" ++ f.1, data := f.2, mode := 0o644 }

/-- The overlay's parent, as its path says. -/
def parentOf (directory : String) : String := Text.join (Text.split directory '/').dropLast '/'

/-- What `kustomize.build` asks of the engine for the overlay `directory`. -/
def kustomizeRequest (P : Platform) (files : Snapshot) (directory : String) : KustomizeRequest where
  treeTarGz := tarGz P (subtree files (parentOf directory)) "pkg"
  entrypoint := "pkg/" ++ lastSegment directory "overlay"

/-- `kustomize.build` sends this request, for the directory that its argument names. -/
theorem kustomizeBuild_eq {σ : Type} (P : Platform) (services : PluginServices σ) (argsJson : String)
    (scope : PluginScope σ) : kustomizeBuild P services argsJson scope = (do
      let path ← Effect.ofExcept
        ((decodeArgs P (fun value => value.required Value.asString "path") argsJson).mapError .fail)
      let (directory, _) ← packageDir "kustomize.build" scope.files path
      let yaml ← withBudget scope.budget (services.kustomize (kustomizeRequest P scope.files directory))
      parseManifests services "kustomize.build" yaml) := rfl

/-- The file at a path, in an archive. -/
def heldAt (tree : List TarFile) (path : String) : Option Bytes :=
  (tree.find? fun file => file.path = path).map TarFile.data

/-- The file `name` of the directory with these components. -/
def fileIn (files : Snapshot) (comps : List String) (name : String) : Option Bytes :=
  files.get? (Text.join (comps ++ [name]) '/')

theorem append_cancel {start a b : String} : start ++ a = start ++ b ↔ a = b := by
  rw [← String.toList_inj, String.toList_append, String.toList_append, List.append_cancel_left_eq,
    String.toList_inj]

theorem get?_subtree (files : Snapshot) {comps : List String} (h : ∀ c ∈ comps, IsSegment c)
    (name : String) : (subtree files (Text.join comps '/')).get? name = fileIn files comps name := by
  rw [subtree, fileIn]
  by_cases hne : comps = []
  · subst hne
    simp [Text.join]
  rw [if_neg (mt (join_segments_eq_empty h).mp hne), Text.join_concat name '/' hne]
  generalize Text.join comps '/' = directory
  have hpath : directory ++ (String.ofList ['/'] ++ name) = directory ++ "/" ++ name := by
    apply String.toList_inj.mp
    simp
  have hstart : ∀ f : String × Bytes, f ∈ files.entries.filter (fun f => Text.startsWith f.1 (directory ++ "/")) →
      f.1 = directory ++ "/" ++ Text.after f.1 (directory ++ "/") := by
    intro f hf
    obtain ⟨t, ht⟩ := Text.startsWith_iff.mp (List.mem_filter.mp hf).2
    rw [ht, Text.after_append]
  have hnodup : (((files.entries.filter fun f => Text.startsWith f.1 (directory ++ "/")).map
      fun f => (Text.after f.1 (directory ++ "/"), f.2)).map Prod.fst).Nodup := by
    have hkeys : ((files.entries.filter fun f => Text.startsWith f.1 (directory ++ "/")).map Prod.fst).Nodup :=
      files.nodup.sublist (List.filter_sublist.map Prod.fst)
    rw [List.map_map]
    refine List.Nodup.map_on (fun f hf g hg hfg => ?_) (List.Nodup.of_map _ hkeys)
    have hkey : f.1 = g.1 := by
      rw [hstart f hf, hstart g hg]
      exact congrArg (directory ++ "/" ++ ·) hfg
    exact List.inj_on_of_nodup_map hkeys hf hg hkey
  refine Option.ext fun data => ?_
  rw [hpath, Table.get?_eq_some, Table.entries_ofList hnodup, Table.get?_eq_some, List.mem_map]
  constructor
  · rintro ⟨f, hf, heq⟩
    obtain ⟨hname, rfl⟩ := Prod.mk.inj heq
    rw [← hname, ← hstart f hf]
    exact (List.mem_filter.mp hf).1
  · intro hmem
    exact ⟨_, List.mem_filter.mpr ⟨hmem, by simp⟩, by simp⟩

theorem heldAt_archived (files : Snapshot) (directory name : String) :
    heldAt (archived files directory) (directory ++ "/" ++ name) = files.get? name := by
  have hnodup : ((archived files directory).map TarFile.path).Nodup := by
    rw [archived, List.map_map]
    have hkeys : ((files.entries.insertionSort fun a b => comparePaths a.1 b.1).map Prod.fst).Nodup :=
      ((List.perm_insertionSort _ _).map Prod.fst).nodup_iff.mpr files.nodup
    refine List.Nodup.map_on (fun f hf g hg hfg => ?_) (List.Nodup.of_map _ hkeys)
    exact List.inj_on_of_nodup_map hkeys hf hg (append_cancel.mp hfg)
  refine Option.ext fun data => ?_
  have hfind : ∀ file, Keyed.find TarFile.path (directory ++ "/" ++ name) (archived files directory) = some file ↔
      file ∈ archived files directory ∧ file.path = directory ++ "/" ++ name := fun _ => Keyed.find_eq_some hnodup
  have hheld : heldAt (archived files directory) (directory ++ "/" ++ name) =
      (Keyed.find TarFile.path (directory ++ "/" ++ name) (archived files directory)).map TarFile.data := rfl
  rw [hheld, Option.map_eq_some_iff, Table.get?_eq_some]
  constructor
  · rintro ⟨file, hfile, rfl⟩
    obtain ⟨hmem, hpath⟩ := (hfind file).mp hfile
    obtain ⟨f, hf, rfl⟩ := List.mem_map.mp hmem
    obtain rfl := append_cancel.mp hpath
    exact (List.mem_insertionSort _).mp hf
  · intro hmem
    exact ⟨⟨directory ++ "/" ++ name, data, 0o644⟩, (hfind _).mpr
      ⟨List.mem_map.mpr ⟨(name, data), (List.mem_insertionSort _).mpr hmem, rfl⟩, rfl⟩, rfl⟩

theorem heldAt_elsewhere (files : Snapshot) {directory path : String}
    (h : ∀ name, path ≠ directory ++ "/" ++ name) : heldAt (archived files directory) path = none := by
  rw [heldAt, List.find?_eq_none.mpr, Option.map_none]
  intro file hfile
  obtain ⟨f, -, rfl⟩ := List.mem_map.mp hfile
  simpa using (h f.1).symm

/-! ### Places in the tree -/

theorem join_cons {c : String} {comps : List String} (hne : comps ≠ []) :
    Text.join (c :: comps) '/' = c ++ "/" ++ Text.join comps '/' := by
  obtain ⟨d, comps, rfl⟩ := List.exists_cons_of_ne_nil hne
  rw [Text.join_cons_cons, ← String.append_assoc]

/-- A path that is joined already is joined to others component by component. -/
theorem join_join (comps : List String) {more : List String} (hne : more ≠ []) :
    Text.join (comps ++ [Text.join more '/']) '/' = Text.join (comps ++ more) '/' := by
  induction comps with
  | nil => simp
  | cons c comps ih =>
    rw [List.cons_append, List.cons_append, join_cons (by simp), join_cons (by simp [hne]), ih]

theorem join_injective {a b : List String} (ha : ∀ c ∈ a, '/' ∉ c.toList) (hb : ∀ c ∈ b, '/' ∉ c.toList)
    (hane : a ≠ []) (hbne : b ≠ []) (h : Text.join a '/' = Text.join b '/') : a = b := by
  rw [← Text.split_join hane ha, h, Text.split_join hbne hb]

/-- The components of a path. -/
def segmentsOf (path : String) : List String := (Text.split path '/').filter (· ≠ "")

theorem segmentsOf_join {comps : List String} (h : ∀ c ∈ comps, IsSegment c) :
    segmentsOf (Text.join comps '/') = comps := by
  by_cases hne : comps = []
  · subst hne; rfl
  · rw [segmentsOf, split_segments h hne, List.filter_eq_self.mpr fun c hc => by simpa using (h c hc).1]

/-- The directory inside the package that a base of the overlay names. -/
def baseIn (directory base : String) : Option String :=
  (resolveFrom (segmentsOf directory) base).map (Text.join · '/')

/-- The archive of a request. -/
def treeOf (files : Snapshot) (directory : String) : List TarFile :=
  archived (subtree files (parentOf directory)) "pkg"

/-- The file `name` of the directory that the engine finds for a base of the entrypoint. -/
def baseFile (tree : List TarFile) (entrypoint base name : String) : Option Bytes :=
  (resolveFrom (segmentsOf entrypoint) base).bind fun place => heldAt tree (Text.join (place ++ [name]) '/')

section Tree

variable {comps : List String} (h : ∀ c ∈ comps, IsSegment c) (files : Snapshot)
include h

/-- What stands in the archive under `pkg/` is what stands in the overlay's parent. -/
theorem heldAt_tree (place : List String) (name : String) :
    heldAt (treeOf files (Text.join comps '/')) (Text.join ("pkg" :: (place ++ [name])) '/') =
      fileIn files (comps.dropLast ++ place) name := by
  have hparent : ∀ c ∈ comps.dropLast, IsSegment c := fun c hc => h c (List.dropLast_subset _ hc)
  rw [treeOf, parentOf, parent_join h, join_cons (by simp), heldAt_archived, get?_subtree files hparent, fileIn,
    join_join _ (by simp), fileIn, List.append_assoc]

theorem segmentsOf_entrypoint (P : Platform) :
    segmentsOf (kustomizeRequest P files (Text.join comps '/')).entrypoint =
      ["pkg", comps.getLast?.getD "overlay"] := by
  have hlast : IsSegment (comps.getLast?.getD "overlay") := by
    rcases hl : comps.getLast? with _ | c
    · exact ⟨by decide, by decide⟩
    · exact h c (List.mem_of_getLast? hl)
  have hjoin : "pkg/" ++ comps.getLast?.getD "overlay" =
      Text.join ["pkg", comps.getLast?.getD "overlay"] '/' := by
    rw [join_cons (by simp), Text.join_singleton]
    rfl
  rw [kustomizeRequest, lastSegment_join h, hjoin, segmentsOf_join]
  simpa using ⟨⟨by decide, by decide⟩, hlast⟩

end Tree

/-! ### What the engine finds -/

theorem exists_of_entries_ne_nil {files : Snapshot} (h : files.entries ≠ []) :
    ∃ name data, files.get? name = some data := by
  obtain ⟨⟨name, data⟩, hmem⟩ := List.exists_mem_of_ne_nil _ h
  exact ⟨name, data, Table.get?_eq_some.mpr hmem⟩

/-- No snapshot with a file is its own directory `overlay`: its longest path would come again with
    `overlay/` before it. -/
theorem not_nested {files : Snapshot} (hne : files.entries ≠ []) :
    ¬ ∀ name, fileIn files ["overlay"] name = files.get? name := by
  intro h
  have hkeys : files.keys.toFinset.Nonempty := by
    obtain ⟨name, data, hname⟩ := exists_of_entries_ne_nil hne
    exact ⟨name, List.mem_toFinset.mpr (List.mem_map_of_mem (Table.get?_eq_some.mp hname))⟩
  obtain ⟨longest, hmem, hmax⟩ := Finset.exists_max_image files.keys.toFinset String.length hkeys
  obtain ⟨⟨name, data⟩, hentry, rfl⟩ := List.mem_map.mp (List.mem_toFinset.mp hmem)
  have hagain : files.get? ("overlay" ++ "/" ++ name) = some data := by
    have hpath := h name
    rw [Table.get?_eq_some.mpr hentry, fileIn, List.singleton_append, join_cons (by simp),
      Text.join_singleton] at hpath
    exact hpath
  have hle := hmax _ (List.mem_toFinset.mpr (List.mem_map_of_mem (Table.get?_eq_some.mp hagain)))
  simp only [String.length_append] at hle
  have hoverlay : "overlay".length = 7 := by decide
  omega

/-- In the archive the base leads back under `pkg/`, to the directory that it names in the package. -/
def Mirrored (directory base target : String) : Prop :=
  ∃ place, resolveFrom ["pkg", lastSegment directory "overlay"] base = some ("pkg" :: place) ∧
    target = Text.join (segmentsOf (parentOf directory) ++ place) '/'

section Overlay

variable {comps : List String} (h : ∀ c ∈ comps, IsSegment c)
include h

/-- The overlay's files stand at the entrypoint, unless the overlay is the package itself. -/
theorem overlay_placed_iff (P : Platform) {files : Snapshot}
    (hne : (subtree files (Text.join comps '/')).entries ≠ []) :
    (∀ name, heldAt (treeOf files (Text.join comps '/'))
        ((kustomizeRequest P files (Text.join comps '/')).entrypoint ++ "/" ++ name) =
      (subtree files (Text.join comps '/')).get? name) ↔ Text.join comps '/' ≠ "" := by
  have hplace : ∀ name, heldAt (treeOf files (Text.join comps '/'))
      ((kustomizeRequest P files (Text.join comps '/')).entrypoint ++ "/" ++ name) =
        fileIn files (comps.dropLast ++ [comps.getLast?.getD "overlay"]) name := by
    intro name
    rw [← heldAt_tree h files, kustomizeRequest, lastSegment_join h, List.singleton_append, join_cons (by simp),
      join_cons (by simp), Text.join_singleton]
    simp only [String.append_assoc]
    rfl
  simp only [hplace, get?_subtree files h]
  rw [ne_eq, join_segments_eq_empty h]
  by_cases hempty : comps = []
  · subst hempty
    have hfiles : files.entries ≠ [] := hne
    refine iff_of_false (fun hall => not_nested hfiles fun name => ?_) (by simp)
    have := hall name
    simpa [fileIn] using this
  · obtain ⟨parent, last, rfl⟩ : ∃ parent last, comps = parent ++ [last] :=
      ⟨_, _, (List.dropLast_append_getLast hempty).symm⟩
    simp

/-- A base that does not climb out of the overlay's parent is mirrored. -/
theorem mirrored_of_stays (hne : comps ≠ []) {base target : String}
    (hstays : (resolveFrom [lastSegment (Text.join comps '/') "overlay"] base).isSome)
    (hbase : baseIn (Text.join comps '/') base = some target) : Mirrored (Text.join comps '/') base target := by
  obtain ⟨parent, last, rfl⟩ : ∃ parent last, comps = parent ++ [last] :=
    ⟨_, _, (List.dropLast_append_getLast hne).symm⟩
  obtain ⟨place, hplace⟩ := Option.isSome_iff_exists.mp hstays
  rw [lastSegment_join h, List.getLast?_concat, Option.getD_some] at hplace
  have hparent : ∀ c ∈ parent, IsSegment c := fun c hc => h c (List.mem_append_left _ hc)
  obtain ⟨out, hout, rfl⟩ := Option.map_eq_some_iff.mp hbase
  rw [segmentsOf_join h, resolveFrom, foldlM_resolveSegment_append parent hplace] at hout
  obtain rfl := Option.some.inj hout
  refine ⟨place, ?_, ?_⟩
  · rw [lastSegment_join h, List.getLast?_concat, Option.getD_some]
    exact foldlM_resolveSegment_append ["pkg"] hplace
  · rw [parentOf, parent_join h, List.dropLast_concat, segmentsOf_join hparent]

theorem baseFile_eq (P : Platform) (files : Snapshot) (base name : String) :
    baseFile (treeOf files (Text.join comps '/')) (kustomizeRequest P files (Text.join comps '/')).entrypoint
        base name =
      (resolveFrom ["pkg", comps.getLast?.getD "overlay"] base).bind fun place =>
        heldAt (treeOf files (Text.join comps '/')) (Text.join (place ++ [name]) '/') := by
  rw [baseFile, segmentsOf_entrypoint h]

/-- A file in the tree is a file of the overlay's parent, under `pkg/`. -/
theorem heldAt_tree_some {files : Snapshot} {place : List String} {name : String} {data : Bytes}
    (hplace : ∀ c ∈ place, IsSegment c) (hname : IsSegment name) (hpkg : name ≠ "pkg")
    (hheld : heldAt (treeOf files (Text.join comps '/')) (Text.join (place ++ [name]) '/') = some data) :
    ∃ below, place = "pkg" :: below ∧ fileIn files (comps.dropLast ++ below) name = some data := by
  obtain ⟨rest, hrest⟩ : ∃ rest, Text.join (place ++ [name]) '/' = "pkg" ++ "/" ++ rest := by
    by_contra hno
    rw [treeOf, heldAt_elsewhere _ (not_exists.mp hno)] at hheld
    cases hheld
  have hsplit := congrArg (Text.split · '/') hrest
  have hsegments : ∀ c ∈ place ++ [name], '/' ∉ c.toList := by
    intro c hc
    rcases List.mem_append.mp hc with hc | hc
    · exact (hplace c hc).2
    · exact (List.mem_singleton.mp hc ▸ hname).2
  simp only [Text.split_join (by simp : place ++ [name] ≠ []) hsegments] at hsplit
  have hcut : Text.split ("pkg" ++ "/" ++ rest) '/' = "pkg" :: Text.split rest '/' := by
    have happend : Text.split ("pkg" ++ "/" ++ rest) '/' = Text.split "pkg" '/' ++ Text.split rest '/' :=
      Text.split_append rfl
    rw [happend, Text.split_of_not_mem (by decide), List.singleton_append]
  rw [hcut] at hsplit
  rcases place with _ | ⟨c, below⟩
  · exact absurd (List.cons.inj hsplit).1 hpkg
  · obtain rfl : c = "pkg" := (List.cons.inj hsplit).1
    exact ⟨below, rfl, by rw [← heldAt_tree h files]; exact hheld⟩

/-- In every package the engine finds a base's files exactly where the archive mirrors it. -/
theorem base_placed_iff (P : Platform) {base target : String}
    (hbase : baseIn (Text.join comps '/') base = some target) :
    (∀ files : Snapshot, (subtree files (Text.join comps '/')).entries ≠ [] →
      (subtree files target).entries ≠ [] → ∀ name,
        baseFile (treeOf files (Text.join comps '/')) (kustomizeRequest P files (Text.join comps '/')).entrypoint
          base name = (subtree files target).get? name) ↔ Mirrored (Text.join comps '/') base target := by
  have hparent : ∀ c ∈ comps.dropLast, IsSegment c := fun c hc => h c (List.dropLast_subset _ hc)
  have hlast : IsSegment (comps.getLast?.getD "overlay") := by
    rcases hl : comps.getLast? with _ | c
    · exact ⟨by decide, by decide⟩
    · exact h c (List.mem_of_getLast? hl)
  have hstart : ∀ c ∈ ["pkg", comps.getLast?.getD "overlay"], IsSegment c := by
    simpa using ⟨⟨by decide, by decide⟩, hlast⟩
  obtain ⟨out, hout, rfl⟩ := Option.map_eq_some_iff.mp hbase
  rw [segmentsOf_join h] at hout
  have hout := resolveFrom_segments h hout
  rw [Mirrored, lastSegment_join h, parentOf, parent_join h, segmentsOf_join hparent]
  have hslash : ∀ {comps : List String} {name : String}, (∀ c ∈ comps, IsSegment c) → '/' ∉ name.toList →
      ∀ c ∈ comps ++ [name], '/' ∉ c.toList := by
    intro comps name hcomps hname c hc
    rcases List.mem_append.mp hc with hc | hc
    · exact (hcomps c hc).2
    · exact List.mem_singleton.mp hc ▸ hname
  constructor
  · intro hall
    -- a package with one file in the overlay and another one in the base
    let files : Snapshot := (Table.empty.set (Text.join (comps ++ ["f"]) '/') [0]).set
      (Text.join (out ++ ["g"]) '/') [1]
    have hg : fileIn files out "g" = some [1] := by simp [files, fileIn]
    have hdistinct : Text.join (comps ++ ["f"]) '/' ≠ Text.join (out ++ ["g"]) '/' := by
      intro he
      have hlists := join_injective (hslash h (by decide)) (hslash hout (by decide)) (by simp) (by simp) he
      have hfg := (List.append_inj' hlists rfl).2
      exact absurd hfg (by decide)
    have hf : fileIn files comps "f" = some [0] := by simp [files, fileIn, hdistinct]
    have hnonempty : ∀ {comps : List String} {name : String} {data : Bytes}, (∀ c ∈ comps, IsSegment c) →
        fileIn files comps name = some data → (subtree files (Text.join comps '/')).entries ≠ [] := by
      intro comps name data hcomps hfile hnil
      rw [← get?_subtree files hcomps, Table.get?_eq_some, hnil] at hfile
      cases hfile
    have hfound := hall files (hnonempty h hf) (hnonempty hout hg) "g"
    rw [get?_subtree files hout, hg, baseFile_eq h] at hfound
    obtain ⟨place, hplace, hheld⟩ := Option.bind_eq_some_iff.mp hfound
    obtain ⟨below, rfl, hbelow⟩ := heldAt_tree_some h (resolveFrom_segments hstart hplace)
      (⟨by decide, by decide⟩ : IsSegment "g") (by decide) hheld
    refine ⟨below, hplace, ?_⟩
    have hsegments : ∀ c ∈ comps.dropLast ++ below, IsSegment c := by
      intro c hc
      rcases List.mem_append.mp hc with hc | hc
      · exact hparent c hc
      · exact resolveFrom_segments hstart hplace c (List.mem_cons_of_mem _ hc)
    have hkey : Text.join (comps.dropLast ++ below ++ ["g"]) '/' = Text.join (out ++ ["g"]) '/' := by
      by_contra hne
      rw [fileIn, Table.get?_set, if_neg hne, Table.get?_set] at hbelow
      split at hbelow
      · cases hbelow
      · cases hbelow
    have hlists := join_injective (hslash hsegments (by decide)) (hslash hout (by decide)) (by simp) (by simp) hkey
    rw [(List.append_inj' hlists rfl).1]
  · rintro ⟨place, hplace, heq⟩ files - - name
    rw [baseFile_eq h, hplace, Option.bind_some, List.cons_append, heldAt_tree h files, heq]
    refine (get?_subtree files (fun c hc => ?_) name).symm
    rcases List.mem_append.mp hc with hc | hc
    · exact hparent c hc
    · exact resolveFrom_segments hstart hplace c (List.mem_cons_of_mem _ hc)

end Overlay

/-- For every accepted overlay, the request's archive holds the overlay's files at the entrypoint exactly when
    the overlay is not the package itself; and it holds the files of a base in every package exactly when
    the base leads back under `pkg/` to the directory it names, as every base does that stays in the parent
    of an overlay other than the package. -/
theorem kustomize_tree_iff (P : Platform) {path directory : String}
    (h : resolveInSnapshot path = some directory) :
    (∀ files, (kustomizeRequest P files directory).treeTarGz = gzip P (tar (treeOf files directory))) ∧
    (∀ files : Snapshot, (subtree files directory).entries ≠ [] →
      ((∀ name, heldAt (treeOf files directory) ((kustomizeRequest P files directory).entrypoint ++ "/" ++ name) =
        (subtree files directory).get? name) ↔ directory ≠ "")) ∧
    ∀ base target, baseIn directory base = some target →
      ((∀ files : Snapshot, (subtree files directory).entries ≠ [] → (subtree files target).entries ≠ [] →
        ∀ name, baseFile (treeOf files directory) (kustomizeRequest P files directory).entrypoint base name =
          (subtree files target).get? name) ↔ Mirrored directory base target) ∧
      (directory ≠ "" → (resolveFrom [lastSegment directory "overlay"] base).isSome →
        Mirrored directory base target) := by
  obtain ⟨comps, hcomps, rfl⟩ := resolveInSnapshot_some h
  refine ⟨fun files => rfl, fun files hne => overlay_placed_iff hcomps P hne, fun base target hbase =>
    ⟨base_placed_iff hcomps P hbase, fun hne hstays => ?_⟩⟩
  exact mirrored_of_stays hcomps (mt (join_segments_eq_empty hcomps).mpr hne) hstays hbase

/-- `./overlay` with its base `../base`. -/
theorem sibling_base_found : Mirrored "overlay" "../base" "base" := by
  have hpath : resolveInSnapshot "./overlay" = some "overlay" := by decide
  have hbase := (kustomize_tree_iff (.ofTables [] [] [] []) hpath).2.2 "../base" "base" (by decide)
  exact hbase.2 (by decide) (by decide)

/-- The package itself as an overlay: its kustomization is not at the entrypoint. And a base of
    `overlays/prod` two directories up: its files are not found. -/
theorem root_overlay_missing :
    let P : Platform := .ofTables [] [] [] []
    let root : Snapshot := Table.empty.set "kustomization.yaml" [120]
    let nested : Snapshot := (Table.empty.set "overlays/prod/a" [120]).set "base/b" [121]
    (resolveInSnapshot "." = some "" ∧
      heldAt (treeOf root "") ((kustomizeRequest P root "").entrypoint ++ "/" ++ "kustomization.yaml") ≠
        (subtree root "").get? "kustomization.yaml") ∧
    (baseIn "overlays/prod" "../../base" = some "base" ∧
      baseFile (treeOf nested "overlays/prod") (kustomizeRequest P nested "overlays/prod").entrypoint
        "../../base" "b" ≠ (subtree nested "base").get? "b") := by
  decide

end Akua
