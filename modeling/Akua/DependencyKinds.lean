import Mathlib.Data.List.Dedup
import Akua.Dependencies

/-! What kind a dependency's tree is. The kinds are tried in order, each at the root and then one
    directory down, so a file of an earlier kind in a sub-directory wins over the markers of a later
    kind at the root. The previous release looks at the root only, and at KCL before Helm. -/

namespace Akua

namespace Rust

inductive PackageKind where
  | helmChart
  | kclModule
deriving DecidableEq

/-- The kind of a directory with these files: a KCL package when it has `kcl.mod`, or `akua.toml`
    with `package.k`; otherwise a Helm chart. -/
def detectDepKind (files : Snapshot) : PackageKind :=
  if files.has "kcl.mod" || (files.has "akua.toml" && files.has "package.k") then .kclModule
  else .helmChart

end Rust

/-- What the previous release calls a kind. -/
def DependencyKind.previous : DependencyKind → Option Rust.PackageKind
  | .helm => some .helmChart
  | .kcl | .package => some .kclModule
  | .crds => none

/-- The markers are all at the root of the tree. -/
def atRoot (files : Snapshot) (markers : List String) : Bool := markers.all files.has

/-- The markers are all in one directory at the top of the tree. -/
def OneDown (files : Snapshot) (markers : List String) : Prop :=
  ∃ directory, directory ≠ "" ∧ '/' ∉ directory.toList ∧
    ∀ marker ∈ markers, files.has (directory ++ "/" ++ marker) = true

/-- Some kind's markers are all at the root. -/
def RootMarked (files : Snapshot) : Prop := ∃ entry ∈ MARKERS, atRoot files entry.2 = true

/-- The kind is one whose markers are at the root, the tree's root is its own, and the previous
    release gives the same kind. -/
def KindOfRoot (files : Snapshot) : Prop :=
  (∃ markers, ((detectKind files).1, markers) ∈ MARKERS ∧ atRoot files markers = true) ∧
    (detectKind files).2 = "" ∧
    (detectKind files).1.previous = some (Rust.detectDepKind files)

theorem parentDirectory_slash {directory name : String} (hdir : '/' ∉ directory.toList)
    (hname : '/' ∉ name.toList) : parentDirectory (directory ++ "/" ++ name) = directory := by
  rw [parentDirectory, Text.split_append (by rfl), Text.split_of_not_mem hdir,
    Text.split_of_not_mem hname]
  exact Text.join_singleton directory '/'

theorem mem_topDirectories {files : Snapshot} {directory : String} :
    directory ∈ topDirectories files ↔
      (∃ key ∈ files.keys, parentDirectory key = directory) ∧ directory ≠ "" ∧
        '/' ∉ directory.toList := by
  simp [topDirectories]

/-- The search one directory down finds the markers when they are there. -/
theorem find_topDirectories {files : Snapshot} {marker : String} {markers : List String}
    (hslash : '/' ∉ marker.toList) :
    (∃ directory, (topDirectories files).find? (fun directory =>
        (marker :: markers).all fun marker => files.has (directory ++ "/" ++ marker)) =
      some directory) ↔ OneDown files (marker :: markers) := by
  rw [← Option.isSome_iff_exists, List.find?_isSome]
  constructor
  · rintro ⟨directory, hmem, hall⟩
    obtain ⟨-, hne, hdir⟩ := mem_topDirectories.mp hmem
    exact ⟨directory, hne, hdir, List.all_eq_true.mp hall⟩
  · rintro ⟨directory, hne, hdir, hall⟩
    refine ⟨directory, mem_topDirectories.mpr ⟨?_, hne, hdir⟩, List.all_eq_true.mpr hall⟩
    exact ⟨_, Table.has_iff.mp (hall marker List.mem_cons_self), parentDirectory_slash hdir hslash⟩

/-- Where one kind's markers are found. -/
def findMarkers (files : Snapshot) (kind : DependencyKind) (markers : List String) :
    Option (DependencyKind × String) :=
  if atRoot files markers then some (kind, "")
  else ((topDirectories files).find? fun directory =>
    markers.all fun marker => files.has (directory ++ "/" ++ marker)).map fun d => (kind, d)

theorem findMarkers_root {files : Snapshot} {kind : DependencyKind} {markers : List String}
    (h : atRoot files markers = true) : findMarkers files kind markers = some (kind, "") := if_pos h

/-- Markers that are one directory down only. -/
theorem findMarkers_down {files : Snapshot} (kind : DependencyKind) {marker : String}
    {markers : List String} (hslash : '/' ∉ marker.toList)
    (hroot : ¬ atRoot files (marker :: markers) = true) (hdown : OneDown files (marker :: markers)) :
    ∃ directory, directory ≠ "" ∧
      findMarkers files kind (marker :: markers) = some (kind, directory) := by
  obtain ⟨directory, hfind⟩ := (find_topDirectories hslash).mpr hdown
  have hne := (mem_topDirectories.mp (List.mem_of_find?_eq_some hfind)).2.1
  refine ⟨directory, hne, ?_⟩
  rw [findMarkers, if_neg hroot, hfind]
  rfl

theorem findMarkers_none {files : Snapshot} (kind : DependencyKind) {marker : String}
    {markers : List String} (hslash : '/' ∉ marker.toList)
    (hroot : ¬ atRoot files (marker :: markers) = true)
    (hdown : ¬ OneDown files (marker :: markers)) :
    findMarkers files kind (marker :: markers) = none := by
  rw [← find_topDirectories hslash] at hdown
  rw [findMarkers, if_neg hroot, Option.map_eq_none_iff, Option.eq_none_iff_forall_ne_some]
  exact fun directory hfind => hdown ⟨directory, hfind⟩

theorem detectKind_eq (files : Snapshot) : detectKind files =
    ((findMarkers files .helm ["Chart.yaml"]).or ((findMarkers files .kcl ["kcl.mod"]).or
      (findMarkers files .package ["akua.toml", "package.k"]))).getD (.helm, "") := by
  have hsome : ∀ (f : DependencyKind × List String → Option (DependencyKind × String)) a b c,
      [a, b, c].findSome? f = (f a).or ((f b).or (f c)) := by
    intro f a b c
    rcases ha : f a with _ | _ <;> rcases hb : f b with _ | _ <;> rcases hc : f c with _ | _ <;>
      simp [ha, hb, hc]
  exact congrArg (fun found => Option.getD found (.helm, "")) (hsome _ _ _ _)

theorem atRoot_chart (files : Snapshot) : atRoot files ["Chart.yaml"] = files.has "Chart.yaml" := by
  simp [atRoot]

theorem atRoot_kcl (files : Snapshot) : atRoot files ["kcl.mod"] = files.has "kcl.mod" := by
  simp [atRoot]

/-- The previous release looks for the markers of KCL and of Packages. -/
theorem detectDepKind_helm {files : Snapshot} : Rust.detectDepKind files = .helmChart ↔
    atRoot files ["kcl.mod"] = false ∧ atRoot files ["akua.toml", "package.k"] = false := by
  simp only [Rust.detectDepKind, atRoot, List.all_cons, List.all_nil, Bool.and_true]
  rcases files.has "kcl.mod" <;> rcases files.has "akua.toml" && files.has "package.k" <;> decide

theorem detectDepKind_kcl {files : Snapshot} : Rust.detectDepKind files = .kclModule ↔
    atRoot files ["kcl.mod"] = true ∨ atRoot files ["akua.toml", "package.k"] = true := by
  simp only [Rust.detectDepKind, atRoot, List.all_cons, List.all_nil, Bool.and_true]
  rcases files.has "kcl.mod" <;> rcases files.has "akua.toml" && files.has "package.k" <;> decide

/-- What the search gives is the root's kind, once the search is known. -/
theorem kindOfRoot_of_eq {files : Snapshot} {kind : DependencyKind} {markers : List String}
    (hdetect : detectKind files = (kind, "")) (hmarkers : (kind, markers) ∈ MARKERS)
    (hroot : atRoot files markers = true)
    (hprevious : kind.previous = some (Rust.detectDepKind files)) : KindOfRoot files := by
  rw [KindOfRoot, hdetect]
  exact ⟨⟨markers, hmarkers, hroot⟩, rfl, hprevious⟩

theorem not_kindOfRoot_down {files : Snapshot} {kind : DependencyKind} {directory : String}
    (hdetect : detectKind files = (kind, directory)) (hne : directory ≠ "") : ¬ KindOfRoot files := by
  rw [KindOfRoot, hdetect]
  exact fun h => hne h.2.1

/-- The kind of a tree with markers at its root is the root's exactly when Helm's is there alone, or
    no chart is one directory down and KCL's marker is at the root or not one directory down. -/
theorem kind_of_root_iff {files : Snapshot} (h : RootMarked files) : KindOfRoot files ↔
    (files.has "Chart.yaml" = true ∧ files.has "kcl.mod" = false ∧
        atRoot files ["akua.toml", "package.k"] = false) ∨
      (files.has "Chart.yaml" = false ∧ ¬ OneDown files ["Chart.yaml"] ∧
        (files.has "kcl.mod" = true ∨ ¬ OneDown files ["kcl.mod"])) := by
  rw [← atRoot_chart, ← atRoot_kcl]
  have hdetect := detectKind_eq files
  by_cases hchart : atRoot files ["Chart.yaml"] = true
  · -- Helm is tried first, and found
    rw [findMarkers_root hchart] at hdetect
    have hhere : KindOfRoot files ↔ Rust.detectDepKind files = .helmChart := by
      constructor
      · intro hkind
        rw [KindOfRoot, hdetect] at hkind
        exact (Option.some.inj hkind.2.2).symm
      · intro hhelm
        exact kindOfRoot_of_eq hdetect (show (.helm, ["Chart.yaml"]) ∈ MARKERS by decide) hchart
          (by rw [hhelm]; rfl)
    rw [hhere, detectDepKind_helm]
    simp [hchart]
  by_cases hdown : OneDown files ["Chart.yaml"]
  · obtain ⟨directory, hne, hfound⟩ := findMarkers_down .helm (by decide) hchart hdown
    rw [hfound] at hdetect
    refine iff_of_false (not_kindOfRoot_down hdetect hne) ?_
    simp [hchart, hdown]
  rw [findMarkers_none .helm (by decide) hchart hdown] at hdetect
  by_cases hkcl : atRoot files ["kcl.mod"] = true
  · rw [findMarkers_root hkcl] at hdetect
    refine iff_of_true
      (kindOfRoot_of_eq hdetect (show (.kcl, ["kcl.mod"]) ∈ MARKERS by decide) hkcl ?_) ?_
    · rw [detectDepKind_kcl.mpr (Or.inl hkcl)]
      rfl
    · exact Or.inr ⟨Bool.not_eq_true _ ▸ hchart, hdown, Or.inl hkcl⟩
  by_cases hbelow : OneDown files ["kcl.mod"]
  · obtain ⟨directory, hne, hfound⟩ := findMarkers_down .kcl (by decide) hkcl hbelow
    rw [hfound] at hdetect
    refine iff_of_false (not_kindOfRoot_down hdetect hne) ?_
    simp [hchart, hkcl, hbelow]
  · rw [findMarkers_none .kcl (by decide) hkcl hbelow] at hdetect
    have hpackage : atRoot files ["akua.toml", "package.k"] = true := by
      obtain ⟨entry, hentry, hroot⟩ := h
      simp only [MARKERS, List.mem_cons, List.not_mem_nil, or_false] at hentry
      rcases hentry with rfl | rfl | rfl
      · exact absurd hroot hchart
      · exact absurd hroot hkcl
      · exact hroot
    rw [findMarkers_root hpackage] at hdetect
    refine iff_of_true
      (kindOfRoot_of_eq hdetect (show (.package, ["akua.toml", "package.k"]) ∈ MARKERS by decide)
        hpackage ?_) ?_
    · rw [detectDepKind_kcl.mpr (Or.inr hpackage)]
      rfl
    · exact Or.inr ⟨Bool.not_eq_true _ ▸ hchart, hdown, Or.inr hbelow⟩

/-- A KCL module that keeps a chart in a directory of its own. -/
def moduleWithChart : Snapshot := (Table.empty.set "kcl.mod" []).set "charts/Chart.yaml" []

/-- It is taken for the chart. -/
theorem module_taken_for_chart : RootMarked moduleWithChart ∧
    detectKind moduleWithChart = (.helm, "charts") ∧ ¬ KindOfRoot moduleWithChart := by
  have hdetect : detectKind moduleWithChart = (.helm, "charts") := by decide +kernel
  refine ⟨⟨(.kcl, ["kcl.mod"]), by decide, by decide⟩, hdetect, ?_⟩
  rw [KindOfRoot, hdetect]
  exact fun h => absurd h.2.1 (by decide)

/-- A chart with charts inside is one. -/
theorem chart_of_charts : KindOfRoot ((Table.empty.set "Chart.yaml" []).set "charts/Chart.yaml" []) :=
  (kind_of_root_iff ⟨(.helm, ["Chart.yaml"]), by decide, by decide⟩).mpr
    (Or.inl ⟨by decide, by decide, by decide⟩)

end Akua
