import Akua.PackageTar
import Akua.Vendor

/-! Vendor names. The key of a dependency is a directory of `.akua/vendor` to `vendor add`, which
    replaces it, and to the archive of a published Package, which is unpacked with its own rules.
    Both take it as it is written, and any key is accepted: it names one place, and the place meant,
    exactly when it is one plain directory name. -/

namespace Akua

open Run

/-! ### Where a name leads -/

theorem vendorRoot_eq (workspace : FilePath) : vendorRoot workspace = workspace ++ [".akua", "vendor"] := by
  have hrelative : FilePath.isAbsolute VENDOR_DIR = false := by decide
  have hsegments : FilePath.segments VENDOR_DIR = [".akua", "vendor"] := by decide
  rw [vendorRoot, joinPath, hrelative, FilePath.append, hsegments]
  rfl

theorem vendorTarget_relative {name : String} (h : FilePath.isAbsolute name = false) (workspace : FilePath) :
    vendorTarget workspace name = vendorRoot workspace ++ FilePath.segments name := by
  rw [vendorTarget, joinPath, h]
  rfl

theorem vendorTarget_absolute {name : String} (h : FilePath.isAbsolute name = true) (workspace : FilePath) :
    vendorTarget workspace name = FilePath.segments name := by
  rw [vendorTarget, joinPath, h]
  rfl

theorem slashed_append (a b : String) : slashed (a ++ b) = slashed a ++ slashed b := by
  simp [slashed]

theorem slashed_of_not_mem {s : String} (h : '\\' ∉ s.toList) : slashed s = s := by
  have hmap : s.toList.map (fun c => if c = '\\' then '/' else c) = s.toList :=
    (List.map_congr_left fun c hc => if_neg (by rintro rfl; exact h hc)).trans (List.map_id _)
  rw [slashed, hmap, String.ofList_toList]

theorem not_mem_slashed (s : String) : '\\' ∉ (slashed s).toList := by
  rw [slashed, String.toList_ofList]
  intro h
  obtain ⟨c, -, hc⟩ := List.mem_map.mp h
  split at hc
  · exact absurd hc (by decide)
  · contradiction

/-- The pieces of an archive path never have a backslash. -/
theorem not_mem_of_segments_slashed {s c : String} (h : c ∈ FilePath.segments (slashed s)) :
    '\\' ∉ c.toList := fun hc =>
  not_mem_slashed s (Text.mem_of_mem_split (List.mem_of_mem_filter h) hc)

/-- A character of a path is in one of its components. -/
theorem mem_segments_of_mem {s : String} {c : Char} (hc : c ∈ s.toList) (hslash : c ≠ '/')
    (hdot : c ≠ '.') : ∃ p ∈ FilePath.segments s, c ∈ p.toList := by
  obtain ⟨p, hp, hcp⟩ := Text.mem_split_of_mem hc hslash
  refine ⟨p, List.mem_filter.mpr ⟨hp, decide_eq_true ⟨?_, ?_⟩⟩, hcp⟩
  · rintro rfl
    exact absurd hcp List.not_mem_nil
  · rintro rfl
    exact hdot (List.mem_singleton.mp hcp)

/-- What the archive's reader takes a vendored file's path apart into. -/
theorem segments_vendoredPath (name file : String) :
    FilePath.segments (slashed (vendoredPath name file)) =
      [".akua", "vendor"] ++ (FilePath.segments (slashed name) ++ FilePath.segments (slashed file)) := by
  have hroot : FilePath.segments (slashed VENDOR_DIR) = [".akua", "vendor"] := by decide
  have hslash : slashed "/" = "/" := by decide
  rw [vendoredPath, slashed_append, slashed_append, slashed_append, slashed_append, hslash,
    FilePath.segments_slash, FilePath.segments_slash, hroot, List.append_assoc]

/-- The reader accepts the path unless a piece of it is `..`. -/
theorem entryPath_vendoredPath (name file : String) :
    (entryPath (vendoredPath name file)).map (Text.split · '/') =
      if ".." ∈ FilePath.segments (slashed name) ++ FilePath.segments (slashed file) then none
      else some ([".akua", "vendor"] ++
        (FilePath.segments (slashed name) ++ FilePath.segments (slashed file))) := by
  have hrelative : Text.startsWith (vendoredPath name file) "/" = false := by
    simp only [vendoredPath, VENDOR_DIR, Text.startsWith, String.toList_append]
    rfl
  rw [entryPath, segments_vendoredPath, hrelative]
  by_cases h : ".." ∈ FilePath.segments (slashed name) ++ FilePath.segments (slashed file)
  · rw [if_pos h, if_pos (Or.inr (Or.inl (List.mem_append_right _ h))), Option.map_none]
  · rw [if_neg h, if_neg (by simpa using h), Option.map_some, Text.split_join (by simp)]
    intro p hp
    rcases List.mem_append.mp hp with hp | hp
    · exact (by decide : ∀ p ∈ [".akua", "vendor"], '/' ∉ p.toList) p hp
    · rcases List.mem_append.mp hp with hp | hp <;> exact (FilePath.of_mem_segments hp).2.2

/-! ### Staying in place -/

/-- The directory that `vendor add` rewrites is an entry of `.akua/vendor`, and these files of the
    tree are packed below it, at paths that can be unpacked. -/
def StaysInPlace (workspace : FilePath) (name : String) (files : List String) : Prop :=
  ∃ n, FilePath.Plain n ∧ vendorTarget workspace name = vendorRoot workspace ++ [n] ∧
    ∀ file ∈ files, ∃ path rest, entryPath (vendoredPath name file) = some path ∧
      Text.split path '/' = [".akua", "vendor", n] ++ rest ∧ rest ≠ []

/-- The name is one directory name, other than `..`. A packed name has no backslash, which the
    archive reads as a separator, and no packed file is lost to one. -/
def PlaceName (name : String) (files : List String) : Prop :=
  FilePath.isAbsolute name = false ∧ (∃ n, FilePath.segments name = [n] ∧ n ≠ "..") ∧
    ∀ file ∈ files, '\\' ∉ name.toList ∧ ".." ∉ FilePath.segments (slashed file) ∧
      FilePath.segments (slashed file) ≠ []

theorem plain_of_segments {name n : String} (h : FilePath.segments name = [n]) (hn : n ≠ "..") :
    FilePath.Plain n := by
  obtain ⟨h₁, h₂, h₃⟩ := FilePath.of_mem_segments (h ▸ List.mem_singleton_self n)
  exact ⟨h₁, h₂, hn, h₃⟩

/-- An absolute name is not below every workspace. -/
theorem isAbsolute_of_staysInPlace {name : String} {files : List String}
    (h : ∀ workspace, FilePath.Normal workspace → StaysInPlace workspace name files) :
    FilePath.isAbsolute name = false := by
  rw [Bool.eq_false_iff]
  intro habsolute
  have hlength : ∀ workspace, FilePath.Normal workspace →
      (FilePath.segments name).length = workspace.length + 3 := by
    intro workspace hnormal
    obtain ⟨n, -, htarget, -⟩ := h workspace hnormal
    rw [vendorTarget_absolute habsolute, vendorRoot_eq] at htarget
    rw [htarget]
    simp
  have h₀ := hlength [] (by simp [FilePath.Normal])
  have h₁ := hlength ["w"] (by decide)
  rw [h₀] at h₁
  simp at h₁

/-- What one packed file asks of a name that is one component. -/
theorem packed_iff {name n file : String} (h : FilePath.segments name = [n]) (hn : n ≠ "..") :
    (∃ path rest, entryPath (vendoredPath name file) = some path ∧
      Text.split path '/' = [".akua", "vendor", n] ++ rest ∧ rest ≠ []) ↔
    '\\' ∉ name.toList ∧ ".." ∉ FilePath.segments (slashed file) ∧
      FilePath.segments (slashed file) ≠ [] := by
  have hpath := entryPath_vendoredPath name file
  constructor
  · rintro ⟨path, rest, hentry, hsplit, hrest⟩
    rw [hentry, Option.map_some, hsplit] at hpath
    split at hpath
    · exact absurd hpath (by simp)
    rename_i hparent
    rw [Option.some.injEq, List.cons_append, List.cons_append, List.cons_append, List.nil_append,
      List.cons_append, List.cons_append, List.nil_append, List.cons.injEq, List.cons.injEq] at hpath
    have hpieces := hpath.2.2
    have hbackslash : '\\' ∉ name.toList := by
      intro hmem
      obtain ⟨c, hc, hcmem⟩ := mem_segments_of_mem hmem (by decide) (by decide)
      rw [h, List.mem_singleton] at hc
      subst hc
      have hpiece : c ∈ FilePath.segments (slashed name) ++ FilePath.segments (slashed file) :=
        hpieces ▸ List.mem_cons_self
      rcases List.mem_append.mp hpiece with hpiece | hpiece <;>
        exact not_mem_of_segments_slashed hpiece hcmem
    rw [slashed_of_not_mem hbackslash, h, List.singleton_append, List.cons.injEq] at hpieces
    refine ⟨hbackslash, fun hmem => hparent (List.mem_append_right _ hmem), ?_⟩
    rw [← hpieces.2]
    exact hrest
  · rintro ⟨hbackslash, hparent, hne⟩
    rw [slashed_of_not_mem hbackslash, h] at hpath
    rw [if_neg (by simpa [hn.symm] using hparent)] at hpath
    obtain ⟨path, hentry, hsplit⟩ := Option.map_eq_some_iff.mp hpath
    exact ⟨path, FilePath.segments (slashed file), hentry, hsplit, hne⟩

theorem staysInPlace_iff (name : String) (files : List String) :
    (∀ workspace, FilePath.Normal workspace → StaysInPlace workspace name files) ↔
      PlaceName name files := by
  constructor
  · intro h
    have hrelative := isAbsolute_of_staysInPlace h
    obtain ⟨n, hn, htarget, hfiles⟩ := h [] (by simp [FilePath.Normal])
    rw [vendorTarget_relative hrelative, List.append_cancel_left_eq] at htarget
    exact ⟨hrelative, ⟨n, htarget, hn.2.2.1⟩, fun file hfile =>
      (packed_iff htarget hn.2.2.1).mp (hfiles file hfile)⟩
  · rintro ⟨hrelative, ⟨n, hsegments, hn⟩, hfiles⟩ workspace -
    refine ⟨n, plain_of_segments hsegments hn, ?_, fun file hfile =>
      (packed_iff hsegments hn).mpr (hfiles file hfile)⟩
    rw [vendorTarget_relative hrelative, hsegments]

/-! ### What `vendor add` removes -/

section Runs

variable (P : Platform) {φ : Type} [FileSystem φ]

/-- All that `vendor add` removes for the tree it found is the directory of the name, and a packed
    tree's files are at the paths of the name; these are in place in every workspace exactly when
    the name is a plain directory name. -/
theorem vendor_names_iff (name : String) :
    (∀ workspace dependency source plan, Logs (VendorWrite (vendorTarget workspace name))
      (placeVendored P workspace name dependency source plan : Run φ Failure VendorOutput)) ∧
    (∀ root vendored directory entries, ∀ fs : φ, ⟨name, directory⟩ ∈ vendored →
      packedFiles P root vendored fs = .ok entries →
      ∃ files, collectFiles directory (fun _ => true) skippedName fs = .ok files ∧
        ∀ file ∈ files, ∃ entry ∈ entries, entry.path = vendoredPath name file) ∧
    ∀ files, (∀ workspace, FilePath.Normal workspace → StaysInPlace workspace name files) ↔
      PlaceName name files :=
  ⟨fun workspace => logs_placeVendored P workspace name,
    fun _ _ _ _ _ htree hpacked => exists_packed hpacked htree, staysInPlace_iff name⟩

end Runs

/-- A tidy alias stays in place. -/
theorem vendor_names_web : StaysInPlace ["ws"] "web" ["templates/a.yaml"] :=
  ((@vendor_names_iff (.ofTables [] [] [] []) Disk _ "web").2.2 ["templates/a.yaml"]).mpr
    ⟨by decide, ⟨"web", by decide, by decide⟩, by decide⟩ ["ws"] (by decide)

/-! ### A name that climbs -/

/-- A path dependency on `lib`, declared as `../../src`, beside sources of that name. -/
def climbingWorkspace : SampleWorkspace where
  dependencies := [("../../src", [("path", "lib")])]
  files := [("ws/lib/k", "x"), ("ws/src/a", "y"), ("ws/.akua/vendor/o", "z")]
  digests := [([107, 0, 120, 10], .repeated '1' (by decide))]

/-- What its `akua.toml` declares. -/
def climbingDependency : Dependency where
  path := some "lib"

def climbingManifest : Manifest where
  package := { name := "app", version := "0.1.0", edition := "akua.dev/v1alpha1" }
  signing := some {}
  dependencies := some (Table.ofList [("../../src", climbingDependency)])

theorem loadManifest_climbing : loadManifest climbingWorkspace.host SampleWorkspace.root
    climbingWorkspace.world.fs = .ok climbingManifest :=
  SampleWorkspace.loadManifest_eq.trans rfl

/-- `vendor add ../../src` removes the sources it climbs to. -/
theorem vendor_add_climbs :
    loadManifest climbingWorkspace.host SampleWorkspace.root climbingWorkspace.world.fs =
      .ok climbingManifest ∧
    declaredDependency climbingManifest "../../src" = some climbingDependency ∧
    .remove ["ws", ".akua", "vendor", "..", "..", "src"] ∈
      (vendorAdd climbingWorkspace.host climbingWorkspace.services SampleWorkspace.root "../../src"
        Table.empty false climbingWorkspace.world).2.trace ∧
    FilePath.normalize ["ws", ".akua", "vendor", "..", "..", "src"] = ["ws", "src"] ∧
    ¬ StaysInPlace SampleWorkspace.root "../../src" [] := by
  have hdeclared : declaredDependency climbingManifest "../../src" = some climbingDependency := by
    decide
  refine ⟨loadManifest_climbing, hdeclared, ?_, by decide, ?_⟩
  · rw [vendorAdd_of_loaded _ _ _ loadManifest_climbing hdeclared rfl, SampleWorkspace.world,
      SampleWorkspace.loadLock_eq]
    decide +kernel
  · rintro ⟨n, -, htarget, -⟩
    rw [vendorTarget_relative (by decide), List.append_cancel_left_eq] at htarget
    exact absurd (congrArg List.length htarget)
      (by decide : (FilePath.segments "../../src").length ≠ 1)

end Akua
