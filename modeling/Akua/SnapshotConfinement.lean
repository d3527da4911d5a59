import Akua.DigestAgreement

/-! What `loadSnapshot` lets into a render: entries whose real path is the root's or starts with it and
    a separator. That is containment for every root but `/`, whose real path ends in the separator
    already: there only entries that lead to `/` itself pass. -/

namespace Akua

open FileSystem

section Confinement

variable {follow : Bool} (disk : LinkedDisk follow) (root : FilePath)

/-- What the listing of a root says: each entry has a real path, the root's or one below it. -/
def Contained : Prop :=
  ∃ real entries, realPath root disk = .ok real ∧ readDirectoryRecursive root disk = .ok entries ∧
    ∀ rel ∈ entries, ∃ target, realPath (FilePath.join root rel) disk = .ok target ∧ real <+: target

/-- A snapshot holds what regular files below the root's real path hold. -/
def FilesBelow (files : Snapshot) : Prop :=
  ∃ real, realPath root disk = .ok real ∧ ∀ key data, files.get? key = some data →
    ∃ target, realPath (FilePath.join root key) disk = .ok target ∧
      disk.at? target = some (.file data) ∧ real <+: target ∧ target ≠ real

/-- The root is `/`, and something that is listed leads elsewhere than to `/`. -/
def ListsBelowSlash : Prop :=
  realPath root disk = .ok [] ∧ ∃ entries, readDirectoryRecursive root disk = .ok entries ∧
    ∃ rel ∈ entries, realPath (FilePath.join root rel) disk ≠ .ok []

variable {disk root}

theorem readDirectoryRecursive_ok {entries : List String} {real : FilePath}
    (hroot : realPath root disk = .ok real) (h : readDirectoryRecursive root disk = .ok entries) :
    disk.find root = .ok (real, .directory) := by
  obtain ⟨node, hfind⟩ := realPath_found.mp hroot
  cases node with
  | directory => exact hfind
  | file data => simp only [readDirectoryRecursive, hfind] at h; cases h
  | link target => simp only [readDirectoryRecursive, hfind] at h; cases h

/-- The load goes through when each entry leads to a place that passes, and takes the files there. -/
theorem loadSnapshot_iff {real : FilePath} {entries : List String} (hroot : realPath root disk = .ok real)
    (hlist : readDirectoryRecursive root disk = .ok entries) :
    (∃ files, loadSnapshot root disk = .ok files) ↔ ∀ rel ∈ entries, ∃ target,
      realPath (FilePath.join root rel) disk = .ok target ∧ FilePath.Within real target := by
  have hload : loadSnapshot root disk = (Text.sorted entries).foldlM (loadEntry root real) Table.empty disk := by
    unfold loadSnapshot
    rw [Reading.bind_of_ok (platform_ok.mpr hroot), Reading.bind_of_ok (platform_ok.mpr hlist)]
  rw [hload]
  constructor
  · rintro ⟨files, h⟩ rel hrel
    obtain ⟨content, hfile⟩ := fileOf_of_foldlM h rel (Text.mem_sorted.mpr hrel)
    obtain ⟨target, node, hfind, hwithin, -⟩ := fileOf_ok.mp hfile
    exact ⟨target, realPath_at hfind, hwithin⟩
  · intro h
    have hread : ∀ rel ∈ Text.sorted entries,
        fileOf root real rel disk = .ok ((fileOf root real rel disk).toOption.getD none) := by
      intro rel hrel
      obtain ⟨target, htarget, hwithin⟩ := h rel (Text.mem_sorted.mp hrel)
      obtain ⟨node, hfind⟩ := realPath_found.mp htarget
      rw [fileOf_found hfind hwithin]
      rfl
    obtain ⟨files, hfold, -⟩ := foldlM_loadEntry
      (fun rel => (fileOf root real rel disk).toOption.getD none) Table.empty hread
    exact ⟨files, hfold⟩

/-- Whatever the root, a snapshot holds nothing from elsewhere. -/
theorem loadSnapshot_filesBelow {files : Snapshot} (h : loadSnapshot root disk = .ok files) :
    FilesBelow disk root files := by
  have hrun := h
  unfold loadSnapshot at hrun
  obtain ⟨real, hroot, hrun⟩ := Reading.bind_ok.mp hrun
  obtain ⟨entries, hlist, hrun⟩ := Reading.bind_ok.mp hrun
  rw [platform_ok] at hroot hlist
  refine ⟨real, hroot, fun key data hkey => ?_⟩
  have hcontent : ∀ rel ∈ Text.sorted entries,
      fileOf root real rel disk = .ok ((fileOf root real rel disk).toOption.getD none) := by
    intro rel hrel
    obtain ⟨content, hfile⟩ := fileOf_of_foldlM hrun rel hrel
    rw [hfile]
    rfl
  obtain ⟨out, hout, hget⟩ := foldlM_loadEntry
    (fun rel => (fileOf root real rel disk).toOption.getD none) Table.empty hcontent
  obtain rfl : out = files := Except.ok.inj (hout.symm.trans hrun)
  rw [hget] at hkey
  split at hkey
  · rename_i hmem
    have hfile := hcontent key hmem.1
    rw [hkey] at hfile
    obtain ⟨target, node, hfind, hwithin, hdata⟩ := fileOf_ok.mp hfile
    obtain rfl : node = .file data := by
      cases node <;> simp [fileData] at hdata
      rw [hdata]
    have hat := (LinkedDisk.find_ok.mp hfind).2
    have hdirectory := (LinkedDisk.find_ok.mp (readDirectoryRecursive_ok hroot hlist)).2
    have hne : target ≠ real := by
      rintro rfl
      rw [hdirectory] at hat
      cases hat
    exact ⟨target, realPath_at hfind, hat, (hwithin.resolve_left hne).2, hne⟩
  · cases hkey

/-- `loadSnapshot` succeeds exactly on a root whose entries it contains, and then holds only files below
    it: for every root but one that is `/` and lists something, all of which leads somewhere. -/
theorem snapshot_confined_iff (disk : LinkedDisk follow) (root : FilePath) :
    (((∃ files, loadSnapshot root disk = .ok files) ↔ Contained disk root) ∧
      ∀ files, loadSnapshot root disk = .ok files → FilesBelow disk root files) ↔
    ¬ (Contained disk root ∧ ListsBelowSlash disk root) := by
  have hfiles : ∀ files, loadSnapshot root disk = .ok files → FilesBelow disk root files :=
    fun files h => loadSnapshot_filesBelow h
  rw [and_iff_left hfiles]
  -- a load that succeeds has a root and a listing
  have hlisted : (∃ files, loadSnapshot root disk = .ok files) → ∃ real entries,
      realPath root disk = .ok real ∧ readDirectoryRecursive root disk = .ok entries := by
    rintro ⟨files, h⟩
    unfold loadSnapshot at h
    obtain ⟨real, hroot, h⟩ := Reading.bind_ok.mp h
    obtain ⟨entries, hlist, -⟩ := Reading.bind_ok.mp h
    exact ⟨real, entries, platform_ok.mp hroot, platform_ok.mp hlist⟩
  have hcontained : (∃ files, loadSnapshot root disk = .ok files) → Contained disk root := by
    intro h
    obtain ⟨real, entries, hroot, hlist⟩ := hlisted h
    refine ⟨real, entries, hroot, hlist, fun rel hrel => ?_⟩
    obtain ⟨target, htarget, hwithin⟩ := (loadSnapshot_iff hroot hlist).mp h rel hrel
    refine ⟨target, htarget, ?_⟩
    rcases hwithin with rfl | ⟨-, hbelow⟩
    · exact List.prefix_rfl
    · exact hbelow
  constructor
  · rintro h ⟨hin, hroot, entries, hlist, rel, hrel, hne⟩
    obtain ⟨target, htarget, hwithin⟩ := (loadSnapshot_iff hroot hlist).mp (h.mpr hin) rel hrel
    rcases hwithin with rfl | ⟨hslash, -⟩
    · exact hne htarget
    · exact hslash rfl
  · intro h
    refine ⟨hcontained, fun hin => ?_⟩
    obtain ⟨real, entries, hroot, hlist, hentries⟩ := id hin
    refine (loadSnapshot_iff hroot hlist).mpr fun rel hrel => ?_
    obtain ⟨target, htarget, hbelow⟩ := hentries rel hrel
    refine ⟨target, htarget, ?_⟩
    by_cases hslash : real = []
    · subst hslash
      by_cases htop : target = []
      · exact .inl htop
      · refine absurd ⟨hin, hroot, entries, hlist, rel, hrel, ?_⟩ h
        rw [htarget]
        exact fun he => htop (Except.ok.inj he)
    · exact .inr ⟨hslash, hbelow⟩

end Confinement

/-- A file system with one file, at `/package.k`. -/
def rootPackage : LinkedDisk false where
  nodes := Table.empty.set ["package.k"] (.file [120])
  rooted := by decide
  plain := by decide
  short := by decide

/-- A Package at `/`: everything lies below the root, and the load fails. -/
theorem slash_refuses :
    ¬ ((∃ files, loadSnapshot [] rootPackage = .ok files) ↔ Contained rootPackage []) := by
  intro h
  have hcontained : Contained rootPackage [] := by
    refine ⟨[], ["package.k"], by decide, by decide, fun rel hrel => ?_⟩
    obtain rfl := List.mem_singleton.mp hrel
    exact ⟨["package.k"], by decide, List.nil_prefix⟩
  obtain ⟨files, hfiles⟩ := h.mpr hcontained
  have hfail : loadSnapshot [] rootPackage = .error (.pathEscape ⟨"package.k"⟩) := by decide
  rw [hfail] at hfiles
  cases hfiles

end Akua
