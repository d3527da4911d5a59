import Akua.Lib.Volume
import Akua.Vendor

/-! What `vendor add` leaves on a disk without links: the files of the source are the files of the
    copy, and whatever is neither in the copy nor above it is as it was. -/

namespace Akua

open FilePath

/-- Neither path leads into the other. -/
def Apart (a b : FilePath) : Prop := ¬ a <+: b ∧ ¬ b <+: a

/-- No file is at a path or below it. -/
def Clear (volume : Volume) (path : FilePath) : Prop := ∀ rel, volume.data? (path ++ rel) = none

/-- `target` is a directory with the files of `source`; what is not in it or above it stayed. -/
structure Copied (before after : Volume) (source target : FilePath) : Prop where
  files : ∀ rel, after.data? (target ++ rel) = before.data? (source ++ rel)
  directory : after.at? target = some .directory
  frame : ∀ q, ¬ target <+: q → ¬ q <+: target → after.at? q = before.at? q

theorem Apart.symm {a b : FilePath} (h : Apart a b) : Apart b a := And.symm h

/-- What is in one of two paths apart is neither in the other nor above it. -/
theorem Apart.below {a b : FilePath} (h : Apart a b) (rel : List String) :
    ¬ b <+: a ++ rel ∧ ¬ a ++ rel <+: b := by
  refine ⟨fun hle => ?_, fun hle => h.1 ((List.prefix_append _ _).trans hle)⟩
  rcases List.prefix_or_prefix_of_prefix hle (List.prefix_append a rel) with hba | hab
  · exact h.2 hba
  · exact h.1 hab

theorem Apart.child {a b : FilePath} (h : Apart a b) (name : String) :
    Apart (a ++ [name]) (b ++ [name]) :=
  ⟨fun hle => (h.symm.below [name]).1 ((List.prefix_append _ _).trans hle),
    fun hle => (h.below [name]).1 ((List.prefix_append _ _).trans hle)⟩

/-- A change of the disk that succeeds. -/
theorem logged_ok {φ ε α : Type} {event : Event} {m : Effect φ ε α} {a : α} {w w' : World φ}
    (h : (do Run.log event; Run.onDisk m) w = (.ok a, w')) : m w.fs = (.ok a, w'.fs) := by
  obtain ⟨⟨⟩, w₁, hlog, h⟩ := Effect.bind_ok.mp h
  cases hlog
  obtain ⟨hresult, hworld⟩ := Prod.mk.inj h
  rw [← hworld, ← hresult]

/-! ### One entry -/

/-- What `copyTree` does with one name of the directory it copies. -/
def copyEntry (depth : Nat) (realSource source target : FilePath) (name : String) :
    Run Volume PlatformError Unit := do
  let entry := FilePath.join source name
  let real ← Run.read (FileSystem.realPath entry).option
  if real ≠ some (FilePath.join realSource name) then pure ()
  else
    let info ← Run.read (FileSystem.stat entry)
    match info.type with
    | .directory => copyTree depth entry (FilePath.join target name)
    | .file => Run.copyFile entry (FilePath.join target name)
    | .other => pure ()

theorem copyTree_succ (depth : Nat) (source target : FilePath) :
    (copyTree (depth + 1) source target : Run Volume PlatformError Unit) = (do
      Run.makeDirectory target
      let realSource ← Run.read (FileSystem.realPath source)
      let names ← Run.read (FileSystem.readDirectory source)
      let _ ← forEach (copyEntry depth realSource source target) names
      pure ()) := rfl

/-- The files of the names in `done` are copied, and none of the other names; what is not below the
    target stayed. -/
structure Progress (before now : Volume) (source target : FilePath) (done : List String) : Prop where
  copied : ∀ name ∈ done, ∀ rel,
    now.data? (target ++ name :: rel) = before.data? (source ++ name :: rel)
  clear : ∀ name ∉ done, Clear now (target ++ [name])
  directory : now.at? target = some .directory
  frame : ∀ q, ¬ target <+: q → now.at? q = before.at? q

section Copy

variable {depth : Nat} {source target : FilePath} {w w' : World Volume}

/-- A copy of an entry copies the files below it, and changes nothing outside the copy. -/
def CopiesEntries (depth : Nat) : Prop :=
  ∀ (source target : FilePath) (w w' : World Volume), copyTree depth source target w = (.ok (), w') →
    Apart (normalize source) (normalize target) → Clear w.fs (normalize target) →
    Copied w.fs w'.fs (normalize source) (normalize target)

theorem copyEntry_ok {name : String} (hrec : CopiesEntries depth)
    (hapart : Apart (normalize source) (normalize target))
    (hentry : (w.fs.at? (normalize source ++ [name])).isSome)
    (htarget : w.fs.at? (normalize target) = some .directory)
    (hclear : Clear w.fs (normalize target ++ [name]))
    (h : copyEntry depth (normalize source) source target name w = (.ok (), w')) :
    (∀ rel, w'.fs.data? (normalize target ++ name :: rel) =
      w.fs.data? (normalize source ++ name :: rel)) ∧
    ∀ q, ¬ normalize target ++ [name] <+: q → w'.fs.at? q = w.fs.at? q := by
  obtain ⟨node, hnode⟩ := Option.isSome_iff_exists.mp hentry
  have hplain := Volume.plain_of_entry hnode
  have hsource : normalize (FilePath.join source name) = normalize source ++ [name] := by
    rw [normalize_join, join_name hplain]
  have htarget' : normalize (FilePath.join target name) = normalize target ++ [name] := by
    rw [normalize_join, join_name hplain]
  have hreal : FileSystem.realPath (FilePath.join source name) w.fs =
      (.ok (normalize source ++ [name]) : Except PlatformError FilePath) :=
    Volume.realPath_ok.mpr ⟨by rw [hsource]; exact hentry, hsource.symm⟩
  have hhere : FilePath.join (normalize source) name = normalize source ++ [name] := by
    rw [join_name hplain, normalize_normalize]
  rw [copyEntry, Run.read_bind_of_ok (Reading.option_run), hreal, hhere] at h
  rw [if_neg (by simp [Except.toOption])] at h
  obtain ⟨info, hinfo, h⟩ := Run.read_bind_ok.mp h
  obtain ⟨node', hnode', rfl⟩ := Volume.stat_ok.mp hinfo
  rw [hsource, hnode] at hnode'
  obtain rfl := Option.some.inj hnode'
  cases node with
  | directory =>
    have hcopied := hrec _ _ _ _ h (by rw [hsource, htarget']; exact hapart.child name)
      (by rw [htarget']; exact hclear)
    rw [hsource, htarget'] at hcopied
    refine ⟨fun rel => by simpa using hcopied.files rel, fun q hq => ?_⟩
    by_cases habove : q <+: normalize target ++ [name]
    · -- what is above the copy is a directory before and after
      rcases List.prefix_concat_iff.mp habove with rfl | habove
      · exact absurd List.prefix_rfl hq
      · rw [Volume.directory_of_prefix htarget habove,
          Volume.directory_of_prefix hcopied.directory
            (habove.trans (List.prefix_append _ _))]
    · exact hcopied.frame q hq habove
  | file data mode =>
    obtain ⟨data', hdata, -, mode', hcopy⟩ := Volume.copyFile_ok (logged_ok h)
    rw [hsource, Volume.data?_of_file hnode] at hdata
    obtain rfl := Option.some.inj hdata
    rw [htarget'] at hcopy
    refine ⟨fun rel => ?_, fun q hq => ?_⟩
    · rw [List.append_cons, List.append_cons _ name rel]
      by_cases hrel : rel = []
      · rw [hrel, List.append_nil, List.append_nil, Volume.data?_of_file hnode]
        exact Volume.data?_of_file (by rw [hcopy, if_pos rfl])
      · rw [Volume.data?_of_none (Volume.at?_below_file hnode hrel), ← hclear rel]
        exact Volume.data?_congr (by rw [hcopy, if_neg (by simp [hrel])])
    · rw [hcopy, if_neg]
      rintro rfl
      exact hq List.prefix_rfl

/-- One more name is copied. -/
theorem Progress.step {before : Volume} {done : List String} {name : String}
    (hrec : CopiesEntries depth) (hapart : Apart (normalize source) (normalize target))
    (hprogress : Progress before w.fs (normalize source) (normalize target) done)
    (hentry : (before.at? (normalize source ++ [name])).isSome) (hnew : name ∉ done)
    (h : copyEntry depth (normalize source) source target name w = (.ok (), w')) :
    Progress before w'.fs (normalize source) (normalize target) (done ++ [name]) := by
  have hsource : ∀ rel, w.fs.at? (normalize source ++ rel) = before.at? (normalize source ++ rel) :=
    fun rel => hprogress.frame _ (hapart.below rel).1
  obtain ⟨hcopied, hframe⟩ := copyEntry_ok hrec hapart (by rw [hsource]; exact hentry)
    hprogress.directory (hprogress.clear name hnew) h
  have hother : ∀ other ≠ name, ∀ rel, w'.fs.data? (normalize target ++ other :: rel) =
      w.fs.data? (normalize target ++ other :: rel) := by
    intro other hne rel
    refine Volume.data?_congr (hframe _ ?_)
    rw [List.prefix_append_right_inj, List.cons_prefix_cons]
    exact fun hle => hne hle.1.symm
  constructor
  · intro other hmem rel
    by_cases hname : other = name
    · rw [hname, hcopied]
      exact Volume.data?_congr (hsource _)
    · rw [hother other hname]
      exact hprogress.copied other (by simpa [hname] using hmem) rel
  · intro other hmem rel
    rw [List.mem_append, List.mem_singleton, not_or] at hmem
    rw [← List.append_cons, hother other hmem.2, List.append_cons]
    exact hprogress.clear other hmem.1 rel
  · rw [hframe _ Volume.not_entry_prefix]
    exact hprogress.directory
  · intro q hq
    rw [hframe q (fun hle => hq ((List.prefix_append _ _).trans hle))]
    exact hprogress.frame q hq

/-- All the names are copied. -/
theorem Progress.run {before : Volume} (hrec : CopiesEntries depth)
    (hapart : Apart (normalize source) (normalize target)) :
    ∀ {names done : List String} {w w' : World Volume} {out : List Unit},
      Progress before w.fs (normalize source) (normalize target) done →
      (done ++ names).Nodup →
      (∀ name ∈ names, (before.at? (normalize source ++ [name])).isSome) →
      forEach (copyEntry depth (normalize source) source target) names w = (.ok out, w') →
      Progress before w'.fs (normalize source) (normalize target) (done ++ names) := by
  intro names
  induction names with
  | nil =>
    intro done w w' out hprogress _ _ h
    cases h
    rwa [List.append_nil]
  | cons name names ih =>
    intro done w w' out hprogress hnodup hentries h
    obtain ⟨⟨⟩, w₁, hone, h⟩ := Effect.bind_ok.mp h
    obtain ⟨rest, w₂, hrest, h⟩ := Effect.bind_ok.mp h
    cases h
    have hnew : name ∉ done := fun hmem =>
      (List.nodup_append.mp hnodup).2.2 name hmem name List.mem_cons_self rfl
    have hstep := hprogress.step hrec hapart (hentries name List.mem_cons_self) hnew hone
    rw [List.append_cons] at hnodup ⊢
    exact ih hstep hnodup (fun other hmem => hentries other (List.mem_cons_of_mem _ hmem)) hrest

/-- A copy that succeeds has the files of the source and changes nothing else. -/
theorem copyTree_copies : ∀ depth, CopiesEntries depth := by
  intro depth
  induction depth with
  | zero =>
    intro source target w w' h
    cases h
  | succ depth ih =>
    intro source target w w' h hapart hclear
    rw [copyTree_succ] at h
    obtain ⟨⟨⟩, w₁, hmade, h⟩ := Effect.bind_ok.mp h
    obtain ⟨real, hreal, h⟩ := Run.read_bind_ok.mp h
    obtain ⟨names, hnames, h⟩ := Run.read_bind_ok.mp h
    obtain ⟨out, w₂, hall, h⟩ := Effect.bind_ok.mp h
    cases h
    obtain ⟨-, rfl⟩ := Volume.realPath_ok.mp hreal
    obtain ⟨hsource, hnodup, hmem⟩ := Volume.readDirectory_ok hnames
    have hmade := Volume.makeDirectory_ok (logged_ok hmade)
    have hbelow : ∀ rel, w₁.fs.data? (normalize target ++ rel) = none := by
      intro rel
      by_cases hrel : rel = []
      · exact Volume.data?_of_directory (by rw [hrel, List.append_nil, hmade, if_pos List.prefix_rfl])
      · rw [← hclear rel]
        refine Volume.data?_congr ?_
        rw [hmade, if_neg]
        intro hle
        have hlength := hle.length_le
        rw [List.length_append] at hlength
        exact hrel (List.eq_nil_of_length_eq_zero (by omega))
    have hdirectory : w₁.fs.at? (normalize target) = some .directory := by
      rw [hmade, if_pos List.prefix_rfl]
    have hstart : Progress w₁.fs w₁.fs (normalize source) (normalize target) [] :=
      ⟨by simp, fun name _ rel => by rw [List.append_assoc]; exact hbelow _, hdirectory,
        fun _ _ => rfl⟩
    have hdone := Progress.run ih hapart hstart hnodup (fun name hname => (hmem name).mp hname) hall
    have hold : ∀ rel, w₁.fs.at? (normalize source ++ rel) = w.fs.at? (normalize source ++ rel) :=
      fun rel => by rw [hmade, if_neg (hapart.below rel).2]
    refine ⟨fun rel => ?_, hdone.directory, fun q hq hq' => ?_⟩
    · rw [← Volume.data?_congr (hold rel)]
      obtain _ | ⟨name, rel⟩ := rel
      · rw [List.append_nil, List.append_nil, Volume.data?_of_directory hdone.directory,
          Volume.data?_of_directory hsource]
      · by_cases hname : name ∈ names
        · exact hdone.copied name hname rel
        · -- no entry of that name is in the source
          have hnone : w₁.fs.at? (normalize source ++ [name]) = none := by
            rcases hat : w₁.fs.at? (normalize source ++ [name]) with _ | node
            · rfl
            · exact absurd ((hmem name).mpr (by rw [hat]; rfl)) hname
          rw [List.append_cons, List.append_cons _ name rel,
            Volume.data?_of_none (Volume.at?_below_none hnone)]
          exact hdone.clear name hname rel
    · rw [hdone.frame q hq, hmade, if_neg hq']

end Copy

end Akua
