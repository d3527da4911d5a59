import Akua.Lib.Keyed
import Akua.RustResolver
import Mathlib.Data.Prod.Lex

/-! The previous release's lockfile: what a resolution writes into `akua.lock`, and what a lookup
    by name finds there afterwards. An entry is written at the slot of its name and version, the
    packages are sorted by both, and `find` takes the first of a name; so an entry that was left
    behind at a smaller version is found instead of the one just written. -/

namespace Akua.Rust

structure Replaced where
  path : String
deriving DecidableEq

/-- A resolved dependency, pinned by digest and signature. -/
structure LockedPackage where
  name : String
  version : String
  source : String
  digest : String
  vendor_digest : Option String := none
  signature : Option String := none
  dependencies : List String := []
  attestation : Option String := none
  replaced : Option Replaced := none
  yanked : Option Bool := none
  kyverno_source_digest : Option String := none
  converter_version : Option String := none
deriving DecidableEq

structure AkuaLock where
  version : UInt32
  packages : List LockedPackage
deriving DecidableEq

/-! ### Canonical source strings -/

/-- The text after the last `@` of the authority, or all of it. -/
def stripUserinfo (authorityAndPath : String) : String :=
  let authority := match Text.cut authorityAndPath "/" with
    | some (authority, _) => authority
    | none => authorityAndPath
  match Text.cutLast authority '@' with
  | some (userinfo, _) => Text.after authorityAndPath (userinfo ++ "@")
  | none => authorityAndPath

def isDefaultPort (scheme port : String) : Bool :=
  (scheme == "https" && port == "443") || (scheme == "http" && port == "80")

/-- A URL without userinfo, default port, trailing `/` and `.git`; a text that is no URL is left. -/
def canonicalizeUrl (url : String) : String :=
  match Text.cut url "://" with
  | none => url
  | some (scheme, afterScheme) =>
    let afterUserinfo := stripUserinfo afterScheme
    let (authority, path) := match Text.cut afterUserinfo "/" with
      | some (a, p) => (a, "/" ++ p)
      | none => (afterUserinfo, "")
    let canonAuthority := match Text.cutLast authority ':' with
      | some (host, port) => if isDefaultPort scheme port then host else authority
      | none => authority
    let out := Text.trimEnd (scheme ++ "://" ++ canonAuthority ++ path) '/'
    Text.trimEnd (if Text.endsWith out ".git" then Text.before out ".git" else out) '/'

/-- The source string, version and replace marker of a lock entry. -/
def ResolvedSource.toLockedFields : ResolvedSource → String × String × Option Replaced
  | .path declared => ("path+file://" ++ declared, "local", none)
  | .oci ref version _ => (ref, version, none)
  | .ociReplaced ref version replacePath => (ref, version, some ⟨replacePath⟩)
  | .git url tagOrRev _ => ("git+" ++ canonicalizeUrl url ++ "@" ++ tagOrRev, tagOrRev, none)
  | .gitReplaced url tagOrRev replacePath =>
    ("git+" ++ canonicalizeUrl url ++ "@" ++ tagOrRev, tagOrRev, some ⟨replacePath⟩)
  | .helm repo chart version _ => ("helm+" ++ repo ++ "#" ++ chart, version, none)

/-- The version that a source is locked at. -/
def ResolvedSource.lockedVersion (source : ResolvedSource) : String := source.toLockedFields.2.1

/-! ### The lock -/

namespace AkuaLock

/-- The first entry of a name. -/
def find (lock : AkuaLock) (name : String) : Option LockedPackage :=
  lock.packages.find? fun p => p.name == name

def findSlot (lock : AkuaLock) (name version : String) : Option Nat :=
  lock.packages.findIdx? fun p => p.name == name && p.version == version

/-- Write at a known slot; none appends. -/
def upsertAt (lock : AkuaLock) (slot : Option Nat) (entry : LockedPackage) : AkuaLock :=
  match slot with
  | some idx => { lock with packages := lock.packages.set idx entry }
  | none => { lock with packages := lock.packages ++ [entry] }

/-- The order of entries: by name, then by version. -/
def inOrder (a b : LockedPackage) : Prop := a.name < b.name ∨ (a.name = b.name ∧ a.version ≤ b.version)

instance : DecidableRel inOrder := fun a b =>
  inferInstanceAs (Decidable (a.name < b.name ∨ (a.name = b.name ∧ a.version ≤ b.version)))

def sort (lock : AkuaLock) : AkuaLock :=
  { lock with packages := lock.packages.insertionSort inOrder }

end AkuaLock

/-- The entry written for a resolved source over `carry`, the entry of the same bytes. -/
def lockedEntry (name digest : String) (source : ResolvedSource) (carry : Option LockedPackage) :
    LockedPackage :=
  let (sourceStr, version, replaced) := source.toLockedFields
  { name, version, source := sourceStr, digest
    vendor_digest := carry.bind (·.vendor_digest)
    signature := carry.bind (·.signature)
    attestation := carry.bind (·.attestation)
    dependencies := (carry.map (·.dependencies)).getD []
    replaced
    yanked := carry.bind (·.yanked)
    kyverno_source_digest := carry.bind (·.kyverno_source_digest)
    converter_version := carry.bind (·.converter_version) }

/-- Write one resolved dependency: what is tied to the bytes is carried over when the digest is the
    same. -/
def upsertLockedFromSource (lock : AkuaLock) (name : String) (source : ResolvedSource)
    (digest : String) : AkuaLock :=
  let slot := lock.findSlot name source.lockedVersion
  let carry := (slot.bind fun i => lock.packages[i]?).filter fun p => p.digest = digest
  lock.upsertAt slot (lockedEntry name digest source carry)

/-- The charts in the order of their names. -/
def ResolvedCharts.values (resolved : ResolvedCharts) : List ResolvedChart :=
  (resolved.entries.entries.insertionSort fun a b => a.1 ≤ b.1).map Prod.snd

def mergeIntoLock (lock : AkuaLock) (resolved : ResolvedCharts) : AkuaLock :=
  (resolved.values.foldl (fun lock chart =>
    upsertLockedFromSource lock chart.name chart.source chart.sha256) lock).sort

/-! ### Resolved charts carry their names -/

/-- Each chart carries the name it is kept under. -/
def ResolvedCharts.Named (resolved : ResolvedCharts) : Prop :=
  ∀ entry ∈ resolved.entries.entries, entry.2.name = entry.1

section Named

variable {φ : Type} [FileSystem φ] [EntryTypes φ] {P : Platform} {cwd : FilePath} {fs : φ}
  {name : String} {chart : ResolvedChart}

theorem resolveTree_name {source : ResolvedSource} {canon : FilePath}
    (h : resolveTree P name source canon fs = .ok chart) : chart.name = name := by
  unfold resolveTree at h
  obtain ⟨info, -, h⟩ := Reading.bind_ok.mp h
  split at h
  · cases h
  · obtain ⟨hashed, -, h⟩ := Reading.bind_ok.mp h
    obtain ⟨kind, -, h⟩ := Reading.bind_ok.mp h
    cases h
    rfl

theorem resolvePath_name {requested root : String} {source : ResolvedSource} {origin : PathOrigin}
    (h : resolvePath P cwd name requested root source origin fs = .ok chart) : chart.name = name := by
  obtain ⟨canon, -, h⟩ := Reading.bind_ok.mp h
  exact resolveTree_name h

theorem withTreeDigest_name (chart : ResolvedChart) : chart.withTreeDigest.name = chart.name := by
  obtain ⟨name, absPath, sha256, kind, source⟩ := chart
  cases source <;> rfl

theorem resolveVendored_name {root : String} {spec : DependencySpec}
    (h : resolveVendored P cwd name root spec fs = .ok (some chart)) : chart.name = name := by
  unfold resolveVendored at h
  by_cases hhelm : spec.isHelm = true
  · rw [if_pos hhelm] at h
    cases h
  · rw [if_neg hhelm] at h
    obtain ⟨kind, -, h⟩ := Reading.bind_ok.mp h
    obtain ⟨vendored, -, h⟩ := Reading.bind_ok.mp h
    cases vendored with
    | false => cases h
    | true =>
      obtain ⟨found, hfound, h⟩ := Reading.bind_ok.mp h
      cases h
      rw [withTreeDigest_name, resolvePath_name hfound]

theorem resolveDependency_name {root : String} {opts : ResolverOptions} {dep : Dependency}
    (h : resolveDependency P cwd root opts name dep fs = .ok chart) : chart.name = name := by
  unfold resolveDependency at h
  cases hreplace : dep.replace with
  | some replacePath =>
    simp only [hreplace] at h
    by_cases hreject : opts.rejectReplace = true
    · rw [if_pos hreject] at h
      cases h
    · rw [if_neg hreject] at h
      obtain ⟨source, -, h⟩ := Reading.bind_ok.mp h
      exact resolvePath_name h
  | none =>
    simp only [hreplace] at h
    obtain ⟨spec, -, h⟩ := Reading.bind_ok.mp h
    obtain ⟨vendored, hvendored, h⟩ := Reading.bind_ok.mp h
    cases vendored with
    | some found =>
      cases h
      exact resolveVendored_name hvendored
    | none =>
      cases spec with
      | path declared =>
        have h : resolvePath P cwd name declared root (.path declared) .userManifest fs =
            .ok chart := h
        exact resolvePath_name h
      | oci _ _ => cases h
      | git _ _ _ => cases h
      | helm _ _ _ => cases h

theorem resolved_named {manifest : AkuaManifest} {root : String} {opts : ResolverOptions}
    {resolved : ResolvedCharts}
    (h : resolveWithOptions P cwd manifest root opts fs = .ok resolved) : resolved.Named := by
  obtain ⟨charts, hcharts, h⟩ := Reading.bind_ok.mp h
  cases h
  intro entry hentry
  obtain ⟨declared, -, hdeclared⟩ :=
    exists_of_forall₂ (Reading.forEach_ok.mp hcharts).flip (Table.mem_of_mem_ofList hentry)
  obtain ⟨chart, hchart, hpair⟩ := Reading.bind_ok.mp hdeclared
  cases hpair
  exact resolveDependency_name hchart

end Named

/-! ### What a merge leaves -/

namespace LockedPackage

def slot (entry : LockedPackage) : String × String := (entry.name, entry.version)

end LockedPackage

def ResolvedChart.slot (chart : ResolvedChart) : String × String :=
  (chart.name, chart.source.lockedVersion)

namespace AkuaLock

theorem find_eq (lock : AkuaLock) (name : String) :
    lock.find name = Keyed.find LockedPackage.name name lock.packages := by
  simp [find, Keyed.find, BEq.beq]

theorem inOrder_iff {a b : LockedPackage} : inOrder a b ↔ toLex a.slot ≤ toLex b.slot := by
  rw [Prod.Lex.toLex_le_toLex]
  rfl

instance : Std.Total inOrder := ⟨fun a b => by
  simp only [inOrder_iff]
  exact le_total _ _⟩

instance : IsTrans LockedPackage inOrder := ⟨fun a b c => by
  simp only [inOrder_iff]
  exact le_trans⟩

theorem inOrder_of_slot {a b : LockedPackage} (h : a.slot = b.slot) : inOrder a b := by
  rw [inOrder_iff, h]

/-- Of one name, the entry in order is the one of the smaller version. -/
theorem version_le_of_inOrder {a b : LockedPackage} (h : inOrder a b) (hname : a.name = b.name) :
    a.version ≤ b.version := by
  rcases h with h | ⟨-, h⟩
  · rw [hname] at h
    exact absurd h (lt_irrefl _)
  · exact h

theorem pairwise_sort (lock : AkuaLock) : lock.sort.packages.Pairwise inOrder :=
  List.pairwise_insertionSort _ _

/-- Sorting does not change the first entry of a name and version. -/
theorem find_slot_sort (lock : AkuaLock) (slot : String × String) :
    Keyed.find LockedPackage.slot slot lock.sort.packages =
      Keyed.find LockedPackage.slot slot lock.packages :=
  Keyed.find_insertionSort (fun _ _ => inOrder_of_slot) slot lock.packages

end AkuaLock

/-- The entry that a chart's upsert writes over the entry of its slot. -/
def chartEntry (chart : ResolvedChart) (previous : Option LockedPackage) : LockedPackage :=
  lockedEntry chart.name chart.sha256 chart.source
    (previous.filter fun p => p.digest = chart.sha256)

@[simp] theorem chartEntry_slot (chart : ResolvedChart) (previous : Option LockedPackage) :
    (chartEntry chart previous).slot = chart.slot := rfl

@[simp] theorem chartEntry_digest (chart : ResolvedChart) (previous : Option LockedPackage) :
    (chartEntry chart previous).digest = chart.sha256 := rfl

theorem upsert_eq_update (chart : ResolvedChart) (lock : AkuaLock) :
    upsertLockedFromSource lock chart.name chart.source chart.sha256 =
      { lock with packages :=
          Keyed.update LockedPackage.slot chart.slot (chartEntry chart) lock.packages } := by
  obtain ⟨version, packages⟩ := lock
  unfold upsertLockedFromSource AkuaLock.findSlot
  induction packages with
  | nil => rfl
  | cons entry rest ih =>
    have hslot : entry.slot = chart.slot ↔
        (entry.name = chart.name ∧ entry.version = chart.source.lockedVersion) := Prod.mk_inj
    rw [Keyed.update]
    simp only [List.findIdx?_cons]
    by_cases h : entry.slot = chart.slot
    · simp [h, hslot.mp h, AkuaLock.upsertAt, chartEntry]
    · have hne : (entry.name == chart.name && entry.version == chart.source.lockedVersion) = false := by
        rw [Bool.eq_false_iff]
        intro he
        exact h (hslot.mpr (by simpa using he))
      rw [if_neg h, hne]
      simp only at ih ⊢
      cases hidx : rest.findIdx? fun p =>
          p.name == chart.name && p.version == chart.source.lockedVersion with
      | none =>
        rw [hidx] at ih
        have hrest := (AkuaLock.mk.inj ih).2
        simp only [← hrest]
        rfl
      | some idx =>
        rw [hidx] at ih
        have hrest := (AkuaLock.mk.inj ih).2
        simp only [← hrest]
        rfl

/-! ### Lookup after a merge -/

section Merge

variable {lock : AkuaLock} {resolved : ResolvedCharts}

theorem mem_values {chart : ResolvedChart} :
    chart ∈ resolved.values ↔ ∃ name, (name, chart) ∈ resolved.entries.entries := by
  simp [ResolvedCharts.values, List.mem_insertionSort]

theorem names_nodup (h : resolved.Named) : (resolved.values.map ResolvedChart.name).Nodup := by
  have hkeys : resolved.values.map ResolvedChart.name =
      (resolved.entries.entries.insertionSort fun a b => a.1 ≤ b.1).map Prod.fst := by
    rw [ResolvedCharts.values, List.map_map]
    refine List.map_congr_left fun entry hentry => ?_
    exact h entry ((List.mem_insertionSort _).mp hentry)
  rw [hkeys]
  exact ((List.perm_insertionSort _ _).map _).nodup_iff.mpr resolved.entries.nodup

theorem slots_nodup (h : resolved.Named) : (resolved.values.map ResolvedChart.slot).Nodup := by
  refine List.Nodup.of_map Prod.fst ?_
  rw [List.map_map]
  exact names_nodup h

/-- The packages after the upserts, before they are sorted. -/
def upserted (charts : List ResolvedChart) (packages : List LockedPackage) : List LockedPackage :=
  charts.foldl (fun l chart => Keyed.update LockedPackage.slot chart.slot (chartEntry chart) l) packages

theorem upserts_eq (charts : List ResolvedChart) (lock : AkuaLock) :
    charts.foldl (fun lock chart =>
      upsertLockedFromSource lock chart.name chart.source chart.sha256) lock =
    { lock with packages := upserted charts lock.packages } := by
  induction charts generalizing lock with
  | nil => rfl
  | cons chart charts ih =>
    rw [List.foldl_cons, ih, upsert_eq_update]
    rfl

theorem merged_eq (lock : AkuaLock) (resolved : ResolvedCharts) :
    mergeIntoLock lock resolved =
      AkuaLock.sort { lock with packages := upserted resolved.values lock.packages } := by
  rw [mergeIntoLock, upserts_eq]

/-- A merge leaves each chart's entry at its slot. -/
theorem find_slot_merged (lock : AkuaLock) (h : resolved.Named) {chart : ResolvedChart} (hchart : chart ∈ resolved.values) :
    Keyed.find LockedPackage.slot chart.slot (mergeIntoLock lock resolved).packages =
      some (chartEntry chart (Keyed.find LockedPackage.slot chart.slot lock.packages)) := by
  rw [merged_eq, AkuaLock.find_slot_sort]
  exact Keyed.find_updates (fun chart o => chartEntry_slot chart o) (slots_nodup h) _ hchart

/-- A merge leaves the other slots as they are. -/
theorem find_slot_kept (lock : AkuaLock) {slot : String × String} (hslot : slot ∉ resolved.values.map ResolvedChart.slot) :
    Keyed.find LockedPackage.slot slot (mergeIntoLock lock resolved).packages =
      Keyed.find LockedPackage.slot slot lock.packages := by
  rw [merged_eq, AkuaLock.find_slot_sort]
  exact Keyed.find_updates_of_notMem (fun chart o => chartEntry_slot chart o) hslot _

/-- The packages that a merge leaves under a chart's name. -/
theorem named_in_merged (h : resolved.Named) {chart : ResolvedChart} (hchart : chart ∈ resolved.values)
    {version : String} (hne : version ≠ chart.source.lockedVersion) :
    (∃ entry ∈ (mergeIntoLock lock resolved).packages, entry.slot = (chart.name, version)) ↔
      ∃ entry ∈ lock.packages, entry.slot = (chart.name, version) := by
  have hslot : (chart.name, version) ∉ resolved.values.map ResolvedChart.slot := by
    intro hmem
    obtain ⟨other, hother, he⟩ := List.mem_map.mp hmem
    have hsame : other = chart :=
      List.inj_on_of_nodup_map (names_nodup h) hother hchart (Prod.mk.inj he).1
    rw [hsame] at he
    exact hne (Prod.mk.inj he).2.symm
  have hfind := find_slot_kept lock hslot
  have hexists : ∀ packages : List LockedPackage,
      (∃ entry ∈ packages, entry.slot = (chart.name, version)) ↔
        Keyed.find LockedPackage.slot (chart.name, version) packages ≠ none := by
    intro packages
    simp [Keyed.find_eq_none]
  rw [hexists, hexists, hfind]

/-- The entry just merged is the one that the name finds. -/
def FindsMerged (lock : AkuaLock) (resolved : ResolvedCharts) : Prop :=
  ∀ chart ∈ resolved.values, ∃ entry, (mergeIntoLock lock resolved).find chart.name = some entry ∧
    entry.version = chart.source.lockedVersion ∧ entry.digest = chart.sha256

/-- For one chart: its entry is found unless the lock held its name at a smaller version. -/
theorem finds_chart_iff (h : resolved.Named) {chart : ResolvedChart} (hchart : chart ∈ resolved.values) :
    (∃ entry, (mergeIntoLock lock resolved).find chart.name = some entry ∧
      entry.version = chart.source.lockedVersion ∧ entry.digest = chart.sha256) ↔
    ∀ entry ∈ lock.packages, entry.name = chart.name →
      ¬ entry.version < chart.source.lockedVersion := by
  have hsorted : (mergeIntoLock lock resolved).packages.Pairwise AkuaLock.inOrder := by
    rw [merged_eq]
    exact AkuaLock.pairwise_sort _
  -- what the name finds has the smallest version of the name
  have hleast : ∀ {found}, (mergeIntoLock lock resolved).find chart.name = some found →
      ∀ entry ∈ (mergeIntoLock lock resolved).packages, entry.name = chart.name →
        found.version ≤ entry.version := by
    intro found hfound entry hentry hname
    rw [AkuaLock.find_eq] at hfound
    have hfoundName : found.name = chart.name := by simpa using List.find?_some hfound
    exact AkuaLock.version_le_of_inOrder
      (Keyed.find_pairwise (fun x => AkuaLock.inOrder_of_slot rfl) hsorted hfound hentry hname)
      (hfoundName.trans hname.symm)
  constructor
  · rintro ⟨found, hfound, hversion, -⟩ entry hentry hname hlt
    obtain ⟨kept, hkept, hslot⟩ :=
      (named_in_merged h hchart hlt.ne).mpr ⟨entry, hentry, Prod.ext hname rfl⟩
    have hle := hleast hfound kept hkept (Prod.mk.inj hslot).1
    rw [hversion, (Prod.mk.inj hslot).2] at hle
    exact absurd hlt (not_lt.mpr hle)
  · intro hnone
    have hmerged := find_slot_merged lock h hchart
    have hmem := List.mem_of_find?_eq_some hmerged
    cases hfound : (mergeIntoLock lock resolved).find chart.name with
    | none =>
      rw [AkuaLock.find_eq, Keyed.find_eq_none] at hfound
      exact absurd rfl (hfound _ hmem)
    | some found =>
      have hle := hleast hfound _ hmem rfl
      have hname : found.name = chart.name := by
        rw [AkuaLock.find_eq] at hfound
        simpa using List.find?_some hfound
      have hfoundMem : found ∈ (mergeIntoLock lock resolved).packages := by
        rw [AkuaLock.find_eq] at hfound
        exact List.mem_of_find?_eq_some hfound
      have hversion : found.version = chart.source.lockedVersion := by
        by_contra hne
        obtain ⟨entry, hentry, hslot⟩ :=
          (named_in_merged h hchart hne).mp ⟨found, hfoundMem, Prod.ext hname rfl⟩
        refine hnone entry hentry (Prod.mk.inj hslot).1 ?_
        rw [(Prod.mk.inj hslot).2]
        exact lt_of_le_of_ne hle hne
      have hslot : Keyed.find LockedPackage.slot chart.slot (mergeIntoLock lock resolved).packages =
          some found := by
        rw [AkuaLock.find_eq] at hfound
        exact Keyed.find_of_find hfound (Prod.ext hname hversion) fun entry he => (Prod.mk.inj he).1
      rw [hmerged] at hslot
      exact ⟨found, rfl, hversion, by rw [← Option.some.inj hslot, chartEntry_digest]⟩

/-- The resolver's charts carry their names, so this is about every lock it goes on to write. -/
theorem resolved_chart_found_iff {φ : Type} [FileSystem φ] [EntryTypes φ] {P : Platform} {cwd : FilePath} {fs : φ}
    {manifest : AkuaManifest} {root : String} {opts : ResolverOptions}
    (h : resolveWithOptions P cwd manifest root opts fs = .ok resolved) {chart : ResolvedChart}
    (hchart : chart ∈ resolved.values) :
    (∃ entry, (mergeIntoLock lock resolved).find chart.name = some entry ∧
      entry.version = chart.source.lockedVersion ∧ entry.digest = chart.sha256) ↔
    ∀ entry ∈ lock.packages, entry.name = chart.name → ¬ entry.version < chart.source.lockedVersion :=
  finds_chart_iff (resolved_named h) hchart

/-- `find` gives each updated name the entry just merged, at its version and digest, exactly when
    the lock holds no name of them at a smaller version. -/
theorem finds_merged_iff (lock : AkuaLock) (resolved : ResolvedCharts) (h : resolved.Named) :
    FindsMerged lock resolved ↔ ∀ chart ∈ resolved.values, ∀ entry ∈ lock.packages,
      entry.name = chart.name → ¬ entry.version < chart.source.lockedVersion :=
  forall₂_congr fun _ hchart => finds_chart_iff h hchart

/-- A dependency locked at 1.0.0, resolved at 2.0.0. -/
def bumpedLock : AkuaLock where
  version := 1
  packages := [{ name := "web", version := "1.0.0", source := "oci://r/web", digest := "sha256:aa" }]

def bumpedWeb : ResolvedChart where
  name := "web"
  absPath := ["web"]
  sha256 := "sha256:bb"
  kind := .helmChart
  source := .oci "oci://r/web" "2.0.0" "sha256:bb"

def bumpedCharts : ResolvedCharts := { entries := Table.ofList [("web", bumpedWeb)] }

theorem bumped_finds_old : ¬ FindsMerged bumpedLock bumpedCharts ∧
    ((mergeIntoLock bumpedLock bumpedCharts).find "web").map LockedPackage.version = some "1.0.0" := by
  have hfind : ((mergeIntoLock bumpedLock bumpedCharts).find "web").map LockedPackage.version =
      some "1.0.0" := by decide
  refine ⟨fun h => ?_, hfind⟩
  obtain ⟨entry, hentry, hversion, -⟩ := h bumpedWeb (by decide)
  rw [show bumpedWeb.name = "web" from rfl] at hentry
  rw [hentry] at hfind
  exact absurd (hversion.symm.trans (Option.some.inj hfind)) (by decide)

/-- An entry left behind at a greater version is not found. -/
theorem downgraded_found : bumpedCharts.Named ∧ FindsMerged { bumpedLock with packages :=
    [{ name := "web", version := "3.0.0", source := "oci://r/web", digest := "sha256:aa" }] }
      bumpedCharts := by
  have hnamed : bumpedCharts.Named := by
    intro entry hentry
    have : entry = ("web", bumpedWeb) := by simpa using Table.mem_of_mem_ofList hentry
    rw [this]
    rfl
  refine ⟨hnamed, (finds_merged_iff _ _ hnamed).mpr ?_⟩
  intro chart hchart entry hentry hname
  have hentry := List.mem_singleton.mp hentry
  have hchart : chart = bumpedWeb := by
    obtain ⟨name, hmem⟩ := mem_values.mp hchart
    have := List.mem_singleton.mp (Table.mem_of_mem_ofList hmem)
    exact (Prod.mk.inj this).2
  subst hentry hchart
  decide

end Merge

end Akua.Rust
