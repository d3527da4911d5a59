import Akua.Vendor

/-! Vendor pins. `vendor add` fetches what the lock pinned: the digest, and for an OCI artifact the
    signature, of the first entry with the dependency's name and a source of its kind. The entry's
    own source and version are not compared with what `akua.toml` declares, as resolution compares
    them: after either changes, the old tree is fetched and recorded as the new one. -/

namespace Akua

open Run

/-- What the sources of a kind begin with in the lock; a path has no pin, and Helm charts are not
    vendored. -/
def sourceStart : DependencySpec → Option String
  | .oci .. => some "oci://"
  | .git .. => some "git+"
  | .url _ => some "url+"
  | .path _ | .helm .. => none

/-- The pin that an entry gives the fetch of a source. -/
def entryPin (spec : DependencySpec) (entry : LockedPackage) : String :=
  match spec with
  | .git .. => Text.stripPrefix entry.digest "git:"
  | _ => entry.digest

/-- The recorded signature that an entry gives it; only OCI artifacts are signed. -/
def entrySignature (spec : DependencySpec) (entry : LockedPackage) : Option String :=
  if spec.isOci then entry.signature else none

/-- The entry is for the source and version the manifest declares now. -/
def Current (name : String) (dependency : Dependency) (entry : LockedPackage) : Prop :=
  entry.name = name ∧ entry.source = (lockRecordFor dependency).source ∧
    entry.version = (lockRecordFor dependency).version

/-- What a fetch is given comes from entries for the source and version the manifest declares. -/
def FreshFetch (entries : List LockedPackage) (name : String) (dependency : Dependency)
    (pin signature : Option String) : Prop :=
  (∀ digest ∈ pin, ∃ entry ∈ entries, Current name dependency entry ∧
    entryPin (dependencySpec dependency) entry = digest) ∧
  ∀ reference ∈ signature, ∃ entry ∈ entries, Current name dependency entry ∧
    entry.signature = some reference

/-- The first entry of the name with a source of the dependency's kind, if there is one, is for the
    source and version declared now; or entries that are record its digest and its signature. -/
def FirstCurrent (entries : List LockedPackage) (name : String) (dependency : Dependency) : Prop :=
  ∀ start ∈ sourceStart (dependencySpec dependency), ∀ before first after,
    entries = before ++ first :: after →
    first.name = name → Text.startsWith first.source start = true →
    (∀ entry ∈ before, ¬ (entry.name = name ∧ Text.startsWith entry.source start = true)) →
    Current name dependency first ∨
      (∃ entry ∈ entries, Current name dependency entry ∧
        entryPin (dependencySpec dependency) entry = entryPin (dependencySpec dependency) first) ∧
      ∀ reference ∈ entrySignature (dependencySpec dependency) first, ∃ entry ∈ entries,
        Current name dependency entry ∧ entry.signature = some reference

/-! ### What a fetch is given -/

def lockEntries (lock : Option Lock) : List LockedPackage := (lock.map Lock.packages).getD []

/-- The first entry of the name and kind. -/
def firstEntry (lock : Option Lock) (name : String) (spec : DependencySpec) : Option LockedPackage :=
  (sourceStart spec).bind (lockedEntry lock name)

/-- Every fetch is given what the first entry of the name and kind records. -/
def FetchesFirst (lock : Option Lock) (name : String) (spec : DependencySpec) (e : Event) : Prop :=
  ∀ pin signature, e = .fetch pin signature →
    pin = (firstEntry lock name spec).map (entryPin spec) ∧
      signature = (firstEntry lock name spec).bind (entrySignature spec)

theorem FetchesFirst.of_fetcher {lock : Option Lock} {name : String} {spec : DependencySpec}
    {slots : FilePath} {named : FilePath → Prop} {e : Event} (h : FetcherEvent slots named e) :
    FetchesFirst lock name spec e := by
  rintro pin signature rfl
  exact h.elim

theorem lockedEntry_eq_some {lock : Option Lock} {name start : String} {first : LockedPackage} :
    lockedEntry lock name start = some first ↔ ∃ before after,
      lockEntries lock = before ++ first :: after ∧
      first.name = name ∧ Text.startsWith first.source start = true ∧
      ∀ entry ∈ before, ¬ (entry.name = name ∧ Text.startsWith entry.source start = true) := by
  simp only [lockedEntry, lockEntries, List.find?_eq_some_iff_append, Bool.and_eq_true,
    decide_eq_true_eq, Bool.not_eq_true']
  constructor
  · rintro ⟨⟨hname, hsource⟩, before, after, hentries, hbefore⟩
    refine ⟨before, after, hentries, hname, hsource, fun entry hentry => ?_⟩
    simpa using hbefore entry hentry
  · rintro ⟨before, after, hentries, hname, hsource, hbefore⟩
    refine ⟨⟨hname, hsource⟩, before, after, hentries, fun entry hentry => ?_⟩
    simpa using hbefore entry hentry

section Runs

variable {P : Platform} {φ : Type} [FileSystem φ] {credentials : CredentialStore}
  {lock : Option Lock} {name : String} {dependency : Dependency} {auth : HostAuthMap}
  {cosignPublicKey : Option String} {workspace : FilePath}

section Fetching

variable (lock dependency)

theorem logs_pulledSource (request : PullRequest) :
    Logs (FetchesFirst lock name (dependencySpec dependency))
      (pulledSource (.live P credentials) name request : Run φ Failure VendorSource) :=
  logs_bind (logs_mapError ((logs_pull P _ _).mono fun _ => FetchesFirst.of_fetcher))
    fun _ _ _ _ => logs_bind (logs_read _) fun _ _ _ _ => logs_pure _

theorem logs_checkedOutSource (label : String) (request : GitRequest) :
    Logs (FetchesFirst lock name (dependencySpec dependency))
      (checkedOutSource (.live P credentials) name label request : Run φ Failure VendorSource) :=
  logs_bind (logs_mapError ((logs_gitFetch P _).mono fun _ => FetchesFirst.of_fetcher))
    fun _ _ _ _ => logs_pure _

theorem logs_downloadedSource (request : UrlRequest) :
    Logs (FetchesFirst lock name (dependencySpec dependency))
      (downloadedSource (.live P credentials) name request : Run φ Failure VendorSource) :=
  logs_bind (logs_mapError ((logs_urlFetch P _).mono fun _ => FetchesFirst.of_fetcher))
    fun _ _ _ _ => logs_pure _

end Fetching

theorem logs_resolveSource :
    Logs (FetchesFirst lock name (dependencySpec dependency))
      (resolveSource P (.live P credentials) workspace name dependency lock auth cosignPublicKey :
        Run φ Failure VendorSource) := by
  have hlog : ∀ pin signature,
      pin = (firstEntry lock name (dependencySpec dependency)).map
        (entryPin (dependencySpec dependency)) →
      signature = (firstEntry lock name (dependencySpec dependency)).bind
        (entrySignature (dependencySpec dependency)) →
      FetchesFirst lock name (dependencySpec dependency) (.fetch pin signature) := by
    rintro _ _ hpin hsignature _ _ ⟨⟩
    exact ⟨hpin, hsignature⟩
  unfold resolveSource
  split
  · exact logs_bind (logs_read _) fun _ _ _ _ => logs_pure _
  · rename_i hspec
    exact logs_bind (logs_log (hlog _ _ (by rw [hspec]; rfl) (by rw [hspec]; rfl)))
      fun _ _ _ _ => logs_pulledSource _ _ _
  · rename_i git tag rev hspec
    refine logs_bind (logs_log (hlog _ _ (by rw [hspec]; rfl) ?_))
      fun _ _ _ _ => logs_checkedOutSource _ _ _ _
    rw [hspec]
    cases firstEntry lock name (.git git tag rev) <;> rfl
  · exact logs_fail _
  · rename_i url hspec
    refine logs_bind (logs_log (hlog _ _ (by rw [hspec]; rfl) ?_))
      fun _ _ _ _ => logs_downloadedSource _ _ _
    rw [hspec]
    cases firstEntry lock name (.url url) <;> rfl

variable (P credentials lock name auth cosignPublicKey workspace) in
/-- A source with pins is fetched with what the first entry gives it. -/
theorem fetch_mem_resolveSource {start : String} (w : World φ)
    (hstart : sourceStart (dependencySpec dependency) = some start) :
    .fetch ((firstEntry lock name (dependencySpec dependency)).map
        (entryPin (dependencySpec dependency)))
      ((firstEntry lock name (dependencySpec dependency)).bind
        (entrySignature (dependencySpec dependency))) ∈
      (resolveSource P (.live P credentials) workspace name dependency lock auth cosignPublicKey
        w).2.trace := by
  unfold resolveSource
  cases hspec : dependencySpec dependency with
  | path _ | helm _ _ _ =>
    rw [hspec] at hstart
    cases hstart
  | oci oci version =>
    exact mem_log_bind (logs_pulledSource lock dependency _) w
  | git git tag rev =>
    have hnone : (firstEntry lock name (.git git tag rev)).bind
        (entrySignature (.git git tag rev)) = none := by
      cases firstEntry lock name (.git git tag rev) <;> rfl
    rw [hnone]
    exact mem_log_bind (logs_checkedOutSource lock dependency _ _) w
  | url url =>
    have hnone : (firstEntry lock name (.url url)).bind (entrySignature (.url url)) = none := by
      cases firstEntry lock name (.url url) <;> rfl
    rw [hnone]
    exact mem_log_bind (logs_downloadedSource lock dependency _) w

variable (credentials auth) (plan : Bool) in
/-- `vendor add` of a declared dependency, from the lock as it loads: what it passes to a fetch comes
    from entries for the source and version declared now exactly when the first entry of the name
    and kind is for these, or entries that are record the same. -/
theorem vendor_pins_iff {manifest : Manifest} {w : World φ}
    (hmanifest : loadManifest P workspace w.fs = .ok manifest)
    (hdeclared : declaredDependency manifest name = some dependency)
    (hkey : configuredCosignKey P workspace manifest w.fs = .ok cosignPublicKey)
    (hw : w.trace = []) :
    (∀ pin signature, .fetch pin signature ∈
      (vendorAdd P (.live P credentials) workspace name auth plan w).2.trace →
      FreshFetch (lockEntries ((loadLock P workspace w.fs).toOption.getD none)) name dependency
        pin signature) ↔
    FirstCurrent (lockEntries ((loadLock P workspace w.fs).toOption.getD none)) name dependency := by
  rw [vendorAdd_of_loaded _ _ _ hmanifest hdeclared hkey]
  generalize (loadLock P workspace w.fs).toOption.getD none = lock
  have hplace : ∀ source, Logs (FetchesFirst lock name (dependencySpec dependency))
      (placeVendored P workspace name dependency source plan : Run φ Failure VendorOutput) :=
    fun source => (logs_placeVendored P _ _ _ _ _).mono fun e he pin signature hfetch => by
      rw [hfetch] at he
      exact he.1.elim
  constructor
  · intro hfresh start hstart before first after hentries hname hsource hbefore
    have hfirst : firstEntry lock name (dependencySpec dependency) = some first := by
      rw [firstEntry, hstart, Option.bind_some]
      exact lockedEntry_eq_some.mpr ⟨before, after, hentries, hname, hsource, hbefore⟩
    have hmem := fetch_mem_resolveSource P credentials lock name auth cosignPublicKey workspace w
      hstart
    obtain ⟨hpin, hsignature⟩ := hfresh _ _ (mem_bind hmem hplace)
    rw [hfirst] at hpin hsignature
    exact Or.inr ⟨hpin _ rfl, hsignature⟩
  · intro hcurrent pin signature hfetch
    obtain ⟨rfl, rfl⟩ := (logs_bind logs_resolveSource fun source _ _ _ => hplace source).all hw _
      hfetch _ _ rfl
    rcases hfirst : firstEntry lock name (dependencySpec dependency) with _ | first
    · exact ⟨fun _ h => by simp at h, fun _ h => by simp at h⟩
    obtain ⟨start, hstart, hlocked⟩ := Option.bind_eq_some_iff.mp hfirst
    obtain ⟨before, after, hentries, hname, hsource, hbefore⟩ := lockedEntry_eq_some.mp hlocked
    have hmem : first ∈ lockEntries lock := hentries ▸ by simp
    rcases hcurrent start hstart before first after hentries hname hsource hbefore with h | h
    · refine ⟨fun digest hd => ⟨first, hmem, h, by simpa using hd⟩, fun reference hr => ?_⟩
      refine ⟨first, hmem, h, ?_⟩
      rw [Option.bind_some, entrySignature] at hr
      split at hr
      · exact hr
      · cases hr
    · refine ⟨fun digest hd => ?_, h.2⟩
      obtain rfl : entryPin (dependencySpec dependency) first = digest := by simpa using hd
      exact h.1

end Runs

/-! ### An edited version -/

/-- `web`, declared at `2`, with the entry and the cached tree of the version that was locked. -/
def cachedWorkspace (locked : String) : SampleWorkspace where
  dependencies := [("web", [("oci", "oci://r/web"), ("version", "2")])]
  lock := [[("name", "web"), ("version", locked), ("source", "oci://r/web"),
    ("digest", "sha256:01")]]
  files := [("h/.cache/akua/oci/sha256/01/k", "x")]
  env := [("HOME", "/h")]

def cachedDependency : Dependency where
  oci := some "oci://r/web"
  version := some "2"

def cachedManifest : Manifest where
  package := { name := "app", version := "0.1.0", edition := "akua.dev/v1alpha1" }
  signing := some {}
  dependencies := some (Table.ofList [("web", cachedDependency)])

def cachedEntry (locked : String) : LockedPackage where
  name := "web"
  version := locked
  source := "oci://r/web"
  digest := "sha256:01"

def cachedLock (locked : String) : Lock := { version := "1", package := some [cachedEntry locked] }

theorem loadManifest_cached (locked : String) : loadManifest (cachedWorkspace locked).host
    SampleWorkspace.root (cachedWorkspace locked).world.fs = .ok cachedManifest :=
  SampleWorkspace.loadManifest_eq.trans rfl

theorem loadLock_cached (locked : String) (h : validateLock (cachedWorkspace locked).host
    (lockDocument (cachedWorkspace locked).lock) ["ws", "akua.lock"] = .ok (cachedLock locked)) :
    loadLock (cachedWorkspace locked).host SampleWorkspace.root (cachedWorkspace locked).world.fs =
      .ok (some (cachedLock locked)) := by
  rw [SampleWorkspace.world, SampleWorkspace.loadLock_eq, h]
  rfl

theorem declared_cached : declaredDependency cachedManifest "web" = some cachedDependency := by
  decide

/-- Locked at `1`, `web` is fetched from the cache by the digest of `1`, and recorded as `2`. -/
theorem vendor_add_keeps_old_tree :
    loadManifest (cachedWorkspace "1").host SampleWorkspace.root (cachedWorkspace "1").world.fs =
      .ok cachedManifest ∧
    loadLock (cachedWorkspace "1").host SampleWorkspace.root (cachedWorkspace "1").world.fs =
      .ok (some (cachedLock "1")) ∧
    .fetch (some "sha256:01") none ∈ (vendorAdd (cachedWorkspace "1").host
      (cachedWorkspace "1").services SampleWorkspace.root "web" Table.empty false
      (cachedWorkspace "1").world).2.trace ∧
    ¬ FreshFetch (cachedLock "1").packages "web" cachedDependency (some "sha256:01") none ∧
    (vendorAdd (cachedWorkspace "1").host (cachedWorkspace "1").services SampleWorkspace.root "web"
      Table.empty false (cachedWorkspace "1").world).1.toOption.map (fun output =>
        (vendorLock (some (cachedLock "1")) "web" cachedDependency output.source
          output.digest).packages.map fun entry => (entry.version, entry.digest)) =
      some [("2", "sha256:01")] := by
  have hlock := loadLock_cached "1" (by decide +kernel)
  have hrun := vendorAdd_of_loaded (cachedWorkspace "1").services Table.empty false
    (loadManifest_cached "1") declared_cached rfl
  rw [hlock] at hrun
  refine ⟨loadManifest_cached _, hlock, ?_, ?_, ?_⟩
  · rw [hrun]
    decide +kernel
  · rintro ⟨hpin, -⟩
    obtain ⟨entry, hentry, ⟨-, -, hversion⟩, -⟩ := hpin _ rfl
    obtain rfl : entry = cachedEntry "1" := by simpa [cachedLock, Lock.packages] using hentry
    exact absurd hversion (by decide)
  · rw [hrun]
    decide +kernel

/-- Locked at `2`, it is fetched by a digest of `2`. -/
theorem vendor_pins_cached :
    FreshFetch (cachedLock "2").packages "web" cachedDependency (some "sha256:01") none := by
  have hlock := loadLock_cached "2" (by decide +kernel)
  have hrun := vendorAdd_of_loaded (cachedWorkspace "2").services Table.empty true
    (loadManifest_cached "2") declared_cached rfl
  rw [hlock] at hrun
  have hiff := vendor_pins_iff (.ok Table.empty) Table.empty true (loadManifest_cached "2")
    declared_cached rfl rfl
  rw [hlock] at hiff
  refine hiff.mpr ?_ _ _ ?_
  · intro start _ before first after hentries _ _ _
    have hfirst : first ∈ [cachedEntry "2"] := by
      have : first ∈ lockEntries (some (cachedLock "2")) := hentries ▸ by simp
      exact this
    rw [List.mem_singleton.mp hfirst]
    exact Or.inl ⟨rfl, rfl, rfl⟩
  · rw [SampleWorkspace.services] at hrun
    rw [hrun]
    decide +kernel

end Akua
