import Akua.Lib.LinkedPlaces
import Akua.RenderFrames

/-! Where a plugin's path leads. A relative path is taken from the Package's directory, an absolute one
    is for the charts that are resolved; links are followed, and what is not there yet is taken below
    the closest ancestor that is. A link that leads nowhere yet is not followed, and a `..` behind
    something missing is dropped. -/

namespace Akua.Rust

open LinkedDisk

variable {follow : Bool}

/-- The path is absolute, from the working directory; a Package that is given by its bare name has the
    empty path for a directory, which cannot be canonicalized. -/
def RenderStack.currentPackageDir (stack : RenderStack) : Option FilePath :=
  stack.head?.bind fun frame =>
    if components frame.package = [] then none else some (components frame.package).dropLast

def RenderStack.currentAllowedRoots (stack : RenderStack) : List FilePath :=
  ((stack.head?.map RenderFrame.allowedRoots).getD []).map components

def RenderStack.currentStrict (stack : RenderStack) : Bool := (stack.head?.map RenderFrame.strict).getD false

inductive PathError where
  | escape (requested : String) (resolved packageDir : FilePath)
  | absoluteDisallowed (path : String)
  | strictRequiresTypedImport (path : String)
  | noRenderScope
  | io (path : FilePath) (source : PlatformError)

/-- `std::fs::canonicalize`. -/
def canonicalize (disk : LinkedDisk follow) (path : FilePath) : Except PlatformError FilePath :=
  Prod.fst <$> disk.find path

/-- An empty component behind a path that ends in a slash or in `.`: there the system asks for a directory.
    Before other components it asks for one anyway. -/
def slashBehind (path : String) : List String :=
  if (Text.split path '/').getLast?.any fun c => c = "" ∨ c = "." then [""] else []

/-- `canon.join(tail)`: with an empty tail it ends in a slash. -/
def joinTail (canon : FilePath) (tail : List String) : FilePath := canon ++ if tail = [] then [""] else tail

/-- Up the ancestors to the first that canonicalizes; `names` are what is left of the path, the last one
    first, and `file_name` is none for `..`. -/
def closestAncestor (disk : LinkedDisk follow) : List String → List String → Option FilePath
  | [], _ => none
  | name :: parent, tail =>
    let tail := if name = ".." then tail else name :: tail
    match canonicalize disk parent.reverse with
    | .ok canon => some (joinTail canon tail)
    | .error _ => closestAncestor disk parent tail

/-- The path has the components `names`, and maybe a slash behind. -/
def canonicalizeBestEffort (disk : LinkedDisk follow) (names slash : List String) : Except PlatformError FilePath :=
  match canonicalize disk (names ++ slash) with
  | .ok canon => .ok canon
  | .error error =>
    match closestAncestor disk names.reverse [] with
    | some path => .ok path
    | none => .error error

/-- `path.starts_with(root)`, by components. -/
def startsWith (path root : FilePath) : Bool := root.isPrefixOf (components path)

def resolveInPackage (disk : LinkedDisk follow) (stack : RenderStack) (path : String) : Except PathError FilePath :=
  match stack.currentPackageDir with
  | none => .error .noRenderScope
  | some packageDir =>
    if FilePath.isAbsolute path then
      match canonicalizeBestEffort disk (FilePath.segments path) (slashBehind path) with
      | .error error => .error (.io (FilePath.segments path) error)
      | .ok canon =>
        if stack.currentAllowedRoots.any (startsWith canon) then .ok canon else .error (.absoluteDisallowed path)
    else if stack.currentStrict then .error (.strictRequiresTypedImport path)
    else
      match canonicalize disk packageDir with
      | .error error => .error (.io packageDir error)
      | .ok pkgCanon =>
        match canonicalizeBestEffort disk (packageDir ++ FilePath.segments path) (slashBehind path) with
        | .error error => .error (.io (packageDir ++ FilePath.segments path) error)
        | .ok resolved =>
          if startsWith resolved pkgCanon then .ok resolved else .error (.escape path resolved pkgCanon)

/-! ### Confinement -/

/-- The requested path joined to the Package's directory. -/
def joinedPath (stack : RenderStack) (path : String) : FilePath :=
  (if FilePath.isAbsolute path then FilePath.segments path
    else stack.currentPackageDir.getD [] ++ FilePath.segments path) ++ slashBehind path

/-- The Package's directory and the allowed roots. -/
def confines (stack : RenderStack) : List FilePath := stack.currentPackageDir.toList ++ stack.currentAllowedRoots

/-- In the place of one of the roots, or below it. -/
def InRoots (disk : LinkedDisk follow) (roots : List FilePath) (real : FilePath) : Prop :=
  ∃ root ∈ roots, ∃ base, disk.place MAX_LINKS [] root = some base ∧ base <+: real

/-- The answer leads into one of the roots, if anywhere, and to where the requested path leads. -/
structure Confined (disk : LinkedDisk follow) (roots : List FilePath) (requested answer : FilePath) : Prop where
  inside : ∀ real, disk.place MAX_LINKS [] answer = some real → InRoots disk roots real
  same : disk.place MAX_LINKS [] answer = disk.place MAX_LINKS [] requested

/-- The path can be followed to `real`, where it is no further than the component `c`. -/
structure Stops (disk : LinkedDisk follow) (path : FilePath) (real : FilePath) (left : Nat) (c : String)
    (rest : List String) (before : FilePath) : Prop where
  split : path = before ++ c :: rest
  found : disk.resolve MAX_LINKS [] before = .ok (real, left)
  stuck : ∀ found, disk.resolve MAX_LINKS [] (before ++ [c]) ≠ .ok found

/-- The names of a tail: `file_name` drops a `..`, and a slash is no component. -/
def names (tail : List String) : List String := (components tail).filter (· ≠ "..")

/-- A path that stops at `c` in `real` is safe: not for a slash behind a file; below a file; where nothing
    is there and nothing goes up later; or at a link that leads into a root, or nowhere whatever is dropped. -/
def SafeStop (disk : LinkedDisk follow) (roots : List FilePath) (real : FilePath) (left : Nat) (c : String)
    (rest : List String) : Prop :=
  c ≠ "" ∧ (disk.at? real ≠ some .directory ∨
    (disk.at? (real ++ [c]) = none ∧ ".." ∉ rest) ∨
    (∃ target, disk.at? (real ++ [c]) = some (.link target)) ∧
      ((∃ place, disk.place left real (c :: rest) = some place ∧ InRoots disk roots place) ∨
        (disk.place left real (c :: rest) = none ∧ disk.place MAX_LINKS real (c :: names rest) = none)))

/-- The path can be followed, or is safe where it stops. -/
def Safe (disk : LinkedDisk follow) (roots : List FilePath) (path : FilePath) : Prop :=
  ∀ real left c rest before, Stops disk path real left c rest before → SafeStop disk roots real left c rest

variable {disk : LinkedDisk follow} {roots : List FilePath}

theorem canonicalize_ok {path real : FilePath} :
    canonicalize disk path = .ok real ↔ ∃ left, disk.resolve MAX_LINKS [] path = .ok (real, left) := by
  have hfind : canonicalize disk path = .ok real ↔ ∃ node, disk.find path = .ok (real, node) := by
    rw [canonicalize]
    cases hfound : disk.find path with
    | error error => exact iff_of_false (fun h => by cases h) fun ⟨_, h⟩ => by cases h
    | ok found =>
      obtain ⟨r, node⟩ := found
      constructor
      · intro h
        cases h
        exact ⟨node, rfl⟩
      · rintro ⟨node', h⟩
        cases h
        rfl
  rw [hfind]
  constructor
  · rintro ⟨node, h⟩
    exact (find_ok.mp h).1
  · rintro ⟨left, h⟩
    obtain ⟨node, hnode, -⟩ := isReal_of_resolve isReal_root h
    exact ⟨node, find_ok.mpr ⟨⟨left, h⟩, hnode⟩⟩

/-- A path is followed as far as each of its beginnings. -/
theorem resolve_before {a b : List String} {found : FilePath × Nat} (h : disk.resolve MAX_LINKS [] (a ++ b) = .ok found) :
    ∃ found', disk.resolve MAX_LINKS [] a = .ok found' := by
  rw [resolve_append] at h
  cases ha : disk.resolve MAX_LINKS [] a with
  | error error =>
    rw [ha] at h
    cases h
  | ok found' => exact ⟨found', rfl⟩

/-- A path that stops does so at one component. -/
theorem Stops.unique {path real real' before before' : FilePath} {left left' : Nat} {c c' : String} {rest rest' : List String}
    (h : Stops disk path real left c rest before) (h' : Stops disk path real' left' c' rest' before') :
    real' = real ∧ left' = left ∧ c' = c ∧ rest' = rest ∧ before' = before := by
  have hle : ∀ {real real' before before' : FilePath} {left left' : Nat} {c c' : String} {rest rest' : List String},
      Stops disk path real left c rest before → Stops disk path real' left' c' rest' before' →
        before.length ≤ before'.length := by
    intro real real' before before' left left' c c' rest rest' h h'
    by_contra hlt
    have hprefix : before' ++ [c'] <+: before := by
      refine List.prefix_of_prefix_length_le (show before' ++ [c'] <+: path from ?_) ⟨c :: rest, h.split.symm⟩ ?_
      · exact ⟨rest', by rw [h'.split]; simp⟩
      · rw [List.length_append, List.length_singleton]
        omega
    obtain ⟨more, rfl⟩ := hprefix
    obtain ⟨found, hfound⟩ := resolve_before h.found
    exact h'.stuck found hfound
  have hlength : before.length = before'.length := Nat.le_antisymm (hle h h') (hle h' h)
  obtain ⟨rfl, htail⟩ := List.append_inj (h.split.symm.trans h'.split) hlength
  obtain ⟨rfl, rfl⟩ := List.cons.inj htail
  have hfound := h.found.symm.trans h'.found
  cases hfound
  exact ⟨rfl, rfl, rfl, rfl, rfl⟩

/-- The answer: names below the closest ancestor, which stops the climb. -/
theorem closestAncestor_spec {path tail answer : List String} (h : closestAncestor disk path.reverse tail = some answer) :
    ∃ before c rest real left, path = before ++ c :: rest ∧ disk.resolve MAX_LINKS [] before = .ok (real, left) ∧
      (rest ≠ [] → ∀ found, disk.resolve MAX_LINKS [] (before ++ [c]) ≠ .ok found) ∧
      answer = joinTail real ((c :: rest).filter (· ≠ "..") ++ tail) := by
  induction path using List.reverseRecOn generalizing tail with
  | nil => cases h
  | append_singleton path name ih =>
    rw [List.reverse_append, List.reverse_singleton, List.singleton_append, closestAncestor, List.reverse_reverse] at h
    split at h
    · rename_i canon hcanon
      cases h
      obtain ⟨left, hleft⟩ := canonicalize_ok.mp hcanon
      refine ⟨path, name, [], canon, left, rfl, hleft, fun h => absurd rfl h, ?_⟩
      by_cases hup : name = ".."
      · simp [hup]
      · simp [hup]
    · rename_i error herror
      obtain ⟨before, c, rest, real, left, hsplit, hbefore, hstuck, hanswer⟩ := ih h
      subst hsplit
      refine ⟨before, c, rest ++ [name], real, left, by simp, hbefore, fun _ found hfound => ?_, ?_⟩
      · by_cases hrest : rest = []
        · subst hrest
          rw [canonicalize_ok.mpr ⟨found.2, hfound⟩] at herror
          cases herror
        · exact hstuck hrest found hfound
      · have hname : (if name = ".." then tail else name :: tail) = [name].filter (· ≠ "..") ++ tail := by
          split
          · rename_i hup
            simp [hup]
          · rename_i hup
            simp [hup]
        rw [hanswer, hname, ← List.append_assoc, ← List.filter_append, List.cons_append]

/-! ### Answers -/

/-- What stands at a followed path is a file or a directory with plain components. -/
theorem components_real {path real : FilePath} {left : Nat} (h : disk.resolve MAX_LINKS [] path = .ok (real, left)) :
    components real = real := by
  obtain ⟨node, hnode, -⟩ := isReal_of_resolve isReal_root h
  by_cases hne : real = []
  · rw [hne]
    rfl
  · refine List.filter_eq_self.mpr fun c hc => ?_
    have hplain := (disk.plain real (mem_keys_of_at? hnode hne) c hc).1
    simpa using ⟨hplain.1, hplain.2.1⟩

/-- A file or a directory is in its own place. -/
theorem place_real {real : FilePath} (h : disk.IsReal real) (rest : List String) :
    disk.place MAX_LINKS [] (real ++ rest) = disk.place MAX_LINKS real rest := by
  have hresolve : disk.resolve MAX_LINKS [] ([] ++ real) = .ok ([] ++ real, MAX_LINKS) := resolve_real h
  exact place_of_resolve rest _ _ _ hresolve

/-- What begins a real path is real. -/
theorem isReal_above {base real : FilePath} (h : base <+: real) (hreal : disk.IsReal real) : disk.IsReal base := by
  by_cases he : base = real
  · rwa [he]
  · obtain ⟨node, hnode, -⟩ := hreal
    exact isReal_of_directory (at?_above h he hnode)

/-- A root by its own components is in the roots' places, where it is in its own. -/
def Root (disk : LinkedDisk follow) (roots : List FilePath) (base : FilePath) : Prop :=
  disk.place MAX_LINKS [] base = some base → ∀ real, base <+: real → InRoots disk roots real

/-- A path that can be followed is answered with where it leads. -/
theorem confined_of_found {path real base : FilePath} {left : Nat} (h : disk.resolve MAX_LINKS [] path = .ok (real, left))
    (hroot : Root disk roots base) (hbase : base <+: real) : Confined disk roots path real := by
  have hreal := isReal_of_resolve isReal_root h
  have hplace : disk.place MAX_LINKS [] real = some real := by
    have hself := place_real hreal []
    rwa [List.append_nil, place_nil] at hself
  have hbaseReal := isReal_above hbase hreal
  have hbasePlace : disk.place MAX_LINKS [] base = some base := by
    have hself := place_real hbaseReal []
    rwa [List.append_nil, place_nil] at hself
  refine ⟨fun place hp => ?_, ?_⟩
  · obtain rfl : real = place := Option.some.inj (hplace.symm.trans hp)
    exact hroot hbasePlace real hbase
  · have hpath : disk.place MAX_LINKS [] (path ++ []) = disk.place left real [] := place_of_resolve _ _ _ _ h
    rw [List.append_nil, place_nil] at hpath
    rw [hplace, hpath]

theorem names_eq {rest slash : List String} (hrest : components rest = rest) (hslash : slash = [] ∨ slash = [""]) :
    names (rest ++ slash) = rest.filter (· ≠ "..") := by
  have hnone : components slash = [] := by
    rcases hslash with rfl | rfl <;> rfl
  rw [names, components_append, hrest, hnone, List.append_nil]

theorem filter_names {rest : List String} (h : ".." ∉ rest) : rest.filter (· ≠ "..") = rest :=
  List.filter_eq_self.mpr fun c hc => by simpa using fun he : c = ".." => h (he ▸ hc)

/-- Below a directory, behind something missing. -/
theorem place_below {real : FilePath} {c : String} {rest : List String} (hdir : disk.at? real = some .directory)
    (hmissing : disk.at? (real ++ [c]) = none) (hc : c ≠ "" ∧ c ≠ "." ∧ c ≠ "..") (links : Nat) :
    disk.place links real (c :: rest) = disk.place links (real ++ [c]) rest := by
  rw [place_directory_cons hdir, if_neg (not_or.mpr ⟨hc.1, hc.2.1⟩), if_neg hc.2.2, hmissing]

/-- A beginning of a path is in its own place, where the path goes on behind something missing. -/
theorem place_base {real base : FilePath} {c : String} {rest : List String} (hdir : disk.at? real = some .directory)
    (hmissing : disk.at? (real ++ [c]) = none) (hc : c ≠ "" ∧ c ≠ "." ∧ c ≠ "..") (hrest : components rest = rest)
    (hup : ".." ∉ rest) (hbase : base <+: real ++ c :: rest) : disk.place MAX_LINKS [] base = some base := by
  rcases List.prefix_or_prefix_of_prefix hbase (List.prefix_append real _) with hbase | ⟨more, rfl⟩
  · have hself := place_real (isReal_above hbase (isReal_of_directory hdir)) []
    rwa [List.append_nil, place_nil] at hself
  · have hmore := (List.prefix_append_right_inj real).mp hbase
    rw [place_real (isReal_of_directory hdir)]
    cases more with
    | nil => rw [place_nil, List.append_nil]
    | cons d more =>
      obtain ⟨rfl, hrests⟩ := List.cons_prefix_cons.mp hmore
      have hclean : components more = more := by
        refine List.filter_eq_self.mpr fun x hx => ?_
        have hx := hrests.subset hx
        rw [← hrest] at hx
        exact (List.mem_filter.mp hx).2
      rw [place_below hdir hmissing hc, place_missing hmissing fun h => hup (hrests.subset h), hclean, List.append_assoc,
        List.singleton_append]

/-- A path that stops at a component that is missing, a link, or below a file. -/
theorem confined_of_stop {path real before base : FilePath} {left : Nat} {c : String} {rest slash : List String}
    (hstop : Stops disk path real left c (rest ++ slash) before) (hc : c ≠ "" ∧ c ≠ ".") (hrest : components rest = rest)
    (hslash : slash = [] ∨ slash = [""]) (hroot : Root disk roots base)
    (hbase : base <+: components (joinTail real ((c :: rest).filter (· ≠ "..")))) :
    Confined disk roots path (joinTail real ((c :: rest).filter (· ≠ ".."))) ↔
      SafeStop disk roots real left c (rest ++ slash) := by
  have hreal := isReal_of_resolve isReal_root hstop.found
  have hpath : disk.place MAX_LINKS [] path = disk.place left real (c :: (rest ++ slash)) := by
    rw [hstop.split]
    exact place_of_resolve _ _ _ _ hstop.found
  have hanswer : disk.place MAX_LINKS [] (joinTail real ((c :: rest).filter (· ≠ ".."))) =
      disk.place MAX_LINKS real (if (c :: rest).filter (· ≠ "..") = [] then [""] else (c :: rest).filter (· ≠ "..")) :=
    place_real hreal _
  by_cases hdir : disk.at? real = some .directory
  swap
  · -- nothing is below a file
    have hthere : disk.at? real ≠ none := by
      obtain ⟨node, hnode, -⟩ := hreal
      rw [hnode]
      simp
    have hnowhere : disk.place MAX_LINKS [] (joinTail real ((c :: rest).filter (· ≠ ".."))) = none := by
      rw [hanswer]
      split
      · exact place_file_cons hthere hdir _ _
      · rename_i hne
        obtain ⟨d, more, hmore⟩ := List.exists_cons_of_ne_nil hne
        rw [hmore]
        exact place_file_cons hthere hdir _ _
    refine iff_of_true ⟨fun place hplace => ?_, ?_⟩ ⟨hc.1, .inl hdir⟩
    · rw [hnowhere] at hplace
      cases hplace
    · rw [hnowhere, hpath, place_file_cons hthere hdir]
  have hstuck : ∀ found, disk.resolve left real [c] ≠ .ok found := by
    intro found hfound
    refine hstop.stuck found ?_
    rw [resolve_append, hstop.found]
    exact hfound
  have hname : c ≠ "" ∧ c ≠ "." ∧ c ≠ ".." := by
    refine ⟨hc.1, hc.2, ?_⟩
    rintro rfl
    refine hstuck (real.dropLast, left) ?_
    rw [resolve_cons, if_neg (not_not.mpr hdir), if_neg (by decide), if_pos rfl, resolve_nil]
  have htail : (c :: rest).filter (· ≠ "..") = c :: rest.filter (· ≠ "..") :=
    List.filter_cons_of_pos (by simpa using hname.2.2)
  rw [htail] at hanswer hbase ⊢
  rw [if_neg (List.cons_ne_nil _ _)] at hanswer
  have hmem : ".." ∈ rest ++ slash ↔ ".." ∈ rest := by
    rcases hslash with rfl | rfl <;> simp
  rcases hnode : disk.at? (real ++ [c]) with _ | _ | _ | target
  · by_cases hup : ".." ∈ rest
    · -- the answer is somewhere, and the path goes up from what is missing
      refine iff_of_false (fun h => ?_) (fun h => ?_)
      · have hsame := h.same
        have hnames : ".." ∉ rest.filter (· ≠ "..") := by simp
        rw [hanswer, hpath, place_below hdir hnode hname, place_below hdir hnode hname, place_missing hnode hnames,
          place_missing_up hnode (hmem.mpr hup)] at hsame
        cases hsame
      · rcases h.2 with hfile | ⟨-, hdown⟩ | ⟨⟨target, hlink⟩, -⟩
        · exact hfile hdir
        · exact hdown (hmem.mpr hup)
        · rw [hnode] at hlink
          cases hlink
    · have hplace : disk.place MAX_LINKS real (c :: rest) = some (real ++ c :: rest) := by
        rw [place_below hdir hnode hname, place_missing hnode hup, hrest, List.append_assoc, List.singleton_append]
      rw [filter_names hup] at hanswer hbase ⊢
      rw [hplace] at hanswer
      have hbase : base <+: real ++ c :: rest := by
        rwa [joinTail, if_neg (List.cons_ne_nil _ _), components_append, components_real hstop.found,
          components_cons_name (not_or.mpr hc), hrest] at hbase
      refine iff_of_true ⟨fun place hp => ?_, ?_⟩ ⟨hc.1, .inr (.inl ⟨hnode, fun h => hup (hmem.mp h)⟩)⟩
      · obtain rfl := Option.some.inj (hanswer.symm.trans hp)
        exact hroot (place_base hdir hnode hname hrest hup hbase) _ hbase
      · rw [hanswer, hpath, place_below hdir hnode hname, place_missing hnode fun h => hup (hmem.mp h), components_append,
          hrest]
        rcases hslash with rfl | rfl <;> simp [components]
  · refine absurd ?_ (hstuck (real ++ [c], left))
    rw [resolve_cons, if_neg (not_not.mpr hdir), if_neg (not_or.mpr hc), if_neg hname.2.2, hnode]
    exact resolve_nil
  · refine absurd ?_ (hstuck (real ++ [c], left))
    rw [resolve_cons, if_neg (not_not.mpr hdir), if_neg (not_or.mpr hc), if_neg hname.2.2, hnode]
    exact resolve_nil
  · have hnames := names_eq hrest hslash
    constructor
    · intro h
      refine ⟨hc.1, .inr (.inr ⟨⟨target, hnode⟩, ?_⟩)⟩
      have hsame := h.same
      rw [hpath] at hsame
      rcases hplace : disk.place left real (c :: (rest ++ slash)) with _ | place
      · refine .inr ⟨rfl, ?_⟩
        rw [hnames, ← hanswer, hsame, hplace]
      · exact .inl ⟨place, rfl, h.inside place (hsame.trans hplace)⟩
    · rintro ⟨-, hfile | ⟨hnone, -⟩ | ⟨-, ⟨place, hplace, hinside⟩ | ⟨hplace, hnowhere⟩⟩⟩
      · exact absurd hdir hfile
      · rw [hnode] at hnone
        cases hnone
      · have hup : ".." ∉ rest := by
          intro hup
          have hnone : disk.place left real ([c] ++ (rest ++ slash)) = none :=
            place_of_error (hmem.mpr hup) left real [c] hreal hstuck
          rw [List.singleton_append, hplace] at hnone
          cases hnone
        have hclean := place_clean (links_of_resolve _ _ _ hstop.found) hplace
        have hcomponents : components (c :: (rest ++ slash)) = c :: rest := by
          rw [components_cons_name (not_or.mpr hc), components_append, hrest]
          rcases hslash with rfl | rfl <;> simp [components]
        rw [hcomponents] at hclean
        rw [filter_names hup] at hanswer ⊢
        rw [hclean] at hanswer
        refine ⟨fun other hother => ?_, by rw [hanswer, hpath, hplace]⟩
        obtain rfl := Option.some.inj (hanswer.symm.trans hother)
        exact hinside
      · rw [hnames, ← hanswer] at hnowhere
        refine ⟨fun other hother => ?_, by rw [hnowhere, hpath, hplace]⟩
        rw [hnowhere] at hother
        cases hother

/-- A followed path has no stop. -/
theorem safe_of_found {path : FilePath} {found : FilePath × Nat} (h : disk.resolve MAX_LINKS [] path = .ok found) :
    Safe disk roots path := by
  intro real left c rest before hstop
  have hpath : path = (before ++ [c]) ++ rest := by rw [hstop.split]; simp
  rw [hpath] at h
  obtain ⟨found', hfound⟩ := resolve_before h
  exact absurd hfound (hstop.stuck found')

/-- A slash behind a file: the answer is the file, and the path leads nowhere. -/
theorem not_confined_of_slash {before real r : FilePath} {left last : Nat} {c : String}
    (hbefore : disk.resolve MAX_LINKS [] before = .ok (real, left)) (hc : c ≠ "" ∧ c ≠ ".")
    (hfound : disk.resolve left real [c] = .ok (r, last)) (hfile : disk.at? r ≠ some .directory) :
    ¬ Confined disk roots (before ++ [c] ++ [""]) (joinTail real ([c].filter (· ≠ ".."))) := by
  have hreal := isReal_of_resolve isReal_root hbefore
  have hr := isReal_of_resolve hreal hfound
  have hup : c ≠ ".." := by
    rintro rfl
    rw [resolve_cons] at hfound
    split at hfound
    · cases hfound
    · rename_i hdir
      rw [if_neg (by decide), if_pos rfl, resolve_nil] at hfound
      cases hfound
      rcases List.eq_nil_or_concat real with rfl | ⟨init, name, rfl⟩
      · exact hfile rfl
      · rw [List.concat_eq_append, not_not] at hdir
        refine hfile ?_
        rw [List.concat_eq_append, List.dropLast_concat]
        exact directory_of_entry hdir
  intro h
  have hsame := h.same
  have hpath : disk.resolve MAX_LINKS [] (before ++ [c]) = .ok (r, last) := by
    rw [resolve_append, hbefore]
    exact hfound
  have hnowhere : disk.place MAX_LINKS [] (before ++ [c] ++ [""]) = none := by
    rw [place_of_resolve _ _ _ _ hpath]
    obtain ⟨node, hnode, -⟩ := hr
    exact place_file_cons (by rw [hnode]; simp) hfile _ _
  have hplace : disk.place left real [c] = some r := by
    have hplace : disk.place left real ([c] ++ []) = disk.place last r [] := place_of_resolve _ _ _ _ hfound
    rwa [List.append_nil, place_nil] at hplace
  have hanswer := place_clean (links_of_resolve _ _ _ hbefore) hplace
  rw [components_cons_name (not_or.mpr hc), components, List.filter_nil] at hanswer
  have htail : [c].filter (· ≠ "..") = [c] := List.filter_cons_of_pos (by simpa using hup)
  rw [hnowhere, htail, joinTail, if_neg (List.cons_ne_nil _ _), place_real hreal, hanswer] at hsame
  cases hsame

/-- The answer for a path is right just when the path is safe. -/
theorem bestEffort_confined_iff {path slash answer base : FilePath} (hclean : components path = path)
    (hslash : slash = [] ∨ slash = [""]) (h : canonicalizeBestEffort disk path slash = .ok answer)
    (hroot : Root disk roots base) (hbase : base <+: components answer) :
    Confined disk roots (path ++ slash) answer ↔ Safe disk roots (path ++ slash) := by
  rw [canonicalizeBestEffort] at h
  split at h
  · rename_i canon hcanon
    cases h
    obtain ⟨left, hleft⟩ := canonicalize_ok.mp hcanon
    rw [components_real hleft] at hbase
    exact iff_of_true (confined_of_found hleft hroot hbase) (safe_of_found hleft)
  rename_i error herror
  split at h
  swap
  · cases h
  rename_i answer' hanswer
  cases h
  have hfails : ∀ found, disk.resolve MAX_LINKS [] (path ++ slash) ≠ .ok found := by
    intro found hfound
    rw [canonicalize_ok.mpr ⟨found.2, hfound⟩] at herror
    cases herror
  obtain ⟨before, c, rest, real, left, rfl, hbefore, hstuck, rfl⟩ := closestAncestor_spec hanswer
  rw [List.append_nil] at hbase ⊢
  have hnames : (c ≠ "" ∧ c ≠ ".") ∧ components rest = rest := by
    have hall := List.filter_eq_self.mp hclean
    refine ⟨by simpa using hall c (by simp), List.filter_eq_self.mpr fun d hd => hall d ?_⟩
    exact List.mem_append_right _ (List.mem_cons_of_mem _ hd)
  by_cases hlast : ∃ found, disk.resolve MAX_LINKS [] (before ++ [c]) = .ok found
  · obtain ⟨⟨r, last⟩, hfound⟩ := hlast
    obtain rfl : rest = [] := by
      by_contra hrest
      exact hstuck hrest _ hfound
    obtain rfl : slash = [""] := by
      refine hslash.resolve_left ?_
      rintro rfl
      rw [List.append_nil] at hfails
      exact hfails _ hfound
    have hfile : disk.at? r ≠ some .directory := by
      intro hdir
      refine hfails (r, last) ?_
      rw [resolve_append, hfound]
      show disk.resolve last r [""] = _
      rw [resolve_cons, if_neg (not_not.mpr hdir), if_pos (.inl rfl), resolve_nil]
    have hstep : disk.resolve left real [c] = .ok (r, last) := by
      rw [resolve_append, hbefore] at hfound
      exact hfound
    refine iff_of_false (not_confined_of_slash hbefore hnames.1 hstep hfile) fun hsafe => ?_
    exact (hsafe r last "" [] (before ++ [c]) ⟨rfl, hfound, fun found => hfails found⟩).1 rfl
  · have hstop : Stops disk (before ++ c :: rest ++ slash) real left c (rest ++ slash) before :=
      ⟨by simp, hbefore, fun found hfound => hlast ⟨found, hfound⟩⟩
    rw [confined_of_stop hstop hnames.1 hnames.2 hslash hroot hbase]
    constructor
    · intro hsafe real' left' c' rest' before' hstop'
      obtain ⟨rfl, rfl, rfl, rfl, rfl⟩ := hstop.unique hstop'
      exact hsafe
    · intro hsafe
      exact hsafe real left c _ before hstop

theorem slashBehind_cases (path : String) : slashBehind path = [] ∨ slashBehind path = [""] := by
  rw [slashBehind]
  split
  · exact .inr rfl
  · exact .inl rfl

theorem components_packageDir {stack : RenderStack} {packageDir : FilePath} (h : stack.currentPackageDir = some packageDir) :
    components packageDir = packageDir := by
  obtain ⟨frame, -, h⟩ := Option.bind_eq_some_iff.mp h
  split at h
  · cases h
  · cases h
    refine List.filter_eq_self.mpr fun c hc => ?_
    exact (List.mem_filter.mp (List.dropLast_subset _ hc)).2

/-- What is returned is confined, and what was asked for, just when the joined path is safe. -/
theorem resolve_in_package_confined_iff {stack : RenderStack} {path : String} {answer : FilePath}
    (h : resolveInPackage disk stack path = .ok answer) :
    Confined disk (confines stack) (joinedPath stack path) answer ↔ Safe disk (confines stack) (joinedPath stack path) := by
  rw [resolveInPackage] at h
  split at h
  · cases h
  rename_i packageDir hpackageDir
  rw [joinedPath]
  split at h
  · rename_i habsolute
    rw [if_pos habsolute]
    split at h
    · cases h
    · rename_i canon hcanon
      split at h
      · rename_i hallowed
        cases h
        obtain ⟨root, hroot, hstarts⟩ := List.any_eq_true.mp hallowed
        have hprefix : root <+: components answer := List.isPrefixOf_iff_prefix.mp hstarts
        refine bestEffort_confined_iff (components_segments path) (slashBehind_cases path) hcanon ?_ hprefix
        intro hplace real hreal
        exact ⟨root, List.mem_append_right _ hroot, root, hplace, hreal⟩
      · cases h
  · rename_i habsolute
    rw [if_neg habsolute, hpackageDir, Option.getD_some]
    split at h
    · cases h
    split at h
    · cases h
    rename_i pkgCanon hcanonical
    split at h
    · cases h
    rename_i resolved hresolved
    split at h
    · rename_i hstarts
      cases h
      have hclean : components (packageDir ++ FilePath.segments path) = packageDir ++ FilePath.segments path := by
        rw [components_append, components_packageDir hpackageDir, components_segments]
      have hprefix : pkgCanon <+: components answer := List.isPrefixOf_iff_prefix.mp hstarts
      refine bestEffort_confined_iff hclean (slashBehind_cases path) hresolved ?_ hprefix
      intro _ real hreal
      obtain ⟨left, hleft⟩ := canonicalize_ok.mp hcanonical
      have hplace : disk.place MAX_LINKS [] (packageDir ++ []) = disk.place left pkgCanon [] :=
        place_of_resolve _ _ _ _ hleft
      rw [List.append_nil, place_nil] at hplace
      exact ⟨packageDir, List.mem_append_left _ (by rw [hpackageDir]; exact List.mem_singleton_self _), pkgCanon, hplace,
        hreal⟩
    · cases h

/-- A Package in `/pkg` that may use the chart in `/charts/web`; its link `link` leads to `/outside/new`,
    where nothing is yet. -/
def linkedDisk : LinkedDisk false where
  nodes := .ofList [(["pkg"], .directory), (["pkg", "link"], .link "/outside/new"), (["outside"], .directory),
    (["charts"], .directory), (["charts", "web"], .directory)]
  rooted := by decide
  plain := by decide
  short := by decide

def linkedStack : RenderStack := [⟨["pkg", "package.k"], [["charts", "web"]], false, {}, .empty, {}⟩]

/-- A file that is to be written into the Package's directory. -/
theorem new_file_confined :
    resolveInPackage linkedDisk linkedStack "out/new.yaml" = .ok ["pkg", "out", "new.yaml"] ∧
      Confined linkedDisk (confines linkedStack) ["pkg", "out", "new.yaml"] ["pkg", "out", "new.yaml"] := by
  have hanswer : resolveInPackage linkedDisk linkedStack "out/new.yaml" = .ok ["pkg", "out", "new.yaml"] := by rfl
  refine ⟨hanswer, (resolve_in_package_confined_iff hanswer).mpr ?_⟩
  intro real left c rest before hstop
  have hout : Stops linkedDisk ["pkg", "out", "new.yaml"] ["pkg"] MAX_LINKS "out" ["new.yaml"] ["pkg"] := by
    refine ⟨rfl, rfl, fun found hfound => ?_⟩
    cases hfound
  obtain ⟨rfl, rfl, rfl, rfl, rfl⟩ := hout.unique hstop
  exact ⟨by decide, .inr (.inl ⟨rfl, by decide⟩)⟩

/-- The link is returned, and leads out of the Package and of every root. -/
theorem dangling_link_escapes :
    resolveInPackage linkedDisk linkedStack "link" = .ok ["pkg", "link"] ∧
      linkedDisk.place MAX_LINKS [] ["pkg", "link"] = some ["outside", "new"] ∧
      ¬ Confined linkedDisk (confines linkedStack) (joinedPath linkedStack "link") ["pkg", "link"] := by
  refine ⟨by rfl, by rfl, fun h => ?_⟩
  obtain ⟨root, hroot, base, hbase, hprefix⟩ := h.inside ["outside", "new"] (by rfl)
  have hroots : confines linkedStack = [["pkg"], ["charts", "web"]] := by rfl
  rw [hroots, List.mem_cons, List.mem_singleton] at hroot
  rcases hroot with rfl | rfl <;> cases hbase <;> exact absurd hprefix (by decide)

end Akua.Rust
