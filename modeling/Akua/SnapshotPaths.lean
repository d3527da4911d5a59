import Akua.KustomizeTree

/-! Paths inside a snapshot. A path is refused when it is absolute, or when some beginning of it has more
    `..` than names; what it resolves to is made of names, and the files under it are those whose keys go
    on from there. -/

namespace Akua

/-! ### Climbing out -/

/-- The segment names an entry. -/
def isName (segment : String) : Bool := segment ≠ "" && segment ≠ "." && segment ≠ ".."

/-- Some beginning of the segments leads above a directory that is `depth` levels down. -/
def Climbs (depth : Nat) (segments : List String) : Prop :=
  ∃ p, p <+: segments ∧ depth + p.countP isName < p.count ".."

/-- The path begins at the root of the file system. -/
def Absolute (requested : String) : Prop := Text.startsWith requested "/"

/-- The segments of a path inside a snapshot; the root has none. -/
def pathSegments (path : String) : List String := if path = "" then [] else Text.split path '/'

/-- A step that does not climb leaves the rest of the way. -/
theorem climbs_cons {depth after : Nat} {s : String} {segments : List String}
    (h : ∀ p : List String, depth + (s :: p).countP isName < (s :: p).count ".." ↔
      after + p.countP isName < p.count "..") : Climbs depth (s :: segments) ↔ Climbs after segments := by
  constructor
  · rintro ⟨p, hp, hlt⟩
    cases p with
    | nil => simp at hlt
    | cons t p =>
      obtain ⟨rfl, hrest⟩ := List.cons_prefix_cons.mp hp
      exact ⟨p, hrest, (h p).mp hlt⟩
  · rintro ⟨p, hp, hlt⟩
    exact ⟨s :: p, List.cons_prefix_cons.mpr ⟨rfl, hp⟩, (h p).mpr hlt⟩

/-- The walk fails just when the path climbs above its start. -/
theorem foldlM_resolveSegment_eq_none {segments : List String} :
    ∀ {out : List String}, segments.foldlM resolveSegment out = none ↔ Climbs out.length segments := by
  induction segments with
  | nil =>
    intro out
    refine iff_of_false (Option.some_ne_none out) ?_
    rintro ⟨p, hp, hlt⟩
    rw [List.prefix_nil.mp hp] at hlt
    simp at hlt
  | cons s segments ih =>
    intro out
    rw [List.foldlM_cons, resolveSegment]
    by_cases hskip : s = "" ∨ s = "."
    · rw [if_pos hskip]
      refine ih.trans (climbs_cons fun p => ?_).symm
      rcases hskip with rfl | rfl <;> simp [isName]
    rw [if_neg hskip]
    obtain ⟨hempty, hdot⟩ := not_or.mp hskip
    by_cases hup : s = ".."
    · subst hup
      rw [if_neg (by simp)]
      by_cases hout : out = []
      · rw [if_pos hout]
        refine iff_of_true rfl ⟨[".."], ⟨segments, rfl⟩, ?_⟩
        simp [hout, isName]
      · rw [if_neg hout]
        refine ih.trans (climbs_cons fun p => ?_).symm
        have hlength : 0 < out.length := List.length_pos_iff.mpr hout
        simp only [List.length_dropLast, List.countP_cons, List.count_cons, isName]
        simp
        omega
    · rw [if_pos hup]
      refine ih.trans (climbs_cons fun p => ?_).symm
      simp only [List.length_append, List.length_singleton, List.countP_cons, List.count_cons]
      simp [isName, hempty, hdot, hup]
      omega

/-! ### Names -/

/-- What a walk arrives at is made of names. -/
theorem names_of_foldlM {segments : List String} :
    ∀ {start out : List String}, (∀ c ∈ start, isName c = true) → segments.foldlM resolveSegment start = some out →
      ∀ c ∈ out, isName c = true := by
  induction segments with
  | nil =>
    intro start out hstart hout
    obtain rfl : start = out := Option.some.inj hout
    exact hstart
  | cons s segments ih =>
    intro start out hstart hout
    rw [List.foldlM_cons] at hout
    obtain ⟨next, hnext, hout⟩ := Option.bind_eq_some_iff.mp hout
    refine ih (fun c hc => ?_) hout
    rw [resolveSegment] at hnext
    split at hnext
    · exact hstart c (Option.some.inj hnext ▸ hc)
    rename_i hskip
    split at hnext
    · rename_i hup
      obtain rfl := Option.some.inj hnext
      rcases List.mem_append.mp hc with hc | hc
      · exact hstart c hc
      · rw [List.mem_singleton.mp hc]
        simp_all [isName]
    split at hnext
    · cases hnext
    · obtain rfl := Option.some.inj hnext
      exact hstart c (List.dropLast_subset _ hc)

/-- A walk over names goes down by each. -/
theorem foldlM_names {segments : List String} (h : ∀ s ∈ segments, isName s = true) (start : List String) :
    segments.foldlM resolveSegment start = some (start ++ segments) := by
  induction segments generalizing start with
  | nil => rw [List.append_nil]; rfl
  | cons s segments ih =>
    have hs := h s List.mem_cons_self
    simp only [isName, Bool.and_eq_true, decide_eq_true_eq] at hs
    obtain ⟨⟨hempty, hdot⟩, hup⟩ := hs
    have hstep : resolveSegment start s = some (start ++ [s]) := by
      rw [resolveSegment, if_neg (not_or.mpr ⟨hempty, hdot⟩), if_pos hup]
    rw [List.foldlM_cons, hstep]
    exact (ih (fun t ht => h t (List.mem_cons_of_mem _ ht)) _).trans (by rw [List.append_assoc]; rfl)

section Resolved

variable {comps : List String} (h : ∀ c ∈ comps, IsSegment c)
include h

theorem pathSegments_join : pathSegments (Text.join comps '/') = comps := by
  rw [pathSegments]
  by_cases hne : comps = []
  · rw [if_pos ((join_segments_eq_empty h).mpr hne), hne]
  · rw [if_neg (mt (join_segments_eq_empty h).mp hne), split_segments h hne]

/-- A path made of names is not absolute. -/
theorem not_startsWith_join : Text.startsWith (Text.join comps '/') "/" = false := by
  rw [Bool.eq_false_iff]
  intro hstart
  obtain ⟨rest, hrest⟩ := Text.startsWith_iff.mp hstart
  have hne : comps ≠ [] := by
    rintro rfl
    simpa [Text.join] using congrArg String.toList hrest
  have hsplit := split_segments h hne
  have hempty : "" ∈ comps := by
    rw [← hsplit, hrest]
    have hparts : Text.split ("" ++ "/" ++ rest) '/' = Text.split "" '/' ++ Text.split rest '/' := Text.split_append rfl
    rw [String.empty_append] at hparts
    rw [hparts]
    exact List.mem_append_left _ (by simp [Text.split_of_not_mem])
  exact (h "" hempty).1 rfl

theorem resolveInSnapshot_join (hnames : ∀ c ∈ comps, isName c = true) :
    resolveInSnapshot (Text.join comps '/') = some (Text.join comps '/') := by
  rw [resolveInSnapshot, not_startsWith_join h, if_neg Bool.false_ne_true]
  by_cases hne : comps = []
  · subst hne
    decide
  · rw [split_segments h hne, foldlM_names hnames]
    rfl

/-- The files of a subtree are those whose keys go on from its path. -/
theorem get?_subtree_iff (files : Snapshot) (rest : String) (data : Bytes) :
    (subtree files (Text.join comps '/')).get? rest = some data ↔
      ∃ key, files.get? key = some data ∧ Text.split key '/' = comps ++ Text.split rest '/' := by
  have hkey (key : String) : Text.split key '/' = comps ++ Text.split rest '/' ↔ key = Text.join (comps ++ [rest]) '/' := by
    have hjoin : Text.split (Text.join (comps ++ [rest]) '/') '/' = comps ++ Text.split rest '/' := by
      by_cases hne : comps = []
      · subst hne
        simp [Text.join]
      · rw [Text.join_concat rest '/' hne, ← String.append_assoc, Text.split_append (String.toList_ofList),
          split_segments h hne]
    rw [← hjoin]
    exact ⟨fun hsplit => by rw [← Text.join_split key '/', hsplit, Text.join_split], congrArg (Text.split · '/')⟩
  rw [get?_subtree files h, fileIn]
  simp [hkey]

end Resolved

/-! ### Resolution -/

/-- What resolving a path and taking the subtree there come to. -/
structure Resolves (requested : String) : Prop where
  /-- Refused are just the absolute paths and those that climb above the root. -/
  undefined : resolveInSnapshot requested = none ↔
    Absolute requested ∨ Climbs 0 (Text.split requested '/')
  names : ∀ path, resolveInSnapshot requested = some path → ∀ segment ∈ pathSegments path, isName segment
  again : ∀ path, resolveInSnapshot requested = some path → resolveInSnapshot path = some path
  /-- A file of the subtree is one of the snapshot, with the path's segments before its own. -/
  files : ∀ path, resolveInSnapshot requested = some path → ∀ (files : Snapshot) (rest : String) (data : Bytes),
    (subtree files path).get? rest = some data ↔
      ∃ key, files.get? key = some data ∧ Text.split key '/' = pathSegments path ++ Text.split rest '/'

/-- Every path resolves as it should. -/
theorem path_resolves (requested : String) : Resolves requested := by
  have hcomps : ∀ path, resolveInSnapshot requested = some path →
      ∃ comps, (∀ c ∈ comps, IsSegment c) ∧ (∀ c ∈ comps, isName c = true) ∧ path = Text.join comps '/' := by
    intro path hpath
    rw [resolveInSnapshot] at hpath
    split at hpath
    · cases hpath
    obtain ⟨comps, hcomps, rfl⟩ := Option.map_eq_some_iff.mp hpath
    exact ⟨comps, resolveFrom_segments (by simp) hcomps, names_of_foldlM (by simp) hcomps, rfl⟩
  constructor
  · rw [resolveInSnapshot, Absolute]
    by_cases habsolute : Text.startsWith requested "/" = true
    · rw [if_pos habsolute]
      exact iff_of_true rfl (Or.inl habsolute)
    · rw [if_neg habsolute, Option.map_eq_none_iff, foldlM_resolveSegment_eq_none]
      exact (or_iff_right habsolute).symm
  · intro path hpath
    obtain ⟨comps, hsegments, hnames, rfl⟩ := hcomps path hpath
    rwa [pathSegments_join hsegments]
  · intro path hpath
    obtain ⟨comps, hsegments, hnames, rfl⟩ := hcomps path hpath
    exact resolveInSnapshot_join hsegments hnames
  · intro path hpath files rest data
    obtain ⟨comps, hsegments, -, rfl⟩ := hcomps path hpath
    rw [pathSegments_join hsegments]
    exact get?_subtree_iff hsegments files rest data

end Akua
