import Akua.Lib.LinkedDisk

/-! The place a path names on a disk with links, where not all of it needs to be there: links are
    followed as far as there are any, and a name below something missing is where it would be made.
    Nothing is below a file, and `..` behind something missing leads nowhere. -/

namespace LinkedDisk

variable {follow : Bool}

/-- The components that count: an empty one and `.` stay where they are. -/
def components (path : List String) : List String := path.filter fun c => c ≠ "" ∧ c ≠ "."

/-- The place of the components from `real` on, which is there without a link or is missing; `jump`
    goes on behind a link. -/
def placeFrom (disk : LinkedDisk follow) (jump : FilePath → List String → Option FilePath) :
    FilePath → List String → Option FilePath
  | real, [] => some real
  | real, c :: rest =>
    match disk.at? real with
    | none =>
      if c = "" ∨ c = "." then placeFrom disk jump real rest
      else if c = ".." then none
      else placeFrom disk jump (real ++ [c]) rest
    | some .directory =>
      if c = "" ∨ c = "." then placeFrom disk jump real rest
      else if c = ".." then placeFrom disk jump real.dropLast rest
      else
        match disk.at? (real ++ [c]) with
        | some (.link target) => jump (linkBase target real) (FilePath.segments target ++ rest)
        | _ => placeFrom disk jump (real ++ [c]) rest
    | some _ => none

/-- The place of a path, with so many links. -/
def place (disk : LinkedDisk follow) : Nat → FilePath → List String → Option FilePath
  | 0 => placeFrom disk fun _ _ => none
  | links + 1 => placeFrom disk (place disk links)

variable {disk : LinkedDisk follow} {links left more : Nat} {real r : FilePath}

theorem place_nil : disk.place links real [] = some real := by
  cases links <;> rfl

theorem place_missing_cons (h : disk.at? real = none) (c : String) (rest : List String) :
    disk.place links real (c :: rest) =
      if c = "" ∨ c = "." then disk.place links real rest
      else if c = ".." then none
      else disk.place links (real ++ [c]) rest := by
  cases links <;> simp only [place, placeFrom, h]

theorem place_file_cons (hreal : disk.at? real ≠ none) (h : disk.at? real ≠ some .directory) (c : String)
    (rest : List String) : disk.place links real (c :: rest) = none := by
  rcases hnode : disk.at? real with _ | _ | _ | _
  · exact absurd hnode hreal
  · cases links <;> simp only [place, placeFrom, hnode]
  · exact absurd hnode h
  · cases links <;> simp only [place, placeFrom, hnode]

theorem place_directory_cons (h : disk.at? real = some .directory) (c : String) (rest : List String) :
    disk.place links real (c :: rest) =
      if c = "" ∨ c = "." then disk.place links real rest
      else if c = ".." then disk.place links real.dropLast rest
      else
        match disk.at? (real ++ [c]), links with
        | some (.link _), 0 => none
        | some (.link target), links + 1 => disk.place links (linkBase target real) (FilePath.segments target ++ rest)
        | _, links => disk.place links (real ++ [c]) rest := by
  cases links with
  | zero =>
    simp only [place, placeFrom, h]
    rcases disk.at? (real ++ [c]) with _ | _ | _ | _ <;> rfl
  | succ links =>
    simp only [place, placeFrom, h]
    rcases disk.at? (real ++ [c]) with _ | _ | _ | _ <;> rfl

/-- What holds of a path when it holds of the rest of it from anywhere, and of every path with a link less. -/
theorem follow_induction {P : Nat → FilePath → List String → Prop} (nil : ∀ links real, P links real [])
    (cons : ∀ links real c rest, (∀ real, P links real rest) →
      (∀ fewer, links = fewer + 1 → ∀ real comps, P fewer real comps) → P links real (c :: rest)) :
    ∀ links real comps, P links real comps := by
  intro links
  induction links with
  | zero =>
    intro real comps
    induction comps generalizing real with
    | nil => exact nil 0 real
    | cons c rest ih => exact cons 0 real c rest ih fun fewer h => by cases h
  | succ links ihLinks =>
    intro real comps
    induction comps generalizing real with
    | nil => exact nil _ real
    | cons c rest ih =>
      refine cons _ real c rest ih fun fewer h => ?_
      cases h
      exact ihLinks

theorem components_cons_trivial {c : String} (h : c = "" ∨ c = ".") (rest : List String) :
    components (c :: rest) = components rest :=
  List.filter_cons_of_neg (by rcases h with rfl | rfl <;> decide)

theorem components_cons_name {c : String} (h : ¬ (c = "" ∨ c = ".")) (rest : List String) :
    components (c :: rest) = c :: components rest :=
  List.filter_cons_of_pos (by rw [not_or] at h; simpa using h)

theorem components_append (a b : List String) : components (a ++ b) = components a ++ components b :=
  List.filter_append ..

theorem components_segments (text : String) : components (FilePath.segments text) = FilePath.segments text := by
  rw [components, FilePath.segments, List.filter_filter]
  simp

/-! ### Missing things -/

/-- Below something missing everything is missing. -/
theorem at?_below_missing (h : disk.at? real = none) (name : String) : disk.at? (real ++ [name]) = none := by
  rcases hnode : disk.at? (real ++ [name]) with _ | node
  · rfl
  · rw [directory_of_entry hnode] at h
    cases h

theorem place_missing {comps : List String} (h : disk.at? real = none) (hup : ".." ∉ comps) :
    disk.place links real comps = some (real ++ components comps) := by
  induction comps generalizing real with
  | nil => rw [place_nil, components, List.filter_nil, List.append_nil]
  | cons c rest ih =>
    obtain ⟨hc, hrest⟩ := List.ne_and_not_mem_of_not_mem_cons hup
    rw [place_missing_cons h]
    split
    · rename_i htrivial
      rw [ih h hrest, components_cons_trivial htrivial]
    · rename_i hname
      rw [if_neg hc.symm, ih (at?_below_missing h c) hrest, components_cons_name hname, List.append_assoc,
        List.singleton_append]

/-- From something missing nothing leads up. -/
theorem place_missing_up {comps : List String} (h : disk.at? real = none) (hup : ".." ∈ comps) :
    disk.place links real comps = none := by
  induction comps generalizing real with
  | nil => cases hup
  | cons c rest ih =>
    rw [place_missing_cons h]
    split
    · rename_i htrivial
      refine ih h ((List.mem_cons.mp hup).resolve_left ?_)
      rintro rfl
      exact absurd htrivial (by decide)
    · split
      · rfl
      · rename_i hc
        exact ih (at?_below_missing h c) ((List.mem_cons.mp hup).resolve_left fun he => hc he.symm)

/-! ### Followed paths -/

/-- Behind what can be followed a path goes on from where it leads. -/
theorem place_of_resolve (b : List String) : ∀ (links : Nat) (real : FilePath) (a : List String),
    disk.resolve links real a = .ok (r, left) → disk.place links real (a ++ b) = disk.place left r b := by
  refine follow_induction (fun links real h => ?_) fun links real c rest ih ihLinks h => ?_
  · rw [resolve_nil] at h
    cases h
    rfl
  rw [resolve_cons] at h
  split at h
  · cases h
  rename_i hdir
  rw [List.cons_append, place_directory_cons (not_not.mp hdir)]
  split at h
  · rename_i htrivial
    rw [if_pos htrivial]
    exact ih real h
  rename_i htrivial
  rw [if_neg htrivial]
  split at h
  · rename_i hup
    rw [if_pos hup]
    exact ih real.dropLast h
  rename_i hup
  rw [if_neg hup]
  rcases hnode : disk.at? (real ++ [c]) with _ | _ | _ | target <;> rw [hnode] at h
  · cases h
  · exact ih (real ++ [c]) h
  · exact ih (real ++ [c]) h
  · cases links with
    | zero => cases h
    | succ links =>
      dsimp only
      rw [← List.append_assoc]
      exact ihLinks links rfl _ _ h

/-- Where a path cannot be followed, a later `..` leads nowhere. -/
theorem place_of_error {b : List String} (hup : ".." ∈ b) : ∀ (links : Nat) (real : FilePath) (a : List String),
    disk.IsReal real → (∀ found, disk.resolve links real a ≠ .ok found) → disk.place links real (a ++ b) = none := by
  refine follow_induction (fun links real _ h => ?_) fun links real c rest ih ihLinks hreal h => ?_
  · exact absurd resolve_nil (h (real, links))
  rw [List.cons_append]
  by_cases hdir : disk.at? real = some .directory
  · rw [place_directory_cons hdir]
    simp only [resolve_cons, if_neg (not_not.mpr hdir)] at h
    split
    · rename_i htrivial
      rw [if_pos htrivial] at h
      exact ih real hreal h
    rename_i htrivial
    rw [if_neg htrivial] at h
    split
    · rename_i hparent
      rw [if_pos hparent] at h
      exact ih _ (isReal_dropLast hdir) h
    rename_i hparent
    rw [if_neg hparent] at h
    rcases hnode : disk.at? (real ++ [c]) with _ | _ | _ | target <;> simp only [hnode] at h
    · exact place_missing_up hnode (List.mem_append_right rest hup)
    · exact ih _ (isReal_of_file hnode) h
    · exact ih _ (isReal_of_directory hnode) h
    · cases links with
      | zero => rfl
      | succ links =>
        dsimp only at h ⊢
        rw [← List.append_assoc]
        refine ihLinks links rfl _ _ ?_ h
        rw [linkBase]
        split
        · exact isReal_root
        · exact hreal
  · obtain ⟨node, hnode, -⟩ := hreal
    exact place_file_cons (by rw [hnode]; simp) hdir c _

/-- With more links, and without empty components and `.`, a place stays where it is. -/
theorem place_clean (hle : links ≤ more) {comps : List String} (h : disk.place links real comps = some r) :
    disk.place more real (components comps) = some r := by
  suffices ∀ (links : Nat) (real : FilePath) (comps : List String), disk.place links real comps = some r →
      ∀ more, links ≤ more → disk.place more real (components comps) = some r from this links real comps h more hle
  refine follow_induction (fun links real h more _ => ?_) fun links real c rest ih ihLinks h more hle => ?_
  · rw [place_nil] at h
    rw [components, List.filter_nil, place_nil]
    exact h
  by_cases hmissing : disk.at? real = none
  · rw [place_missing_cons hmissing] at h
    split at h
    · rename_i htrivial
      rw [components_cons_trivial htrivial]
      exact ih real h more hle
    · rename_i hname
      split at h
      · cases h
      · rename_i hup
        rw [components_cons_name hname, place_missing_cons hmissing, if_neg hname, if_neg hup]
        exact ih _ h more hle
  by_cases hdir : disk.at? real = some .directory
  · rw [place_directory_cons hdir] at h
    split at h
    · rename_i htrivial
      rw [components_cons_trivial htrivial]
      exact ih real h more hle
    rename_i hname
    rw [components_cons_name hname, place_directory_cons hdir, if_neg hname]
    split at h
    · rename_i hup
      rw [if_pos hup]
      exact ih _ h more hle
    rename_i hup
    rw [if_neg hup]
    rcases hnode : disk.at? (real ++ [c]) with _ | _ | _ | target <;> simp only [hnode] at h ⊢
    · exact ih _ h more hle
    · exact ih _ h more hle
    · exact ih _ h more hle
    · cases links with
      | zero => cases h
      | succ links =>
        obtain ⟨more, rfl⟩ : ∃ m, more = m + 1 := ⟨more - 1, by omega⟩
        dsimp only at h ⊢
        have hsegments : components (FilePath.segments target ++ rest) = FilePath.segments target ++ components rest := by
          rw [components_append, components_segments]
        rw [← hsegments]
        exact ihLinks links rfl _ _ h more (by omega)
  · rw [place_file_cons hmissing hdir] at h
    cases h

/-- Following a path uses up links. -/
theorem links_of_resolve : ∀ (links : Nat) (real : FilePath) (comps : List String),
    disk.resolve links real comps = .ok (r, left) → left ≤ links := by
  refine follow_induction (fun links real h => ?_) fun links real c rest ih ihLinks h => ?_
  · rw [resolve_nil] at h
    cases h
    exact le_rfl
  rw [resolve_cons] at h
  split at h
  · cases h
  split at h
  · exact ih _ h
  split at h
  · exact ih _ h
  rcases hnode : disk.at? (real ++ [c]) with _ | _ | _ | target <;> rw [hnode] at h
  · cases h
  · exact ih _ h
  · exact ih _ h
  · cases links with
    | zero => cases h
    | succ links => exact (ihLinks links rfl _ _ h).trans (Nat.le_succ links)

end LinkedDisk
