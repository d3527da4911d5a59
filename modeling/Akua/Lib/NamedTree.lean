import Akua.Lib.FileSystem

/-! Trees whose branches have named entries in the order they were made, as a map that keeps insertion
    order has them. Also paths over such a tree as a system follows them: component by component,
    where an empty one and `.` stay in a directory and `..` leaves it. -/

inductive NamedTree (α : Type) where
  | leaf (value : α)
  | branch (entries : List (String × NamedTree α))

namespace NamedTree

/-! ### Entries -/

section Entries

variable {β : Type}

/-- `entries.set(name, value)`. -/
def setEntry (name : String) (value : β) : List (String × β) → List (String × β)
  | [] => [(name, value)]
  | entry :: entries =>
    if entry.1 = name then (name, value) :: entries else entry :: setEntry name value entries

/-- `entries.delete(name)`. -/
def deleteEntry (name : String) (entries : List (String × β)) : List (String × β) :=
  entries.filter fun entry => entry.1 ≠ name

/-- Change the value under a name. -/
def changeEntry (name : String) (f : β → β) (entries : List (String × β)) : List (String × β) :=
  entries.map fun entry => if entry.1 = name then (name, f entry.2) else entry

theorem lookup_cons_eq (entry : String × β) (entries : List (String × β)) (name : String) :
    (entry :: entries).lookup name = if name = entry.1 then some entry.2 else entries.lookup name := by
  rw [List.lookup_cons]
  by_cases h : name = entry.1
  · simp [h]
  · simp [h, beq_false_of_ne h]

theorem lookup_setEntry (name other : String) (value : β) (entries : List (String × β)) :
    (setEntry name value entries).lookup other = if other = name then some value else entries.lookup other := by
  induction entries with
  | nil => rw [setEntry, lookup_cons_eq]
  | cons entry entries ih =>
    rw [setEntry]
    by_cases hname : entry.1 = name
    · rw [if_pos hname, lookup_cons_eq, lookup_cons_eq, hname]
      by_cases h : other = name <;> simp [h]
    · rw [if_neg hname, lookup_cons_eq, lookup_cons_eq, ih]
      by_cases h : other = entry.1
      · simp [h, hname]
      · simp [h]

theorem lookup_deleteEntry (name other : String) (entries : List (String × β)) :
    (deleteEntry name entries).lookup other = if other = name then none else entries.lookup other := by
  rw [deleteEntry]
  induction entries with
  | nil => simp
  | cons entry entries ih =>
    by_cases hname : entry.1 = name
    · rw [List.filter_cons_of_neg (by simp [hname]), ih, lookup_cons_eq, hname]
      by_cases h : other = name <;> simp [h]
    · rw [List.filter_cons_of_pos (by simp [hname]), lookup_cons_eq, lookup_cons_eq, ih]
      by_cases h : other = entry.1
      · simp [h, hname]
      · simp [h]

theorem lookup_changeEntry (name other : String) (f : β → β) (entries : List (String × β)) :
    (changeEntry name f entries).lookup other =
      if other = name then (entries.lookup name).map f else entries.lookup other := by
  rw [changeEntry]
  induction entries with
  | nil => simp
  | cons entry entries ih =>
    rw [List.map_cons, lookup_cons_eq, lookup_cons_eq, lookup_cons_eq, ih]
    by_cases hname : entry.1 = name
    · by_cases h : other = name <;> simp [hname, h]
    · by_cases h : other = name
      · simp [hname, h, Ne.symm hname]
      · by_cases he : other = entry.1 <;> simp [hname, h, he]

end Entries

/-! ### Paths -/

variable {α : Type} {tree : NamedTree α} {path rest : List String} {entries : List (String × NamedTree α)}

/-- What stands at a path of names. -/
def find : List String → NamedTree α → Option (NamedTree α)
  | [], tree => some tree
  | _ :: _, leaf _ => none
  | name :: path, branch entries => (entries.lookup name).bind fun child => find path child

/-- Change the entries of the branch at a path. -/
def change (f : List (String × NamedTree α) → List (String × NamedTree α)) :
    List String → NamedTree α → NamedTree α
  | _, leaf value => leaf value
  | [], branch entries => branch (f entries)
  | name :: path, branch entries => branch (changeEntry name (fun child => change f path child) entries)

theorem find_append (path rest : List String) (tree : NamedTree α) :
    find (path ++ rest) tree = (find path tree).bind (find rest) := by
  induction path generalizing tree with
  | nil => rfl
  | cons name path ih =>
    cases tree with
    | leaf value => rfl
    | branch entries =>
      rw [List.cons_append, find, find, Option.bind_assoc]
      exact Option.bind_congr fun child _ => ih child

/-- An entry of a branch. -/
theorem find_concat (h : find path tree = some (branch entries)) (name : String) :
    find (path ++ [name]) tree = entries.lookup name := by
  rw [find_append, h, Option.bind_some, find]
  cases entries.lookup name <;> rfl

theorem find_below (h : find path tree = some (branch entries)) (name : String) (rest : List String) :
    find (path ++ name :: rest) tree = (entries.lookup name).bind (find rest) := by
  rw [find_append, h]
  rfl

/-- On the way to anything there are branches. -/
theorem branch_of_find {node : NamedTree α} (h : find (path ++ rest) tree = some node) (hne : rest ≠ []) :
    ∃ entries, find path tree = some (branch entries) := by
  rw [find_append] at h
  obtain ⟨at_, hat, hrest⟩ := Option.bind_eq_some_iff.mp h
  obtain ⟨name, rest, rfl⟩ := List.exists_cons_of_ne_nil hne
  cases at_ with
  | leaf value => cases hrest
  | branch entries => exact ⟨entries, hat⟩

section Change

variable {f : List (String × NamedTree α) → List (String × NamedTree α)}

/-- The branch itself has the new entries. -/
theorem find_change (h : find path tree = some (branch entries)) (rest : List String) :
    find (path ++ rest) (change f path tree) = find rest (branch (f entries)) := by
  induction path generalizing tree with
  | nil =>
    obtain rfl := Option.some.inj h
    rfl
  | cons name path ih =>
    cases tree with
    | leaf value => cases h
    | branch outer =>
      rw [find] at h
      obtain ⟨child, hchild, h⟩ := Option.bind_eq_some_iff.mp h
      rw [List.cons_append, change, find, lookup_changeEntry, if_pos rfl, hchild]
      exact ih h

/-- What is not below the branch stands where it stood; a branch above it stays a branch. -/
theorem find_change_elsewhere {other : List String} (hother : ¬ path <+: other) :
    (∀ value, find other (change f path tree) = some (leaf value) ↔ find other tree = some (leaf value)) ∧
      ((find other (change f path tree)).isSome = (find other tree).isSome) := by
  induction path generalizing tree other with
  | nil => exact absurd List.nil_prefix hother
  | cons name path ih =>
    cases tree with
    | leaf value => exact ⟨fun _ => Iff.rfl, rfl⟩
    | branch entries =>
      cases other with
      | nil => exact ⟨fun value => by simp [find, change], rfl⟩
      | cons first other =>
        rw [change, find, lookup_changeEntry]
        split
        · rename_i hfirst
          subst hfirst
          have hrest : ¬ path <+: other := fun h => hother (List.cons_prefix_cons.mpr ⟨rfl, h⟩)
          rw [find]
          cases entries.lookup first with
          | none => exact ⟨fun _ => Iff.rfl, rfl⟩
          | some child => exact ih hrest
        · exact ⟨fun _ => Iff.rfl, rfl⟩

end Change

/-! ### Following -/

/-- The components of a path, from the branch at `real`; the real path they lead to. -/
def follow (tree : NamedTree α) : List String → List String → Option (List String)
  | real, [] => some real
  | real, c :: components =>
    match find real tree with
    | some (branch entries) =>
      if c = "" ∨ c = "." then follow tree real components
      else if c = ".." then follow tree real.dropLast components
      else if (entries.lookup c).isSome then follow tree (real ++ [c]) components
      else none
    | _ => none

/-- A component that names an entry. -/
def IsName (c : String) : Prop := c ≠ "" ∧ c ≠ "." ∧ c ≠ ".."

instance (c : String) : Decidable (IsName c) := inferInstanceAs (Decidable (_ ∧ _))

/-- The components that do not stay where they are. -/
def names (components : List String) : List String := components.filter fun c => c ≠ "" ∧ c ≠ "."

theorem follow_branch {real : List String} (h : find real tree = some (branch entries)) (c : String)
    (components : List String) : follow tree real (c :: components) =
      if c = "" ∨ c = "." then follow tree real components
      else if c = ".." then follow tree real.dropLast components
      else if (entries.lookup c).isSome then follow tree (real ++ [c]) components
      else none := by
  rw [follow, h]

theorem names_cons_of_stay {c : String} (h : c = "" ∨ c = ".") (components : List String) :
    names (c :: components) = names components :=
  List.filter_cons_of_neg (by rcases h with rfl | rfl <;> simp)

theorem names_cons_of_not {c : String} (h : ¬(c = "" ∨ c = ".")) (components : List String) :
    names (c :: components) = c :: names components :=
  List.filter_cons_of_pos (by simpa [not_or] using h)

/-- Components that all stay where they are end in one that is no name. -/
theorem not_isName_of_names_eq_nil {components : List String} (h : names components = []) {c : String}
    (hc : c ∈ components) : ¬ IsName c := by
  intro hname
  have hmem : c ∈ names components := List.mem_filter.mpr ⟨hc, by simp [hname.1, hname.2.1]⟩
  rw [h] at hmem
  cases hmem

/-- What stands at the names is where the components lead, except that only a branch can be followed
    by a component that is no name. -/
theorem follow_of_find {real components : List String} {node : NamedTree α} (hdots : ".." ∉ components)
    (hnode : find (real ++ names components) tree = some node)
    (hlast : ∀ c ∈ components.getLast?, IsName c ∨ ∃ entries, node = branch entries) :
    follow tree real components = some (real ++ names components) := by
  induction components generalizing real with
  | nil => rw [follow, names, List.filter_nil, List.append_nil]
  | cons c components ih =>
    have hrest : ".." ∉ components := fun h => hdots (List.mem_cons_of_mem _ h)
    have hlast' : ∀ d ∈ components.getLast?, IsName d ∨ ∃ entries, node = branch entries := by
      intro d hd
      rcases components with _ | ⟨e, es⟩
      · cases hd
      · exact hlast d (by rw [List.getLast?_cons_cons]; exact hd)
    by_cases hstay : c = "" ∨ c = "."
    · rw [names_cons_of_stay hstay] at hnode ⊢
      have hreal : ∃ entries, find real tree = some (branch entries) := by
        by_cases hne : names components = []
        · rw [hne, List.append_nil] at hnode
          obtain ⟨d, hd⟩ : ∃ d, d ∈ (c :: components).getLast? := ⟨_, List.getLast?_eq_some_getLast (by simp)⟩
          have hall : names (c :: components) = [] := (names_cons_of_stay hstay _).trans hne
          obtain ⟨entries, rfl⟩ := (hlast d hd).resolve_left
            (not_isName_of_names_eq_nil hall (List.mem_of_getLast? hd))
          exact ⟨entries, hnode⟩
        · exact branch_of_find hnode hne
      obtain ⟨entries, hreal⟩ := hreal
      rw [follow_branch hreal, if_pos hstay]
      exact ih hrest hnode hlast'
    · rw [names_cons_of_not hstay] at hnode ⊢
      have hc : c ≠ ".." := fun h => hdots (h ▸ List.mem_cons_self)
      obtain ⟨entries, hreal⟩ := branch_of_find hnode (by simp)
      have hentry : (entries.lookup c).isSome := by
        rw [find_below hreal] at hnode
        obtain ⟨child, hchild, -⟩ := Option.bind_eq_some_iff.mp hnode
        rw [hchild]
        rfl
      rw [List.append_cons] at hnode ⊢
      rw [follow_branch hreal, if_neg hstay, if_neg hc, if_pos hentry]
      exact ih hrest hnode hlast'

/-- Where components lead is where the names stand, a branch behind a component that is no name. -/
theorem follow_some {real components p : List String} (hdots : ".." ∉ components)
    (h : follow tree real components = some p) :
    p = real ++ names components ∧
      ∀ c ∈ components.getLast?, ¬ IsName c → ∃ entries, find p tree = some (branch entries) := by
  induction components generalizing real with
  | nil =>
    obtain rfl := Option.some.inj h
    exact ⟨(List.append_nil _).symm, fun c hc => by cases hc⟩
  | cons c components ih =>
    have hrest : ".." ∉ components := fun h => hdots (List.mem_cons_of_mem _ h)
    have hc : c ≠ ".." := fun h => hdots (h ▸ List.mem_cons_self)
    obtain ⟨entries, hreal⟩ : ∃ entries, find real tree = some (branch entries) := by
      rw [follow] at h
      split at h
      · exact ⟨_, ‹_›⟩
      · cases h
    rw [follow_branch hreal] at h
    have hlast : (∀ d ∈ components.getLast?, ¬ IsName d → ∃ entries, find p tree = some (branch entries)) →
        (components = [] → p = real ∨ IsName c) →
        ∀ d ∈ (c :: components).getLast?, ¬ IsName d → ∃ entries, find p tree = some (branch entries) := by
      intro hih hnil d hd hname
      rcases components with _ | ⟨e, es⟩
      · obtain rfl : c = d := by simpa using hd
        rcases hnil rfl with rfl | hc
        · exact ⟨entries, hreal⟩
        · exact absurd hc hname
      · exact hih d (by rw [List.getLast?_cons_cons] at hd; exact hd) hname
    by_cases hstay : c = "" ∨ c = "."
    · rw [if_pos hstay] at h
      obtain ⟨hp, hih⟩ := ih hrest h
      rw [names_cons_of_stay hstay]
      refine ⟨hp, hlast hih fun hnil => .inl ?_⟩
      rw [hp, hnil, names, List.filter_nil, List.append_nil]
    · rw [if_neg hstay, if_neg hc] at h
      split at h
      · obtain ⟨hp, hih⟩ := ih hrest h
        rw [names_cons_of_not hstay, List.append_cons]
        exact ⟨hp, hlast hih fun _ => .inr ⟨fun he => hstay (.inl he), fun he => hstay (.inr he), hc⟩⟩
      · cases h

end NamedTree
