import Akua.Host
import Akua.TomlStrings

/-! The documents of the TOML writer, read back: the sections of its text are the statements that build
    its tree again, each table with its values first. -/

namespace Akua

open Toml (ReadsKey ReadsLiteral Lines Statement Focus Under State)

/-! ### Sections -/

/-- The value an entry is written as in its own table, if it is: an array without tables is one. -/
def TomlItem.own : TomlItem → Option Toml.Literal
  | .value held => some held.literal
  | .tables [] => some (.array [])
  | _ => none

def ownPairs (entries : TomlEntries) : List (String × Toml.Literal) :=
  entries.filterMap fun entry => entry.2.own.map fun value => (entry.1, value)

def pairStatements (entries : TomlEntries) : List Statement :=
  (ownPairs entries).map fun pair => .pair pair.1 pair.2

/-- A table of its own is written with its header unless only its subtables say anything. -/
def headed (entries : TomlEntries) : Bool := (ownSection entries).1 ≠ "" || !(ownSection entries).2

mutual

/-- The statements that the sections of a table's subtables are. -/
def childStatements (path : List String) : TomlEntries → List Statement
  | [] => []
  | (name, item) :: rest => itemStatements (path ++ [name]) item ++ childStatements path rest

def itemStatements (path : List String) : TomlItem → List Statement
  | .value _ => []
  | .table entries =>
    (if headed entries then .table path :: pairStatements entries else []) ++ childStatements path entries
  | .tables tables => elementStatements path tables

def elementStatements (path : List String) : List TomlEntries → List Statement
  | [] => []
  | entries :: rest =>
    .element path :: pairStatements entries ++ childStatements path entries ++ elementStatements path rest

end

mutual

/-- Keys are distinct in every table, and numbers exact. -/
def TomlItem.Valid : TomlItem → Prop
  | .value held => held.Valid
  | .table entries => (entries.map Prod.fst).Nodup ∧ ValidEntries entries
  | .tables tables => ValidTables tables

def ValidEntries : TomlEntries → Prop
  | [] => True
  | (_, item) :: rest => item.Valid ∧ ValidEntries rest

def ValidTables : List TomlEntries → Prop
  | [] => True
  | entries :: rest => ((entries.map Prod.fst).Nodup ∧ ValidEntries entries) ∧ ValidTables rest

end

theorem validEntries_iff {entries : TomlEntries} : ValidEntries entries ↔ ∀ entry ∈ entries, entry.2.Valid := by
  induction entries with
  | nil => simp [ValidEntries]
  | cons entry rest ih => simp [ValidEntries, ih]

theorem lines_assignment (name : String) {text : String} {value : Toml.Literal} (h : ReadsLiteral text.toList value) :
    Lines (tomlKey name ++ " = " ++ text ++ "\n").toList [.pair name value] := by
  have hpair := Toml.lines_pair (readsKey_tomlKey name) h
  have htext : (tomlKey name ++ " = " ++ text ++ "\n").toList =
      (tomlKey name).toList ++ " = ".toList ++ text.toList ++ ['\n'] := by simp
  rwa [htext]

/-- A table's own section, a line for each of its values. -/
theorem lines_ownSection : ∀ {entries : TomlEntries}, ValidEntries entries →
    Lines (ownSection entries).1.toList (pairStatements entries)
  | [], _ => Toml.Lines.nil
  | (name, item) :: rest, h => by
    have ih := lines_ownSection h.2
    cases item with
    | value value =>
      have hline := (lines_assignment name (readsLiteral_tomlValue h.1)).append ih
      have htext : (ownSection ((name, .value value) :: rest)).1.toList =
          (tomlKey name ++ " = " ++ tomlValue value ++ "\n").toList ++ (ownSection rest).1.toList := by
        simp [ownSection]
      rw [htext]
      exact hline
    | table entries => exact ih
    | tables tables =>
      cases tables with
      | nil =>
        have hempty : ReadsLiteral "[]".toList (.array []) := Toml.readsLiteral_empty
        have hline := (lines_assignment name hempty).append ih
        have htext : (ownSection ((name, .tables []) :: rest)).1.toList =
            (tomlKey name ++ " = " ++ "[]" ++ "\n").toList ++ (ownSection rest).1.toList := by
          simp [ownSection]
        rw [htext]
        exact hline
      | cons first tables => exact ih

/-- It is empty when there are none. -/
theorem ownSection_eq_empty : ∀ {entries : TomlEntries}, (ownSection entries).1 = "" ↔ ownPairs entries = []
  | [] => by simp [ownSection, ownPairs]
  | (name, item) :: rest => by
    have ih : (ownSection rest).1 = "" ↔ ownPairs rest = [] := ownSection_eq_empty
    cases item with
    | value value => simp [ownSection, ownPairs, TomlItem.own, String.append_eq_empty_iff]
    | table entries => simpa [ownSection, ownPairs, TomlItem.own] using ih
    | tables tables =>
      cases tables with
      | nil => simp [ownSection, ownPairs, TomlItem.own, String.append_eq_empty_iff]
      | cons first tables => simpa [ownSection, ownPairs, TomlItem.own] using ih

def spelledKeys (path : List String) : List (List Char × String) := path.map fun name => ((tomlKey name).toList, name)

theorem spelledKeys_reads (path : List String) : ∀ k ∈ spelledKeys path, ReadsKey k.1 k.2 := by
  simp only [spelledKeys, List.forall_mem_map]
  exact fun name _ => readsKey_tomlKey name

theorem dotted_spelledKeys (path : List String) :
    ("." |>.intercalate (path.map tomlKey)).toList = Toml.dotted (spelledKeys path) := by
  rw [String.toList_intercalate, Toml.dotted, spelledKeys, List.map_map, List.map_map]
  rfl

theorem lines_section {path : List String} (hne : path ≠ []) (array : Bool) {entries : TomlEntries}
    (h : ValidEntries entries) (hasChildren : Bool) :
    Lines (Section.text ⟨some path, array, (ownSection entries).1, hasChildren⟩).toList
      ((if array then .element path else .table path) :: pairStatements entries) := by
  have hkeys : spelledKeys path ≠ [] := by simpa [spelledKeys] using hne
  have hpath : (spelledKeys path).map Prod.snd = path := by simp [spelledKeys, List.map_map, Function.comp_def]
  have hown := lines_ownSection h
  cases array with
  | true =>
    have hheader := (Toml.lines_element hkeys (spelledKeys_reads path)).append hown
    rw [hpath] at hheader
    have htext : (Section.text ⟨some path, true, (ownSection entries).1, hasChildren⟩).toList =
        '[' :: '[' :: Toml.dotted (spelledKeys path) ++ [']', ']', '\n'] ++ (ownSection entries).1.toList := by
      rw [← dotted_spelledKeys]
      simp [Section.text]
    rw [htext]
    exact hheader
  | false =>
    have hheader := (Toml.lines_table hkeys (spelledKeys_reads path)).append hown
    rw [hpath] at hheader
    have htext : (Section.text ⟨some path, false, (ownSection entries).1, hasChildren⟩).toList =
        '[' :: Toml.dotted (spelledKeys path) ++ [']', '\n'] ++ (ownSection entries).1.toList := by
      rw [← dotted_spelledKeys]
      simp [Section.text]
    rw [htext]
    exact hheader

/-- The sections that are kept read, one by one, as the statements of their tables. -/
def ReadsSections (sections : List Section) (list : List Statement) : Prop :=
  ∃ blocks, List.Forall₂ (fun (part : Section) block => Lines part.text.toList block) (sections.filter Section.kept) blocks ∧
    blocks.flatten = list

theorem ReadsSections.append {first second : List Section} {list list' : List Statement}
    (h : ReadsSections first list) (h' : ReadsSections second list') :
    ReadsSections (first ++ second) (list ++ list') := by
  obtain ⟨blocks, hblocks, rfl⟩ := h
  obtain ⟨blocks', hblocks', rfl⟩ := h'
  exact ⟨blocks ++ blocks', by rw [List.filter_append]; exact List.rel_append hblocks hblocks', List.flatten_append⟩

theorem ReadsSections.cons {part : Section} {sections : List Section} {block list : List Statement}
    (hpart : part.kept = true → Lines part.text.toList block) (hdropped : part.kept = false → block = [])
    (h : ReadsSections sections list) : ReadsSections (part :: sections) (block ++ list) := by
  obtain ⟨blocks, hblocks, rfl⟩ := h
  cases hkept : part.kept with
  | true => exact ⟨block :: blocks, by rw [List.filter_cons_of_pos hkept]; exact .cons (hpart hkept) hblocks, rfl⟩
  | false =>
    rw [hdropped hkept]
    exact ⟨blocks, by rwa [List.filter_cons_of_neg (by simp [hkept])], rfl⟩

mutual

theorem reads_childSections : ∀ (path : List String) (entries : TomlEntries), ValidEntries entries →
    ReadsSections (childSections path entries) (childStatements path entries)
  | _, [], _ => ⟨[], .nil, rfl⟩
  | path, (name, item) :: rest, h => by
    rw [childSections, childStatements]
    exact (reads_itemSections (path ++ [name]) (by simp) item h.1).append (reads_childSections path rest h.2)

theorem reads_itemSections : ∀ (path : List String), path ≠ [] → ∀ item : TomlItem, item.Valid →
    ReadsSections (itemSections path item) (itemStatements path item)
  | _, _, .value _, _ => by
    rw [itemSections, itemStatements]
    exact ⟨[], .nil, rfl⟩
  | path, hne, .table entries, h => by
    rw [TomlItem.Valid] at h
    rw [itemSections, itemStatements]
    have hkept : Section.kept ⟨some path, false, (ownSection entries).1, (ownSection entries).2⟩ = headed entries := by
      simp [Section.kept, headed]
    refine ReadsSections.cons (fun hpart => ?_) (fun hpart => ?_) (reads_childSections path entries h.2)
    · rw [if_pos (hkept ▸ hpart)]
      exact lines_section hne false h.2 _
    · rw [hkept] at hpart
      rw [hpart]
      rfl
  | path, hne, .tables tables, h => by
    rw [TomlItem.Valid] at h
    rw [itemSections, itemStatements]
    exact reads_elementSections path hne tables h

theorem reads_elementSections : ∀ (path : List String), path ≠ [] → ∀ tables : List TomlEntries, ValidTables tables →
    ReadsSections (elementSections path tables) (elementStatements path tables)
  | _, _, [], _ => by
    rw [elementSections, elementStatements]
    exact ⟨[], .nil, rfl⟩
  | path, hne, entries :: rest, h => by
    rw [ValidTables] at h
    rw [elementSections, elementStatements]
    have hkept : Section.kept ⟨some path, true, (ownSection entries).1, (ownSection entries).2⟩ = true := rfl
    exact (ReadsSections.cons (fun _ => lines_section hne true h.1.2 _)
      (fun hpart => absurd (hkept.symm.trans hpart) (by decide)) (reads_childSections path entries h.1.2)).append
      (reads_elementSections path hne rest h.2)

end

/-- The statements of a document. -/
def statementsOf (root : TomlEntries) : List Statement := pairStatements root ++ childStatements [] root

theorem lines_toToml {root : TomlEntries} (h : ValidEntries root) : Lines (toToml root).toList (statementsOf root) := by
  have hroot : ReadsSections (⟨none, false, (ownSection root).1, (ownSection root).2⟩ :: childSections [] root)
      (pairStatements root ++ childStatements [] root) := by
    refine ReadsSections.cons (fun _ => lines_ownSection h) (fun hpart => ?_) (reads_childSections [] root h)
    have hempty : (ownSection root).1 = "" := by simpa [Section.kept] using hpart
    rw [pairStatements, ownSection_eq_empty.mp hempty]
    rfl
  obtain ⟨blocks, hblocks, hlist⟩ := hroot
  have hjoin := Toml.lines_join (List.forall₂_map_left_iff.mpr hblocks)
  rw [hlist] at hjoin
  have htext : (toToml root).toList = ['\n'].intercalate
      (((⟨none, false, (ownSection root).1, (ownSection root).2⟩ :: childSections [] root : List Section).filter
        Section.kept).map fun part => part.text.toList) := by
    rw [toToml, String.toList_intercalate, List.map_map]
    rfl
  rw [htext]
  exact hjoin

/-! ### The document they build -/

def ownNodes (entries : TomlEntries) : Toml.Entries := (ownPairs entries).map fun pair => (pair.1, .value pair.2)

mutual

/-- The subtables of a table, in the order they are met. -/
def childNodes : TomlEntries → Toml.Entries
  | [] => []
  | (name, item) :: rest => (itemNodes item).map (fun node => (name, node)) ++ childNodes rest

def itemNodes : TomlItem → List Toml.Node
  | .value _ => []
  | .table entries => [.table (headed entries) (ownNodes entries ++ childNodes entries)]
  | .tables [] => []
  | .tables (entries :: rest) => [.tables ((ownNodes entries ++ childNodes entries) :: tableNodes rest)]

def tableNodes : List TomlEntries → List Toml.Entries
  | [] => []
  | entries :: rest => (ownNodes entries ++ childNodes entries) :: tableNodes rest

end

/-- What a table's values and subtables come to: the values first. -/
def arranged (entries : TomlEntries) : Toml.Entries := ownNodes entries ++ childNodes entries

/-- What an entry comes to, in its own table or below it. -/
def TomlItem.node (item : TomlItem) : Toml.Node :=
  match item.own with
  | some held => .value held
  | none => (itemNodes item).headD (.tables [])

theorem item_cases (item : TomlItem) : (∃ held, item.own = some held ∧ itemNodes item = [] ∧ item.node = .value held) ∨
    (item.own = none ∧ itemNodes item = [item.node]) := by
  cases item with
  | value held => exact Or.inl ⟨_, rfl, by rw [itemNodes], rfl⟩
  | table entries => exact Or.inr ⟨rfl, by simp [TomlItem.node, TomlItem.own, itemNodes]⟩
  | tables tables =>
    cases tables with
    | nil => exact Or.inl ⟨_, rfl, by rw [itemNodes], rfl⟩
    | cons entries tables => exact Or.inr ⟨rfl, by simp [TomlItem.node, TomlItem.own, itemNodes]⟩

/-- A table holds what its entries come to. -/
theorem arranged_perm : ∀ entries : TomlEntries,
    (arranged entries).Perm (entries.map fun entry => (entry.1, entry.2.node))
  | [] => by simp [arranged, ownNodes, ownPairs, childNodes]
  | (name, item) :: rest => by
    have ih := arranged_perm rest
    rw [arranged, childNodes, List.map_cons]
    rcases item_cases item with ⟨held, hown, hnodes, hnode⟩ | ⟨hown, hnodes⟩
    · have hvalues : ownNodes ((name, item) :: rest) = (name, .value held) :: ownNodes rest := by
        simp [ownNodes, ownPairs, hown]
      rw [hvalues, hnodes, hnode]
      exact ih.cons _
    · have hvalues : ownNodes ((name, item) :: rest) = ownNodes rest := by simp [ownNodes, ownPairs, hown]
      rw [hvalues, hnodes]
      exact List.perm_middle.trans (ih.cons _)

theorem arranged_nodup {entries : TomlEntries} (h : (entries.map Prod.fst).Nodup) :
    ((arranged entries).map Prod.fst).Nodup := by
  refine ((arranged_perm entries).map Prod.fst).nodup_iff.mpr ?_
  simpa [List.map_map, Function.comp_def] using h

/-- What a table of subtables is written as starts with a header under its path. -/
theorem head_childStatements : ∀ (path : List String) {entries : TomlEntries}, (ownSection entries).2 = true →
    ∃ first more, childStatements path entries = first :: more ∧ Under path first
  | _, [], h => by simp [ownSection] at h
  | path, (name, .value value) :: rest, h => by
    have hrest : (ownSection rest).2 = true := by simpa [ownSection] using h
    obtain ⟨first, more, hlist, hunder⟩ := head_childStatements path hrest
    exact ⟨first, more, by rw [childStatements, itemStatements, hlist]; rfl, hunder⟩
  | path, (name, .tables []) :: rest, h => by
    have hrest : (ownSection rest).2 = true := by simpa [ownSection] using h
    obtain ⟨first, more, hlist, hunder⟩ := head_childStatements path hrest
    exact ⟨first, more, by rw [childStatements, itemStatements, elementStatements, hlist]; rfl, hunder⟩
  | path, (name, .tables (entries :: tables)) :: rest, _ =>
    ⟨.element (path ++ [name]), _, by rw [childStatements, itemStatements, elementStatements]; rfl,
      name, [], Or.inr rfl⟩
  | path, (name, .table entries) :: rest, _ => by
    cases hheaded : headed entries with
    | true =>
      exact ⟨.table (path ++ [name]), _, by rw [childStatements, itemStatements, if_pos hheaded]; rfl,
        name, [], Or.inl rfl⟩
    | false =>
      have hchildren : (ownSection entries).2 = true := by simp [headed] at hheaded; exact hheaded.2
      obtain ⟨first, more, hlist, hunder⟩ := head_childStatements (path ++ [name]) hchildren
      exact ⟨first, more ++ childStatements path rest,
        by rw [childStatements, itemStatements, hheaded, hlist]; rfl, hunder.mono⟩

section Run

variable {path : List String} {plug : Toml.Entries → Toml.Entries}

theorem run_pairs (h : Focus path plug) : ∀ (pairs : List (String × Toml.Literal)) (done : Toml.Entries),
    (done.map Prod.fst ++ pairs.map Prod.fst).Nodup →
    (pairs.map fun pair => Statement.pair pair.1 pair.2).foldlM Toml.step ⟨plug done, path⟩ =
      some ⟨plug (done ++ pairs.map fun pair => (pair.1, .value pair.2)), path⟩
  | [], done, _ => by simp
  | (key, value) :: pairs, done, hnodup => by
    have hkey : key ∉ done.map Prod.fst := fun hmem =>
      (List.nodup_append.mp hnodup).2.2 key hmem key (by simp) rfl
    have ih := run_pairs h pairs (done ++ [(key, .value value)]) (by simpa using hnodup)
    rw [List.map_cons, List.foldlM_cons, Toml.step_pair h hkey, Option.bind_eq_bind, Option.bind_some, ih]
    simp

end Run

/-- A run of statements that leaves the document `root`. -/
def Builds (list : List Statement) (state : State) (root : Toml.Entries) : Prop :=
  ∃ current, list.foldlM Toml.step state = some ⟨root, current⟩

theorem Builds.append {first second : List Statement} {state : State} {middle root : Toml.Entries}
    (h : Builds first state middle) (h' : ∀ current, Builds second ⟨middle, current⟩ root) :
    Builds (first ++ second) state root := by
  obtain ⟨current, h⟩ := h
  obtain ⟨last, h'⟩ := h' current
  exact ⟨last, by rw [List.foldlM_append, h, Option.bind_eq_bind, Option.bind_some, h']⟩

theorem Builds.cons {first : Statement} {rest : List Statement} {state next : State} {root : Toml.Entries}
    (h : Toml.step state first = some next) (h' : Builds rest next root) : Builds (first :: rest) state root := by
  obtain ⟨last, h'⟩ := h'
  exact ⟨last, by rw [List.foldlM_cons, h, Option.bind_eq_bind, Option.bind_some, h']⟩

mutual

theorem builds_children : ∀ {entries : TomlEntries}, ValidEntries entries →
    ∀ {path : List String} {plug : Toml.Entries → Toml.Entries}, Focus path plug →
    ∀ {done : Toml.Entries}, (done.map Prod.fst ++ (childNodes entries).map Prod.fst).Nodup → ∀ current,
    Builds (childStatements path entries) ⟨plug done, current⟩ (plug (done ++ childNodes entries))
  | [], _, path, plug, _, done, _, current => by
    rw [childStatements, childNodes, List.append_nil]
    exact ⟨current, rfl⟩
  | (name, item) :: rest, hvalid, path, plug, h, done, hnodup, current => by
    rw [ValidEntries] at hvalid
    rw [childNodes] at hnodup ⊢
    rw [childStatements]
    have hname : itemNodes item ≠ [] → name ∉ done.map Prod.fst := by
      intro hne hmem
      obtain ⟨node, nodes, heq⟩ := List.exists_cons_of_ne_nil hne
      exact (List.nodup_append.mp hnodup).2.2 name hmem name (by simp [heq]) rfl
    have hitem := builds_item hvalid.1 h hname current
    rw [← List.append_assoc]
    exact hitem.append fun current => builds_children hvalid.2 h (by simpa using hnodup) current

theorem builds_item : ∀ {item : TomlItem}, item.Valid →
    ∀ {path : List String} {plug : Toml.Entries → Toml.Entries}, Focus path plug →
    ∀ {name : String} {done : Toml.Entries}, (itemNodes item ≠ [] → name ∉ done.map Prod.fst) → ∀ current,
    Builds (itemStatements (path ++ [name]) item) ⟨plug done, current⟩
      (plug (done ++ (itemNodes item).map fun node => (name, node)))
  | .value _, _, path, plug, _, name, done, _, current => by
    rw [itemStatements, itemNodes, List.map_nil, List.append_nil]
    exact ⟨current, rfl⟩
  | .table entries, hvalid, path, plug, h, name, done, hname, current => by
    rw [TomlItem.Valid] at hvalid
    have hname : name ∉ done.map Prod.fst := hname (by rw [itemNodes]; exact List.cons_ne_nil _ _)
    rw [itemStatements, itemNodes]
    cases hheaded : headed entries with
    | true =>
      rw [if_pos rfl, List.cons_append]
      exact Builds.cons (Toml.step_table current h hname) (builds_body hvalid.1 hvalid.2 (h.table hname true))
    | false =>
      have hchildren : (ownSection entries).2 = true := by simp [headed] at hheaded; exact hheaded.2
      have hown : ownNodes entries = [] := by
        have hempty : (ownSection entries).1 = "" := by simp [headed] at hheaded; exact hheaded.1
        rw [ownNodes, ownSection_eq_empty.mp hempty, List.map_nil]
      have hnodup := arranged_nodup hvalid.1
      rw [arranged, hown, List.nil_append] at hnodup
      obtain ⟨first, more, hlist, hunder⟩ := head_childStatements (path ++ [name]) hchildren
      have hempty : (([] : Toml.Entries).map Prod.fst ++ (childNodes entries).map Prod.fst).Nodup := by simpa using hnodup
      have hbuilds := builds_children hvalid.2 (h.table hname false) hempty current
      rw [hlist] at hbuilds
      rw [if_neg (by decide), List.nil_append, hown, hlist]
      obtain ⟨last, hlast⟩ := hbuilds
      refine ⟨last, ?_⟩
      rw [List.foldlM_cons, Toml.step_implied current h hname hunder]
      rw [List.foldlM_cons] at hlast
      exact hlast
  | .tables [], _, path, plug, _, name, done, _, current => by
    rw [itemStatements, itemNodes, elementStatements, List.map_nil, List.append_nil]
    exact ⟨current, rfl⟩
  | .tables (entries :: rest), hvalid, path, plug, h, name, done, hname, current => by
    rw [TomlItem.Valid, ValidTables] at hvalid
    have hname : name ∉ done.map Prod.fst := hname (by rw [itemNodes]; exact List.cons_ne_nil _ _)
    rw [itemStatements, itemNodes, elementStatements, List.append_assoc, List.cons_append, ← List.append_assoc]
    refine Builds.cons (Toml.step_element current h hname) ?_
    refine (builds_body hvalid.1.1 hvalid.1.2 (h.element hname [])).append fun current => ?_
    exact builds_elements hvalid.2 h hname [ownNodes entries ++ childNodes entries] current

theorem builds_body : ∀ {entries : TomlEntries}, (entries.map Prod.fst).Nodup → ValidEntries entries →
    ∀ {path : List String} {plug : Toml.Entries → Toml.Entries}, Focus path plug →
    Builds (pairStatements entries ++ childStatements path entries) ⟨plug [], path⟩
      (plug (ownNodes entries ++ childNodes entries)) := by
  intro entries hkeys hvalid path plug h
  have hnodup := arranged_nodup hkeys
  rw [arranged, List.map_append] at hnodup
  have hpairs : (ownNodes entries).map Prod.fst = (ownPairs entries).map Prod.fst := by
    simp [ownNodes, List.map_map, Function.comp_def]
  have hrun := run_pairs h (ownPairs entries) [] (by
    rw [List.map_nil, List.nil_append, ← hpairs]
    exact (List.nodup_append.mp hnodup).1)
  exact Builds.append ⟨path, hrun⟩ fun current => builds_children hvalid h hnodup current

theorem builds_elements : ∀ {tables : List TomlEntries}, ValidTables tables →
    ∀ {path : List String} {plug : Toml.Entries → Toml.Entries}, Focus path plug →
    ∀ {name : String} {done : Toml.Entries}, name ∉ done.map Prod.fst → ∀ (elements : List Toml.Entries) current,
    Builds (elementStatements (path ++ [name]) tables) ⟨plug (done ++ [(name, .tables elements)]), current⟩
      (plug (done ++ [(name, .tables (elements ++ tableNodes tables))]))
  | [], _, path, plug, _, name, done, _, elements, current => by
    rw [elementStatements, tableNodes, List.append_nil]
    exact ⟨current, rfl⟩
  | entries :: rest, hvalid, path, plug, h, name, done, hname, elements, current => by
    rw [ValidTables] at hvalid
    rw [elementStatements, tableNodes, List.append_assoc, List.cons_append, ← List.append_assoc]
    refine Builds.cons (Toml.step_next current h hname elements) ?_
    refine (builds_body hvalid.1.1 hvalid.1.2 (h.element hname elements)).append fun current => ?_
    have hrest := builds_elements hvalid.2 h hname (elements ++ [ownNodes entries ++ childNodes entries]) current
    rwa [List.append_assoc, List.singleton_append] at hrest

end

/-- The writer's text holds the document, each table with its values first. -/
theorem parse_toToml {root : TomlEntries} (hkeys : (root.map Prod.fst).Nodup) (hvalid : ValidEntries root) :
    Toml.parse (toToml root) = some (arranged root) := by
  obtain ⟨last, hlast⟩ := builds_body hkeys hvalid Focus.root
  exact Toml.parse_of_lines (lines_toToml hvalid) hlast

/-! ### Documents up to the order of keys -/

namespace Value

def ByKey (a b : String × Value) : Prop := Text.atMost a.1 b.1

instance : DecidableRel ByKey := fun a b => inferInstanceAs (Decidable (Text.atMost a.1 b.1))

instance : Std.Total ByKey := ⟨fun a b => Std.Total.total a.1 b.1⟩

instance : IsTrans (String × Value) ByKey := ⟨fun _ _ _ hab hbc => IsTrans.trans (r := Text.atMost) _ _ _ hab hbc⟩

mutual

/-- The document with the keys of every object in order. -/
def canonical : Value → Value
  | .null => .null
  | .string text => .string text
  | .number text => .number text
  | .bool b => .bool b
  | .date text => .date text
  | .array values => .array (canonicalAll values)
  | .object entries => .object (canonicalEntries entries)

def canonicalAll : List Value → List Value
  | [] => []
  | first :: rest => canonical first :: canonicalAll rest

def canonicalEntries : List (String × Value) → List (String × Value)
  | [] => []
  | (key, held) :: rest => List.orderedInsert ByKey (key, canonical held) (canonicalEntries rest)

end

/-- The same document, up to the order of keys. -/
def Alike (a b : Value) : Prop := a.canonical = b.canonical

theorem canonicalAll_eq (values : List Value) : canonicalAll values = values.map canonical := by
  induction values with
  | nil => rw [canonicalAll]; rfl
  | cons first rest ih => rw [canonicalAll, ih]; rfl

theorem canonicalEntries_eq (entries : List (String × Value)) :
    canonicalEntries entries = (entries.map fun entry => (entry.1, entry.2.canonical)).insertionSort ByKey := by
  induction entries with
  | nil => rw [canonicalEntries]; rfl
  | cons entry rest ih => rw [canonicalEntries, ih]; rfl

/-- Entries of distinct keys may come in any order. -/
theorem canonicalEntries_perm {a b : List (String × Value)}
    (h : (a.map fun entry => (entry.1, entry.2.canonical)).Perm (b.map fun entry => (entry.1, entry.2.canonical)))
    (hkeys : (a.map Prod.fst).Nodup) : canonicalEntries a = canonicalEntries b := by
  rw [canonicalEntries_eq, canonicalEntries_eq]
  have hsorted := (List.perm_insertionSort ByKey _).trans (h.trans (List.perm_insertionSort ByKey _).symm)
  have hfst : ((a.map fun entry => (entry.1, entry.2.canonical)).map Prod.fst).Nodup := by
    simpa [List.map_map, Function.comp_def] using hkeys
  refine hsorted.eq_of_pairwise ?_ (List.pairwise_insertionSort _ _) (List.pairwise_insertionSort _ _)
  intro x y hx hy hxy hyx
  have hkey : x.1 = y.1 := Text.eq_of_not_less (by simpa [ByKey, Text.atMost] using hyx)
    (by simpa [ByKey, Text.atMost] using hxy)
  have hx' := (List.mem_insertionSort _).mp hx
  have hy' := h.mem_iff.mpr ((List.mem_insertionSort _).mp hy)
  exact List.inj_on_of_nodup_map hfst hx' hy' hkey

theorem lookup_cons_if (k key : String) (held : Value) (rest : List (String × Value)) :
    ((key, held) :: rest).lookup k = if k = key then some held else rest.lookup k := by
  rw [List.lookup_cons]
  by_cases h : k = key
  · rw [if_pos h, beq_iff_eq.mpr h]
  · rw [if_neg h, beq_eq_false_iff_ne.mpr h]

theorem lookup_orderedInsert (k key : String) (held : Value) (entries : List (String × Value)) :
    (List.orderedInsert ByKey (key, held) entries).lookup k = if k = key then some held else entries.lookup k := by
  induction entries with
  | nil => exact lookup_cons_if k key held []
  | cons entry rest ih =>
    rw [List.orderedInsert]
    split
    · exact lookup_cons_if k key held _
    · rename_i hlater
      have hne : entry.1 ≠ key := fun heq => hlater (by
        show Text.atMost key entry.1
        rw [heq, Text.atMost, Text.less_irrefl]
        simp)
      rw [lookup_cons_if k entry.1 entry.2, ih, lookup_cons_if k entry.1 entry.2]
      by_cases h : k = key
      · rw [if_pos h, if_neg fun heq => hne (heq.symm.trans h), if_pos h]
      · rw [if_neg h, if_neg h]

theorem lookup_canonicalEntries (k : String) (entries : List (String × Value)) :
    (canonicalEntries entries).lookup k = (entries.lookup k).map canonical := by
  induction entries with
  | nil => rw [canonicalEntries]; rfl
  | cons entry rest ih =>
    rw [canonicalEntries, lookup_orderedInsert, ih, lookup_cons_if k entry.1 entry.2]
    split <;> rfl

/-- A schema that does not see the order of keys. -/
def Stable {α : Type} (schema : Value → Option α) : Prop := ∀ v, schema v.canonical = schema v

section Schemas

variable {α : Type} {schema : Value → Option α}

theorem Stable.alike (h : Stable schema) {a b : Value} (hab : Alike a b) : schema a = schema b := by
  rw [← h a, ← h b, hab]

theorem stable_asString : Stable asString := fun v => by cases v <;> rw [canonical] <;> rfl
theorem stable_asNumber : Stable asNumber := fun v => by cases v <;> rw [canonical] <;> rfl
theorem stable_asBool : Stable asBool := fun v => by cases v <;> rw [canonical] <;> rfl

theorem stable_asArray (h : Stable schema) : Stable (asArray schema) := by
  intro v
  cases v with
  | array values =>
    rw [canonical, canonicalAll_eq, asArray, asArray, List.mapM_map]
    exact congrArg (values.mapM ·) (funext h)
  | _ => rw [canonical] <;> rfl

theorem stable_required (h : Stable schema) (key : String) : Stable (required schema key) := by
  intro v
  cases v with
  | object entries =>
    rw [canonical, required, required, lookup_canonicalEntries]
    cases entries.lookup key with
    | none => rfl
    | some held => exact h held
  | _ => rw [canonical] <;> rfl

theorem stable_optionalKey (h : Stable schema) (key : String) : Stable (optionalKey schema key) := by
  intro v
  cases v with
  | object entries =>
    rw [canonical, optionalKey, optionalKey, lookup_canonicalEntries]
    cases entries.lookup key with
    | none => rfl
    | some held => simp only [Option.map_some, h held]
  | _ => rw [canonical] <;> rfl

end Schemas

end Value

/-! ### The document of a tree -/

def ofScalar : Toml.Scalar → Value
  | .string text => .string text
  | .integer n => .number (toString n)
  | .bool b => .bool b

mutual

/-- A document of the reader, as JavaScript has it. -/
def ofNode : Toml.Node → Value
  | .value (.scalar held) => ofScalar held
  | .value (.array values) => .array (values.map ofScalar)
  | .table _ entries => .object (ofEntries entries)
  | .tables elements => .array (ofElements elements)

def ofEntries : Toml.Entries → List (String × Value)
  | [] => []
  | (key, node) :: rest => (key, ofNode node) :: ofEntries rest

def ofElements : List Toml.Entries → List Value
  | [] => []
  | entries :: rest => .object (ofEntries entries) :: ofElements rest

end

def TomlValue.document : TomlValue → Value
  | .string text => .string text
  | .number text => .number text
  | .bool b => .bool b
  | .strings values => .array (values.map .string)

mutual

/-- What a tree of the writer says. -/
def TomlItem.document : TomlItem → Value
  | .value held => held.document
  | .table entries => .object (documentEntries entries)
  | .tables tables => .array (documentTables tables)

def documentEntries : TomlEntries → List (String × Value)
  | [] => []
  | (key, item) :: rest => (key, item.document) :: documentEntries rest

def documentTables : List TomlEntries → List Value
  | [] => []
  | entries :: rest => .object (documentEntries entries) :: documentTables rest

end

mutual

/-- Whole numbers that a double holds exactly. -/
def Exact : Toml.Node → Prop
  | .value (.scalar (.integer n)) => n.natAbs < 2 ^ 53
  | .value _ => True
  | .table _ entries => ExactEntries entries
  | .tables elements => ExactElements elements

def ExactEntries : Toml.Entries → Prop
  | [] => True
  | (_, node) :: rest => Exact node ∧ ExactEntries rest

def ExactElements : List Toml.Entries → Prop
  | [] => True
  | entries :: rest => ExactEntries entries ∧ ExactElements rest

end

theorem ofEntries_eq (entries : Toml.Entries) : ofEntries entries = entries.map fun entry => (entry.1, ofNode entry.2) := by
  induction entries with
  | nil => rw [ofEntries]; rfl
  | cons entry rest ih => rw [ofEntries, ih]; rfl

theorem documentEntries_eq (entries : TomlEntries) :
    documentEntries entries = entries.map fun entry => (entry.1, entry.2.document) := by
  induction entries with
  | nil => rw [documentEntries]; rfl
  | cons entry rest ih => rw [documentEntries, ih]; rfl

theorem exactEntries_iff {entries : Toml.Entries} : ExactEntries entries ↔ ∀ entry ∈ entries, Exact entry.2 := by
  induction entries with
  | nil => simp [ExactEntries]
  | cons entry rest ih => simp [ExactEntries, ih]

theorem ofNode_literal {held : TomlValue} (h : held.Valid) : ofNode (.value held.literal) = held.document := by
  cases held with
  | string text => rw [TomlValue.literal, ofNode]; rfl
  | number text =>
    obtain ⟨n, rfl, -⟩ := h
    rw [TomlValue.literal, integer_toString, ofNode]
    rfl
  | bool b => rw [TomlValue.literal, ofNode]; rfl
  | strings values =>
    rw [TomlValue.literal, ofNode, List.map_map]
    rfl

theorem exact_literal {held : TomlValue} (h : held.Valid) : Exact (.value held.literal) := by
  cases held with
  | number text =>
    obtain ⟨n, rfl, hn⟩ := h
    rw [TomlValue.literal, integer_toString, Exact]
    exact hn
  | _ => rw [TomlValue.literal, Exact] <;> simp

mutual

theorem alike_item : ∀ {item : TomlItem}, item.Valid →
    (ofNode item.node).canonical = item.document.canonical ∧ Exact item.node
  | .value held, h => by
    rw [TomlItem.Valid] at h
    have hnode : TomlItem.node (.value held) = .value held.literal := rfl
    rw [hnode, ofNode_literal h, TomlItem.document]
    exact ⟨rfl, exact_literal h⟩
  | .table entries, h => by
    rw [TomlItem.Valid] at h
    obtain ⟨halike, hexact⟩ := alike_arranged h.1 h.2
    have hnode : TomlItem.node (.table entries) = .table (headed entries) (arranged entries) := by
      simp [TomlItem.node, TomlItem.own, itemNodes, arranged]
    rw [hnode, ofNode, TomlItem.document, Exact, Value.canonical, Value.canonical, halike]
    exact ⟨rfl, hexact⟩
  | .tables [], _ => by
    have hnode : TomlItem.node (.tables []) = .value (.array []) := rfl
    rw [hnode, ofNode, TomlItem.document, documentTables, Exact]
    · exact ⟨rfl, trivial⟩
    · simp
  | .tables (entries :: rest), h => by
    rw [TomlItem.Valid] at h
    obtain ⟨halike, hexact⟩ := alike_tables h
    have hnode : TomlItem.node (.tables (entries :: rest)) = .tables (tableNodes (entries :: rest)) := by
      simp [TomlItem.node, TomlItem.own, itemNodes, tableNodes]
    rw [hnode, ofNode, TomlItem.document, Exact, Value.canonical, Value.canonical, halike]
    exact ⟨rfl, hexact⟩

theorem alike_tables : ∀ {tables : List TomlEntries}, ValidTables tables →
    Value.canonicalAll (ofElements (tableNodes tables)) = Value.canonicalAll (documentTables tables) ∧
      ExactElements (tableNodes tables)
  | [], _ => by
    rw [tableNodes, ofElements, documentTables, ExactElements]
    exact ⟨rfl, trivial⟩
  | entries :: rest, h => by
    rw [ValidTables] at h
    obtain ⟨halike, hexact⟩ := alike_arranged h.1.1 h.1.2
    obtain ⟨hrest, hrestExact⟩ := alike_tables h.2
    rw [arranged] at halike hexact
    rw [tableNodes, ofElements, documentTables, ExactElements, Value.canonicalAll, Value.canonicalAll,
      Value.canonical, Value.canonical, halike, hrest]
    exact ⟨rfl, hexact, hrestExact⟩

theorem alike_arranged : ∀ {entries : TomlEntries}, (entries.map Prod.fst).Nodup → ValidEntries entries →
    Value.canonicalEntries (ofEntries (arranged entries)) = Value.canonicalEntries (documentEntries entries) ∧
      ExactEntries (arranged entries) := by
  intro entries hkeys hvalid
  have hmembers := alike_members hvalid
  have hperm := arranged_perm entries
  constructor
  · refine Value.canonicalEntries_perm ?_ ?_
    · rw [ofEntries_eq, documentEntries_eq, List.map_map, List.map_map]
      refine (hperm.map _).trans (List.Perm.of_eq ?_)
      rw [List.map_map]
      exact List.map_congr_left fun entry hentry => Prod.ext rfl (hmembers entry hentry).1
    · rw [ofEntries_eq, List.map_map]
      exact arranged_nodup hkeys
  · rw [exactEntries_iff]
    intro entry hentry
    obtain ⟨origin, horigin, rfl⟩ := List.mem_map.mp (hperm.mem_iff.mp hentry)
    exact (hmembers origin horigin).2

theorem alike_members : ∀ {entries : TomlEntries}, ValidEntries entries → ∀ entry ∈ entries,
    (ofNode entry.2.node).canonical = entry.2.document.canonical ∧ Exact entry.2.node
  | [], _, entry, hentry => absurd hentry List.not_mem_nil
  | (name, item) :: rest, h, entry, hentry => by
    rw [ValidEntries] at h
    rcases List.mem_cons.mp hentry with rfl | hentry
    · exact alike_item h.1
    · exact alike_members h.2 entry hentry

end

end Akua
