import Akua.CommandInputs
import Akua.Lib.JsonSchema

/-! Looking a workspace up among those that the API lists page by page. The server chooses the cursors, so
    the listing ends only when it comes to a last page; and the lookup counts rows, so a workspace that
    stands on two pages is not found. -/

namespace Akua.Workspaces

/-! ### Pages -/

structure Workspace where
  id : String
  name : String
  slug : Option String
  state : Option String
deriving DecidableEq

structure WorkspacePage where
  data : List Workspace
  has_more : Option Bool
  next_cursor : Option String

def struct : Json → Option (List (String × Json))
  | .object entries => some entries
  | _ => none

def string : Json → Option String
  | .string value => some value
  | _ => none

def boolean : Json → Option Bool
  | .bool value => some value
  | _ => none

/-- A key that must be there. -/
def key {α : Type} (name : String) (decode : Json → Option α) (entries : List (String × Json)) : Option α :=
  (entries.lookup name).bind decode

/-- `Schema.optionalKey`. -/
def optionalKey {α : Type} (name : String) (decode : Json → Option α) (entries : List (String × Json)) :
    Option (Option α) :=
  match entries.lookup name with
  | none => some none
  | some value => (decode value).map some

/-- `Schema.optionalKey(Schema.NullOr(..))`; a null counts as absent. -/
def nullableKey {α : Type} (name : String) (decode : Json → Option α) (entries : List (String × Json)) :
    Option (Option α) :=
  match entries.lookup name with
  | none => some none
  | some .null => some none
  | some value => (decode value).map some

/-- A row of a page, and the workspace that is made of it. -/
def decodeRow (row : Json) : Option Workspace := do
  let entries ← struct row
  let id ← key "id" string entries
  let name ← key "name" string entries
  let slug ← nullableKey "slug" string entries
  let lifecycle ← optionalKey "lifecycle" struct entries
  let state ← match lifecycle with
    | none => some none
    | some entries => optionalKey "state" string entries
  some { id, name, slug, state }

/-- `Schema.decodeUnknownOption(WorkspacePage)`. -/
def decodePage (value : Json) : Option WorkspacePage := do
  let entries ← struct value
  let data ← key "data" (fun
    | .array rows => rows.mapM decodeRow
    | _ => none) entries
  let has_more ← optionalKey "has_more" boolean entries
  let next_cursor ← nullableKey "next_cursor" string entries
  some { data, has_more, next_cursor }

/-- The cursor of the next page. -/
def WorkspacePage.next (page : WorkspacePage) : Option String :=
  if page.has_more = some true then page.next_cursor else none

/-! ### The lookup -/

/-- What `api.execute` gives. -/
inductive ApiResult where
  | value (value : Json)
  | other

inductive Failure (ε : Type) where
  /-- The request is refused, or the API fails. -/
  | api (error : ε)
  /-- `reason: 'response'`. -/
  | response
  /-- `reason: 'workspace'`. -/
  | workspace (detail : String)

section Lookup

variable {ε : Type} (execute : Option String → Except ε ApiResult)

/-- The pages from a cursor on; `execute` makes and sends the request for one. Nothing, when the fuel
    runs out. -/
def listFrom : Nat → Option String → List Workspace → Option (Except (Failure ε) (List Workspace))
  | 0, _, _ => none
  | fuel + 1, cursor, workspaces =>
    match execute cursor with
    | .error error => some (.error (.api error))
    | .ok .other => some (.error .response)
    | .ok (.value value) =>
      match decodePage value with
      | none => some (.error .response)
      | some page =>
        match page.next with
        | some next => listFrom fuel (some next) (workspaces ++ page.data)
        | none => some (.ok (workspaces ++ page.data))

/-- Every workspace the caller can access, across all pages. -/
def listWorkspaces (fuel : Nat) : Option (Except (Failure ε) (List Workspace)) :=
  listFrom execute fuel none []

def isExact (reference : String) (workspace : Workspace) : Bool :=
  workspace.id = reference || workspace.slug = some reference

def isNamed (casing : Text.Casing) (reference : String) (workspace : Workspace) : Bool :=
  Text.toLowerCase casing workspace.name = Text.toLowerCase casing reference

/-- The rows that match the reference. -/
def matching (casing : Text.Casing) (reference : String) (workspaces : List Workspace) : List Workspace :=
  let exact := workspaces.filter (isExact reference)
  if 0 < exact.length then exact else workspaces.filter (isNamed casing reference)

/-- The row that matches, if it is the only one. -/
def choose (casing : Text.Casing) (reference : String) (workspaces : List Workspace) :
    Except (Failure ε) Workspace :=
  match matching casing reference workspaces with
  | [] => .error (.workspace s!"No workspace matches \"{reference}\".")
  | [workspace] => .ok workspace
  | found => .error (.workspace (s!"\"{reference}\" matches {found.length} workspaces: " ++
      ", ".intercalate (found.map Workspace.id) ++ ". Use the ID."))

def findWorkspace (casing : Text.Casing) (reference : String) (fuel : Nat) :
    Option (Except (Failure ε) Workspace) :=
  (listWorkspaces execute fuel).map fun listed => listed.bind (choose casing reference)

end Lookup

/-! ### Servers -/

/-- A server that answers every cursor with a page. -/
structure Server where
  answer : Option String → Json
  page : Option String → WorkspacePage
  decodes : ∀ cursor, decodePage (answer cursor) = some (page cursor)

variable (server : Server)

def Server.execute (cursor : Option String) : Except Empty ApiResult := .ok (.value (server.answer cursor))

/-- The cursors that following leads to. -/
inductive Server.Reached : Option String → Prop where
  | first : Server.Reached none
  | next {cursor : Option String} {next : String} : Server.Reached cursor →
      (server.page cursor).next = some next → Server.Reached (some next)

/-- The workspace stands in a row of some page. -/
def Server.Serves (workspace : Workspace) : Prop :=
  ∃ cursor, server.Reached cursor ∧ workspace ∈ (server.page cursor).data

/-- The workspace with this id is the only one of those that match. -/
def Server.Only (p : Workspace → Bool) (id : String) : Prop :=
  (∃ workspace, server.Serves workspace ∧ p workspace) ∧
    ∀ workspace, server.Serves workspace → p workspace → workspace.id = id

/-- The workspace is the only one with the reference as its id or slug, or none has it and it is the only
    one of that name. -/
def Server.OnlyMatch (casing : Text.Casing) (reference id : String) : Prop :=
  server.Only (isExact reference) id ∨
    ((∀ workspace, server.Serves workspace → ¬ isExact reference workspace) ∧ server.Only (isNamed casing reference) id)

/-- The listing ends, and the lookup gives a workspace just when it is the only match. -/
structure LooksUp (casing : Text.Casing) (reference : String) : Prop where
  ends : ∃ fuel, (listWorkspaces server.execute fuel).isSome
  finds : ∀ id, (∃ fuel workspace, findWorkspace server.execute casing reference fuel = some (.ok workspace) ∧
    workspace.id = id) ↔ server.OnlyMatch casing reference id

/-! ### Following the cursors -/

/-- The cursor after so many pages, none behind the last page. -/
def Server.after : Nat → Option (Option String) → Option (Option String)
  | 0, cursor => cursor
  | n + 1, cursor => Server.after n (cursor.bind fun cursor => (server.page cursor).next.map some)

/-- The rows of so many pages. -/
def Server.rows : Nat → Option (Option String) → List Workspace
  | 0, _ => []
  | _, none => []
  | n + 1, some cursor => (server.page cursor).data ++ Server.rows n ((server.page cursor).next.map some)

@[simp] theorem after_none (n : Nat) : server.after n none = none := by
  induction n with
  | zero => rfl
  | succ n ih => exact ih

@[simp] theorem rows_none (n : Nat) : server.rows n none = [] := by
  cases n <;> rfl

theorem after_add (n m : Nat) (cursor : Option (Option String)) :
    server.after (n + m) cursor = server.after m (server.after n cursor) := by
  induction n generalizing cursor with
  | zero => rw [Nat.zero_add]; rfl
  | succ n ih => rw [Nat.succ_add, Server.after, ih, Server.after]

theorem rows_add (n m : Nat) (cursor : Option (Option String)) :
    server.rows (n + m) cursor = server.rows n cursor ++ server.rows m (server.after n cursor) := by
  induction n generalizing cursor with
  | zero => rw [Nat.zero_add]; rfl
  | succ n ih =>
    cases cursor with
    | none => simp
    | some cursor => rw [Nat.succ_add, Server.rows, ih, Server.rows, Server.after, List.append_assoc, Option.bind_some]

/-- Behind the last page there are no more rows. -/
theorem rows_of_end {n m : Nat} {cursor : Option (Option String)} (hn : server.after n cursor = none)
    (hm : server.after m cursor = none) : server.rows n cursor = server.rows m cursor := by
  rcases Nat.le_total n m with h | h
  · obtain ⟨k, rfl⟩ := Nat.exists_eq_add_of_le h
    rw [rows_add, hn, rows_none, List.append_nil]
  · obtain ⟨k, rfl⟩ := Nat.exists_eq_add_of_le h
    rw [rows_add, hm, rows_none, List.append_nil]

/-- A cursor that comes back comes back again and again. -/
theorem after_of_repeat {i k : Nat} {cursor : Option String} (hfirst : server.after i (some none) = some cursor)
    (hagain : server.after (k + 1) (some cursor) = some cursor) (n : Nat) : server.after n (some none) ≠ none := by
  have hround : ∀ m, server.after (m * (k + 1)) (some cursor) = some cursor := by
    intro m
    induction m with
    | zero => rw [Nat.zero_mul]; rfl
    | succ m ih => rw [Nat.succ_mul, after_add, ih, hagain]
  intro hnone
  have hlate : server.after (i + n * (k + 1)) (some none) = some cursor := by rw [after_add, hfirst, hround]
  have hlong : n ≤ i + n * (k + 1) := le_trans (Nat.le_mul_of_pos_right n (Nat.succ_pos k)) (Nat.le_add_left _ _)
  obtain ⟨m, hm⟩ := Nat.exists_eq_add_of_le hlong
  rw [hm, after_add, hnone, after_none] at hlate
  cases hlate

theorem reached_iff (cursor : Option String) :
    server.Reached cursor ↔ ∃ i, server.after i (some none) = some cursor := by
  constructor
  · intro h
    induction h with
    | first => exact ⟨0, rfl⟩
    | next _ hnext ih =>
      obtain ⟨i, hi⟩ := ih
      refine ⟨i + 1, ?_⟩
      rw [after_add, hi, Server.after, Option.bind_some, hnext]
      rfl
  · rintro ⟨i, hi⟩
    induction i generalizing cursor with
    | zero =>
      obtain rfl : none = cursor := Option.some.inj hi
      exact .first
    | succ i ih =>
      rw [after_add] at hi
      cases hbefore : server.after i (some none) with
      | none =>
        rw [hbefore, after_none] at hi
        cases hi
      | some before =>
        rw [hbefore, Server.after, Option.bind_some] at hi
        obtain ⟨next, hnext, rfl⟩ := Option.map_eq_some_iff.mp (show (server.page before).next.map some = some cursor from hi)
        exact .next (ih before hbefore) hnext

theorem mem_rows {n : Nat} {start : Option (Option String)} {workspace : Workspace} :
    workspace ∈ server.rows n start ↔
      ∃ i < n, ∃ cursor, server.after i start = some cursor ∧ workspace ∈ (server.page cursor).data := by
  induction n generalizing start with
  | zero => simp [Server.rows]
  | succ n ih =>
    cases start with
    | none => simp
    | some first =>
      rw [Server.rows, List.mem_append, ih]
      constructor
      · rintro (hfirst | ⟨i, hi, cursor, hcursor, hmem⟩)
        · exact ⟨0, Nat.succ_pos n, first, rfl, hfirst⟩
        · exact ⟨i + 1, Nat.succ_lt_succ hi, cursor, hcursor, hmem⟩
      · rintro ⟨i, hi, cursor, hcursor, hmem⟩
        cases i with
        | zero =>
          obtain rfl : first = cursor := Option.some.inj hcursor
          exact Or.inl hmem
        | succ i => exact Or.inr ⟨i, Nat.lt_of_succ_lt_succ hi, cursor, hcursor, hmem⟩

/-- Behind the last page nothing is served. -/
theorem serves_iff {n : Nat} (h : server.after n (some none) = none) (workspace : Workspace) :
    server.Serves workspace ↔ workspace ∈ server.rows n (some none) := by
  rw [mem_rows]
  constructor
  · rintro ⟨cursor, hreached, hmem⟩
    obtain ⟨i, hi⟩ := (reached_iff server cursor).mp hreached
    refine ⟨i, ?_, cursor, hi, hmem⟩
    by_contra hle
    obtain ⟨m, rfl⟩ := Nat.exists_eq_add_of_le (Nat.le_of_not_lt hle)
    rw [after_add, h, after_none] at hi
    cases hi
  · rintro ⟨i, -, cursor, hi, hmem⟩
    exact ⟨cursor, (reached_iff server cursor).mpr ⟨i, hi⟩, hmem⟩

/-- The listing has the rows of the pages up to the last. -/
theorem listFrom_eq (fuel : Nat) (cursor : Option String) (workspaces : List Workspace) :
    listFrom server.execute fuel cursor workspaces =
      if server.after fuel (some cursor) = none then some (.ok (workspaces ++ server.rows fuel (some cursor))) else none := by
  induction fuel generalizing cursor workspaces with
  | zero => rfl
  | succ fuel ih =>
    rw [listFrom, Server.execute]
    dsimp only
    rw [server.decodes cursor]
    dsimp only
    rw [Server.after, Server.rows, Option.bind_some]
    cases hnext : (server.page cursor).next with
    | none => simp
    | some next => simp [ih]

theorem listWorkspaces_eq (fuel : Nat) : listWorkspaces server.execute fuel =
    if server.after fuel (some none) = none then some (.ok (server.rows fuel (some none))) else none := by
  rw [listWorkspaces, listFrom_eq]
  rfl

/-! ### The only match -/

section Rows

variable {server} {casing : Text.Casing} {reference : String} {workspaces : List Workspace}

theorem choose_eq_ok {ε : Type} {workspace : Workspace} :
    (choose casing reference workspaces : Except (Failure ε) Workspace) = .ok workspace ↔
      matching casing reference workspaces = [workspace] := by
  rw [choose]
  split <;> simp_all

/-- The only match, by the rows of a listing that ended. -/
theorem onlyMatch_iff (hserves : ∀ workspace, server.Serves workspace ↔ workspace ∈ workspaces) (id : String) :
    server.OnlyMatch casing reference id ↔
      matching casing reference workspaces ≠ [] ∧ ∀ workspace ∈ matching casing reference workspaces, workspace.id = id := by
  have honly (p : Workspace → Bool) : server.Only p id ↔
      workspaces.filter p ≠ [] ∧ ∀ workspace ∈ workspaces.filter p, workspace.id = id := by
    simp [Server.Only, hserves, List.filter_eq_nil_iff]
  rw [Server.OnlyMatch, honly, honly, matching]
  by_cases hexact : workspaces.filter (isExact reference) = []
  · have hnone : ∀ workspace, server.Serves workspace → ¬ isExact reference workspace = true := fun workspace hmem =>
      List.filter_eq_nil_iff.mp hexact workspace ((hserves workspace).mp hmem)
    simp only [hexact, List.length_nil, lt_irrefl, if_false, ne_eq, not_true_eq_false, false_and, false_or]
    exact and_iff_right hnone
  · have hsome : ¬ ∀ workspace, server.Serves workspace → ¬ isExact reference workspace = true := fun hnone =>
      hexact (List.filter_eq_nil_iff.mpr fun workspace hmem => hnone workspace ((hserves workspace).mpr hmem))
    rw [if_pos (List.length_pos_iff.mpr hexact)]
    simp only [hsome, false_and, or_false]

end Rows

/-- No workspace that is the only match stands in two rows. -/
def NoneTwice (matches' : List Workspace) : Prop :=
  2 ≤ matches'.length → ∃ a ∈ matches', ∃ b ∈ matches', a.id ≠ b.id

/-- One row is found just when its workspace is the only match, unless it stands in several rows. -/
theorem single_iff {found : List Workspace} :
    (∀ id, (∃ workspace, found = [workspace] ∧ workspace.id = id) ↔ found ≠ [] ∧ ∀ workspace ∈ found, workspace.id = id) ↔
      NoneTwice found := by
  rcases found with _ | ⟨first, _ | ⟨second, rest⟩⟩
  · simp [NoneTwice]
  · simp [NoneTwice]
  · constructor
    · intro h _
      by_contra hsame
      push Not at hsame
      obtain ⟨workspace, hsingle, -⟩ := (h first.id).mpr ⟨List.cons_ne_nil _ _, fun workspace hmem =>
        hsame workspace hmem first List.mem_cons_self⟩
      cases hsingle
    · intro htwice id
      obtain ⟨a, ha, b, hb, hne⟩ := htwice (by simp)
      refine iff_of_false (by rintro ⟨workspace, hsingle, -⟩; cases hsingle) fun h => hne ?_
      rw [h.2 a ha, h.2 b hb]

/-- Which rows match is seen from the rows with that id or slug, and from those with that name when there
    are none. -/
theorem noneTwice_matching {casing : Text.Casing} {reference : String} {rows : List Workspace} :
    NoneTwice (matching casing reference rows) ↔ NoneTwice (rows.filter (isExact reference)) ∧
      ((∀ row ∈ rows, ¬ isExact reference row) → NoneTwice (rows.filter (isNamed casing reference))) := by
  rw [matching]
  by_cases hexact : rows.filter (isExact reference) = []
  · have hnone := List.filter_eq_nil_iff.mp hexact
    simp only [hexact, List.length_nil, lt_irrefl, if_false]
    constructor
    · intro h
      exact ⟨fun hlength => absurd hlength (by simp), fun _ => h⟩
    · rintro ⟨-, h⟩
      exact h hnone
  · rw [if_pos (List.length_pos_iff.mpr hexact)]
    constructor
    · intro h
      exact ⟨h, fun hnone => absurd (List.filter_eq_nil_iff.mpr hnone) hexact⟩
    · rintro ⟨h, -⟩
      exact h

theorem listWorkspaces_isSome (fuel : Nat) :
    (listWorkspaces server.execute fuel).isSome ↔ server.after fuel (some none) = none := by
  rw [listWorkspaces_eq]
  split <;> simp_all

/-- The lookup chooses among the rows of the pages up to the last. -/
theorem findWorkspace_eq_ok {casing : Text.Casing} {reference : String} {n : Nat}
    (hn : server.after n (some none) = none) (workspace : Workspace) :
    (∃ fuel, findWorkspace server.execute casing reference fuel = some (.ok workspace)) ↔
      matching casing reference (server.rows n (some none)) = [workspace] := by
  have hfind {fuel : Nat} (hfuel : server.after fuel (some none) = none) :
      findWorkspace server.execute casing reference fuel = some (choose casing reference (server.rows n (some none))) := by
    rw [findWorkspace, listWorkspaces_eq, if_pos hfuel, rows_of_end server hfuel hn]
    rfl
  rw [← choose_eq_ok (ε := Empty)]
  constructor
  · rintro ⟨fuel, hfound⟩
    have hfuel : server.after fuel (some none) = none := by
      rw [← listWorkspaces_isSome]
      cases hlist : listWorkspaces server.execute fuel with
      | none =>
        rw [findWorkspace, hlist] at hfound
        cases hfound
      | some listed => rfl
    rw [hfind hfuel] at hfound
    exact Option.some.inj hfound
  · intro hchoose
    exact ⟨n, by rw [hfind hn, hchoose]⟩

/-- The lookup does what it should just when following the cursors comes to an end, and no workspace that is
    the only one with the reference as its id or slug, or failing that as its name, stands in two rows. -/
theorem looks_up_iff (casing : Text.Casing) (reference : String) : LooksUp server casing reference ↔
    ∃ n, server.after n (some none) = none ∧
      NoneTwice ((server.rows n (some none)).filter (isExact reference)) ∧
      ((∀ row ∈ server.rows n (some none), ¬ isExact reference row) →
        NoneTwice ((server.rows n (some none)).filter (isNamed casing reference))) := by
  simp only [← noneTwice_matching]
  have hfinds {n : Nat} (hn : server.after n (some none) = none) :
      (∀ id, (∃ fuel workspace, findWorkspace server.execute casing reference fuel = some (.ok workspace) ∧
        workspace.id = id) ↔ server.OnlyMatch casing reference id) ↔
        NoneTwice (matching casing reference (server.rows n (some none))) := by
    rw [← single_iff]
    refine forall_congr' fun id => ?_
    rw [onlyMatch_iff (serves_iff server hn), exists_comm]
    simp only [exists_and_right, findWorkspace_eq_ok server hn]
  constructor
  · rintro ⟨⟨n, hn⟩, hall⟩
    have hend := (listWorkspaces_isSome server n).mp hn
    exact ⟨n, hend, (hfinds hend).mp hall⟩
  · rintro ⟨n, hn, htwice⟩
    exact ⟨⟨n, (listWorkspaces_isSome server n).mpr hn⟩, (hfinds hn).mpr htwice⟩

/-! ### A row on two pages -/

/-- A page with one workspace. -/
def pageOf (next : List (String × Json)) : Json :=
  .object ([("data", .array [.object [("id", .string "ws_1"), ("name", .string "Team")]])] ++ next)

/-- Two pages, and the workspace on both. -/
def shifted : Server where
  answer
    | none => pageOf [("has_more", .bool true), ("next_cursor", .string "2")]
    | some _ => pageOf []
  page
    | none => ⟨[⟨"ws_1", "Team", none, none⟩], some true, some "2"⟩
    | some _ => ⟨[⟨"ws_1", "Team", none, none⟩], none, none⟩
  decodes
    | none => rfl
    | some _ => rfl

/-- The workspace is the only one, and is found neither by its name nor by its id. -/
theorem shifted_not_found : ¬ LooksUp shifted Api.asciiCasing "ws_1" := by
  intro h
  have hend : shifted.after 2 (some none) = none := rfl
  have honly : shifted.OnlyMatch Api.asciiCasing "ws_1" "ws_1" :=
    (onlyMatch_iff (serves_iff shifted hend) "ws_1").mpr (by decide)
  obtain ⟨fuel, workspace, hfound, -⟩ := (h.finds "ws_1").mpr honly
  have hsingle := (findWorkspace_eq_ok shifted hend workspace).mp ⟨fuel, hfound⟩
  have hlength : (matching Api.asciiCasing "ws_1" (shifted.rows 2 (some none))).length = 1 :=
    congrArg List.length hsingle
  exact absurd hlength (by decide)

/-- Of a server whose cursors come round, no fuel is enough to list the pages. -/
theorem endless_of_repeat {i k : Nat} {cursor : Option String} (hfirst : server.after i (some none) = some cursor)
    (hagain : server.after (k + 1) (some cursor) = some cursor) (fuel : Nat) :
    listWorkspaces server.execute fuel = none := by
  rw [listWorkspaces_eq, if_neg (after_of_repeat server hfirst hagain fuel)]

/-- A server that answers every cursor with the same page. -/
def circling : Server where
  answer _ := pageOf [("has_more", .bool true), ("next_cursor", .string "2")]
  page _ := ⟨[⟨"ws_1", "Team", none, none⟩], some true, some "2"⟩
  decodes _ := rfl

example (fuel : Nat) : listWorkspaces circling.execute fuel = none :=
  endless_of_repeat circling (i := 1) (k := 0) rfl rfl fuel

end Akua.Workspaces
