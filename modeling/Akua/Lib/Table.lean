import Mathlib.Data.List.Nodup
import Mathlib.Data.List.Basic

/-! Finite maps in insertion order, as JavaScript's `Map` and plain objects are: a list of entries
    whose keys are distinct. That is a field, so a map with two values for one key cannot be
    built, and membership and lookup are the same thing (`get?_eq_some`). -/

/-- A finite map from `κ` to `α`, in insertion order. -/
structure Table (κ α : Type) where
  entries : List (κ × α)
  nodup : (entries.map Prod.fst).Nodup

namespace Table

variable {κ α β : Type}

@[ext] theorem ext {s t : Table κ α} (h : s.entries = t.entries) : s = t := by
  cases s; cases t; simp_all

/-- `map.keys()`. -/
def keys (t : Table κ α) : List κ := t.entries.map Prod.fst

/-- The map with the values changed by `f`. -/
def mapValues (f : κ → α → β) (t : Table κ α) : Table κ β where
  entries := t.entries.map fun p => (p.1, f p.1 p.2)
  nodup := by simpa [List.map_map, Function.comp_def] using t.nodup

@[simp] theorem keys_mapValues (f : κ → α → β) (t : Table κ α) : (t.mapValues f).keys = t.keys := by
  simp [keys, mapValues, List.map_map, Function.comp_def]

variable [DecidableEq κ]

instance [DecidableEq α] : DecidableEq (Table κ α) := fun _ _ => decidable_of_iff _ Table.ext_iff.symm

def empty : Table κ α := ⟨[], List.nodup_nil⟩

/-- `map.get(key)`. -/
def get? (t : Table κ α) (key : κ) : Option α := t.entries.lookup key

/-- `map.has(key)`. -/
def has (t : Table κ α) (key : κ) : Bool := (t.get? key).isSome

/-- Replace the value of `key` where it stands, or add it at the end. -/
def insert (key : κ) (value : α) : List (κ × α) → List (κ × α)
  | [] => [(key, value)]
  | (k, v) :: rest => if k = key then (key, value) :: rest else (k, v) :: insert key value rest

theorem insert_keys (key : κ) (value : α) : ∀ l : List (κ × α),
    (insert key value l).map Prod.fst =
      if key ∈ l.map Prod.fst then l.map Prod.fst else l.map Prod.fst ++ [key]
  | [] => by simp [insert]
  | (k, v) :: rest => by
      by_cases h : k = key
      · simp [insert, h]
      · have hk : ¬ key = k := fun he => h he.symm
        rw [insert, if_neg h, List.map_cons, insert_keys key value rest]
        simp only [List.map_cons, List.mem_cons, hk, false_or]
        split <;> simp

/-- `map.set(key, value)`. -/
def set (t : Table κ α) (key : κ) (value : α) : Table κ α where
  entries := insert key value t.entries
  nodup := by
    rw [insert_keys]
    split
    · exact t.nodup
    · rename_i h
      exact List.nodup_append.mpr ⟨t.nodup, List.nodup_singleton key, by
        rintro a ha _ (_ | ⟨_, ⟨⟩⟩) rfl
        exact h ha⟩

/-- `new Map(pairs)`: a later pair of the same key wins, in the place of the first. -/
def ofList (pairs : List (κ × α)) : Table κ α := pairs.foldl (fun t p => t.set p.1 p.2) empty

/-! ### Lookup -/

theorem lookup_eq_some : ∀ {l : List (κ × α)}, (l.map Prod.fst).Nodup → ∀ {k : κ} {v : α},
    l.lookup k = some v ↔ (k, v) ∈ l
  | [], _, _, _ => by simp
  | (k', v') :: rest, hnd, k, v => by
      obtain ⟨hk', hrest⟩ := List.nodup_cons.mp hnd
      by_cases h : k = k'
      · subst h
        have hnot : (k, v) ∉ rest := fun hm => hk' (List.mem_map.mpr ⟨_, hm, rfl⟩)
        simp [hnot, eq_comm]
      · have hb : (k == k') = false := by simpa using h
        rw [List.lookup_cons, hb]
        simp only [lookup_eq_some hrest, List.mem_cons, Prod.mk.injEq, h, false_and, false_or]

theorem get?_eq_some {t : Table κ α} {k : κ} {v : α} : t.get? k = some v ↔ (k, v) ∈ t.entries :=
  lookup_eq_some t.nodup

theorem get?_eq_none {t : Table κ α} {k : κ} : t.get? k = none ↔ k ∉ t.keys := by
  rw [Option.eq_none_iff_forall_not_mem]
  simp only [Option.mem_def, get?_eq_some, keys, List.mem_map, not_exists, not_and, Prod.forall]
  exact ⟨fun h k' v hm hk => h v (hk ▸ hm), fun h v hm => h k v hm rfl⟩

theorem has_iff {t : Table κ α} {k : κ} : t.has k = true ↔ k ∈ t.keys := by
  rw [has, ← Option.ne_none_iff_isSome, ne_eq, get?_eq_none, not_not]

theorem keys_set (t : Table κ α) (key : κ) (value : α) :
    (t.set key value).keys = if key ∈ t.keys then t.keys else t.keys ++ [key] :=
  insert_keys key value t.entries

/-- A map has the keys of the pairs it is made from. -/
theorem mem_keys_ofList {k : κ} {pairs : List (κ × α)} :
    k ∈ (ofList pairs).keys ↔ k ∈ pairs.map Prod.fst := by
  have hfold : ∀ (pairs : List (κ × α)) (t : Table κ α),
      k ∈ (pairs.foldl (fun t p => t.set p.1 p.2) t).keys ↔ k ∈ t.keys ∨ k ∈ pairs.map Prod.fst := by
    intro pairs
    induction pairs with
    | nil => simp
    | cons p pairs ih =>
      intro t
      rw [List.foldl_cons, ih, keys_set, List.map_cons, List.mem_cons]
      split
      · rename_i hmem
        constructor
        · rintro (h | h)
          · exact Or.inl h
          · exact Or.inr (Or.inr h)
        · rintro (h | rfl | h)
          · exact Or.inl h
          · exact Or.inl hmem
          · exact Or.inr h
      · rw [List.mem_append, List.mem_singleton, or_assoc]
  rw [ofList, hfold]
  simp [empty, keys]

theorem lookup_insert (key : κ) (value : α) (k : κ) : ∀ l : List (κ × α),
    (insert key value l).lookup k = if k = key then some value else l.lookup k
  | [] => by
      by_cases h : k = key
      · simp [insert, h]
      · simp [insert, List.lookup_cons, h, beq_eq_false_iff_ne.mpr h]
  | (k', v') :: rest => by
      by_cases hk' : k' = key
      · subst hk'
        by_cases h : k = k'
        · simp [insert, h]
        · simp [insert, List.lookup_cons, h, beq_eq_false_iff_ne.mpr h]
      · rw [insert, if_neg hk', List.lookup_cons, List.lookup_cons, lookup_insert key value k rest]
        by_cases h : k = k'
        · subst h; simp [hk']
        · rw [beq_eq_false_iff_ne.mpr h]

@[simp] theorem get?_set (t : Table κ α) (key k : κ) (value : α) :
    (t.set key value).get? k = if k = key then some value else t.get? k :=
  lookup_insert key value k t.entries

/-- A map has no entry but the pairs it is made from. -/
theorem mem_of_mem_ofList {pairs : List (κ × α)} {e : κ × α} (h : e ∈ (ofList pairs).entries) :
    e ∈ pairs := by
  have hfold : ∀ (pairs : List (κ × α)) (t : Table κ α),
      e ∈ (pairs.foldl (fun t p => t.set p.1 p.2) t).entries → e ∈ t.entries ∨ e ∈ pairs := by
    intro pairs
    induction pairs with
    | nil => exact fun t h => Or.inl h
    | cons p pairs ih =>
      intro t h
      rcases ih (t.set p.1 p.2) h with h | h
      · have hget : (t.set p.1 p.2).get? e.1 = some e.2 := get?_eq_some.mpr h
        rw [get?_set] at hget
        split at hget
        · rename_i hk
          have he : e = p := Prod.ext hk (Option.some.inj hget).symm
          exact Or.inr (he ▸ List.mem_cons_self)
        · exact Or.inl (get?_eq_some.mp hget)
      · exact Or.inr (List.mem_cons_of_mem _ h)
  exact (hfold pairs empty h).resolve_left List.not_mem_nil

/-- Of the pairs of one key, the last is the one that is kept. -/
theorem get?_ofList (pairs : List (κ × α)) (k : κ) :
    (ofList pairs).get? k = (pairs.reverse.find? fun p => p.1 = k).map Prod.snd := by
  have hfold : ∀ (pairs : List (κ × α)) (t : Table κ α),
      (pairs.foldl (fun t p => t.set p.1 p.2) t).get? k =
        ((pairs.reverse.find? fun p => p.1 = k).map Prod.snd).or (t.get? k) := by
    intro pairs
    induction pairs with
    | nil => exact fun t => rfl
    | cons p pairs ih =>
      intro t
      rw [List.foldl_cons, ih, get?_set, List.reverse_cons, List.find?_append]
      by_cases hp : p.1 = k
      · cases hfind : pairs.reverse.find? fun p => p.1 = k <;> simp [hp]
      · have hne : ¬ k = p.1 := fun h => hp h.symm
        cases hfind : pairs.reverse.find? fun p => p.1 = k <;> simp [hp, hne]
  rw [ofList, hfold]
  simp [empty, get?]

theorem insert_of_notMem {key : κ} (value : α) : ∀ {l : List (κ × α)}, key ∉ l.map Prod.fst →
    insert key value l = l ++ [(key, value)]
  | [], _ => rfl
  | (k, v) :: rest, h => by
      rw [List.map_cons, List.mem_cons, not_or] at h
      rw [insert, if_neg (Ne.symm h.1), insert_of_notMem value h.2, List.cons_append]

/-- Pairs of distinct keys are the entries of their map. -/
theorem entries_ofList {pairs : List (κ × α)} (h : (pairs.map Prod.fst).Nodup) :
    (ofList pairs).entries = pairs := by
  have hfold : ∀ (pairs : List (κ × α)) (t : Table κ α), ((t.entries ++ pairs).map Prod.fst).Nodup →
      (pairs.foldl (fun t p => t.set p.1 p.2) t).entries = t.entries ++ pairs := by
    intro pairs
    induction pairs with
    | nil => simp
    | cons p pairs ih =>
      intro t ht
      have hset : (t.set p.1 p.2).entries = t.entries ++ [p] := by
        refine insert_of_notMem p.2 fun hmem => ?_
        rw [List.map_append, List.nodup_append] at ht
        exact ht.2.2 _ hmem _ List.mem_cons_self rfl
      rw [List.foldl_cons, ih _ (by simpa [hset] using ht), hset, List.append_assoc, List.singleton_append]
  rw [ofList, hfold pairs empty (by simpa [empty] using h)]
  rfl

end Table
