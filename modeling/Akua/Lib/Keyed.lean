import Mathlib.Data.List.Nodup
import Mathlib.Data.List.Basic
import Mathlib.Data.List.Sort

/-! Lists of records found by a key. An update replaces the first record of its key, or adds one at
    the end, and may read the record it replaces. Where no key occurs twice it is determined by
    what it does to the record of its key (`mem_update`), and updates of different keys do not see
    each other (`mem_updates`). -/

namespace Keyed

variable {α β κ : Type} [DecidableEq κ] (key : α → κ)

/-- The first record of a key. -/
def find (k : κ) (l : List α) : Option α := l.find? fun x => key x = k

/-- Replace the first record of a key, or add one. -/
def update (k : κ) (f : Option α → α) : List α → List α
  | [] => [f none]
  | x :: xs => if key x = k then f (some x) :: xs else x :: update k f xs

variable {key}

@[simp] theorem find_nil (k : κ) : find key k [] = none := rfl

theorem find_cons (k : κ) (x : α) (l : List α) :
    find key k (x :: l) = if key x = k then some x else find key k l := by
  rw [find, List.find?_cons]
  by_cases h : key x = k <;> simp [h, find]

theorem find_eq_some {k : κ} {l : List α} (hl : (l.map key).Nodup) {x : α} :
    find key k l = some x ↔ x ∈ l ∧ key x = k := by
  induction l with
  | nil => simp
  | cons y ys ih =>
    obtain ⟨hy, hys⟩ := List.nodup_cons.mp hl
    rw [find_cons]
    split
    · rename_i hk
      constructor
      · intro h
        cases h
        exact ⟨List.mem_cons_self, hk⟩
      · rintro ⟨hx, hxk⟩
        rcases List.mem_cons.mp hx with rfl | hx
        · rfl
        · exact absurd (List.mem_map.mpr ⟨x, hx, hxk.trans hk.symm⟩) hy
    · rename_i hk
      rw [ih hys]
      constructor
      · exact fun h => ⟨List.mem_cons_of_mem _ h.1, h.2⟩
      · rintro ⟨hx, hxk⟩
        rcases List.mem_cons.mp hx with rfl | hx
        · exact absurd hxk hk
        · exact ⟨hx, hxk⟩

theorem find_eq_none {k : κ} {l : List α} : find key k l = none ↔ ∀ x ∈ l, key x ≠ k := by
  simp [find]

/-- What is found by a key is also what a finer key of it finds. -/
theorem find_of_find {ι : Type} [DecidableEq ι] {fine : α → ι} {k : κ} {l : List α} {x : α}
    (h : find key k l = some x) {i : ι} (hx : fine x = i) (hfine : ∀ y, fine y = i → key y = k) :
    find fine i l = some x := by
  induction l with
  | nil => cases h
  | cons y ys ih =>
    rw [find_cons] at h ⊢
    split at h
    · cases h
      rw [if_pos hx]
    · rename_i hy
      rw [if_neg fun he => hy (hfine y he)]
      exact ih h

/-- A filter that keeps the records of a key does not change what is found. -/
theorem find_filter {k : κ} {p : α → Bool} (hp : ∀ x, key x = k → p x = true) :
    ∀ l : List α, find key k (l.filter p) = find key k l
  | [] => rfl
  | x :: xs => by
      rw [List.filter_cons, find_cons]
      by_cases hk : key x = k
      · rw [if_pos (hp x hk), find_cons, if_pos hk, if_pos hk]
      · rw [if_neg hk]
        split
        · rw [find_cons, if_neg hk, find_filter hp xs]
        · exact find_filter hp xs

/-! ### One update -/

theorem keys_update {k : κ} {f : Option α → α} (hf : ∀ o, key (f o) = k) : ∀ l : List α,
    (update key k f l).map key = if k ∈ l.map key then l.map key else l.map key ++ [k]
  | [] => by simp [update, hf]
  | x :: xs => by
      by_cases h : key x = k
      · simp [update, h, hf]
      · have hk : ¬ k = key x := fun he => h he.symm
        rw [update, if_neg h, List.map_cons, keys_update hf xs]
        simp only [List.map_cons, List.mem_cons, hk, false_or]
        split <;> simp

theorem nodup_update {k : κ} {f : Option α → α} (hf : ∀ o, key (f o) = k) {l : List α}
    (hl : (l.map key).Nodup) : ((update key k f l).map key).Nodup := by
  rw [keys_update hf]
  split
  · exact hl
  · rename_i hk
    refine List.nodup_append.mpr ⟨hl, List.nodup_singleton k, ?_⟩
    rintro a ha b hb rfl
    exact hk (List.mem_singleton.mp hb ▸ ha)

/-- An update changes the record of its key and no other. -/
theorem mem_update {k : κ} {f : Option α → α} {l : List α} (hl : (l.map key).Nodup) {x : α} :
    x ∈ update key k f l ↔ (x ∈ l ∧ key x ≠ k) ∨ x = f (find key k l) := by
  induction l with
  | nil => simp [update]
  | cons y ys ih =>
    obtain ⟨hy, hys⟩ := List.nodup_cons.mp hl
    rw [update, find_cons]
    by_cases hk : key y = k
    · have hother : ∀ z ∈ ys, key z ≠ k := by
        intro z hz hzk
        exact hy (List.mem_map.mpr ⟨z, hz, hzk.trans hk.symm⟩)
      rw [if_pos hk, if_pos hk, List.mem_cons, List.mem_cons]
      constructor
      · rintro (rfl | hx)
        · exact Or.inr rfl
        · exact Or.inl ⟨Or.inr hx, hother x hx⟩
      · rintro (⟨rfl | hx, hxk⟩ | rfl)
        · exact absurd hk hxk
        · exact Or.inr hx
        · exact Or.inl rfl
    · rw [if_neg hk, if_neg hk, List.mem_cons, List.mem_cons, ih hys]
      constructor
      · rintro (rfl | ⟨hx, hxk⟩ | rfl)
        · exact Or.inl ⟨Or.inl rfl, hk⟩
        · exact Or.inl ⟨Or.inr hx, hxk⟩
        · exact Or.inr rfl
      · rintro (⟨rfl | hx, hxk⟩ | rfl)
        · exact Or.inl rfl
        · exact Or.inr (Or.inl ⟨hx, hxk⟩)
        · exact Or.inr (Or.inr rfl)

theorem find_update_of_ne {k k' : κ} {f : Option α → α} (hf : ∀ o, key (f o) = k) (hne : k' ≠ k) :
    ∀ l : List α, find key k' (update key k f l) = find key k' l
  | [] => by simp [update, find, hf, hne.symm]
  | x :: xs => by
      rw [update]
      split
      · rename_i hk
        rw [find_cons, find_cons, hf, if_neg hne.symm, hk, if_neg hne.symm]
      · rw [find_cons, find_cons, find_update_of_ne hf hne xs]

theorem find_update_self {k : κ} {f : Option α → α} (hf : ∀ o, key (f o) = k) :
    ∀ l : List α, find key k (update key k f l) = some (f (find key k l))
  | [] => by simp [update, find_cons, hf]
  | x :: xs => by
      rw [update, find_cons]
      split
      · rw [find_cons, if_pos (hf _)]
      · rename_i hk
        rw [find_cons, if_neg hk, find_update_self hf xs]

/-- An update that gives back the record it finds changes nothing. -/
theorem update_of_fixed {k : κ} {f : Option α → α} {x : α} (hx : f (some x) = x) :
    ∀ {l : List α}, find key k l = some x → update key k f l = l
  | [], h => by simp at h
  | y :: ys, h => by
      rw [find_cons] at h
      rw [update]
      split at h
      · cases h
        rw [if_pos ‹_›, hx]
      · rw [if_neg ‹_›, update_of_fixed hx h]

/-! ### A list of updates -/

variable {updateKey : β → κ} {f : β → Option α → α}

theorem nodup_updates (hf : ∀ u o, key (f u o) = updateKey u) (us : List β) {l : List α}
    (hl : (l.map key).Nodup) :
    ((us.foldl (fun l u => update key (updateKey u) (f u) l) l).map key).Nodup := by
  induction us generalizing l with
  | nil => exact hl
  | cons u us ih => exact ih (nodup_update (hf u) hl)

/-- Updates of distinct keys each change the record of their key, as it was before them all. -/
theorem mem_updates (hf : ∀ u o, key (f u o) = updateKey u) {us : List β}
    (hus : (us.map updateKey).Nodup) {l : List α} (hl : (l.map key).Nodup) {x : α} :
    x ∈ us.foldl (fun l u => update key (updateKey u) (f u) l) l ↔
      (x ∈ l ∧ key x ∉ us.map updateKey) ∨ ∃ u ∈ us, x = f u (find key (updateKey u) l) := by
  induction us generalizing l with
  | nil => simp
  | cons u us ih =>
    obtain ⟨hu, hus⟩ := List.nodup_cons.mp hus
    have hfind : ∀ v ∈ us, find key (updateKey v) (update key (updateKey u) (f u) l) =
        find key (updateKey v) l := by
      intro v hv
      refine find_update_of_ne (hf u) (fun hvu => hu ?_) l
      rw [← hvu]
      exact List.mem_map_of_mem hv
    rw [List.foldl_cons, ih hus (nodup_update (hf u) hl), mem_update hl]
    constructor
    · rintro (⟨⟨hx, hk⟩ | rfl, hks⟩ | ⟨v, hv, rfl⟩)
      · exact Or.inl ⟨hx, by simp [hk, hks]⟩
      · exact Or.inr ⟨u, List.mem_cons_self, rfl⟩
      · exact Or.inr ⟨v, List.mem_cons_of_mem _ hv, by rw [hfind v hv]⟩
    · rintro (⟨hx, hks⟩ | ⟨v, hv, rfl⟩)
      · rw [List.map_cons, List.mem_cons, not_or] at hks
        exact Or.inl ⟨Or.inl ⟨hx, hks.1⟩, hks.2⟩
      · rcases List.mem_cons.mp hv with rfl | hv
        · exact Or.inl ⟨Or.inr rfl, by rw [hf]; exact hu⟩
        · exact Or.inr ⟨v, hv, by rw [hfind v hv]⟩

theorem find_updates_of_notMem (hf : ∀ u o, key (f u o) = updateKey u) {k : κ} {us : List β}
    (hk : k ∉ us.map updateKey) (l : List α) :
    find key k (us.foldl (fun l u => update key (updateKey u) (f u) l) l) = find key k l := by
  induction us generalizing l with
  | nil => rfl
  | cons u us ih =>
    rw [List.map_cons, List.mem_cons, not_or] at hk
    rw [List.foldl_cons, ih hk.2, find_update_of_ne (hf u) hk.1]

/-- After updates of distinct keys, each key has the record its update made. -/
theorem find_updates (hf : ∀ u o, key (f u o) = updateKey u) {us : List β}
    (hus : (us.map updateKey).Nodup) (l : List α) {u : β} (hu : u ∈ us) :
    find key (updateKey u) (us.foldl (fun l u => update key (updateKey u) (f u) l) l) =
      some (f u (find key (updateKey u) l)) := by
  induction us generalizing l with
  | nil => cases hu
  | cons v us ih =>
    rw [List.map_cons, List.nodup_cons] at hus
    rw [List.foldl_cons]
    rcases List.mem_cons.mp hu with rfl | hu
    · rw [find_updates_of_notMem hf hus.1, find_update_self (hf u)]
    · have hne : updateKey u ≠ updateKey v := by
        intro he
        exact hus.1 (he ▸ List.mem_map_of_mem hu)
      rw [ih hus.2 _ hu, find_update_of_ne (hf v) hne]

/-- Updates that each give back the record they find change nothing. -/
theorem updates_of_fixed {us : List β} {l : List α}
    (h : ∀ u ∈ us, ∃ x, find key (updateKey u) l = some x ∧ f u (some x) = x) :
    us.foldl (fun l u => update key (updateKey u) (f u) l) l = l := by
  induction us with
  | nil => rfl
  | cons u us ih =>
    obtain ⟨x, hfind, hx⟩ := h u List.mem_cons_self
    rw [List.foldl_cons, update_of_fixed hx hfind]
    exact ih fun v hv => h v (List.mem_cons_of_mem _ hv)

/-! ### Sorting -/

section Sorting

variable {r : α → α → Prop} [DecidableRel r]

theorem find_orderedInsert (hr : ∀ x y, key x = key y → r x y) (k : κ) (x : α) : ∀ l : List α,
    find key k (l.orderedInsert r x) = if key x = k then some x else find key k l
  | [] => by simp [find_cons]
  | y :: ys => by
      rw [List.orderedInsert_cons]
      split
      · exact find_cons k x (y :: ys)
      · rename_i hxy
        rw [find_cons, find_orderedInsert hr k x ys, find_cons]
        by_cases hy : key y = k
        · have hx : key x ≠ k := fun hx => hxy (hr x y (hx.trans hy.symm))
          rw [if_pos hy, if_neg hx, if_pos hy]
        · rw [if_neg hy, if_neg hy]

/-- A sort that does not reorder records of one key changes no first record of a key. -/
theorem find_insertionSort (hr : ∀ x y, key x = key y → r x y) (k : κ) : ∀ l : List α,
    find key k (l.insertionSort r) = find key k l
  | [] => rfl
  | x :: xs => by
      rw [List.insertionSort_cons, find_orderedInsert hr, find_insertionSort hr k xs, find_cons]

omit [DecidableRel r] in
/-- What is found in a sorted list comes before every other record of its key. -/
theorem find_pairwise (hr : ∀ x, r x x) {k : κ} {l : List α} (hl : l.Pairwise r) {x y : α}
    (hx : find key k l = some x) (hy : y ∈ l) (hk : key y = k) : r x y := by
  induction l with
  | nil => cases hy
  | cons z zs ih =>
    obtain ⟨hz, hzs⟩ := List.pairwise_cons.mp hl
    rw [find_cons] at hx
    split at hx
    · cases hx
      rcases List.mem_cons.mp hy with rfl | hy
      · exact hr _
      · exact hz y hy
    · rename_i hne
      rcases List.mem_cons.mp hy with rfl | hy
      · exact absurd hk hne
      · exact ih hzs hx hy

end Sorting

end Keyed
