import Mathlib.Data.List.Pairwise
import Akua.JsonText
import Akua.Plugins

/-! The order of the keys plugins hand over. `sortKeys` sorts the entries of a mapping and makes a
    plain object of them, and a plain object keeps keys that are array indices in numeric order before
    all others. -/

namespace Akua

open Value (Each EachAll EachEntries IsJson Reads)

namespace Value

mutual

/-- The same JSON value: mappings may list their entries in another order. -/
inductive Same : Value → Value → Prop
  | leaf (value : Value) : Same value value
  | array {values values' : List Value} : SameAll values values' → Same (.array values) (.array values')
  | object {entries entries' ordered : List (String × Value)} : SameEntries entries entries' →
      entries'.Perm ordered → Same (.object entries) (.object ordered)

inductive SameAll : List Value → List Value → Prop
  | nil : SameAll [] []
  | cons {value value' : Value} {values values' : List Value} : Same value value' →
      SameAll values values' → SameAll (value :: values) (value' :: values')

inductive SameEntries : List (String × Value) → List (String × Value) → Prop
  | nil : SameEntries [] []
  | cons {key : String} {value value' : Value} {entries entries' : List (String × Value)} :
      Same value value' → SameEntries entries entries' →
      SameEntries ((key, value) :: entries) ((key, value') :: entries')

end

/-- The keys of every mapping are in ascending order of their code units. -/
def Ascending (value : Value) : Prop :=
  value.Each (fun _ => True) (List.Pairwise fun a b => Text.less a b = true)

variable {leaf : Value → Prop} {keys : List String → Prop}

theorem eachEntries_iff {entries : List (String × Value)} :
    EachEntries leaf keys entries ↔ ∀ p ∈ entries, Each leaf keys p.2 := by
  induction entries with
  | nil => simp [EachEntries]
  | cons p entries ih => simp [EachEntries, ih]

theorem eachAll_iff {values : List Value} : EachAll leaf keys values ↔ ∀ v ∈ values, Each leaf keys v := by
  induction values with
  | nil => simp [EachAll]
  | cons v values ih => simp [EachAll, ih]

end Value

/-- In a mapping with these keys, an array index comes before every larger one and before every key
    that is none, in the order of code units too. -/
def IndicesFirst (keys : List String) : Prop :=
  ∀ a ∈ keys, ∀ m ∈ arrayIndex a, ∀ b ∈ keys, (∀ n ∈ arrayIndex b, m < n) → Text.less a b = true

instance : DecidablePred IndicesFirst := fun keys =>
  inferInstanceAs (Decidable (∀ a ∈ keys, ∀ m ∈ arrayIndex a, ∀ b ∈ keys,
    (∀ n ∈ arrayIndex b, m < n) → Text.less a b = true))

theorem arrayIndex_inj {a b : String} {n : Nat} (ha : arrayIndex a = some n) (hb : arrayIndex b = some n) :
    a = b := by
  have hname : ∀ {s : String}, arrayIndex s = some n → toString n = s := by
    intro s h
    obtain ⟨⟨hs, -⟩, rfl⟩ : (toString (Nat.ofDigitChars 10 s.toList 0) = s ∧ _) ∧ _ = n := by
      simpa [arrayIndex] using h
    simpa using hs
  rw [← hname ha, hname hb]

abbrev Entry : Type := String × Value

instance : Std.Total fun a b : Entry => Text.atMost a.1 b.1 := ⟨fun a b => Std.Total.total a.1 b.1⟩

instance : IsTrans Entry fun a b => Text.atMost a.1 b.1 := ⟨fun a b c => IsTrans.trans a.1 b.1 c.1⟩

/-- The entries as `Array.prototype.sort` leaves them. -/
def sortedByKey (entries : List Entry) : List Entry := entries.insertionSort fun a b => Text.atMost a.1 b.1

theorem sortedByKey_perm (entries : List Entry) : (sortedByKey entries).Perm entries :=
  List.perm_insertionSort _ _

theorem objectOrder_perm (entries : List Entry) : (objectOrder entries).Perm entries := by
  have hindex := List.perm_insertionSort
    (fun a b : Entry => (arrayIndex a.1).getD 0 ≤ (arrayIndex b.1).getD 0)
    (entries.filter fun p => (arrayIndex p.1).isSome)
  refine (hindex.append_right _).trans ?_
  simpa using List.filter_append_perm (fun p : Entry => (arrayIndex p.1).isSome) entries

theorem less_of_atMost {a b : String} (h : Text.atMost a b) (hne : a ≠ b) : Text.less a b = true := by
  by_contra hless
  exact hne (Text.eq_of_not_less (by simpa using hless) (by simpa [Text.atMost] using h))

theorem sortedByKey_ascends {entries : List Entry} (h : (entries.map Prod.fst).Nodup) :
    (sortedByKey entries).Pairwise fun a b => Text.less a.1 b.1 = true := by
  have hnodup : ((sortedByKey entries).map Prod.fst).Nodup :=
    ((sortedByKey_perm entries).map Prod.fst).nodup_iff.mpr h
  have hne := List.pairwise_map.mp hnodup
  have hsorted : (sortedByKey entries).Pairwise fun a b => Text.atMost a.1 b.1 :=
    List.pairwise_insertionSort _ _
  exact (hsorted.and hne).imp fun ⟨hle, hne⟩ => less_of_atMost hle hne

/-- The entries whose keys are array indices, as a plain object lists them. -/
def indexEntries (entries : List Entry) : List Entry :=
  (entries.filter fun p => (arrayIndex p.1).isSome).insertionSort
    fun a b => (arrayIndex a.1).getD 0 ≤ (arrayIndex b.1).getD 0

theorem mem_indexEntries {entries : List Entry} {p : Entry} :
    p ∈ indexEntries entries ↔ p ∈ entries ∧ ∃ n, arrayIndex p.1 = some n := by
  rw [indexEntries, List.mem_insertionSort, List.mem_filter, Option.isSome_iff_exists]

theorem indexEntries_ascend {entries : List Entry} (h : (entries.map Prod.fst).Nodup) :
    (indexEntries entries).Pairwise fun a b => ∃ m n, arrayIndex a.1 = some m ∧ arrayIndex b.1 = some n ∧
      m < n := by
  have hperm : (indexEntries entries).Perm (entries.filter fun p => (arrayIndex p.1).isSome) :=
    List.perm_insertionSort _ _
  have hnodup : ((indexEntries entries).map Prod.fst).Nodup :=
    (hperm.map Prod.fst).nodup_iff.mpr (h.sublist (List.filter_sublist.map _))
  have hne := List.pairwise_map.mp hnodup
  have hsorted : (indexEntries entries).Pairwise fun a b =>
      (arrayIndex a.1).getD 0 ≤ (arrayIndex b.1).getD 0 := List.pairwise_insertionSort _ _
  refine (hsorted.and hne).imp_of_mem fun {a b} ha hb hab => ?_
  obtain ⟨-, m, hm⟩ := mem_indexEntries.mp ha
  obtain ⟨-, n, hn⟩ := mem_indexEntries.mp hb
  obtain ⟨hle, hne⟩ := hab
  rw [hm, hn, Option.getD_some, Option.getD_some] at hle
  refine ⟨m, n, hm, hn, lt_of_le_of_ne hle fun hmn => hne ?_⟩
  exact arrayIndex_inj hm (hmn ▸ hn)

/-- A plain object made of sorted entries keeps them sorted exactly when its indices come first. -/
theorem objectOrder_ascends_iff {entries : List Entry} (hnodup : (entries.map Prod.fst).Nodup)
    (hsorted : entries.Pairwise fun a b => Text.less a.1 b.1 = true) :
    ((objectOrder entries).map Prod.fst).Pairwise (fun a b => Text.less a b = true) ↔
      IndicesFirst (entries.map Prod.fst) := by
  have hindex := indexEntries_ascend hnodup
  rw [show objectOrder entries = indexEntries entries ++ entries.filter fun p => (arrayIndex p.1).isNone
    from rfl, List.pairwise_map, List.pairwise_append]
  constructor
  · rintro ⟨hfirst, -, hcross⟩ a ha m hm b hb hlt
    obtain ⟨p, hp, rfl⟩ := List.mem_map.mp ha
    obtain ⟨q, hq, rfl⟩ := List.mem_map.mp hb
    have hfront := mem_indexEntries.mpr ⟨hp, m, hm⟩
    rcases hn : arrayIndex q.1 with _ | n
    · exact hcross p hfront q (List.mem_filter.mpr ⟨hq, by rw [hn]; rfl⟩)
    · -- both are indices: of two entries the one in front has the smaller key by both orders
      have hback := mem_indexEntries.mpr ⟨hq, n, hn⟩
      have hne : p ≠ q := by
        rintro rfl
        exact absurd (hlt m hm) (lt_irrefl m)
      let Agree (p q : Entry) : Prop := ∀ m n, arrayIndex p.1 = some m → arrayIndex q.1 = some n →
        (m < n → Text.less p.1 q.1 = true) ∧ (n < m → Text.less q.1 p.1 = true)
      have hagree : (indexEntries entries).Pairwise Agree := by
        refine (hfirst.and hindex).imp fun {a b} hab m n hm hn => ?_
        obtain ⟨hless, m', n', hm', hn', hlt'⟩ := hab
        obtain rfl : m' = m := Option.some.inj (hm'.symm.trans hm)
        obtain rfl : n' = n := Option.some.inj (hn'.symm.trans hn)
        exact ⟨fun _ => hless, fun h => absurd h (by omega)⟩
      have : Std.Symm Agree := ⟨fun a b hab m n hm hn => (hab n m hn hm).symm⟩
      exact (hagree.forall hfront hback hne m n hm hn).1 (hlt n hn)
  · intro h
    refine ⟨hindex.imp_of_mem fun {a b} ha hb hab => ?_, hsorted.filter _, fun a ha b hb => ?_⟩
    · obtain ⟨m, n, hm, hn, hlt⟩ := hab
      refine h a.1 (List.mem_map_of_mem (mem_indexEntries.mp ha).1) m hm b.1
        (List.mem_map_of_mem (mem_indexEntries.mp hb).1) fun n' hn' => ?_
      rw [hn] at hn'
      rwa [← Option.some.inj hn']
    · obtain ⟨hmem, m, hm⟩ := mem_indexEntries.mp ha
      obtain ⟨hmem', hnone⟩ := List.mem_filter.mp hb
      refine h a.1 (List.mem_map_of_mem hmem) m hm b.1 (List.mem_map_of_mem hmem') fun n hn => ?_
      rw [hn] at hnone
      cases hnone

/-! ### Whole values -/

mutual

theorem same_sortKeys : ∀ value : Value, value.Same (sortKeys value)
  | .null | .bool _ | .string _ | .number _ | .date _ => by rw [sortKeys]; exact .leaf _; all_goals simp
  | .array values => by rw [sortKeys]; exact .array (same_sortKeysAll values)
  | .object entries => by
    rw [sortKeys]
    exact .object (same_sortKeysEntries entries) ((objectOrder_perm _).trans (sortedByKey_perm _)).symm

theorem same_sortKeysAll : ∀ values : List Value, Value.SameAll values (sortKeysAll values)
  | [] => .nil
  | value :: values => .cons (same_sortKeys value) (same_sortKeysAll values)

theorem same_sortKeysEntries : ∀ entries : List Entry, Value.SameEntries entries (sortKeysEntries entries)
  | [] => .nil
  | (_, value) :: entries => .cons (same_sortKeys value) (same_sortKeysEntries entries)

end

theorem keys_sortKeysEntries (entries : List Entry) :
    (sortKeysEntries entries).map Prod.fst = entries.map Prod.fst := by
  induction entries with
  | nil => rfl
  | cons p entries ih => simp [sortKeysEntries, ih]

/-- What holds of each mapping of a value, entries aside, holds of it in any order. -/
theorem eachEntries_perm {leaf : Value → Prop} {keys : List String → Prop} {entries entries' : List Entry}
    (h : entries.Perm entries') : EachEntries leaf keys entries ↔ EachEntries leaf keys entries' := by
  rw [Value.eachEntries_iff, Value.eachEntries_iff]
  exact forall_congr' fun p => by rw [h.mem_iff]

theorem sorted_perm_entries (entries : List Entry) :
    (objectOrder (sortedByKey (sortKeysEntries entries))).Perm (sortKeysEntries entries) :=
  (objectOrder_perm _).trans (sortedByKey_perm _)

mutual

theorem isJson_sortKeys : ∀ {value : Value}, value.IsJson → (sortKeys value).IsJson
  | .null, _ | .bool _, _ | .string _, _ => by simp [sortKeys, IsJson, Each, Value.JsonLeaf]
  | .number _, h => by simpa [sortKeys] using h
  | .date _, h => by simpa [sortKeys] using h
  | .array values, h => @isJson_sortKeysAll values h
  | .object entries, h => by
    refine ⟨((sorted_perm_entries entries).map Prod.fst).nodup_iff.mpr ?_,
      (eachEntries_perm (sorted_perm_entries entries)).mpr (isJson_sortKeysEntries h.2)⟩
    rw [keys_sortKeysEntries]
    exact h.1

theorem isJson_sortKeysAll : ∀ {values : List Value}, EachAll Value.JsonLeaf List.Nodup values →
    EachAll Value.JsonLeaf List.Nodup (sortKeysAll values)
  | [], _ => trivial
  | _ :: _, h => ⟨isJson_sortKeys h.1, isJson_sortKeysAll h.2⟩

theorem isJson_sortKeysEntries : ∀ {entries : List Entry}, EachEntries Value.JsonLeaf List.Nodup entries →
    EachEntries Value.JsonLeaf List.Nodup (sortKeysEntries entries)
  | [], _ => trivial
  | _ :: _, h => ⟨isJson_sortKeys h.1, isJson_sortKeysEntries h.2⟩

end

mutual

theorem ascending_sortKeys_iff : ∀ {value : Value}, value.IsJson →
    ((sortKeys value).Ascending ↔ value.Each (fun _ => True) IndicesFirst)
  | .null, _ | .bool _, _ | .string _, _ | .number _, _ | .date _, _ => by
    simp [sortKeys, Value.Ascending, Each]
  | .array values, h => @ascending_sortKeysAll_iff values h
  | .object entries, h => by
    have hkeys : ((sortKeysEntries entries).map Prod.fst).Nodup := by
      rw [keys_sortKeysEntries]; exact h.1
    have hsorted : ((sortedByKey (sortKeysEntries entries)).map Prod.fst).Perm (entries.map Prod.fst) := by
      rw [← keys_sortKeysEntries entries]
      exact (sortedByKey_perm _).map Prod.fst
    have hfirst : IndicesFirst ((sortedByKey (sortKeysEntries entries)).map Prod.fst) ↔
        IndicesFirst (entries.map Prod.fst) := by
      simp only [IndicesFirst, hsorted.mem_iff]
    refine and_congr ?_ ?_
    · rw [← hfirst]
      exact objectOrder_ascends_iff (hsorted.nodup_iff.mpr h.1) (sortedByKey_ascends hkeys)
    · exact (eachEntries_perm (sorted_perm_entries entries)).trans (ascending_sortKeysEntries_iff h.2)

theorem ascending_sortKeysAll_iff : ∀ {values : List Value}, EachAll Value.JsonLeaf List.Nodup values →
    (EachAll (fun _ => True) (List.Pairwise fun a b => Text.less a b = true) (sortKeysAll values) ↔
      EachAll (fun _ => True) IndicesFirst values)
  | [], _ => Iff.rfl
  | _ :: _, h => and_congr (ascending_sortKeys_iff h.1) (ascending_sortKeysAll_iff h.2)

theorem ascending_sortKeysEntries_iff : ∀ {entries : List Entry},
    EachEntries Value.JsonLeaf List.Nodup entries →
    (EachEntries (fun _ => True) (List.Pairwise fun a b => Text.less a b = true) (sortKeysEntries entries) ↔
      EachEntries (fun _ => True) IndicesFirst entries)
  | [], _ => Iff.rfl
  | _ :: _, h => and_congr (ascending_sortKeys_iff h.1) (ascending_sortKeysEntries_iff h.2)

end

/-- The text of a sorted value denotes the value; it lists the keys of every mapping in ascending order
    exactly when in each of them the array indices come first in that order. -/
theorem sorted_text_iff {value : Value} (h : value.IsJson) :
    ∃ read, Reads (sortKeys value).stringify read ∧ value.Same read ∧
      (read.Ascending ↔ value.Each (fun _ => True) IndicesFirst) :=
  ⟨sortKeys value, Value.reads_stringify (isJson_sortKeys h), same_sortKeys value, ascending_sortKeys_iff h⟩

/-- A mapping with an index before its names. -/
theorem sorted_text_of_ports : (sortKeys (.object [("b", .null), ("1", .object [("a", .null)])])).Ascending := by
  have hjson : IsJson (.object [("b", .null), ("1", .object [("a", .null)])]) := by
    simp [IsJson, Each, EachEntries, Value.JsonLeaf]
  obtain ⟨read, hreads, -, hiff⟩ := sorted_text_iff hjson
  have hread := Value.reads_unique hreads (Value.reads_stringify (isJson_sortKeys hjson))
  rw [← hread]
  exact hiff.mpr ⟨by decide, trivial, ⟨by decide, trivial, trivial⟩, trivial⟩

/-- `10` sorts before `9`, and a plain object lists it behind. -/
theorem numbers_out_of_order :
    ¬ ∃ read, Reads (sortKeys (.object [("10", .null), ("9", .null)])).stringify read ∧ read.Ascending := by
  have hjson : IsJson (.object [("10", .null), ("9", .null)]) := by
    simp [IsJson, Each, EachEntries, Value.JsonLeaf]
  rintro ⟨read, hreads, hascending⟩
  obtain rfl := Value.reads_unique hreads (Value.reads_stringify (isJson_sortKeys hjson))
  exact absurd ((ascending_sortKeys_iff hjson).mp hascending).1 (by decide)

end Akua
