import Akua.Lib.Effect
import Mathlib.Data.Finset.Card
import Mathlib.Data.List.Nodup

/-! Names that are given out once. A name that is taken gets the first number from 2 on that makes it
    free. An emitter gives names to the declarations it makes, a declaration before those inside it,
    and what it makes is sound when its names are new, distinct and not reserved, and when each
    reference is to a name that is known or made. -/

namespace Naming

/-! ### Free names -/

/-- The first candidate from the `i`-th on that is not taken. -/
def search {α : Type} [DecidableEq α] (taken : List α) (candidate : Nat → α) : Nat → Nat → α
  | 0, i => candidate i
  | fuel + 1, i => if candidate i ∈ taken then search taken candidate fuel (i + 1) else candidate i

/-- A candidate that is not taken; one of the first is free. -/
def fresh {α : Type} [DecidableEq α] (taken : List α) (candidate : Nat → α) : α :=
  search taken candidate (taken.length + 1) 0

section

variable {α : Type} [DecidableEq α] (taken : List α) (candidate : Nat → α)

theorem search_eq_candidate (fuel i : Nat) : ∃ j, search taken candidate fuel i = candidate j := by
  induction fuel generalizing i with
  | zero => exact ⟨i, rfl⟩
  | succ fuel ih =>
    rw [search]
    split
    · exact ih (i + 1)
    · exact ⟨i, rfl⟩

/-- A search that does not end at a free candidate has seen taken ones only. -/
theorem search_spec (fuel i : Nat) (h : search taken candidate fuel i ∈ taken) :
    ∀ j, i ≤ j → j < i + fuel → candidate j ∈ taken := by
  induction fuel generalizing i with
  | zero => omega
  | succ fuel ih =>
    intro j hij hj
    rw [search] at h
    split at h
    · rename_i htaken
      rcases Nat.eq_or_lt_of_le hij with rfl | hlt
      · exact htaken
      · exact ih (i + 1) h j hlt (by omega)
    · rename_i hfree
      exact absurd h hfree

theorem fresh_eq_candidate : ∃ j, fresh taken candidate = candidate j :=
  search_eq_candidate taken candidate _ 0

variable {taken candidate}

theorem fresh_not_mem (hinj : Function.Injective candidate) : fresh taken candidate ∉ taken := by
  intro h
  have hall := search_spec taken candidate _ 0 h
  have hsub : (List.range (taken.length + 1)).map candidate ⊆ taken := by
    intro c hc
    obtain ⟨j, hj, rfl⟩ := List.mem_map.mp hc
    exact hall j (Nat.zero_le _) (by simpa using List.mem_range.mp hj)
  have hlen := (List.subperm_of_subset (List.nodup_range.map hinj) hsub).length_le
  rw [List.length_map, List.length_range] at hlen
  exact Nat.not_succ_le_self _ hlen

/-- A free candidate is taken at once. -/
theorem fresh_of_not_mem (h : candidate 0 ∉ taken) : fresh taken candidate = candidate 0 := by
  rw [fresh, search, if_neg h]

end

/-- The names that are tried for `name`: itself, then with a number. -/
def numbered (name : String) : Nat → String
  | 0 => name
  | i + 1 => name ++ toString (i + 2)

theorem toString_injective {i j : Nat} (h : (toString i).toList = (toString j).toList) : i = j := by
  have := congrArg (fun l => Nat.ofDigitChars 10 l 0) h
  simpa [Nat.toString_eq_ofList_toDigits, Nat.ofDigitChars_ten_toDigits] using this

theorem toString_ne_nil (n : Nat) : (toString n).toList ≠ [] := by
  rw [Nat.toString_eq_ofList_toDigits, String.toList_ofList]
  exact Nat.toDigits_ne_nil

theorem numbered_injective (name : String) : Function.Injective (numbered name) := by
  have hne : ∀ i, numbered name (i + 1) ≠ name := by
    intro i h
    have hlen := congrArg (fun s => s.toList.length) h
    simp only [numbered, String.toList_append, List.length_append] at hlen
    exact toString_ne_nil (i + 2) (List.eq_nil_of_length_eq_zero (by omega))
  intro i j h
  rcases i with _ | i <;> rcases j with _ | j
  · rfl
  · exact absurd h.symm (hne j)
  · exact absurd h (hne i)
  · have h := congrArg String.toList h
    simp only [numbered, String.toList_append, List.append_cancel_left_eq] at h
    have := toString_injective h
    omega

/-! ### Emitters -/

/-- What an emitter comes to: a value, the declarations it made, and the names given out so far. -/
structure Emitted (δ α : Type) where
  value : α
  declarations : List δ
  names : List String

/-- An emitter of declarations, from the names given out before. -/
def Emit (δ α : Type) : Type := List String → Emitted δ α

variable {δ α β : Type}

instance : Monad (Emit δ) where
  pure a := fun used => ⟨a, [], used⟩
  bind m f := fun used =>
    let first := m used
    let second := f first.value first.names
    ⟨second.value, first.declarations ++ second.declarations, second.names⟩

/-- Give out a name, and make the declaration of this name; it comes before those that its body makes. -/
def declareAs (reserved : List String) (hint : String) (body : String → Emit δ δ) : Emit δ String := fun used =>
  let name := fresh (used ++ reserved) (numbered hint)
  let inner := body name (used ++ [name])
  ⟨name, inner.value :: inner.declarations, inner.names⟩

/-- Whose names and references are meant. -/
structure Language (δ : Type) where
  name : δ → String
  references : δ → List String
  reserved : List String

/-- An emitter makes new names, which all satisfy `P`; what it makes refers to them, or to what is
    known, and so do the `out` references of its value. -/
structure Sound (L : Language δ) (P : String → Prop) (known : List String) (m : Emit δ α) (out : α → List String) :
    Prop where
  names : ∀ used, (m used).names = used ++ (m used).declarations.map L.name
  nodup : ∀ used, ((m used).declarations.map L.name).Nodup
  free : ∀ used, ∀ n ∈ (m used).declarations.map L.name, n ∉ used ∧ n ∉ L.reserved ∧ P n
  inner : ∀ used, ∀ d ∈ (m used).declarations, ∀ r ∈ L.references d,
    r ∈ known ∨ r ∈ (m used).declarations.map L.name
  outer : ∀ used, ∀ r ∈ out (m used).value, r ∈ known ∨ r ∈ (m used).declarations.map L.name

variable {L : Language δ} {P Q : String → Prop} {known known' : List String} {out : α → List String}
  {out' : β → List String}

theorem Sound.pure {a : α} (h : ∀ r ∈ out a, r ∈ known) : Sound L P known (Pure.pure a : Emit δ α) out where
  names used := (List.append_nil used).symm
  nodup _ := List.nodup_nil
  free _ _ h := absurd h List.not_mem_nil
  inner _ _ h := absurd h List.not_mem_nil
  outer _ r hr := Or.inl (h r hr)

theorem Sound.mono {m : Emit δ α} {out₂ : α → List String} (h : Sound L P known m out) (hP : ∀ n, P n → Q n)
    (hknown : known ⊆ known') (hout : ∀ a, out₂ a ⊆ out a) : Sound L Q known' m out₂ where
  names := h.names
  nodup := h.nodup
  free used n hn := ⟨(h.free used n hn).1, (h.free used n hn).2.1, hP n (h.free used n hn).2.2⟩
  inner used d hd r hr := (h.inner used d hd r hr).imp_left fun hr => hknown hr
  outer used r hr := (h.outer used r (hout _ hr)).imp_left fun hr => hknown hr

/-- One emitter after another, which may refer to what the first one's value does. -/
theorem Sound.bind {m : Emit δ α} {f : α → Emit δ β} (hm : Sound L P known m out)
    (hf : ∀ a, Sound L P (known ++ out a) (f a) out') : Sound L P known (m >>= f) out' where
  names used := by
    have h := (hf (m used).value).names (m used).names
    rw [hm.names used] at h
    change (f (m used).value (m used).names).names = _
    rw [hm.names used, h]
    simp [Bind.bind, hm.names used]
  nodup used := by
    change (((m used).declarations ++ (f (m used).value (m used).names).declarations).map L.name).Nodup
    rw [List.map_append]
    refine List.nodup_append.mpr ⟨hm.nodup used, (hf _).nodup _, ?_⟩
    rintro n hn _ hn' rfl
    refine ((hf _).free _ n hn').1 ?_
    rw [hm.names used]
    exact List.mem_append_right _ hn
  free used n hn := by
    change n ∈ ((m used).declarations ++ (f (m used).value (m used).names).declarations).map L.name at hn
    rw [List.map_append, List.mem_append] at hn
    rcases hn with hn | hn
    · exact hm.free used n hn
    · have hfresh := (hf _).free _ n hn
      refine ⟨fun hused => hfresh.1 ?_, hfresh.2⟩
      rw [hm.names used]
      exact List.mem_append_left _ hused
  inner used d hd r hr := by
    change d ∈ (m used).declarations ++ (f (m used).value (m used).names).declarations at hd
    change r ∈ known ∨ r ∈ ((m used).declarations ++ (f (m used).value (m used).names).declarations).map L.name
    rw [List.map_append, List.mem_append]
    rcases List.mem_append.mp hd with hd | hd
    · exact (hm.inner used d hd r hr).imp_right Or.inl
    · rcases (hf _).inner _ d hd r hr with h | h
      · rcases List.mem_append.mp h with h | h
        · exact Or.inl h
        · exact (hm.outer used r h).imp_right Or.inl
      · exact Or.inr (Or.inr h)
  outer used r hr := by
    change r ∈ out' (f (m used).value (m used).names).value at hr
    change r ∈ known ∨ r ∈ ((m used).declarations ++ (f (m used).value (m used).names).declarations).map L.name
    rw [List.map_append, List.mem_append]
    rcases (hf _).outer _ r hr with h | h
    · rcases List.mem_append.mp h with h | h
      · exact Or.inl h
      · exact (hm.outer used r h).imp_right Or.inl
    · exact Or.inr (Or.inr h)

theorem Sound.map {m : Emit δ α} {g : α → β} (hm : Sound L P known m out) (h : ∀ a, out' (g a) ⊆ out a) :
    Sound L P known (g <$> m) out' :=
  Sound.bind hm fun a => Sound.pure fun _ hr => List.mem_append_right _ (h a hr)

/-- A pass over a list refers to what its elements do. -/
theorem Sound.pass {ι : Type} {f : ι → Emit δ β} {l : List ι} (h : ∀ x ∈ l, Sound L P known (f x) out') :
    Sound L P known (forEach f l) (fun ys => ys.flatMap out') := by
  induction l generalizing known with
  | nil => exact Sound.pure (fun r hr => by simp at hr)
  | cons x l ih =>
    refine Sound.bind (h x List.mem_cons_self) fun y => ?_
    have hrest : Sound L P (known ++ out' y) (forEach f l) (fun ys => ys.flatMap out') :=
      ih fun z hz => (h z (List.mem_cons_of_mem _ hz)).mono (fun _ h => h) (List.subset_append_left _ _)
        (fun _ => List.Subset.refl _)
    refine Sound.bind hrest fun ys => Sound.pure fun r hr => ?_
    rw [List.flatMap_cons] at hr
    rcases List.mem_append.mp hr with hr | hr <;> simp [hr]

/-- A declaration refers to what its body does; its own name is known outside. -/
theorem Sound.declare {hint : String} {body : String → Emit δ δ}
    (hP : ∀ used, P (fresh (used ++ L.reserved) (numbered hint)))
    (hname : ∀ name used, L.name (body name used).value = name)
    (hbody : ∀ used, Sound L P known (body (fresh (used ++ L.reserved) (numbered hint))) L.references) :
    Sound L P known (declareAs L.reserved hint body) (fun name => [name]) where
  names used := by
    change (body _ (used ++ [_])).names = used ++ (_ :: (body _ (used ++ [_])).declarations).map L.name
    rw [(hbody used).names, List.map_cons, hname, List.append_assoc]
    rfl
  nodup used := by
    change ((_ :: (body _ (used ++ [_])).declarations).map L.name).Nodup
    rw [List.map_cons, hname]
    refine List.nodup_cons.mpr ⟨fun h => ?_, (hbody used).nodup _⟩
    exact ((hbody used).free _ _ h).1 (by simp)
  free used n hn := by
    change n ∈ (_ :: (body _ (used ++ [_])).declarations).map L.name at hn
    rw [List.map_cons, hname] at hn
    rcases List.mem_cons.mp hn with rfl | hn
    · have hfresh : Naming.fresh (used ++ L.reserved) (numbered hint) ∉ used ++ L.reserved :=
        fresh_not_mem (numbered_injective hint)
      rw [List.mem_append, not_or] at hfresh
      exact ⟨hfresh.1, hfresh.2, hP used⟩
    · have hfresh := (hbody used).free _ n hn
      exact ⟨fun h => hfresh.1 (List.mem_append_left _ h), hfresh.2⟩
  inner used d hd r hr := by
    change d ∈ _ :: (body _ (used ++ [_])).declarations at hd
    change r ∈ known ∨ r ∈ (_ :: (body _ (used ++ [_])).declarations).map L.name
    rw [List.map_cons, List.mem_cons]
    rcases List.mem_cons.mp hd with rfl | hd
    · exact ((hbody used).outer _ r hr).imp_right Or.inr
    · exact ((hbody used).inner _ d hd r hr).imp_right Or.inr
  outer used r hr := by
    rw [List.mem_singleton.mp hr]
    change _ ∨ _ ∈ (_ :: (body _ (used ++ [_])).declarations).map L.name
    rw [List.map_cons, hname]
    exact Or.inr List.mem_cons_self

/-- What a pass declares is declared by one of its elements. -/
theorem mem_declarations_pass {ι : Type} {f : ι → Emit δ β} {l : List ι} {used : List String} {d : δ}
    (h : d ∈ (forEach f l used).declarations) : ∃ x ∈ l, ∃ used', d ∈ (f x used').declarations := by
  induction l generalizing used with
  | nil => cases h
  | cons x l ih =>
    change d ∈ (f x used).declarations ++ ((forEach f l (f x used).names).declarations ++ []) at h
    rw [List.append_nil] at h
    rcases List.mem_append.mp h with h | h
    · exact ⟨x, List.mem_cons_self, used, h⟩
    · obtain ⟨z, hz, used', hd⟩ := ih h
      exact ⟨z, List.mem_cons_of_mem _ hz, used', hd⟩

/-! ### Names that are given out for sure -/

/-- No name is taken back. -/
def Grows (m : Emit δ α) : Prop := ∀ used, used ⊆ (m used).names

theorem Sound.grows {m : Emit δ α} (h : Sound L P known m out) : Grows m := by
  intro used
  rw [h.names]
  exact List.subset_append_left _ _

theorem Grows.pass {ι : Type} {f : ι → Emit δ β} {l : List ι} (h : ∀ x ∈ l, Grows (f x)) : Grows (forEach f l) := by
  induction l with
  | nil => exact fun _ => List.Subset.refl _
  | cons x l ih =>
    intro used
    exact List.Subset.trans (h x List.mem_cons_self used)
      (ih (fun z hz => h z (List.mem_cons_of_mem _ hz)) (f x used).names)

/-- A name is among those given out whenever the emitter has run. -/
def Names (n : String) (m : Emit δ α) : Prop := ∀ used, n ∈ (m used).names

theorem Names.bind {n : String} {m : Emit δ α} {f : α → Emit δ β} (h : Names n m) (hf : ∀ a, Grows (f a)) :
    Names n (m >>= f) := fun used => hf (m used).value _ (h used)

theorem Names.pass {ι : Type} {n : String} {f : ι → Emit δ β} {l : List ι} {x : ι} (hx : x ∈ l)
    (h : Names n (f x)) (hgrows : ∀ x ∈ l, Grows (f x)) : Names n (forEach f l) := by
  induction l with
  | nil => cases hx
  | cons y l ih =>
    have hrest : Grows (forEach f l) := Grows.pass fun z hz => hgrows z (List.mem_cons_of_mem _ hz)
    intro used
    rcases List.mem_cons.mp hx with rfl | hx
    · exact hrest _ (h used)
    · exact ih hx (fun z hz => hgrows z (List.mem_cons_of_mem _ hz)) (f y used).names

/-- The name that is asked for is given out, now or before. -/
theorem Names.declare {reserved : List String} {hint : String} {body : String → Emit δ δ}
    (hreserved : hint ∉ reserved) (hbody : ∀ name, Grows (body name)) : Names hint (declareAs reserved hint body) := by
  intro used
  refine hbody _ _ ?_
  by_cases h : hint ∈ used
  · exact List.mem_append_left _ h
  · have hfree : fresh (used ++ reserved) (numbered hint) = hint :=
      fresh_of_not_mem (by rw [List.mem_append, not_or]; exact ⟨h, hreserved⟩)
    rw [hfree]
    simp

end Naming
