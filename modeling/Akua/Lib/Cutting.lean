import Akua.Lib.Text
import Mathlib.Data.List.DropRight

/-! Cutting a text at the first place a mark is found, or at the last place of a character: what the
    two pieces are, and that the cut does not move when only the text behind it changes. -/

namespace Text

/-! ### The first place of a text -/

theorem cutList_eq_some {p l a b : List Char} (h : cutList p l = some (a, b)) : l = a ++ p ++ b := by
  induction l generalizing a with
  | nil =>
    rw [cutList] at h
    split at h
    · rename_i hp
      obtain ⟨rfl, rfl⟩ := Prod.mk.inj (Option.some.inj h)
      simp [hp]
    · cases h
  | cons c cs ih =>
    rw [cutList] at h
    split at h
    · rename_i hp
      obtain ⟨t, ht⟩ := List.isPrefixOf_iff_prefix.mp hp
      obtain ⟨rfl, rfl⟩ := Prod.mk.inj (Option.some.inj h)
      rw [← ht]
      simp
    · obtain ⟨⟨a', b'⟩, hq, hab⟩ := Option.map_eq_some_iff.mp h
      obtain ⟨rfl, rfl⟩ := Prod.mk.inj hab
      rw [ih hq]
      simp

/-- The first place stays the first when the text behind it changes: whether an earlier place has
    the mark is decided before that text begins. -/
theorem cutList_again {p l a b : List Char} (h : cutList p l = some (a, b)) (b' : List Char) :
    cutList p (a ++ p ++ b') = some (a, b') := by
  induction l generalizing a with
  | nil =>
    rw [cutList] at h
    split at h
    · rename_i hp
      obtain ⟨rfl, rfl⟩ := Prod.mk.inj (Option.some.inj h)
      subst hp
      cases b' <;> simp [cutList]
    · cases h
  | cons c cs ih =>
    have hl := cutList_eq_some h
    rw [cutList] at h
    split at h
    · obtain ⟨rfl, rfl⟩ := Prod.mk.inj (Option.some.inj h)
      cases p with
      | nil => cases b' <;> simp [cutList]
      | cons x p => simp [cutList]
    · rename_i hp
      obtain ⟨⟨a', b₁⟩, hq, hab⟩ := Option.map_eq_some_iff.mp h
      obtain ⟨rfl, rfl⟩ := Prod.mk.inj hab
      have hfree : p.isPrefixOf (c :: (a' ++ p ++ b')) = false := by
        refine Bool.eq_false_iff.mpr fun hpre => hp ?_
        rw [List.isPrefixOf_iff_prefix] at hpre ⊢
        rw [hl]
        have hlen : p.length ≤ (c :: a' ++ p).length := by
          rw [List.length_append]
          exact Nat.le_add_left _ _
        have hsub : p <+: c :: a' ++ p :=
          List.prefix_of_prefix_length_le hpre ⟨b', by simp⟩ hlen
        exact hsub.trans ⟨b₁, by simp⟩
      rw [List.cons_append, List.cons_append, cutList, hfree, ih hq]
      simp

/-- Wherever the mark is, it is found, there or before. -/
theorem cutList_of_append (p a b : List Char) :
    ∃ a' b', cutList p (a ++ p ++ b) = some (a', b') ∧ b <:+ b' := by
  induction a with
  | nil =>
    refine ⟨[], b, ?_, List.suffix_rfl⟩
    cases hl : p ++ b with
    | nil =>
      obtain ⟨rfl, rfl⟩ := List.append_eq_nil_iff.mp hl
      simp [cutList]
    | cons c l =>
      have hpre : p.isPrefixOf (c :: l) = true := List.isPrefixOf_iff_prefix.mpr ⟨b, hl⟩
      rw [List.nil_append, hl, cutList, if_pos hpre, ← hl, List.drop_left]
  | cons c a ih =>
    rw [List.cons_append, List.cons_append, cutList]
    split
    · refine ⟨[], _, rfl, ?_⟩
      have hlen : p.length ≤ (c :: a ++ p).length := by
        rw [List.length_append]
        exact Nat.le_add_left _ _
      rw [← List.cons_append, ← List.cons_append, List.drop_append_of_le_length hlen]
      exact List.suffix_append _ _
    · obtain ⟨a', b', hcut, hb⟩ := ih
      exact ⟨c :: a', b', by rw [hcut]; rfl, hb⟩

/-- What has not the first character of the mark is passed over. -/
theorem cutList_skip {x : Char} {p a : List Char} (hx : x ∉ a) (l : List Char) :
    cutList (x :: p) (a ++ l) = (cutList (x :: p) l).map fun q => (a ++ q.1, q.2) := by
  induction a with
  | nil => simp
  | cons c a ih =>
    obtain ⟨hc, ha⟩ := not_or.mp (fun h => hx (List.mem_cons.mpr h))
    have hfree : (x :: p).isPrefixOf (c :: (a ++ l)) = false := by
      refine Bool.eq_false_iff.mpr fun hpre => hc ?_
      exact (List.cons_prefix_cons.mp (List.isPrefixOf_iff_prefix.mp hpre)).1
    rw [List.cons_append, cutList, hfree, ih ha]
    cases cutList (x :: p) l <;> simp

/-- Where the second character of the mark is not in front, the mark is not found there. -/
theorem cutList_of_not_mem {x y : Char} {p a : List Char} (hy : y ∉ a) (hxy : x ≠ y) (b : List Char) :
    cutList (x :: y :: p) (a ++ (x :: y :: p) ++ b) = some (a, b) := by
  induction a with
  | nil => simp [cutList]
  | cons c a ih =>
    obtain ⟨hc, ha⟩ := not_or.mp (fun h => hy (List.mem_cons.mpr h))
    have hfree : (x :: y :: p).isPrefixOf (c :: (a ++ (x :: y :: p) ++ b)) = false := by
      refine Bool.eq_false_iff.mpr fun hpre => ?_
      have hpre := (List.cons_prefix_cons.mp (List.isPrefixOf_iff_prefix.mp hpre)).2
      cases a with
      | nil => exact hxy (List.cons_prefix_cons.mp hpre).1.symm
      | cons d a => exact ha (List.mem_cons.mpr (Or.inl (List.cons_prefix_cons.mp hpre).1))
    rw [List.cons_append, List.cons_append, cutList, hfree, ih ha]
    simp

theorem cut_eq_some {s p a b : String} (h : cut s p = some (a, b)) : s = a ++ p ++ b := by
  obtain ⟨⟨a', b'⟩, hq, hab⟩ := Option.map_eq_some_iff.mp h
  obtain ⟨rfl, rfl⟩ := Prod.mk.inj hab
  apply String.toList_inj.mp
  simpa using cutList_eq_some hq

theorem cut_again {s p a b : String} (h : cut s p = some (a, b)) (b' : String) :
    cut (a ++ p ++ b') p = some (a, b') := by
  obtain ⟨⟨a', b₁⟩, hq, hab⟩ := Option.map_eq_some_iff.mp h
  obtain ⟨rfl, rfl⟩ := Prod.mk.inj hab
  rw [cut]
  simp only [String.toList_append, String.toList_ofList]
  rw [cutList_again hq]
  simp

/-! ### One character -/

/-- What stands from the first place of a character on. -/
theorem dropWhile_cases (c : Char) (l : List Char) :
    l.dropWhile (· ≠ c) = [] ∨ ∃ t, l.dropWhile (· ≠ c) = c :: t := by
  induction l with
  | nil => exact Or.inl rfl
  | cons x xs ih =>
    by_cases hx : x = c
    · exact Or.inr ⟨xs, by simp [hx]⟩
    · simpa [hx] using ih

theorem takeWhile_append_of_not_mem {c : Char} {a b : List Char} (ha : c ∉ a)
    (hb : b = [] ∨ ∃ t, b = c :: t) :
    (a ++ b).takeWhile (· ≠ c) = a ∧ (a ++ b).dropWhile (· ≠ c) = b := by
  have hne : ∀ x ∈ a, decide (x ≠ c) = true := fun x hx => by
    simp only [decide_eq_true_eq]
    rintro rfl
    exact ha hx
  rw [List.takeWhile_append_of_pos hne, List.dropWhile_append_of_pos hne]
  rcases hb with rfl | ⟨t, rfl⟩ <;> simp

/-- The first place of a character, as what stands before it and from it on. -/
theorem cutList_singleton (c : Char) (l : List Char) :
    cutList [c] l = if c ∈ l then some (l.takeWhile (· ≠ c), (l.dropWhile (· ≠ c)).tail) else none := by
  induction l with
  | nil => simp [cutList]
  | cons x xs ih =>
    rw [cutList, ih]
    by_cases hx : x = c
    · simp [hx]
    · have hx' : ¬ c = x := fun h => hx h.symm
      by_cases hc : c ∈ xs <;> simp [hx, hx', hc, List.isPrefixOf]

theorem cut_none {s : String} {c : Char} (h : c ∉ s.toList) (sep : String) (hsep : sep.toList = [c]) :
    cut s sep = none := by
  rw [cut, hsep, cutList_singleton, if_neg h]
  rfl

theorem cut_append {a b : String} {c : Char} (h : c ∉ a.toList) (sep : String) (hsep : sep.toList = [c]) :
    cut (a ++ sep ++ b) sep = some (a, b) := by
  rw [cut, hsep, cutList_singleton, if_pos (by simp [hsep])]
  have hne : ∀ x ∈ a.toList, (decide (x ≠ c)) = true := fun x hx => by
    simp only [decide_eq_true_eq]
    rintro rfl
    exact h hx
  have hs : (a ++ sep ++ b).toList = a.toList ++ c :: b.toList := by
    simp [hsep]
  rw [hs, List.takeWhile_append_of_pos hne, List.dropWhile_append_of_pos hne]
  simp

theorem cut_cases (s : String) (c : Char) (sep : String) (hsep : sep.toList = [c]) :
    (c ∉ s.toList ∧ cut s sep = none) ∨
      ∃ a b, s = a ++ sep ++ b ∧ c ∉ a.toList ∧ cut s sep = some (a, b) := by
  by_cases hc : c ∈ s.toList
  · right
    obtain ⟨a, b, hab, ha⟩ := List.eq_append_cons_of_mem hc
    have hs : s = String.ofList a ++ sep ++ String.ofList b := by
      apply String.toList_inj.mp
      rw [hab]
      simp [hsep]
    have ha' : c ∉ (String.ofList a).toList := by simpa using ha
    exact ⟨_, _, hs, ha', by rw [hs]; exact cut_append ha' sep hsep⟩
  · exact Or.inl ⟨hc, cut_none hc sep hsep⟩

theorem cutLast_none {s : String} {c : Char} (h : c ∉ s.toList) : cutLast s c = none := by
  rw [cutLast, cutList_singleton, if_neg (by simpa using h)]
  rfl

theorem cutLast_append {a b : String} {c : Char} (h : c ∉ b.toList) (sep : String)
    (hsep : sep.toList = [c]) : cutLast (a ++ sep ++ b) c = some (a, b) := by
  rw [cutLast, cutList_singleton, if_pos (by simp [hsep])]
  have hne : ∀ x ∈ b.toList.reverse, (decide (x ≠ c)) = true := fun x hx => by
    simp only [decide_eq_true_eq]
    rintro rfl
    exact h (List.mem_reverse.mp hx)
  have hrev : (a ++ sep ++ b).toList.reverse = b.toList.reverse ++ c :: a.toList.reverse := by
    simp [hsep]
  rw [hrev, List.takeWhile_append_of_pos hne, List.dropWhile_append_of_pos hne]
  simp

theorem cutLast_cases (s : String) (c : Char) (sep : String) (hsep : sep.toList = [c]) :
    (c ∉ s.toList ∧ cutLast s c = none) ∨
      ∃ a b, s = a ++ sep ++ b ∧ c ∉ b.toList ∧ cutLast s c = some (a, b) := by
  by_cases hc : c ∈ s.toList
  · right
    obtain ⟨b, a, hab, hb⟩ := List.eq_append_cons_of_mem (List.mem_reverse.mpr hc)
    have hs : s = String.ofList a.reverse ++ sep ++ String.ofList b.reverse := by
      apply String.toList_inj.mp
      rw [← List.reverse_reverse s.toList, hab]
      simp [hsep]
    have hb' : c ∉ (String.ofList b.reverse).toList := by simpa using hb
    exact ⟨_, _, hs, hb', by rw [hs]; exact cutLast_append hb' sep hsep⟩
  · exact Or.inl ⟨hc, cutLast_none hc⟩

/-- What stands behind the last place of a character, or all of a text without it. -/
theorem cutLast_snd (s : String) (c : Char) :
    ((cutLast s c).map Prod.snd).getD s = String.ofList (s.toList.rtakeWhile (· ≠ c)) := by
  by_cases hc : c ∈ s.toList
  · rw [cutLast, cutList_singleton, if_pos (by simpa using hc)]
    rfl
  · have hall : s.toList.rtakeWhile (· ≠ c) = s.toList := by
      refine List.rtakeWhile_eq_self_iff.mpr fun x hx => ?_
      simp only [decide_eq_true_eq]
      rintro rfl
      exact hc hx
    rw [cutLast_none hc, hall, String.ofList_toList]
    rfl

/-- Nothing before a character that ends the run changes the run behind it. -/
theorem rtakeWhile_append_cons {p : Char → Bool} {c : Char} (h : p c = false) (a t : List Char) :
    (a ++ c :: t).rtakeWhile p = t.rtakeWhile p := by
  induction t using List.reverseRecOn with
  | nil => rw [List.rtakeWhile_concat, h, if_neg Bool.false_ne_true, List.rtakeWhile_nil]
  | append_singleton t x ih =>
    rw [← List.cons_append, ← List.append_assoc, List.rtakeWhile_concat, List.rtakeWhile_concat, ih]

/-! ### The end of a text -/

/-- A text without a suffix it may have. -/
def stripSuffix (p l : List Char) : List Char :=
  if p.isSuffixOf l then l.take (l.length - p.length) else l

@[simp] theorem stripSuffix_append (p x : List Char) : stripSuffix p (x ++ p) = x := by
  rw [stripSuffix, if_pos (List.isSuffixOf_iff_suffix.mpr (List.suffix_append x p))]
  simp

theorem stripSuffix_of_not {p l : List Char} (h : ¬ p <:+ l) : stripSuffix p l = l := by
  rw [stripSuffix, if_neg (fun hs => h (List.isSuffixOf_iff_suffix.mp hs))]

theorem toList_stripSuffix (s p : String) :
    (if endsWith s p then before s p else s).toList = stripSuffix p.toList s.toList := by
  rw [stripSuffix, endsWith, before]
  split
  · rw [String.toList_ofList]
  · rfl

theorem stripSuffix_prefix (p l : List Char) : stripSuffix p l <+: l := by
  rw [stripSuffix]
  split
  · exact List.take_prefix _ _
  · exact List.prefix_rfl

theorem stripSuffix_cases (p l : List Char) :
    (∃ x, l = x ++ p ∧ stripSuffix p l = x) ∨ (¬ p <:+ l ∧ stripSuffix p l = l) := by
  by_cases h : p <:+ l
  · obtain ⟨x, rfl⟩ := h
    exact Or.inl ⟨x, rfl, stripSuffix_append p x⟩
  · exact Or.inr ⟨h, stripSuffix_of_not h⟩

/-- A text that a suffix does not hold ends the place where the suffix can stand. -/
theorem suffix_append_cons_iff {p : List Char} {c : Char} (hc : c ∉ p) (a t : List Char) :
    p <:+ a ++ c :: t ↔ p <:+ t := by
  constructor
  · intro h
    rcases List.suffix_or_suffix_of_suffix h (List.suffix_append a (c :: t)) with h' | h'
    · rcases List.suffix_cons_iff.mp h' with rfl | h'
      · exact absurd List.mem_cons_self hc
      · exact h'
    · exact absurd (h'.subset List.mem_cons_self) hc
  · rintro ⟨x, rfl⟩
    exact ⟨a ++ c :: x, by simp⟩

/-- A character that a text does not have is not in the places where the text is found. -/
theorem infix_append_cons {p : List Char} {c : Char} (hc : c ∉ p) {a b : List Char}
    (h : p <:+: a ++ c :: b) : p <:+: a ∨ p <:+: b := by
  obtain ⟨s, t, hst⟩ := h
  rcases List.append_eq_append_iff.mp hst with ⟨u, ha, hb⟩ | ⟨u, hsp, hcb⟩
  · exact Or.inl ⟨s, u, ha.symm⟩
  · cases u with
    | nil => exact Or.inl ⟨s, [], by rw [List.append_nil, hsp, List.append_nil]⟩
    | cons x u =>
      obtain ⟨rfl, rfl⟩ := List.cons.inj hcb
      obtain ⟨y, rfl⟩ := (suffix_append_cons_iff hc a u).mp ⟨s, hsp⟩
      exact Or.inr ⟨y, t, rfl⟩

/-- A text found in joined pieces is found in a piece, or is empty. -/
theorem infix_intercalate {p : List Char} {c : Char} (hc : c ∉ p) :
    ∀ {parts : List (List Char)}, p <:+: [c].intercalate parts → p = [] ∨ ∃ part ∈ parts, p <:+: part
  | [], h => Or.inl (List.eq_nil_of_infix_nil h)
  | [part], h => Or.inr ⟨part, List.mem_singleton_self _, by simpa using h⟩
  | part :: next :: parts, h => by
    rw [List.intercalate_cons_cons, List.append_assoc, List.singleton_append] at h
    rcases infix_append_cons hc h with h | h
    · exact Or.inr ⟨part, List.mem_cons_self, h⟩
    · rcases infix_intercalate hc h with h | ⟨part', hmem, h⟩
      · exact Or.inl h
      · exact Or.inr ⟨part', List.mem_cons_of_mem _ hmem, h⟩

theorem infix_of_mem_intercalate {sep part : List Char} :
    ∀ {parts : List (List Char)}, part ∈ parts → part <:+: sep.intercalate parts
  | [p], h => by
    obtain rfl := List.mem_singleton.mp h
    simp
  | p :: next :: parts, h => by
    rw [List.intercalate_cons_cons]
    rcases List.mem_cons.mp h with rfl | h
    · exact ⟨[], sep ++ sep.intercalate (next :: parts), by simp⟩
    · exact (infix_of_mem_intercalate h).trans (List.suffix_append _ _).isInfix

/-- A line of a text is found in it. -/
theorem infix_of_mem_splitOn {c : Char} {text part : List Char} (h : part ∈ text.splitOn c) :
    part <:+: text := by
  have hinfix : part <:+: [c].intercalate (text.splitOn c) := infix_of_mem_intercalate h
  rwa [List.intercalate_splitOn] at hinfix

/-- Text of other characters in front of a text does not hold what is searched in it. -/
theorem infix_of_append {p a b : List Char} (ha : ∀ c ∈ a, c ∉ p) (h : p <:+: a ++ b) : p <:+: b := by
  induction a with
  | nil => exact h
  | cons c a ih =>
    rcases infix_append_cons (a := []) (ha c List.mem_cons_self) h with h | h
    · obtain rfl := List.eq_nil_of_infix_nil h
      exact List.nil_infix
    · exact ih (fun x hx => ha x (List.mem_cons_of_mem _ hx)) h

theorem toList_trimEnd (s : String) (c : Char) :
    (trimEnd s c).toList = s.toList.rdropWhile (· == c) := by
  rw [trimEnd, String.toList_ofList, List.rdropWhile]

theorem rdropWhile_append {p : Char → Bool} {t : List Char} (h : t.rdropWhile p ≠ []) (a : List Char) :
    (a ++ t).rdropWhile p = a ++ t.rdropWhile p := by
  induction t using List.reverseRecOn with
  | nil => exact absurd (List.rdropWhile_nil p) h
  | append_singleton t x ih =>
    rw [List.rdropWhile_concat] at h ⊢
    rw [← List.append_assoc, List.rdropWhile_concat]
    split
    · rename_i hx
      rw [if_pos hx] at h
      exact ih h
    · rw [List.append_assoc]

theorem rdropWhile_append_of_all {p : Char → Bool} {t : List Char} (h : ∀ x ∈ t, p x = true)
    (a : List Char) : (a ++ t).rdropWhile p = a.rdropWhile p := by
  induction t using List.reverseRecOn with
  | nil => rw [List.append_nil]
  | append_singleton t x ih =>
    rw [← List.append_assoc, List.rdropWhile_concat, if_pos (h x (by simp))]
    exact ih fun y hy => h y (by simp [hy])

end Text
