import Akua.Lib.AsciiText
import Akua.TarRoundTrip

/-! The path of a PAX header. The lengths of its records count bytes, and the reader takes them for
    characters: the two agree as long as everything is ASCII. What comes behind the first other byte
    has no say in the path, as long as no `path=` stands there and no path record reaches into it. -/

namespace Akua.Pax

open AsciiText

/-! ### Records -/

/-- The records of a header, whichever codes its text is made of. -/
def records (text : List Nat) : List (List Nat × List Nat) := paxLoop text.length text

/-- The record that is `length` long, with the space behind its number and the line feed at its end. -/
def recordOf (text : List Nat) (length : Nat) : List Nat :=
  (text.take length).drop ((text.takeWhile (· ≠ 0x20)).length + 1)

/-- The key and the value of a record, if it has both. -/
def pairOf (record : List Nat) : List (List Nat × List Nat) :=
  let key := record.takeWhile (· ≠ 0x3d)
  if key.length = record.length ∨ key = [] then [] else [(key, record.drop (key.length + 1))]

/-- The text begins with a number and a space: a record of `length + 1` characters. -/
def Begins (text : List Nat) (length : Nat) : Prop :=
  parseInt (fromUnits (text.takeWhile (· ≠ 0x20))) 10 = some (.ofNat (length + 1)) ∧
    ¬ ((text.takeWhile (· ≠ 0x20)).length = text.length ∨ INFINITE ≤ length + 1)

theorem records_begins {text : List Nat} {length : Nat} (hne : text ≠ []) (h : Begins text length) :
    records text = pairOf (recordOf text length) ++ records (text.drop (length + 1)) := by
  obtain ⟨u, rest, rfl⟩ := List.exists_cons_of_ne_nil hne
  obtain ⟨hnumber, hspace⟩ := h
  have hdrop : ((u :: rest).drop (length + 1)).length ≤ rest.length := by
    rw [List.length_drop, List.length_cons]
    omega
  rw [records, List.length_cons]
  unfold paxLoop
  simp only [hnumber]
  rw [if_neg hspace, paxLoop_fuel hdrop]
  rfl

theorem records_none {text : List Nat} (h : ∀ length, ¬ Begins text length) : records text = [] := by
  cases text with
  | nil => rfl
  | cons u rest =>
    rw [records, List.length_cons]
    unfold paxLoop
    dsimp only
    split
    · rename_i length hnumber
      rw [if_pos (by_contra fun hspace => h length ⟨hnumber, hspace⟩)]
    · rfl

/-! ### The last path -/

def PATH : List Nat := Text.units "path"

/-- A path record: `path=` and the path. -/
def PATH_IS : List Nat := PATH ++ [0x3d]

theorem path_is_ascii : ∀ u ∈ PATH_IS, u < 128 := by decide

/-- The value of the last record with the key `path`. -/
def lastOf (entries : List (List Nat × List Nat)) : Option (List Nat) :=
  (entries.reverse.find? fun r => r.1 = PATH).map Prod.snd

def lastPath (text : List Nat) : Option (List Nat) := lastOf (records text)

theorem lastOf_append (first second : List (List Nat × List Nat)) :
    lastOf (first ++ second) = (lastOf second).or (lastOf first) := by
  rw [lastOf, lastOf, lastOf, List.reverse_append, List.find?_append]
  cases second.reverse.find? fun r => r.1 = PATH <;> rfl

theorem lastPath_nil : lastPath [] = none := rfl

theorem lastOf_singleton {key value v : List Nat} : lastOf [(key, value)] = some v ↔ key = PATH ∧ value = v := by
  by_cases hkey : key = PATH <;> simp [lastOf, hkey]

/-- A record has the path `v` when it is `path=` and `v`. -/
theorem lastOf_pairOf {record v : List Nat} : lastOf (pairOf record) = some v ↔ record = PATH_IS ++ v := by
  have hsplit := List.takeWhile_append_dropWhile (p := fun u : Nat => decide (u ≠ 0x3d)) (l := record)
  constructor
  · intro h
    rw [pairOf] at h
    split at h
    · cases h
    · rename_i hboth
      obtain ⟨hkey, hvalue⟩ := lastOf_singleton.mp h
      obtain ⟨u, rest, hrest⟩ : ∃ u rest, record.dropWhile (· ≠ 0x3d) = u :: rest := by
        refine List.exists_cons_of_ne_nil fun hnil => hboth (Or.inl ?_)
        rw [hnil, List.append_nil] at hsplit
        rw [hsplit]
      have hu : u = 0x3d := by
        have hstop := List.head?_dropWhile_not (fun u : Nat => decide (u ≠ 0x3d)) record
        rw [hrest] at hstop
        simpa using hstop
      have hrecord : record = PATH_IS ++ rest := by
        rw [← hsplit, hkey, hrest, hu, PATH_IS, List.append_assoc, List.singleton_append]
      have hlength : PATH_IS.length = PATH.length + 1 := rfl
      rw [hkey, hrecord, List.drop_left' hlength] at hvalue
      rw [hrecord, hvalue]
  · rintro rfl
    rfl

theorem infix_of_pairOf {record v : List Nat} (h : lastOf (pairOf record) = some v) : PATH_IS <:+: record := by
  rw [lastOf_pairOf.mp h]
  exact (List.prefix_append _ _).isInfix

theorem recordOf_within (text : List Nat) (length : Nat) : recordOf text length <:+: text :=
  (List.drop_suffix _ _).isInfix.trans (List.take_prefix _ _).isInfix

/-- Without `path=` there is no path. -/
theorem lastPath_none : ∀ {text : List Nat}, ¬ PATH_IS <:+: text → lastPath text = none := by
  intro text
  induction h : text.length using Nat.strong_induction_on generalizing text with
  | _ n ih =>
    intro hnot
    subst h
    by_cases hne : text = []
    · rw [hne, lastPath_nil]
    by_cases hbegins : ∃ length, Begins text length
    · obtain ⟨length, hbegins⟩ := hbegins
      have hrest : lastPath (text.drop (length + 1)) = none := by
        have hpos := List.length_pos_of_ne_nil hne
        refine ih _ ?_ rfl fun hin => hnot (hin.trans (List.drop_suffix _ _).isInfix)
        rw [List.length_drop]
        omega
      have hfirst : lastOf (pairOf (recordOf text length)) = none := by
        cases hv : lastOf (pairOf (recordOf text length)) with
        | none => rfl
        | some v => exact absurd ((infix_of_pairOf hv).trans (recordOf_within text length)) hnot
      rw [lastPath] at hrest
      rw [lastPath, records_begins hne hbegins, lastOf_append, hrest, hfirst]
      rfl
    · rw [lastPath, records_none (not_exists.mp hbegins)]
      rfl

/-! ### What stands behind -/

variable {start rest : List Nat}

/-- A number that goes on behind the start is of a record that stands behind it. -/
theorem lastPath_behind (hspace : ∀ u ∈ start, u ≠ 0x20) (hnot : ¬ PATH_IS <:+: rest) :
    lastPath (start ++ rest) = none := by
  induction h : start.length using Nat.strong_induction_on generalizing start rest with
  | _ n ih =>
    subst h
    by_cases hne : start = []
    · rw [hne, List.nil_append, lastPath_none hnot]
    have hne' : start ++ rest ≠ [] := by simp [hne]
    by_cases hbegins : ∃ length, Begins (start ++ rest) length
    · obtain ⟨length, hbegins⟩ := hbegins
      have hdrop : lastPath ((start ++ rest).drop (length + 1)) = none := by
        have hpos := List.length_pos_of_ne_nil hne
        rw [List.drop_append]
        refine ih _ ?_ (fun u hu => hspace u (List.mem_of_mem_drop hu))
          (fun hin => hnot (hin.trans (List.drop_suffix _ _).isInfix)) rfl
        rw [List.length_drop]
        omega
      have hrecord : recordOf (start ++ rest) length <:+: rest := by
        have hnumber : (start ++ rest).takeWhile (· ≠ 0x20) = start ++ rest.takeWhile (· ≠ 0x20) :=
          List.takeWhile_append_of_pos fun u hu => by simpa using hspace u hu
        rw [recordOf, hnumber, List.length_append, List.drop_take, Nat.add_assoc, ← List.drop_drop, List.drop_left]
        exact (List.take_prefix _ _).isInfix.trans (List.drop_suffix _ _).isInfix
      have hfirst : lastOf (pairOf (recordOf (start ++ rest) length)) = none := by
        cases hv : lastOf (pairOf (recordOf (start ++ rest) length)) with
        | none => rfl
        | some v => exact absurd ((infix_of_pairOf hv).trans hrecord) hnot
      rw [lastPath] at hdrop
      rw [lastPath, records_begins hne' hbegins, lastOf_append, hdrop, hfirst]
      rfl
    · rw [lastPath, records_none (not_exists.mp hbegins)]
      rfl

/-- A record goes on behind the start: its path does too, and it has one only when it begins with one. -/
theorem lastOf_pairOf_append (record : List Nat) (hrest : Beyond rest) :
    lastOf (pairOf (record ++ rest)) = (lastOf (pairOf record)).map (· ++ rest) := by
  refine Option.ext fun v => ?_
  rw [Option.map_eq_some_iff, lastOf_pairOf]
  constructor
  · intro h
    rcases List.append_eq_append_iff.mp h with ⟨more, hpath, hmore⟩ | ⟨more, hrecord, rfl⟩
    · cases more with
      | nil =>
        rw [List.append_nil] at hpath
        exact ⟨[], lastOf_pairOf.mpr (by rw [List.append_nil, hpath]), by rw [hmore]; rfl⟩
      | cons u more =>
        have hlow := path_is_ascii u (by rw [hpath]; simp)
        have hhigh := hrest u (by rw [hmore]; rfl)
        omega
    · exact ⟨more, lastOf_pairOf.mpr hrecord, rfl⟩
  · rintro ⟨more, hmore, rfl⟩
    rw [lastOf_pairOf.mp hmore, List.append_assoc]

/-- A text that begins with a record has the path of what follows, or else that record's. -/
theorem lastPath_begins {text : List Nat} {length : Nat} (hne : text ≠ []) (h : Begins text length) :
    lastPath text = (lastPath (text.drop (length + 1))).or (lastOf (pairOf (recordOf text length))) := by
  rw [lastPath, records_begins hne h, lastOf_append, lastPath]

theorem length_number_lt {start : List Nat} (hspace : 0x20 ∈ start) :
    (start.takeWhile (· ≠ 0x20)).length < start.length := by
  refine lt_of_le_of_ne (List.takeWhile_prefix _).length_le fun he => ?_
  have hall := (List.takeWhile_prefix (fun u : Nat => decide (u ≠ 0x20)) (l := start)).eq_of_length he
  rw [← hall] at hspace
  simpa using List.mem_takeWhile_imp hspace

/-- What follows a space is not in the number. -/
theorem number_append {start : List Nat} (hspace : 0x20 ∈ start) (rest : List Nat) :
    (start ++ rest).takeWhile (· ≠ 0x20) = start.takeWhile (· ≠ 0x20) := by
  rw [List.takeWhile_append, if_neg (length_number_lt hspace).ne]

theorem begins_append_iff {start : List Nat} (hspace : 0x20 ∈ start) (rest : List Nat) (length : Nat) :
    Begins (start ++ rest) length ↔ Begins start length := by
  have hshort := length_number_lt hspace
  rw [Begins, Begins, number_append hspace, List.length_append]
  refine and_congr_right fun _ => not_congr (or_congr_left ?_)
  omega

/-- A record that ends in the start. -/
theorem recordOf_append_within {start : List Nat} (hspace : 0x20 ∈ start) (rest : List Nat) {length : Nat}
    (hinside : length ≤ start.length) : recordOf (start ++ rest) length = recordOf start length := by
  rw [recordOf, recordOf, number_append hspace, List.take_append_of_le_length hinside]

/-- A record that reaches behind the start. -/
theorem recordOf_append_beyond {start : List Nat} (hspace : 0x20 ∈ start) (rest : List Nat) {length : Nat}
    (hbeyond : start.length ≤ length) :
    recordOf (start ++ rest) length = recordOf start length ++ rest.take (length - start.length) := by
  have hshort := length_number_lt hspace
  rw [recordOf, recordOf, number_append hspace, List.take_append, List.take_of_length_le (l := start) hbeyond,
    List.drop_append_of_le_length hshort]

theorem beyond_take {rest : List Nat} (h : Beyond rest) (k : Nat) : Beyond (rest.take k) := by
  intro u hu
  refine h u ?_
  cases rest with
  | nil => simp at hu
  | cons v rest =>
    cases k with
    | zero => simp at hu
    | succ k => simpa using hu

/-- What stands behind the start has no say in the path, but for the piece of it that belongs to a path
    record of the start. How long that piece is, the start says. -/
theorem lastPath_append (start : List Nat) : ∃ k, ∀ rest, Beyond rest → ¬ PATH_IS <:+: rest →
    lastPath (start ++ rest) = (lastPath start).map (· ++ rest.take k) := by
  induction h : start.length using Nat.strong_induction_on generalizing start with
  | _ n ih =>
    subst h
    by_cases hspace : 0x20 ∈ start
    · have hne : start ≠ [] := List.ne_nil_of_mem hspace
      have hpos := List.length_pos_of_ne_nil hne
      by_cases hbegins : ∃ length, Begins start length
      · obtain ⟨length, hbegins⟩ := hbegins
        have hrecords : ∀ rest : List Nat, lastPath (start ++ rest) =
            (lastPath ((start ++ rest).drop (length + 1))).or (lastOf (pairOf (recordOf (start ++ rest) length))) :=
          fun rest => lastPath_begins (by simp [hne]) ((begins_append_iff hspace rest length).mpr hbegins)
        have hself := lastPath_begins hne hbegins
        by_cases hinside : length + 1 ≤ start.length
        · -- the record ends in the start
          obtain ⟨k, hk⟩ := ih _ (by rw [List.length_drop]; omega) (start.drop (length + 1)) rfl
          refine ⟨if (lastPath (start.drop (length + 1))).isSome then k else 0, fun rest hrest hnot => ?_⟩
          rw [hrecords, hself, recordOf_append_within hspace rest (by omega), List.drop_append_of_le_length hinside,
            hk rest hrest hnot]
          cases lastPath (start.drop (length + 1)) with
          | some v => rfl
          | none => cases lastOf (pairOf (recordOf start length)) <;> simp
        · -- the record reaches behind it
          refine ⟨length - start.length, fun rest hrest hnot => ?_⟩
          have hbehind : lastPath ((start ++ rest).drop (length + 1)) = none := by
            rw [List.drop_append, List.drop_eq_nil_of_le (by omega), List.nil_append]
            exact lastPath_none fun hin => hnot (hin.trans (List.drop_suffix _ _).isInfix)
          have hnone : lastPath (start.drop (length + 1)) = none := by
            rw [List.drop_eq_nil_of_le (by omega), lastPath_nil]
          rw [hrecords, hself, recordOf_append_beyond hspace rest (by omega), hbehind, hnone, Option.none_or,
            Option.none_or, lastOf_pairOf_append _ (beyond_take hrest _)]
      · refine ⟨0, fun rest _ _ => ?_⟩
        rw [lastPath, records_none fun length hb => hbegins ⟨length, (begins_append_iff hspace rest length).mp hb⟩,
          lastPath, records_none (not_exists.mp hbegins)]
        rfl
    · have hspace : ∀ u ∈ start, u ≠ 0x20 := fun u hu he => hspace (he ▸ hu)
      refine ⟨0, fun rest _ hnot => ?_⟩
      have hnone := lastPath_behind hspace (show ¬ PATH_IS <:+: ([] : List Nat) by decide)
      rw [List.append_nil] at hnone
      rw [lastPath_behind hspace hnot, hnone]
      rfl

end Akua.Pax
