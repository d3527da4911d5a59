import Akua.KclModules
import Akua.Lib.Literals

/-! The string literals of generated KCL: what KCL reads where `kclStringLiteral`, or its counterpart
    in the previous release, wrote a text. The literal always ends where it was meant to; but a `$`
    is not escaped, so a text with an expression in it is evaluated. -/

namespace Akua

open Literal

namespace Kcl

/-- `value.replaceAll(c, by)` for one character. -/
def replaceAll (c : Char) (by' : List Char) (value : List Char) : List Char :=
  value.flatMap fun x => if x = c then by' else [x]

/-- The replacements one after the other are one replacement of every character. -/
theorem escaped_eq_replaceAll (value : List Char) : value.flatMap escaped =
    replaceAll '\t' ['\\', 't'] (replaceAll '\r' ['\\', 'r'] (replaceAll '\n' ['\\', 'n']
      (replaceAll '"' ['\\', '"'] (replaceAll '\\' ['\\', '\\'] value)))) := by
  induction value with
  | nil => rfl
  | cons c cs ih =>
    simp only [replaceAll, List.flatMap_cons, List.flatMap_append] at ih ⊢
    rw [ih]
    congr 1
    rw [escaped.eq_def]
    split <;> simp_all

/-- A character is written as an escape that denotes it, or as itself. -/
theorem escaped_cases (c : Char) :
    (∃ d, escaped c = ['\\', d] ∧ ∀ (D : Dialect) l, D.escape (d :: l) = .denotes [c] 1) ∨
      (escaped c = [c] ∧ c ≠ '\\' ∧ c ≠ '"' ∧ c ≠ '\n') := by
  rw [escaped.eq_def]
  split
  · exact Or.inl ⟨_, rfl, fun D => D.backslash⟩
  · exact Or.inl ⟨_, rfl, fun D => D.quote⟩
  · exact Or.inl ⟨_, rfl, fun D => D.newline⟩
  · exact Or.inl ⟨_, rfl, fun D => D.carriageReturn⟩
  · exact Or.inl ⟨_, rfl, fun D => D.tab⟩
  · rename_i hbackslash hquote hnewline _ _
    exact Or.inr ⟨rfl, hbackslash, hquote, hnewline⟩

/-- The literal ends at its closing quote, whatever the text. -/
theorem scan_escaped (value rest : List Char) :
    short.scan false (value.flatMap escaped ++ '"' :: rest) = some (value.flatMap escaped, rest) := by
  induction value with
  | nil => exact Quoting.scan_closer (q := short) rest
  | cons c cs ih =>
    rw [List.flatMap_cons, List.append_assoc]
    rcases escaped_cases c with ⟨d, hd, -⟩ | ⟨hc, hbackslash, hquote, hnewline⟩
    · rw [hd, List.cons_append, List.cons_append, List.nil_append, Quoting.scan_backslash rfl, ih]
      rfl
    · rw [hc, List.singleton_append, Quoting.scan_char hquote hbackslash (Or.inl hnewline), ih]
      rfl

/-- The escapes denote the text. -/
theorem unescape_escaped (D : Dialect) (value : List Char) :
    D.unescape 0 (value.flatMap escaped) = some value := by
  induction value with
  | nil => rfl
  | cons c cs ih =>
    rw [List.flatMap_cons]
    rcases escaped_cases c with ⟨d, hd, hdenotes⟩ | ⟨hc, hbackslash, -⟩
    · rw [hd, List.cons_append, List.cons_append, List.nil_append, Dialect.unescape_one (hdenotes D _), ih]
      rfl
    · rw [hc, List.singleton_append, Dialect.unescape_char hbackslash, ih]
      rfl

theorem toList_kclStringLiteral (value : String) :
    (kclStringLiteral value).toList = '"' :: (value.toList.flatMap escaped ++ ['"']) := by
  simp [kclStringLiteral]

/-- What KCL reads where a literal was written: the text with its expressions, and what follows. -/
theorem read_kclStringLiteral (D : Dialect) (value : String) (rest : List Char)
    (hrest : value = "" → rest.head? ≠ some '"') :
    D.read ((kclStringLiteral value).toList ++ rest) = (D.join value.toList).map (·, rest) := by
  have hlong : long.closer.isPrefixOf ('"' :: (value.toList.flatMap escaped ++ '"' :: rest)) = false := by
    refine Bool.eq_false_iff.mpr fun h => ?_
    have h := (List.cons_prefix_cons.mp (List.isPrefixOf_iff_prefix.mp h)).2
    rcases hvalue : value.toList with _ | ⟨c, cs⟩
    · rw [hvalue] at h
      obtain ⟨t, ht⟩ := (List.cons_prefix_cons.mp h).2
      exact hrest (String.toList_inj.mp hvalue) (by rw [← ht]; rfl)
    · rw [hvalue, List.flatMap_cons] at h
      rcases escaped_cases c with ⟨d, hd, -⟩ | ⟨hc, -, hquote, -⟩
      · rw [hd] at h
        exact absurd (List.cons_prefix_cons.mp h).1 (by decide)
      · rw [hc] at h
        exact hquote (List.cons_prefix_cons.mp h).1.symm
  have hshort : short.closer.isPrefixOf ('"' :: (value.toList.flatMap escaped ++ '"' :: rest)) = true :=
    List.isPrefixOf_iff_prefix.mpr ⟨_, rfl⟩
  have htext : (kclStringLiteral value).toList ++ rest =
      '"' :: (value.toList.flatMap escaped ++ '"' :: rest) := by
    rw [toList_kclStringLiteral, List.cons_append, List.append_assoc, List.singleton_append]
  rw [Dialect.read, htext, hlong, if_neg Bool.false_ne_true, if_pos hshort, List.drop_one, List.tail_cons,
    scan_escaped, Option.bind_some, Dialect.value, unescape_escaped, Option.bind_some]

end Kcl

namespace Rust

/-- The counterpart in the previous release writes character by character. -/
def kclStringLiteral (s : String) : String :=
  String.ofList (s.toList.foldl (fun out c => out ++ match c with
    | '\\' => ['\\', '\\']
    | '"' => ['\\', '"']
    | '\n' => ['\\', 'n']
    | '\r' => ['\\', 'r']
    | '\t' => ['\\', 't']
    | c => [c]) ['"'] ++ ['"'])

theorem kclStringLiteral_eq (s : String) : kclStringLiteral s = Kcl.kclStringLiteral s := by
  have hfold : ∀ (l out : List Char), l.foldl (fun out c => out ++ Kcl.escaped c) out =
      out ++ l.flatMap Kcl.escaped := by
    intro l
    induction l with
    | nil => simp
    | cons c cs ih =>
      intro out
      rw [List.foldl_cons, ih, List.flatMap_cons, List.append_assoc]
  apply String.toList_inj.mp
  rw [Kcl.toList_kclStringLiteral, kclStringLiteral, String.toList_ofList]
  exact congrArg (· ++ ['"']) (hfold s.toList ['"'])

end Rust

/-- A literal denotes its text and nothing is evaluated exactly when the text has no expression; the
    literal always ends where its text does. -/
theorem literal_denotes_iff (D : Dialect) (s : String) :
    (D.read (Kcl.kclStringLiteral s).toList = some (.plain s.toList, []) ↔ D.NoExpression s.toList) ∧
      (D.read (Rust.kclStringLiteral s).toList = some (.plain s.toList, []) ↔ D.NoExpression s.toList) ∧
      short.scan false (Kcl.kclStringLiteral s).toList.tail = some (s.toList.flatMap Kcl.escaped, []) := by
  have hread := Kcl.read_kclStringLiteral D s [] (fun _ => by simp)
  rw [List.append_nil] at hread
  have hiff : D.read (Kcl.kclStringLiteral s).toList = some (.plain s.toList, []) ↔
      D.NoExpression s.toList := by
    have hjoin : D.join s.toList = some (.plain s.toList) ↔ _ := Dialect.join_eq_plain_iff
    rw [hread, Option.map_eq_some_iff]
    constructor
    · rintro ⟨v, hv, hpair⟩
      rw [(Prod.mk.inj hpair).1] at hv
      exact (hjoin.mp hv).2
    · intro h
      exact ⟨_, hjoin.mpr ⟨rfl, h⟩, rfl⟩
  refine ⟨hiff, ?_, ?_⟩
  · rw [Rust.kclStringLiteral_eq]
    exact hiff
  · rw [Kcl.toList_kclStringLiteral, List.tail_cons]
    exact Kcl.scan_escaped s.toList []

/-- The default of a chart that is an expression is evaluated. -/
theorem expression_evaluated :
    Dialect.usual.read (Kcl.kclStringLiteral "$\x7bprint(1)\x7d").toList =
        some (.joined "$\x7bprint(1)\x7d".toList, []) ∧
      Dialect.usual.read (Rust.kclStringLiteral "$\x7bprint(1)\x7d").toList =
        some (.joined "$\x7bprint(1)\x7d".toList, []) := by
  decide

end Akua
