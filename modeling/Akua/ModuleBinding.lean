import Akua.KclLiterals
import Akua.PackageStubs

/-! The two templates that a dependency's name is spliced into: a chart's module names it in a comment
    and in a literal that escapes, a package's stub in a literal that does not. A module binds its
    dependency when the name stays data in each place: the comment's lines say nothing, and the
    literal denotes exactly the name and ends where the template goes on. -/

namespace Akua

open Literal

namespace Kcl

/-- The lines of a chart's module up to the ones that are the same for every name. -/
def chartHeader (name : String) : String :=
  "# Auto-generated per-render from akua.toml dep `" ++ name ++ "`.\n"

def chartPreamble : String :=
  "# slice C: exposes `path`, `sha256`, `Values`, and a\n" ++
  "# pre-filled `template` callable. Regenerated every render.\n" ++
  "\n" ++
  "import akua.helm as _helm\n" ++
  "\n" ++
  "path: str = "

/-- A chart's module behind the literal of its path. -/
def chartRest (digest : String) (values : Option String) : String :=
  let typed := values.filter (· ≠ "")
  "\n" ++
  "sha256: str = \"" ++ digest ++ "\"\n" ++
  "\n" ++
  (match typed with
    | some values => "# Typed Values schema, generated from values.schema.json.\n" ++ values ++ "\n"
    | none => "") ++
  "schema TemplateOpts:\n" ++
  (if typed.isSome then "    values: Values\n" else "    values: \x7bstr:\x7d = \x7b\x7d\n") ++
  "    release: str = \"release\"\n" ++
  "    namespace: str = \"default\"\n" ++
  "\n" ++
  (if typed.isSome then "template = lambda opts: TemplateOpts -> [\x7bstr:\x7d] \x7b\n"
    else "template = lambda opts: TemplateOpts = TemplateOpts \x7b\x7d -> [\x7bstr:\x7d] \x7b\n") ++
  (if typed.isSome then "    _flat = \x7b**opts.values\x7d\n" else "") ++
  "    _helm.template(_helm.Template \x7b\n" ++
  "        chart = path\n" ++
  (if typed.isSome then "        values = _flat\n" else "        values = opts.values\n") ++
  "        release = opts.release\n" ++
  "        namespace = opts.namespace\n" ++
  "    \x7d)\n" ++
  "\x7d\n"

/-- The name is in the header and in the literal, and nowhere else. -/
theorem chartModule_eq (name digest : String) (values : Option String) :
    chartModule name digest values = chartHeader name ++ chartPreamble ++
      kclStringLiteral (chartReference name) ++ chartRest digest values := by
  unfold chartModule chartRest chartHeader chartPreamble
  cases values.filter (· ≠ "") with
  | none => simp only [String.append_assoc]
  | some typed => simp only [String.append_assoc]

end Kcl

/-- A chart's module binds its dependency. -/
def ChartBinds (D : Dialect) (name : String) : Prop :=
  D.Inert (Kcl.chartHeader name).toList ∧ ∀ digest values,
    D.read ((Kcl.kclStringLiteral (Kcl.chartReference name)).toList ++ (Kcl.chartRest digest values).toList) =
      some (.plain (Kcl.chartReference name).toList, (Kcl.chartRest digest values).toList)

/-- A package's stub binds its dependency. -/
def StubBinds (D : Dialect) (name : String) : Prop :=
  D.read ('"' :: (name.toList ++ '"' :: PackageStubs.stubTail)) = some (.plain name.toList, PackageStubs.stubTail)

/-- The name stays in the comment: further lines of it are blank or comments, and the last of them, which
    the template's text stands behind, is a comment. -/
def StaysComment (D : Dialect) (name : String) : Prop :=
  ∀ first rest, name.toList.splitOn '\n' = first :: rest →
    (∀ line ∈ rest.dropLast, D.InertLine line) ∧
      ∀ line ∈ rest.getLast?, (line.dropWhile D.blank).head? = some '#'

/-- The name is what a literal holding it denotes: no quote, line break or escape in it, no backslash at
    its end. -/
def Verbatim (D : Dialect) (name : String) : Prop :=
  '"' ∉ name.toList ∧ '\n' ∉ name.toList ∧ name.toList.getLast? ≠ some '\\' ∧ D.NoEscape name.toList

/-! ### The comment -/

theorem inertLine_of_hash (D : Dialect) (line : List Char) : D.InertLine ('#' :: line) := by
  refine Or.inr ?_
  rw [List.dropWhile_cons_of_neg (by rw [D.visible '#' (by decide) (by decide)]; exact Bool.false_ne_true)]
  rfl

theorem inertLine_backquote {D : Dialect} (line rest : List Char) : D.InertLine (line ++ '`' :: rest) ↔
    (line.dropWhile D.blank).head? = some '#' := by
  have hblank : D.blank '`' = false := D.visible '`' (by decide) (by decide)
  rw [Dialect.InertLine]
  induction line with
  | nil => simp [hblank]
  | cons c cs ih =>
    rw [List.cons_append, List.dropWhile_cons, List.dropWhile_cons]
    split
    · exact ih
    · simp

/-- The lines with the template's text behind the last: that one has to be a comment. -/
theorem inert_lines_iff {D : Dialect} (text : List Char) :
    (∀ line ∈ (text ++ ['`', '.']).splitOn '\n', D.InertLine line) ↔
      (∀ line ∈ (text.splitOn '\n').dropLast, D.InertLine line) ∧
        ∀ line ∈ (text.splitOn '\n').getLast?, (line.dropWhile D.blank).head? = some '#' := by
  induction hlen : text.length using Nat.strong_induction_on generalizing text with
  | _ n ih =>
    by_cases hmem : '\n' ∈ text
    · obtain ⟨line, rest, rfl, hline⟩ := List.eq_append_cons_of_mem hmem
      have hrest := ih rest.length (by rw [← hlen, List.length_append, List.length_cons]; omega) rest rfl
      have hne := List.splitOn_ne_nil '\n' rest
      rw [List.append_assoc, List.cons_append, List.splitOn_append_cons_self, List.splitOn_append_cons_self,
        List.splitOn_eq_singleton hline, List.singleton_append, List.singleton_append,
        List.dropLast_cons_of_ne_nil hne, List.getLast?_cons_of_ne_nil hne, List.forall_mem_cons,
        List.forall_mem_cons, hrest, and_assoc]
    · have hmem' : '\n' ∉ text ++ ['`', '.'] := by
        simpa using hmem
      rw [List.splitOn_eq_singleton hmem, List.splitOn_eq_singleton hmem']
      simp [inertLine_backquote]

theorem inert_header_iff (D : Dialect) (name : String) :
    D.Inert (Kcl.chartHeader name).toList ↔ StaysComment D name := by
  have hstart : '\n' ∉ "# Auto-generated per-render from akua.toml dep `".toList := by decide
  have hhead : "# Auto-generated per-render from akua.toml dep `".toList.head? = some '#' := by decide
  have hheader : (Kcl.chartHeader name).toList = "# Auto-generated per-render from akua.toml dep `".toList ++
      name.toList ++ "`.\n".toList := by
    unfold Kcl.chartHeader
    rw [String.toList_append, String.toList_append]
  generalize "# Auto-generated per-render from akua.toml dep `".toList = start at hstart hhead hheader
  obtain ⟨before, rfl⟩ := List.head?_eq_some_iff.mp hhead
  have hfirst : (Kcl.chartHeader name).toList = '#' :: (before ++ name.toList ++ ['`', '.']) ++ '\n' :: [] := by
    rw [hheader, show "`.\n".toList = ['`', '.'] ++ '\n' :: [] by rfl]
    simp only [List.cons_append, List.append_assoc]
  have hempty : D.InertLine [] := Or.inl rfl
  rw [Dialect.Inert, hfirst, List.splitOn_append_cons_self, List.splitOn_nil]
  rw [List.forall_mem_append, List.forall_mem_singleton]
  by_cases hmem : '\n' ∈ name.toList
  · obtain ⟨first, rest, hname, hnot⟩ := List.eq_append_cons_of_mem hmem
    have hline : '\n' ∉ '#' :: (before ++ first) := fun h => by
      rw [← List.cons_append] at h
      exact (List.mem_append.mp h).elim hstart hnot
    have hsplit : name.toList.splitOn '\n' = first :: rest.splitOn '\n' := by
      rw [hname, List.splitOn_append_cons_self, List.splitOn_eq_singleton hnot, List.singleton_append]
    have htext : '#' :: (before ++ name.toList ++ ['`', '.']) =
        '#' :: (before ++ first) ++ '\n' :: (rest ++ ['`', '.']) := by
      rw [hname]
      simp
    rw [htext, List.splitOn_append_cons_self, List.splitOn_eq_singleton hline, List.singleton_append,
      List.forall_mem_cons, inert_lines_iff]
    constructor
    · rintro ⟨⟨-, h⟩, -⟩ first' rest' hsplit'
      rw [hsplit] at hsplit'
      obtain ⟨-, rfl⟩ := List.cons.inj hsplit'
      exact h
    · intro h
      exact ⟨⟨inertLine_of_hash D _, h first _ hsplit⟩, hempty⟩
  · have hline : '\n' ∉ '#' :: (before ++ name.toList ++ ['`', '.']) := by
      rw [← List.cons_append, ← List.cons_append]
      intro h
      rcases List.mem_append.mp h with h | h
      · exact (List.mem_append.mp h).elim hstart hmem
      · exact absurd h (by decide)
    rw [List.splitOn_eq_singleton hline, List.forall_mem_singleton]
    refine iff_of_true ⟨inertLine_of_hash D _, hempty⟩ ?_
    intro first rest hsplit
    rw [List.splitOn_eq_singleton hmem] at hsplit
    obtain ⟨-, rfl⟩ := List.cons.inj hsplit
    exact ⟨by simp, by simp⟩

/-! ### The literals -/

theorem noExpression_append {D : Dialect} {a b : List Char} (h : '$' ∉ a) :
    D.NoExpression (a ++ b) ↔ D.NoExpression b := by
  constructor
  · rintro hno c rest rfl
    exact hno (a ++ c) rest (by simp)
  · intro hno c rest hc
    rw [List.append_assoc] at hc
    rcases List.append_eq_append_iff.mp hc with ⟨u, hu, hb⟩ | ⟨u, hu, hb⟩
    · exact hno u rest (by rw [hb, List.append_assoc])
    · cases u with
      | nil => exact hno [] rest (by simpa using hb.symm)
      | cons x u =>
        obtain ⟨rfl, -⟩ := List.cons.inj hb
        exact absurd (by rw [hu]; simp) h

theorem getLast?_cons_ne_backslash (c : Char) (cs : List Char) : (c :: cs).getLast? ≠ some '\\' ↔
    (c = '\\' → cs ≠ []) ∧ cs.getLast? ≠ some '\\' := by
  cases cs with
  | nil => simp
  | cons d ds => simp [List.getLast?_cons_cons]

theorem noEscape_cons {D : Dialect} {c : Char} {cs : List Char} (h : D.NoEscape (c :: cs)) :
    (c = '\\' → D.escape cs = .stays) ∧ D.NoEscape cs :=
  ⟨fun hc => h [] cs (by rw [hc]; rfl), fun a ds hds => h (c :: a) ds (by rw [hds]; rfl)⟩

/-- Behind a backslash that stays stands no character that it would escape. -/
theorem head_of_stays {D : Dialect} {cs : List Char} (h : D.escape cs = .stays) :
    ∀ c ∈ cs.head?, c ≠ '\\' ∧ c ≠ '"' ∧ c ≠ '\n' := by
  intro c hc
  obtain ⟨ds, rfl⟩ := List.head?_eq_some_iff.mp hc
  refine ⟨?_, ?_, ?_⟩
  · rintro rfl
    rw [D.backslash] at h
    cases h
  · rintro rfl
    rw [D.quote] at h
    cases h
  · rintro rfl
    rw [D.lineBreak] at h
    cases h

/-- A text in which every backslash stays is a literal's whole text when no quote and no line break is in it
    and it does not end in a backslash; behind a backslash it cannot be over. -/
theorem scan_verbatim_iff {D : Dialect} {rest : List Char} (text : List Char) : ∀ {escaped : Bool},
    D.NoEscape text → (escaped = true → ∀ c ∈ text.head?, c ≠ '\\' ∧ c ≠ '"' ∧ c ≠ '\n') →
    (short.scan escaped (text ++ '"' :: rest) = some (text, rest) ↔
      (escaped = true → text ≠ []) ∧ '"' ∉ text ∧ '\n' ∉ text ∧ text.getLast? ≠ some '\\') := by
  induction text with
  | nil =>
    intro escaped _ _
    cases escaped with
    | true =>
      refine iff_of_false (fun h => ?_) (fun h => h.1 rfl rfl)
      obtain ⟨p, -, hp⟩ := Option.map_eq_some_iff.mp h
      cases (Prod.mk.inj hp).1
    | false => exact iff_of_true (Quoting.scan_closer (q := short) rest) (by simp)
  | cons c cs ih =>
    intro escaped hstay hhead
    obtain ⟨hescape, hstay'⟩ := noEscape_cons hstay
    have hcons : ∀ e, (short.scan e (cs ++ '"' :: rest)).map (fun p => (c :: p.1, p.2)) = some (c :: cs, rest) ↔
        short.scan e (cs ++ '"' :: rest) = some (cs, rest) := by
      intro e
      constructor
      · intro h
        obtain ⟨⟨b, r⟩, hb, hpair⟩ := Option.map_eq_some_iff.mp h
        obtain ⟨hcs, rfl⟩ := Prod.mk.inj hpair
        obtain rfl : b = cs := (List.cons.inj hcs).2
        exact hb
      · intro h
        rw [h]
        rfl
    rw [List.cons_append, getLast?_cons_ne_backslash, List.mem_cons, List.mem_cons, not_or, not_or]
    cases escaped with
    | true =>
      obtain ⟨hbackslash, hquote, hnewline⟩ := hhead rfl c rfl
      rw [Quoting.scan, hcons, ih hstay' (by simp)]
      simp [hbackslash, Ne.symm hquote, Ne.symm hnewline]
    | false =>
      by_cases hquote : c = '"'
      · subst hquote
        refine iff_of_false (fun h => ?_) (fun h => h.2.1.1 rfl)
        have hclose := Quoting.scan_closer (q := short) (cs ++ '"' :: rest)
        rw [show short.closer ++ (cs ++ '"' :: rest) = '"' :: (cs ++ '"' :: rest) from rfl, h] at hclose
        cases (Prod.mk.inj (Option.some.inj hclose)).1
      · rw [Quoting.scan, Quoting.not_closer hquote, if_neg Bool.false_ne_true]
        by_cases hnewline : c = '\n'
        · rw [if_pos ⟨hnewline, rfl⟩]
          exact iff_of_false (fun h => by cases h) (fun h => h.2.2.1.1 hnewline.symm)
        · rw [if_neg (fun h => hnewline h.1), hcons, ih hstay']
          · simp [short, Ne.symm hquote, Ne.symm hnewline]
            tauto
          · intro h
            rw [Bool.and_eq_true, decide_eq_true_eq] at h
            exact head_of_stays (hescape h.1)

theorem chart_binds_iff (D : Dialect) (name : String) :
    ChartBinds D name ↔ StaysComment D name ∧ D.NoExpression name.toList := by
  rw [ChartBinds, inert_header_iff]
  refine and_congr_right fun _ => ?_
  have hname : D.NoExpression (Kcl.chartReference name).toList ↔ D.NoExpression name.toList := by
    rw [Kcl.chartReference, String.toList_append]
    exact noExpression_append (by decide)
  have hread := fun digest values => Kcl.read_kclStringLiteral D (Kcl.chartReference name)
    (Kcl.chartRest digest values).toList (fun h => absurd (congrArg String.toList h) (by simp [Kcl.chartReference]))
  rw [← hname]
  constructor
  · intro h
    have h := h "" none
    rw [hread, Option.map_eq_some_iff] at h
    obtain ⟨v, hv, hpair⟩ := h
    rw [(Prod.mk.inj hpair).1] at hv
    exact (Dialect.join_eq_plain_iff.mp hv).2
  · intro h digest values
    rw [hread, Dialect.join_eq_plain_iff.mpr ⟨rfl, h⟩]
    rfl

theorem length_le_of_value {D : Dialect} {body text : List Char} (h : D.value body = some (.plain text)) :
    text.length ≤ body.length :=
  Dialect.length_unescape_le (Dialect.value_eq_plain_iff.mp h).1 (Nat.zero_le _)

theorem stub_binds_iff (D : Dialect) (name : String) :
    StubBinds D name ↔ Verbatim D name ∧ D.NoExpression name.toList := by
  have hhead : PackageStubs.stubTail.head? ≠ some '"' := by decide
  rw [StubBinds, Verbatim]
  generalize PackageStubs.stubTail = rest at hhead ⊢
  have hopen : short.closer.isPrefixOf ('"' :: (name.toList ++ '"' :: rest)) = true := rfl
  constructor
  · intro h
    rw [Dialect.read] at h
    split at h
    · -- a literal of three quotes would hold less than the name
      obtain ⟨⟨body, rest'⟩, hscan, hvalue⟩ := Option.bind_eq_some_iff.mp h
      obtain ⟨v, hv, hpair⟩ := Option.map_eq_some_iff.mp hvalue
      obtain ⟨rfl, rfl⟩ := Prod.mk.inj hpair
      have hlen := congrArg List.length (Quoting.eq_of_scan hscan)
      have hshort := length_le_of_value hv
      simp only [List.length_drop, List.length_cons, List.length_append,
        show long.closer.length = 3 from rfl] at hlen
      dsimp only at hshort
      omega
    · rw [List.drop_one, List.tail_cons] at h
      obtain ⟨⟨body, rest'⟩, hscan, hvalue⟩ := Option.bind_eq_some_iff.mp h
      obtain ⟨v, hv, hpair⟩ := Option.map_eq_some_iff.mp hvalue
      obtain ⟨rfl, rfl⟩ := Prod.mk.inj hpair
      have htext := Quoting.eq_of_scan hscan
      rw [List.append_assoc] at htext
      obtain rfl : name.toList = body := List.append_cancel_right htext
      obtain ⟨hself, hno⟩ := Dialect.value_eq_plain_iff.mp hv
      have hstay := Dialect.unescape_eq_self_iff.mp hself
      obtain ⟨-, hquote, hnewline, hlast⟩ := (scan_verbatim_iff name.toList hstay (by simp)).mp hscan
      exact ⟨⟨hquote, hnewline, hlast, hstay⟩, hno⟩
  · rintro ⟨⟨hquote, hnewline, hlast, hstay⟩, hno⟩
    have hscan : short.scan false (name.toList ++ '"' :: rest) = some (name.toList, rest) :=
      (scan_verbatim_iff name.toList hstay (by simp)).mpr ⟨by simp, hquote, hnewline, hlast⟩
    have hlong : ¬ long.closer.isPrefixOf ('"' :: (name.toList ++ '"' :: rest)) = true := by
      intro h
      have h := (List.cons_prefix_cons.mp (List.isPrefixOf_iff_prefix.mp h)).2
      rcases hname : name.toList with _ | ⟨c, cs⟩
      · rw [hname] at h
        obtain ⟨t, ht⟩ := (List.cons_prefix_cons.mp h).2
        exact hhead (by rw [← ht]; rfl)
      · rw [hname] at h hquote
        exact hquote (List.mem_cons.mpr (Or.inl (List.cons_prefix_cons.mp h).1))
    have hvalue := Dialect.value_eq_plain_iff.mpr ⟨Dialect.unescape_eq_self_iff.mpr hstay, hno⟩
    rw [Dialect.read, if_neg hlong, if_pos hopen, List.drop_one, List.tail_cons, hscan, Option.bind_some, hvalue]
    rfl

/-- The modules bind their dependency exactly when its name stays data where it is spliced in: in the
    comment and, for a chart, without an expression; for a package, as the literal's very text. The name
    is nowhere else in them. -/
theorem modules_bind_iff (D : Dialect) (name : String) :
    (∀ digest values, Kcl.chartModule name digest values = Kcl.chartHeader name ++ Kcl.chartPreamble ++
      Kcl.kclStringLiteral (Kcl.chartReference name) ++ Kcl.chartRest digest values) ∧
    (ChartBinds D name ↔ StaysComment D name ∧ D.NoExpression name.toList) ∧
    (∀ source, (PackageStubs.stubModule name source).toList =
      PackageStubs.stubHead source.toList ++ '"' :: (name.toList ++ '"' :: PackageStubs.stubTail)) ∧
    (StubBinds D name ↔ Verbatim D name ∧ D.NoExpression name.toList) := by
  refine ⟨Kcl.chartModule_eq name, chart_binds_iff D name, fun source => ?_, stub_binds_iff D name⟩
  rw [PackageStubs.stubModule, String.toList_ofList]
  simp only [List.append_assoc, List.cons_append, List.nil_append]

/-- A name with a quote leaves the literal of the stub, one with a line break the comment of the chart's
    module. -/
theorem quoted_name_leaves :
    ¬ StubBinds Dialect.usual "x\"\n        evil = \"" ∧ ¬ ChartBinds Dialect.usual "x\nevil = 1\n#" := by
  constructor
  · intro h
    exact ((stub_binds_iff _ _).mp h).1.1 (by decide)
  · intro h
    have hline := (((chart_binds_iff _ _).mp h).1 "x".toList ["evil = 1".toList, "#".toList] (by decide)).1
      "evil = 1".toList (by decide)
    rcases hline with hline | hline
    · revert hline
      decide
    · revert hline
      decide

end Akua
