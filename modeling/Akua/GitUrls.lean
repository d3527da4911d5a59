import Akua.Dependencies
import Akua.Lib.Cutting
import Akua.RustLock

/-! The URL of a git source as lockfiles record it, in both implementations. They compute the same
    text, from the scheme, the authority behind the user info and the path; so nothing of the user
    info is in it. Each stripping is done once: a URL that has another default port or another `.git`
    under the one that is stripped loses it only at the next pass. -/

namespace Akua

namespace GitUrl

/-- The scheme of a URL, its authority behind the user info, and its path. -/
def pieces (url : String) : Option (String × List Char × List Char) :=
  (Text.cut url "://").map fun (scheme, rest) =>
    (scheme, (rest.toList.takeWhile (· ≠ '/')).rtakeWhile (· ≠ '@'), rest.toList.dropWhile (· ≠ '/'))

/-- The port that the scheme implies, as an authority ends in it; empty when there is none. -/
def defaultPort (scheme : String) : List Char :=
  if scheme = "https" then ":443".toList else if scheme = "http" then ":80".toList else []

def git : List Char := ".git".toList

/-- `text.replace(/\/+$/, "")`. -/
def trimmed (l : List Char) : List Char := l.rdropWhile (· == '/')

/-- Without slashes at the end, one `.git`, and the slashes before it. -/
def tidy (l : List Char) : List Char := trimmed (Text.stripSuffix git (trimmed l))

/-- The canonical text of the pieces. -/
def ofPieces (scheme : String) (authority path : List Char) : String :=
  String.ofList (tidy (scheme.toList ++ "://".toList ++
    (Text.stripSuffix (defaultPort scheme) authority ++ path)))

end GitUrl

open GitUrl

/-! ### The two implementations -/

theorem tidy_eq (s : String) : Text.trimEnd (if Text.endsWith (Text.trimEnd s '/') ".git" then
    Text.before (Text.trimEnd s '/') ".git" else Text.trimEnd s '/') '/' = String.ofList (tidy s.toList) := by
  have h := Text.toList_stripSuffix (Text.trimEnd s '/') ".git"
  rw [Text.toList_trimEnd s] at h
  apply String.toList_inj.mp
  rw [Text.toList_trimEnd, h, tidy, trimmed, trimmed, git]
  exact String.toList_ofList.symm

theorem stripPort_of_not_mem {scheme : String} {authority : List Char} (h : ':' ∉ authority) :
    Text.stripSuffix (defaultPort scheme) authority = authority := by
  rw [defaultPort]
  split
  · exact Text.stripSuffix_of_not fun hs => h (hs.subset (by decide))
  · split
    · exact Text.stripSuffix_of_not fun hs => h (hs.subset (by decide))
    · simp [Text.stripSuffix]

/-- The code compares the text behind the last `:`; the suffix `:443` says the same. -/
theorem stripPort_append (scheme host port : String) (h : ':' ∉ port.toList) :
    Text.stripSuffix (defaultPort scheme) (host ++ ":" ++ port).toList =
      if (scheme = "https" ∧ port = "443") ∨ (scheme = "http" ∧ port = "80") then host.toList
      else (host ++ ":" ++ port).toList := by
  have hsuffix : ∀ p : String, ':' ∉ p.toList →
      Text.stripSuffix (":" ++ p).toList (host ++ ":" ++ port).toList =
        if port = p then host.toList else (host ++ ":" ++ port).toList := by
    intro p hp
    split
    · rename_i he
      rw [he, String.append_assoc, @String.toList_append host, Text.stripSuffix_append]
    · rename_i hne
      refine Text.stripSuffix_of_not fun ⟨x, hx⟩ => hne ?_
      have hx' : Text.cutLast (String.ofList x ++ ":" ++ p) ':' = Text.cutLast (host ++ ":" ++ port) ':' := by
        congr 1
        apply String.toList_inj.mp
        simpa using hx
      rw [Text.cutLast_append hp ":" rfl, Text.cutLast_append h ":" rfl] at hx'
      exact (Prod.mk.inj (Option.some.inj hx')).2.symm
  rw [defaultPort]
  by_cases hs : scheme = "https"
  · rw [if_pos hs, show ":443".toList = (":" ++ "443").toList by rfl, hsuffix "443" (by decide)]
    simp [hs]
  · by_cases hs' : scheme = "http"
    · rw [if_neg hs, if_pos hs', show ":80".toList = (":" ++ "80").toList by rfl, hsuffix "80" (by decide)]
      simp [hs']
    · rw [if_neg hs, if_neg hs', if_neg (by simp [hs, hs'])]
      simp only [Text.stripSuffix, List.length_nil, Nat.sub_zero, List.take_length, ite_self]

theorem canonicalGitUrl_eq (url : String) : canonicalGitUrl url =
    ((pieces url).map fun (scheme, authority, path) => ofPieces scheme authority path).getD url := by
  rw [canonicalGitUrl, pieces]
  cases Text.cut url "://" with
  | none => rfl
  | some q =>
    obtain ⟨scheme, rest⟩ := q
    simp only [Option.map_some, Option.getD_some, Text.cutLast_snd, tidy_eq, ofPieces,
      String.toList_append, String.toList_ofList]
    rcases Text.cutLast_cases (String.ofList ((rest.toList.takeWhile (· ≠ '/')).rtakeWhile (· ≠ '@')))
      ':' ":" rfl with ⟨hc, hcut⟩ | ⟨host, port, hhost, hport, hcut⟩
    · simp only [hcut, String.toList_ofList]
      rw [stripPort_of_not_mem (by simpa using hc), List.append_assoc]
    · have hlist := congrArg String.toList hhost
      rw [String.toList_ofList] at hlist
      rw [hcut, hlist, stripPort_append scheme host port hport, List.append_assoc]
      simp only [apply_ite String.toList, String.toList_ofList]

theorem toList_stripUserinfo (rest : String) : (Rust.stripUserinfo rest).toList =
    (rest.toList.takeWhile (· ≠ '/')).rtakeWhile (· ≠ '@') ++ rest.toList.dropWhile (· ≠ '/') := by
  -- the authority and what stands behind it
  have hauthority : ∀ authority path stripped : String, '/' ∉ authority.toList →
      (path.toList = [] ∨ ∃ t, path.toList = '/' :: t) → rest = authority ++ path →
      (Text.cutLast authority '@' = none → stripped = rest) →
      (∀ u b, Text.cutLast authority '@' = some (u, b) → stripped = Text.after rest (u ++ "@")) →
      stripped.toList =
        (rest.toList.takeWhile (· ≠ '/')).rtakeWhile (· ≠ '@') ++ rest.toList.dropWhile (· ≠ '/') := by
    rintro authority path stripped ha hp rfl hnone hsome
    rw [String.toList_append, (Text.takeWhile_append_of_not_mem ha hp).1,
      (Text.takeWhile_append_of_not_mem ha hp).2]
    have hlast := Text.cutLast_snd authority '@'
    rcases Text.cutLast_cases authority '@' "@" rfl with ⟨_, hcut⟩ | ⟨u, b, hb, _, hcut⟩
    · rw [hnone hcut]
      rw [hcut] at hlast
      rw [← String.toList_ofList (l := authority.toList.rtakeWhile _), ← hlast]
      simp
    · rw [hsome u b hcut]
      rw [hcut] at hlast
      rw [← String.toList_ofList (l := authority.toList.rtakeWhile _), ← hlast]
      simp only [hb, String.append_assoc, Option.map_some, Option.getD_some]
      rw [← @String.append_assoc u, Text.after_append, String.toList_append]
  rw [Rust.stripUserinfo]
  rcases Text.cut_cases rest '/' "/" rfl with ⟨hno, hcut⟩ | ⟨a, p, hrest, ha, hcut⟩
  · rw [hcut]
    refine hauthority rest "" _ hno (Or.inl rfl) (by simp) (fun hlast => ?_) fun u b hlast => ?_
    · simp only [hlast]
    · simp only [hlast]
  · rw [hcut]
    refine hauthority a ("/" ++ p) _ ha (Or.inr ⟨p.toList, by simp⟩) (by rw [hrest, String.append_assoc])
      (fun hlast => ?_) fun u b hlast => ?_
    · simp only [hlast]
    · simp only [hlast]

/-- The last lines of both: one authority, one path, the same text. -/
theorem tidy_of_host {scheme host authority path : String}
    (h : host.toList = Text.stripSuffix (defaultPort scheme) authority.toList) :
    Text.trimEnd (if Text.endsWith (Text.trimEnd (scheme ++ "://" ++ host ++ path) '/') ".git" then
      Text.before (Text.trimEnd (scheme ++ "://" ++ host ++ path) '/') ".git"
      else Text.trimEnd (scheme ++ "://" ++ host ++ path) '/') '/' =
    ofPieces scheme authority.toList path.toList := by
  rw [tidy_eq, ofPieces, ← h]
  simp only [String.toList_append, List.append_assoc]

/-- Both implementations record the same text. -/
theorem canonicalizeUrl_eq (url : String) : Rust.canonicalizeUrl url = canonicalGitUrl url := by
  rw [canonicalGitUrl_eq, pieces, Rust.canonicalizeUrl]
  rcases hcut : Text.cut url "://" with _ | ⟨scheme, rest⟩
  · rfl
  simp only [Option.map_some, Option.getD_some]
  have hslash : '/' ∉ (rest.toList.takeWhile (· ≠ '/')).rtakeWhile (· ≠ '@') := fun h => by
    simpa using List.mem_takeWhile_imp ((List.rtakeWhile_suffix _ _).subset h)
  have hstrip := toList_stripUserinfo rest
  have hpath := Text.dropWhile_cases '/' rest.toList
  -- from here on the authority and the path are any two texts
  obtain ⟨authority, hA⟩ : ∃ a : String, a.toList = (rest.toList.takeWhile (· ≠ '/')).rtakeWhile (· ≠ '@') :=
    ⟨_, String.toList_ofList⟩
  obtain ⟨path, hP⟩ : ∃ p : String, p.toList = rest.toList.dropWhile (· ≠ '/') := ⟨_, String.toList_ofList⟩
  rw [← hA, ← hP] at hstrip ⊢
  rw [← hA] at hslash
  rw [← hP] at hpath
  have hrest : Rust.stripUserinfo rest = authority ++ path :=
    String.toList_inj.mp (hstrip.trans String.toList_append.symm)
  have hport : ∀ host port : String, ':' ∉ port.toList → authority = host ++ ":" ++ port →
      (if Rust.isDefaultPort scheme port = true then host else authority).toList =
        Text.stripSuffix (defaultPort scheme) authority.toList := by
    rintro host port hp rfl
    rw [stripPort_append scheme host port hp]
    simp [Rust.isDefaultPort, apply_ite String.toList]
  rcases hpath with hempty | ⟨t, ht⟩
  · obtain rfl : path = "" := String.toList_inj.mp hempty
    rw [String.append_empty] at hrest
    rw [hrest, Text.cut_none hslash "/" rfl]
    rcases Text.cutLast_cases authority ':' ":" rfl with ⟨hc, hlast⟩ | ⟨host, port, hhost, hp, hlast⟩
    · rw [hlast]
      exact tidy_of_host (stripPort_of_not_mem hc).symm
    · rw [hlast]
      exact tidy_of_host (hport host port hp hhost)
  · obtain rfl : path = "/" ++ String.ofList t := String.toList_inj.mp (by simp [ht])
    rw [hrest, ← @String.append_assoc authority, Text.cut_append hslash "/" rfl]
    rcases Text.cutLast_cases authority ':' ":" rfl with ⟨hc, hlast⟩ | ⟨host, port, hhost, hp, hlast⟩
    · rw [hlast]
      exact tidy_of_host (stripPort_of_not_mem hc).symm
    · rw [hlast]
      exact tidy_of_host (hport host port hp hhost)

/-! ### The user info -/

theorem pieces_of_scheme {scheme : String} (hs : '/' ∉ scheme.toList) (rest : String) :
    pieces (scheme ++ "://" ++ rest) = some (scheme,
      (rest.toList.takeWhile (· ≠ '/')).rtakeWhile (· ≠ '@'), rest.toList.dropWhile (· ≠ '/')) := by
  have hcut := Text.cutList_of_not_mem (p := ['/']) hs (by decide : ':' ≠ '/') rest.toList
  rw [pieces, Text.cut, String.toList_append, String.toList_append,
    show "://".toList = ':' :: '/' :: ['/'] by rfl, hcut]
  simp

/-- The pieces of a URL say nothing of its user info, which ends at the last `@` of the authority. -/
theorem pieces_userinfo {scheme user : String} (hs : '/' ∉ scheme.toList) (hu : '/' ∉ user.toList)
    (rest : String) :
    pieces (scheme ++ "://" ++ user ++ "@" ++ rest) = pieces (scheme ++ "://" ++ rest) := by
  have hat : '/' ∉ user.toList ++ ['@'] := by
    simp only [List.mem_append, List.mem_singleton, not_or]
    exact ⟨hu, by decide⟩
  have hne : ∀ x ∈ user.toList ++ ['@'], decide (x ≠ '/') = true := fun x hx => by
    simp only [decide_eq_true_eq]
    rintro rfl
    exact hat hx
  have hlist : (user ++ ("@" ++ rest)).toList = user.toList ++ ['@'] ++ rest.toList := by simp
  rw [String.append_assoc, String.append_assoc, pieces_of_scheme hs, pieces_of_scheme hs, hlist,
    List.takeWhile_append_of_pos hne, List.dropWhile_append_of_pos hne, List.append_assoc,
    List.singleton_append, Text.rtakeWhile_append_cons (by simp)]

/-- Both implementations compute one canonical text, and the sources that one writes to a lock are
    those that the other writes, with or without a `replace`. -/
theorem canonical_urls_agree (url : String) :
    Rust.canonicalizeUrl url = canonicalGitUrl url ∧
      ∀ (tag rev replaced : Option String) (fallback commit fork : String),
        (Rust.ResolvedSource.git url ((tag <|> rev).getD fallback) commit).toLockedFields.1 =
            (lockRecord (.git url tag rev) fallback replaced).source ∧
          (Rust.ResolvedSource.gitReplaced url ((tag <|> rev).getD fallback) fork).toLockedFields.1 =
            (lockRecord (.git url tag rev) fallback replaced).source := by
  have hsource : ∀ tagOrRev, "git+" ++ Rust.canonicalizeUrl url ++ "@" ++ tagOrRev =
      "git+" ++ canonicalGitUrl url ++ "@" ++ tagOrRev := by
    intro tagOrRev
    rw [canonicalizeUrl_eq]
  exact ⟨canonicalizeUrl_eq url, fun tag rev replaced fallback commit fork => ⟨hsource _, hsource _⟩⟩

/-- With any user info, both implementations record what they record without one, and so do the
    lock records of a git source. -/
theorem userinfo_not_recorded (scheme u₁ u₂ rest : String) (hs : '/' ∉ scheme.toList)
    (h₁ : '/' ∉ u₁.toList) (h₂ : '/' ∉ u₂.toList) :
    Rust.canonicalizeUrl (scheme ++ "://" ++ u₁ ++ "@" ++ rest) =
        Rust.canonicalizeUrl (scheme ++ "://" ++ u₂ ++ "@" ++ rest) ∧
      Rust.canonicalizeUrl (scheme ++ "://" ++ u₂ ++ "@" ++ rest) =
        Rust.canonicalizeUrl (scheme ++ "://" ++ rest) ∧
      canonicalGitUrl (scheme ++ "://" ++ u₁ ++ "@" ++ rest) =
        canonicalGitUrl (scheme ++ "://" ++ u₂ ++ "@" ++ rest) ∧
      canonicalGitUrl (scheme ++ "://" ++ u₂ ++ "@" ++ rest) =
        canonicalGitUrl (scheme ++ "://" ++ rest) ∧
      ∀ tag rev gitFallback replaced helmVersion,
        lockRecord (.git (scheme ++ "://" ++ u₁ ++ "@" ++ rest) tag rev) gitFallback replaced helmVersion =
          lockRecord (.git (scheme ++ "://" ++ rest) tag rev) gitFallback replaced helmVersion := by
  have hcanonical : ∀ user : String, '/' ∉ user.toList →
      canonicalGitUrl (scheme ++ "://" ++ user ++ "@" ++ rest) =
        canonicalGitUrl (scheme ++ "://" ++ rest) := by
    intro user hu
    rw [canonicalGitUrl_eq, canonicalGitUrl_eq, pieces_userinfo hs hu, pieces_of_scheme hs]
    rfl
  refine ⟨?_, ?_, ?_, hcanonical u₂ h₂, ?_⟩
  · rw [canonicalizeUrl_eq, canonicalizeUrl_eq, hcanonical u₁ h₁, hcanonical u₂ h₂]
  · rw [canonicalizeUrl_eq, canonicalizeUrl_eq, hcanonical u₂ h₂]
  · rw [hcanonical u₁ h₁, hcanonical u₂ h₂]
  · intro tag rev gitFallback replaced helmVersion
    rw [lockRecord, lockRecord, hcanonical u₁ h₁]

/-- Tokens with `@`, `:` and escapes in them. -/
theorem two_tokens_recorded :
    Rust.canonicalizeUrl "https://x:p@ss%40@h/o/r.git" = Rust.canonicalizeUrl "https://oauth2:t:k@h/o/r.git" ∧
      canonicalGitUrl "https://oauth2:t:k@h/o/r.git" = canonicalGitUrl "https://h/o/r.git" := by
  have h := userinfo_not_recorded "https" "x:p@ss%40" "oauth2:t:k" "h/o/r.git" (by decide) (by decide)
    (by decide)
  exact ⟨h.1, h.2.2.2.1⟩

/-! ### A second pass -/

/-- What one pass leaves for the next, of an authority without its default port and its path:
    another default port, a default port under the `.git` of the authority, or another `.git`. -/
inductive Leftover (port host path : List Char) : Prop
  | port {x : List Char} : port ≠ [] → host = x ++ port → Leftover port host path
  | underGit {x : List Char} : port ≠ [] → host = x ++ port ++ git → (∀ c ∈ path, c = '/') →
      Leftover port host path
  | git {x : List Char} {n m : Nat} :
      host ++ path = x ++ git ++ List.replicate n '/' ++ git ++ List.replicate m '/' →
      Leftover port host path

/-- One pass is enough: a text that is no URL, or one whose pieces leave nothing. -/
def Settled (url : String) : Prop :=
  ∀ scheme authority path, pieces url = some (scheme, authority, path) →
    ¬ Leftover (defaultPort scheme) (Text.stripSuffix (defaultPort scheme) authority) path

theorem trimmed_slashes (l : List Char) (n : Nat) : trimmed (l ++ List.replicate n '/') = trimmed l :=
  Text.rdropWhile_append_of_all (fun x hx => by simp [List.eq_of_mem_replicate hx]) l

theorem eq_trimmed_append (l : List Char) : ∃ n, l = trimmed l ++ List.replicate n '/' := by
  refine ⟨(l.rtakeWhile (· == '/')).length, ?_⟩
  rw [← List.eq_replicate_iff.mpr ⟨rfl, fun x hx => by simpa using List.mem_rtakeWhile_imp hx⟩]
  exact (List.rdropWhile_append_rtakeWhile).symm

theorem trimmed_concat {l : List Char} {c : Char} (h : c ≠ '/') : trimmed (l ++ [c]) = l ++ [c] :=
  List.rdropWhile_concat_neg _ _ _ (by simpa using h)

theorem trimmed_git (l : List Char) : trimmed (l ++ git) = l ++ git := by
  rw [show git = ".gi".toList ++ ['t'] by rfl, ← List.append_assoc]
  exact trimmed_concat (by decide)

/-- A second `.git` is what the tidied text ends in. -/
theorem git_suffix_tidy (l : List Char) : git <:+ tidy l ↔
    ∃ x n m, l = x ++ git ++ List.replicate n '/' ++ git ++ List.replicate m '/' := by
  constructor
  · intro h
    obtain ⟨m, hm⟩ := eq_trimmed_append l
    rw [tidy] at h
    rcases Text.stripSuffix_cases git (trimmed l) with ⟨y, hy, hstrip⟩ | ⟨hno, hstrip⟩
    · rw [hstrip] at h
      obtain ⟨n, hn⟩ := eq_trimmed_append y
      obtain ⟨x, hx⟩ := h
      refine ⟨x, n, m, ?_⟩
      rw [hx, ← hn, ← hy, ← hm]
    · rw [hstrip, trimmed, trimmed, List.rdropWhile_idempotent] at h
      exact absurd h hno
  · rintro ⟨x, n, m, rfl⟩
    rw [tidy, trimmed_slashes, trimmed_git, Text.stripSuffix_append, trimmed_slashes, trimmed_git]
    exact List.suffix_append x git

theorem trimmed_of_not_mem {l : List Char} (h : '/' ∉ l) : trimmed l = l := by
  refine List.rdropWhile_eq_self_iff.mpr fun hl => ?_
  simp only [beq_iff_eq]
  intro hlast
  exact h (hlast ▸ List.getLast_mem hl)

theorem trimmed_trimmed (l : List Char) : trimmed (trimmed l) = trimmed l :=
  List.rdropWhile_idempotent _ _

theorem trimmed_tidy (l : List Char) : trimmed (tidy l) = tidy l := trimmed_trimmed _

theorem tidy_prefix (l : List Char) : tidy l <+: l :=
  ((List.rdropWhile_prefix _ _).trans (Text.stripSuffix_prefix _ _)).trans (List.rdropWhile_prefix _ _)

/-- Tidying does not reach the scheme, except for the slashes of a URL without anything else. -/
theorem tidy_scheme (scheme body : List Char) : tidy (scheme ++ "://".toList ++ body) =
    if tidy body = [] then scheme ++ [':'] else scheme ++ "://".toList ++ tidy body := by
  have hempty : trimmed (scheme ++ "://".toList) = scheme ++ [':'] := by
    rw [show "://".toList = [':'] ++ List.replicate 2 '/' by rfl, ← List.append_assoc, trimmed_slashes]
    exact trimmed_concat (by decide)
  have hcolon : ¬ git <:+ scheme ++ [':'] := fun h => by
    have h' := (List.suffix_concat_iff.mp h).resolve_left (by decide)
    obtain ⟨t, ht, _⟩ := h'
    exact absurd (congrArg List.getLast? ht) (by simp [git])
  rw [tidy, tidy]
  by_cases hbody : trimmed body = []
  · rw [show trimmed (scheme ++ "://".toList ++ body) = scheme ++ [':'] from
      (Text.rdropWhile_append_of_all (List.rdropWhile_eq_nil_iff.mp hbody) _).trans hempty,
      Text.stripSuffix_of_not hcolon, trimmed_concat (by decide), hbody, if_pos (by decide)]
  rw [show trimmed (scheme ++ "://".toList ++ body) = scheme ++ "://".toList ++ trimmed body from
    Text.rdropWhile_append hbody _]
  rcases Text.stripSuffix_cases git (trimmed body) with ⟨x, hx, hstrip⟩ | ⟨hno, hstrip⟩
  · rw [hstrip, hx, ← List.append_assoc, Text.stripSuffix_append]
    split
    · rename_i hnil
      exact (Text.rdropWhile_append_of_all (List.rdropWhile_eq_nil_iff.mp hnil) _).trans hempty
    · rename_i hne
      exact Text.rdropWhile_append hne _
  · have hno' : ¬ git <:+ scheme ++ "://".toList ++ trimmed body := fun h => by
      rw [show "://".toList = [':', '/'] ++ ['/'] by rfl, ← List.append_assoc, List.append_assoc,
        List.singleton_append] at h
      exact hno ((Text.suffix_append_cons_iff (by decide) _ _).mp h)
    rw [hstrip, Text.stripSuffix_of_not hno', trimmed_trimmed, if_neg hbody]
    refine (Text.rdropWhile_append ?_ _).trans (congrArg _ (trimmed_trimmed body))
    rw [← trimmed, trimmed_trimmed]
    exact hbody

/-- Tidying a path, or nothing, behind an authority. -/
theorem trimmed_authority {host q : List Char} (hh : '/' ∉ host) (hq : q = [] ∨ ∃ t, q = '/' :: t) :
    ∃ q', trimmed (host ++ q) = host ++ q' ∧ (q' = [] ∨ ∃ t, q' = '/' :: t) := by
  by_cases hnil : trimmed q = []
  · refine ⟨[], ?_, Or.inl rfl⟩
    rw [trimmed, Text.rdropWhile_append_of_all (List.rdropWhile_eq_nil_iff.mp hnil), ← trimmed,
      trimmed_of_not_mem hh, List.append_nil]
  · refine ⟨trimmed q, Text.rdropWhile_append hnil _, ?_⟩
    rcases hq with rfl | ⟨t, rfl⟩
    · exact absurd (List.rdropWhile_nil _) hnil
    · rcases List.prefix_cons_iff.mp (List.rdropWhile_prefix (· == '/') ('/' :: t)) with h | ⟨t', h, _⟩
      · exact Or.inl h
      · exact Or.inr ⟨t', h⟩

/-- The authority of the tidied text: the authority, without a `.git` when only slashes follow. -/
theorem authority_tidy {host path : List Char} (hh : '/' ∉ host) (hp : path = [] ∨ ∃ t, path = '/' :: t) :
    (tidy (host ++ path)).takeWhile (· ≠ '/') =
      if path.all (· == '/') then Text.stripSuffix git host else host := by
  split
  · rename_i hall
    rw [List.all_eq_true] at hall
    have hhost : trimmed (host ++ path) = host :=
      (Text.rdropWhile_append_of_all (fun x hx => by simp [hall x hx]) _).trans (trimmed_of_not_mem hh)
    have hno : '/' ∉ Text.stripSuffix git host := fun h => hh ((Text.stripSuffix_prefix _ _).subset h)
    rw [tidy, hhost, trimmed_of_not_mem hno]
    simpa using (Text.takeWhile_append_of_not_mem hno (Or.inl rfl)).1
  · rename_i hall
    have hne : trimmed path ≠ [] := fun h => hall (List.all_eq_true.mpr (List.rdropWhile_eq_nil_iff.mp h))
    obtain ⟨t, ht⟩ : ∃ t, trimmed path = '/' :: t := by
      rcases hp with rfl | ⟨t, rfl⟩
      · exact absurd (List.rdropWhile_nil _) hne
      · rcases List.prefix_cons_iff.mp (List.rdropWhile_prefix (· == '/') ('/' :: t)) with h | ⟨t', h, _⟩
        · exact absurd h hne
        · exact ⟨t', h⟩
    have htrim : trimmed (host ++ path) = host ++ '/' :: t := by
      rw [← ht]
      exact Text.rdropWhile_append hne _
    -- a `.git` stands in the path
    obtain ⟨q, hq, hqs⟩ : ∃ q, Text.stripSuffix git (host ++ '/' :: t) = host ++ q ∧
        (q = [] ∨ ∃ t, q = '/' :: t) := by
      rcases Text.stripSuffix_cases git (host ++ '/' :: t) with ⟨x, hx, hstrip⟩ | ⟨_, hstrip⟩
      · obtain ⟨y, hy⟩ := (Text.suffix_append_cons_iff (by decide) host t).mp ⟨x, hx.symm⟩
        rw [← hy, ← List.cons_append, ← List.append_assoc] at hx
        exact ⟨'/' :: y, hstrip.trans (List.append_cancel_right hx).symm, Or.inr ⟨y, rfl⟩⟩
      · exact ⟨'/' :: t, hstrip, Or.inr ⟨t, rfl⟩⟩
    obtain ⟨q', hq', hqs'⟩ := trimmed_authority hh hqs
    rw [tidy, htrim, hq, hq']
    exact (Text.takeWhile_append_of_not_mem hh hqs').1

/-- A tidied text stays under another pass when its authority ends in no default port and it does not
    end in `.git`; otherwise the pass makes it shorter. -/
theorem tidy_again (scheme : List Char) {port a p b : List Char} (hb : a ++ p = b) (hne : b ≠ []) (htrim : trimmed b = b) :
    tidy (scheme ++ "://".toList ++ (Text.stripSuffix port a ++ p)) = scheme ++ "://".toList ++ b ↔
      ¬ (port ≠ [] ∧ port <:+ a) ∧ ¬ git <:+ b := by
  have hshort : ∀ l : List Char, l.length < (scheme ++ "://".toList ++ b).length →
      tidy l ≠ scheme ++ "://".toList ++ b := by
    intro l hl he
    have hle := ( tidy_prefix l).length_le
    rw [he] at hle
    omega
  by_cases hport : port ≠ [] ∧ port <:+ a
  · obtain ⟨hport, x, rfl⟩ := hport
    refine iff_of_false (hshort _ ?_) (fun h => h.1 ⟨hport, List.suffix_append x port⟩)
    have hpos := List.length_pos_iff.mpr hport
    rw [Text.stripSuffix_append, ← hb]
    simp only [List.length_append]
    omega
  · have hstrip : Text.stripSuffix port a = a := by
      rcases Text.stripSuffix_cases port a with ⟨x, hx, hstrip⟩ | ⟨_, hstrip⟩
      · obtain rfl : port = [] := by
          by_contra h
          exact hport ⟨h, x, hx.symm⟩
        rw [hstrip, hx, List.append_nil]
      · exact hstrip
    rw [hstrip, hb]
    by_cases hgit : git <:+ b
    · refine iff_of_false ?_ (fun h => h.2 hgit)
      obtain ⟨x, rfl⟩ := hgit
      have hfour : git.length = 4 := rfl
      have hlen : (tidy (x ++ git)).length ≤ x.length := by
        rw [tidy, htrim, Text.stripSuffix_append]
        exact (List.rdropWhile_prefix _ _).length_le
      rw [tidy_scheme]
      split
      · intro he
        have he := congrArg List.length he
        simp only [List.length_append, List.length_singleton, hfour, show "://".toList.length = 3 by rfl] at he
        omega
      · intro he
        have he := congrArg List.length (List.append_cancel_left he)
        rw [List.length_append, hfour] at he
        omega
    · refine iff_of_true ?_ ⟨hport, hgit⟩
      have hb : tidy b = b := by
        rw [tidy, htrim, Text.stripSuffix_of_not hgit, htrim]
      rw [tidy_scheme, hb, if_neg hne]

/-- What the tidied text of an authority and a path leaves for the next pass. -/
theorem leftover_iff {port host path : List Char} (hport : port = [] ∨ ∃ x, port = x ++ ['0'] ∨ port = x ++ ['3'])
    (hh : '/' ∉ host) (hp : path = [] ∨ ∃ t, path = '/' :: t) :
    Leftover port host path ↔
      (port ≠ [] ∧ port <:+ (tidy (host ++ path)).takeWhile (· ≠ '/')) ∨ git <:+ tidy (host ++ path) := by
  rw [git_suffix_tidy, authority_tidy hh hp]
  -- no text ends both in a port and in `.git`
  have hends : ∀ x y : List Char, port ≠ [] → x ++ port ≠ y ++ git := by
    intro x y hne he
    have hlast := congrArg List.getLast? he
    rcases hport with rfl | ⟨z, rfl | rfl⟩
    · exact hne rfl
    · simp [git] at hlast
    · simp [git] at hlast
  constructor
  · rintro (⟨hne, rfl⟩ | ⟨hne, rfl, hall⟩ | h)
    · refine Or.inl ⟨hne, ?_⟩
      split
      · rw [Text.stripSuffix_of_not fun ⟨y, hy⟩ => hends _ y hne hy.symm]
        exact List.suffix_append _ _
      · exact List.suffix_append _ _
    · refine Or.inl ⟨hne, ?_⟩
      rw [if_pos (List.all_eq_true.mpr fun c hc => beq_iff_eq.mpr (hall c hc)), Text.stripSuffix_append]
      exact List.suffix_append _ _
    · exact Or.inr ⟨_, _, _, h⟩
  · rintro (⟨hne, h⟩ | ⟨x, n, m, h⟩)
    · split at h
      · rename_i hall
        rcases Text.stripSuffix_cases git host with ⟨y, hy, hstrip⟩ | ⟨_, hstrip⟩
        · rw [hstrip] at h
          obtain ⟨x, rfl⟩ := h
          exact .underGit hne hy fun c hc => beq_iff_eq.mp (List.all_eq_true.mp hall c hc)
        · rw [hstrip] at h
          obtain ⟨x, rfl⟩ := h
          exact .port hne rfl
      · obtain ⟨x, rfl⟩ := h
        exact .port hne rfl
    · exact .git h

theorem defaultPort_last (scheme : String) :
    defaultPort scheme = [] ∨ ∃ x, defaultPort scheme = x ++ ['0'] ∨ defaultPort scheme = x ++ ['3'] := by
  rw [defaultPort]
  split
  · exact Or.inr ⟨":44".toList, Or.inr rfl⟩
  · split
    · exact Or.inr ⟨":8".toList, Or.inl rfl⟩
    · exact Or.inl rfl

/-- The colon that is left of a URL without anything behind its scheme is no URL. -/
theorem cut_scheme_colon {url scheme rest : String} (h : Text.cut url "://" = some (scheme, rest)) :
    Text.cut (scheme ++ ":") "://" = none := by
  rcases hcut : Text.cut (scheme ++ ":") "://" with _ | ⟨a, b⟩
  · rfl
  · exfalso
    have hs := Text.cut_eq_some hcut
    have hagain := Text.cut_again hcut (b ++ ("//" ++ rest))
    rw [← String.append_assoc, ← hs, show scheme ++ ":" ++ ("//" ++ rest) = scheme ++ "://" ++ rest by
      rw [String.append_assoc, String.append_assoc, ← @String.append_assoc ":"]; rfl, ← Text.cut_eq_some h, h] at hagain
    obtain rfl : scheme = a := (Prod.mk.inj (Option.some.inj hagain)).1
    have hlen := congrArg (fun t : String => t.toList.length) hs
    simp at hlen

/-- Canonicalising twice is canonicalising once exactly for the URLs whose pieces leave nothing for
    the second pass. -/
theorem canonicalGitUrl_again (url : String) :
    canonicalGitUrl (canonicalGitUrl url) = canonicalGitUrl url ↔ Settled url := by
  rcases hcut : Text.cut url "://" with _ | ⟨scheme, rest⟩
  · have hnone : pieces url = none := by rw [pieces, hcut]; rfl
    have hself : canonicalGitUrl url = url := by rw [canonicalGitUrl_eq, hnone]; rfl
    refine iff_of_true (by rw [hself, hself]) ?_
    intro _ _ _ h
    rw [hnone] at h
    cases h
  obtain ⟨A, hA⟩ : ∃ A, A = (rest.toList.takeWhile (· ≠ '/')).rtakeWhile (· ≠ '@') := ⟨_, rfl⟩
  obtain ⟨P, hP⟩ : ∃ P, P = rest.toList.dropWhile (· ≠ '/') := ⟨_, rfl⟩
  have hpieces : pieces url = some (scheme, A, P) := by
    rw [pieces, hcut, hA, hP]
    rfl
  obtain ⟨host, hhost⟩ : ∃ host, host = Text.stripSuffix (defaultPort scheme) A := ⟨_, rfl⟩
  have hslash : '/' ∉ host := fun h => by
    rw [hhost, hA] at h
    simpa using List.mem_takeWhile_imp ((List.rtakeWhile_suffix _ _).subset
      ((Text.stripSuffix_prefix _ _).subset h))
  have hat : '@' ∉ host := fun h => by
    rw [hhost, hA] at h
    simpa using List.mem_rtakeWhile_imp ((Text.stripSuffix_prefix _ _).subset h)
  have hpath : P = [] ∨ ∃ t, P = '/' :: t := hP ▸ Text.dropWhile_cases '/' rest.toList
  have hsettled : Settled url ↔ ¬ Leftover (defaultPort scheme) host P := by
    constructor
    · intro h
      rw [hhost]
      exact h scheme A P hpieces
    · intro h scheme' A' P' h'
      obtain ⟨rfl, rfl, rfl⟩ : scheme = scheme' ∧ A = A' ∧ P = P' := by simpa [hpieces] using h'
      rwa [hhost] at h
  have hcanon : canonicalGitUrl url = String.ofList (if tidy (host ++ P) = [] then scheme.toList ++ [':']
      else scheme.toList ++ "://".toList ++ tidy (host ++ P)) := by
    rw [canonicalGitUrl_eq, hpieces, ← tidy_scheme, hhost]
    rfl
  rw [hsettled, leftover_iff (defaultPort_last scheme) hslash hpath, not_or]
  have hauthority := authority_tidy hslash hpath
  have htrim := trimmed_tidy (host ++ P)
  generalize tidy (host ++ P) = b at hcanon hauthority htrim ⊢
  by_cases hb : b = []
  · rw [if_pos hb] at hcanon
    have hcolon : canonicalGitUrl url = scheme ++ ":" := by
      rw [hcanon]
      apply String.toList_inj.mp
      simp
    refine iff_of_true ?_ ⟨?_, ?_⟩
    · rw [hcolon, canonicalGitUrl_eq, pieces, cut_scheme_colon hcut]
      rfl
    · rw [hb]
      rintro ⟨hne, h⟩
      exact hne (List.suffix_nil.mp h)
    · rw [hb]
      exact fun h => absurd (List.suffix_nil.mp h) (by decide)
  · rw [if_neg hb] at hcanon
    have hurl : canonicalGitUrl url = scheme ++ "://" ++ String.ofList b := by
      rw [hcanon]
      apply String.toList_inj.mp
      simp
    have huser : (b.takeWhile (· ≠ '/')).rtakeWhile (· ≠ '@') = b.takeWhile (· ≠ '/') := by
      refine List.rtakeWhile_eq_self_iff.mpr fun x hx => ?_
      simp only [decide_eq_true_eq]
      rintro rfl
      rw [hauthority] at hx
      split at hx
      · exact hat ((Text.stripSuffix_prefix _ _).subset hx)
      · exact hat hx
    have hagain : pieces (scheme ++ "://" ++ String.ofList b) =
        some (scheme, b.takeWhile (· ≠ '/'), b.dropWhile (· ≠ '/')) := by
      rw [pieces, Text.cut_again hcut]
      simp only [Option.map_some, String.toList_ofList, huser]
    rw [← tidy_again scheme.toList List.takeWhile_append_dropWhile hb htrim, hurl,
      canonicalGitUrl_eq, hagain]
    constructor
    · intro h
      have h := congrArg String.toList h
      simpa [ofPieces] using h
    · intro h
      apply String.toList_inj.mp
      simpa [ofPieces] using h

/-- Both implementations are idempotent exactly on the URLs whose pieces leave nothing. -/
theorem canonical_idempotent_iff (url : String) :
    (Rust.canonicalizeUrl (Rust.canonicalizeUrl url) = Rust.canonicalizeUrl url ↔ Settled url) ∧
      (canonicalGitUrl (canonicalGitUrl url) = canonicalGitUrl url ↔ Settled url) := by
  rw [canonicalizeUrl_eq, canonicalizeUrl_eq]
  exact ⟨canonicalGitUrl_again url, canonicalGitUrl_again url⟩

/-- A second `.git`, and a second default port, are stripped by the second pass. -/
theorem second_pass_strips :
    Rust.canonicalizeUrl "https://h/r.git.git" = "https://h/r.git" ∧
      Rust.canonicalizeUrl "https://h/r.git" = "https://h/r" ∧
      canonicalGitUrl "https://h/r.git.git" = "https://h/r.git" ∧
      canonicalGitUrl "https://h/r.git" = "https://h/r" ∧
      canonicalGitUrl "https://h:443:443/r" = "https://h:443/r" ∧
      canonicalGitUrl "https://h:443/r" = "https://h/r" := by
  decide

end Akua
