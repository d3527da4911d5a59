import Akua.Snapshot
import Akua.Lib.Utf8

/-! What a tree digest hashes. A file is framed as its path, a NUL, its bytes and a line feed, and
    nothing says how long the bytes are: the content of one file can spell the end of it and the
    frames of the files that follow. The path is safe, since no path has a NUL. So two snapshots
    with one stream agree up to a file where the content of one runs into the other's next files. -/

namespace Akua

/-- The frames of files, in their order. -/
def frames (files : List (String × Bytes)) : Bytes := files.flatMap fun f => fileStream f.1 f.2

/-- The files of a snapshot in the order a digest takes them. -/
def framedFiles (files : Snapshot) : List (String × Bytes) :=
  (sortPaths files.keys).map fun name => (name, (files.get? name).getD [])

/-- The files are the same up to one whose content goes on, in the first list, after the content it
    has in the second and a line feed, with the frames of the second list's next files. -/
def RunsInto (a b : List (String × Bytes)) : Prop :=
  ∃ shared name data added rest next, a = shared ++ (name, data ++ 10 :: added) :: rest ∧
    b = shared ++ (name, data) :: next ∧ added ++ 10 :: frames rest = frames next

/-- No path has a NUL. -/
def Pathlike (files : List (String × Bytes)) : Prop := ∀ f ∈ files, '\x00' ∉ f.1.toList

theorem treeStream_eq (files : Snapshot) : treeStream files = frames (framedFiles files) := by
  rw [treeStream, frames, framedFiles, List.flatMap_map]

theorem mem_framedFiles {files : Snapshot} {name : String} {data : Bytes} :
    (name, data) ∈ framedFiles files ↔ files.get? name = some data := by
  have hkeys : ∀ key, key ∈ sortPaths files.keys ↔ key ∈ files.keys := fun key =>
    List.mem_insertionSort _
  simp only [framedFiles, List.mem_map, hkeys, Prod.mk.injEq]
  constructor
  · rintro ⟨key, hkey, rfl, hdata⟩
    rcases hget : files.get? key with _ | found
    · exact absurd hkey (Table.get?_eq_none.mp hget)
    · rw [hget, Option.getD_some] at hdata
      rw [hdata]
  · intro hget
    refine ⟨name, ?_, rfl, by rw [hget]; rfl⟩
    by_contra hkey
    rw [Table.get?_eq_none.mpr hkey] at hget
    cases hget

theorem framedFiles_ne {s t : Snapshot} (h : ∃ name, s.get? name ≠ t.get? name) :
    framedFiles s ≠ framedFiles t := by
  obtain ⟨name, hname⟩ := h
  intro he
  apply hname
  ext data
  rw [← mem_framedFiles, ← mem_framedFiles, he]

theorem key_of_framedFiles {files : Snapshot} {name : String} {data : Bytes}
    (h : (name, data) ∈ framedFiles files) : name ∈ files.keys := by
  by_contra hkey
  have hget := mem_framedFiles.mp h
  rw [Table.get?_eq_none.mpr hkey] at hget
  cases hget

theorem pathlike_framedFiles {files : Snapshot} (h : ∀ name ∈ files.keys, '\x00' ∉ name.toList) :
    Pathlike (framedFiles files) :=
  fun _ hmem => h _ (key_of_framedFiles hmem)

/-! ### Taking a stream apart -/

/-- The first NUL ends the path of the first file. -/
theorem first_frame {name name' : String} {rest rest' : Bytes} (h : '\x00' ∉ name.toList)
    (h' : '\x00' ∉ name'.toList)
    (he : encodeText name ++ 0 :: rest = encodeText name' ++ 0 :: rest') :
    name = name' ∧ rest = rest' := by
  have hcut : ∀ (a b : Bytes), 0 ∉ a → (a ++ 0 :: b).takeWhile (· ≠ 0) = a := by
    intro a b ha
    rw [List.takeWhile_append_of_pos fun x hx => decide_eq_true (by rintro rfl; exact ha hx)]
    simp
  have hname : encodeText name = encodeText name' := by
    rw [← hcut _ rest (zero_not_mem_encodeText h), he, hcut _ _ (zero_not_mem_encodeText h')]
  rw [hname] at he
  exact ⟨encodeText_injective hname, (List.cons.inj (List.append_cancel_left he)).2⟩

theorem frames_cons (name : String) (data : Bytes) (rest : List (String × Bytes)) :
    frames ((name, data) :: rest) = encodeText name ++ 0 :: (data ++ 10 :: frames rest) := by
  simp [frames, fileStream]

theorem frames_append (a b : List (String × Bytes)) : frames (a ++ b) = frames a ++ frames b := by
  simp [frames]

theorem frames_eq_nil {files : List (String × Bytes)} : frames files = [] ↔ files = [] := by
  cases files with
  | nil => simp [frames]
  | cons f rest => simp [frames, fileStream]

theorem RunsInto.frames_eq {a b : List (String × Bytes)} (h : RunsInto a b) : frames a = frames b := by
  obtain ⟨shared, name, data, added, rest, next, rfl, rfl, h⟩ := h
  rw [frames_append, frames_append, frames_cons, frames_cons, ← h]
  simp

theorem RunsInto.cons {a b : List (String × Bytes)} (f : String × Bytes) (h : RunsInto a b) :
    RunsInto (f :: a) (f :: b) := by
  obtain ⟨shared, name, data, added, rest, next, rfl, rfl, h⟩ := h
  exact ⟨f :: shared, name, data, added, rest, next, rfl, rfl, h⟩

/-- Different file lists with one stream run into each other. The induction follows the files the
    two share; at the first that differs the paths agree, and one content is longer. -/
theorem runsInto_of_frames_eq : ∀ {a b : List (String × Bytes)}, Pathlike a → Pathlike b → a ≠ b →
    frames a = frames b → RunsInto a b ∨ RunsInto b a
  | [], [], _, _, hne, _ => absurd rfl hne
  | [], f :: b, _, _, _, he => absurd (frames_eq_nil.mp he.symm) (by simp)
  | f :: a, [], _, _, _, he => absurd (frames_eq_nil.mp he) (by simp)
  | (name, data) :: a, (name', data') :: b, ha, hb, hne, he => by
      rw [frames_cons, frames_cons] at he
      obtain ⟨hname, htail⟩ := first_frame (ha _ List.mem_cons_self) (hb _ List.mem_cons_self) he
      dsimp only at hname
      subst hname
      rcases List.append_eq_append_iff.mp htail with ⟨more, hdata, hrest⟩ | ⟨more, hdata, hrest⟩
      · cases more with
        | nil =>
          rw [List.append_nil] at hdata
          subst hdata
          have htails : frames a = frames b := (List.cons.inj hrest).2
          exact (runsInto_of_frames_eq (fun f hf => ha f (List.mem_cons_of_mem _ hf))
            (fun f hf => hb f (List.mem_cons_of_mem _ hf)) (fun h => hne (by rw [h])) htails).imp
            (RunsInto.cons _) (RunsInto.cons _)
        | cons byte more =>
          obtain ⟨hbyte, hmore⟩ := List.cons.inj hrest
          rw [← hbyte] at hdata
          exact Or.inr ⟨[], name, data, more, b, a, by rw [hdata]; rfl, rfl, hmore.symm⟩
      · cases more with
        | nil =>
          rw [List.append_nil] at hdata
          subst hdata
          have htails : frames b = frames a := (List.cons.inj hrest).2
          exact (runsInto_of_frames_eq (fun f hf => ha f (List.mem_cons_of_mem _ hf))
            (fun f hf => hb f (List.mem_cons_of_mem _ hf)) (fun h => hne (by rw [h]))
            htails.symm).imp (RunsInto.cons _) (RunsInto.cons _)
        | cons byte more =>
          obtain ⟨hbyte, hmore⟩ := List.cons.inj hrest
          rw [← hbyte] at hdata
          exact Or.inl ⟨[], name, data', more, a, b, by rw [hdata]; rfl, rfl, hmore.symm⟩

theorem treeStream_eq_iff {s t : Snapshot} (hs : ∀ name ∈ s.keys, '\x00' ∉ name.toList)
    (ht : ∀ name ∈ t.keys, '\x00' ∉ name.toList) (h : ∃ name, s.get? name ≠ t.get? name) :
    treeStream s = treeStream t ↔
      RunsInto (framedFiles s) (framedFiles t) ∨ RunsInto (framedFiles t) (framedFiles s) := by
  rw [treeStream_eq, treeStream_eq]
  constructor
  · exact runsInto_of_frames_eq (pathlike_framedFiles hs) (pathlike_framedFiles ht)
      (framedFiles_ne h)
  · rintro (hruns | hruns)
    · exact hruns.frames_eq
    · exact hruns.frames_eq.symm

/-- Two different snapshots are hashed from different streams, unless the content of one runs into
    the next files of the other. -/
theorem tree_streams_differ_iff {s t : Snapshot} (hs : ∀ name ∈ s.keys, '\x00' ∉ name.toList)
    (ht : ∀ name ∈ t.keys, '\x00' ∉ name.toList) (h : ∃ name, s.get? name ≠ t.get? name) :
    treeStream s ≠ treeStream t ↔
      ¬ (RunsInto (framedFiles s) (framedFiles t) ∨ RunsInto (framedFiles t) (framedFiles s)) :=
  not_congr (treeStream_eq_iff hs ht h)

/-- One file `a` whose content spells the file `b`, against the files `a` and `b`. -/
def spelled : Snapshot := Table.empty.set "a" [120, 10, 98, 0, 121]

/-- The two files `spelled` runs into. -/
def spelledOut : Snapshot := (Table.empty.set "a" [120]).set "b" [121]

theorem one_stream_two_trees : (∀ name ∈ spelled.keys, '\x00' ∉ name.toList) ∧
    (∀ name ∈ spelledOut.keys, '\x00' ∉ name.toList) ∧
    (∃ name, spelled.get? name ≠ spelledOut.get? name) ∧
    treeStream spelled = treeStream spelledOut := by
  refine ⟨by decide, by decide, ⟨"a", by decide⟩, by decide +kernel⟩

/-- The same two files differ in a content only: neither tree runs into the other. -/
theorem edited_tree_apart :
    ¬ (RunsInto (framedFiles (spelledOut.set "b" [122])) (framedFiles spelledOut) ∨
      RunsInto (framedFiles spelledOut) (framedFiles (spelledOut.set "b" [122]))) :=
  (tree_streams_differ_iff (by decide) (by decide) ⟨"b", by decide⟩).mp (by decide +kernel)

/-! ### Trees of text -/

/-- A content can only run into other files if it has a NUL after a line feed, or one of their
    paths has a line feed. -/
theorem RunsInto.lineFeed {a b : List (String × Bytes)} (h : RunsInto a b) :
    (∃ f ∈ a, ∃ data added, f.2 = data ++ 10 :: added ∧ 0 ∈ added) ∨ ∃ f ∈ b, '\n' ∈ f.1.toList := by
  obtain ⟨shared, name, data, added, rest, next, rfl, rfl, h⟩ := h
  by_cases hnul : 0 ∈ added
  · exact Or.inl ⟨(name, data ++ 10 :: added), by simp, data, added, rfl, hnul⟩
  · right
    obtain _ | ⟨⟨path, content⟩, next⟩ := next
    · simp [frames] at h
    · refine ⟨(path, content), by simp, ascii_mem_encodeText (c := '\n') (by decide) ?_⟩
      rw [frames_cons] at h
      -- `added` stops short of the NUL after the path, so the line feed behind it is in the path
      rcases List.append_eq_append_iff.mp h with ⟨more, hpath, -⟩ | ⟨more, hadded, hmore⟩
      · cases more with
        | nil => simp_all
        | cons byte more => simp_all
      · cases more with
        | nil => simp_all
        | cons byte more => simp_all

/-- Two different snapshots without line feeds in paths, and without a NUL after a line feed in a
    content, are hashed from different streams. -/
theorem text_tree_streams_differ {s t : Snapshot}
    (hs : ∀ name ∈ s.keys, '\x00' ∉ name.toList ∧ '\n' ∉ name.toList)
    (ht : ∀ name ∈ t.keys, '\x00' ∉ name.toList ∧ '\n' ∉ name.toList)
    (hdata : ∀ name data added, s.get? name = some (data ++ 10 :: added) ∨
      t.get? name = some (data ++ 10 :: added) → 0 ∉ added)
    (h : ∃ name, s.get? name ≠ t.get? name) : treeStream s ≠ treeStream t := by
  rw [Ne, treeStream_eq_iff (fun name hn => (hs name hn).1) (fun name hn => (ht name hn).1) h]
  rintro (hruns | hruns)
  · rcases hruns.lineFeed with ⟨⟨name, _⟩, hf, data, added, rfl, hnul⟩ | ⟨⟨name, _⟩, hf, hline⟩
    · exact hdata name data added (Or.inl (mem_framedFiles.mp hf)) hnul
    · exact (ht name (key_of_framedFiles hf)).2 hline
  · rcases hruns.lineFeed with ⟨⟨name, _⟩, hf, data, added, rfl, hnul⟩ | ⟨⟨name, _⟩, hf, hline⟩
    · exact hdata name data added (Or.inr (mem_framedFiles.mp hf)) hnul
    · exact (hs name (key_of_framedFiles hf)).2 hline

end Akua
