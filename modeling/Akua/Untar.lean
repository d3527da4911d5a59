import Akua.PackageTar
import Akua.Lib.Disk

/-! Reading an archive. Every step of the loop takes at least the 512 bytes of a header, and every
    PAX record at least one character, whatever sizes the archive claims, so reading ends. A path
    gets into the result through `entryPath` alone, so a file is written at the target followed by
    the segments of a path without `..`. -/

namespace Akua

variable (P : Platform)

/-- A path that stays below what it is joined to: not empty, not absolute, and every segment names
    an entry, without a backslash. -/
def StaysBelow (path : String) : Prop :=
  path ≠ "" ∧ Text.startsWith path "/" = false ∧
    ∀ s ∈ Text.split path '/', FilePath.Plain s ∧ '\\' ∉ s.toList

/-! ### Reading ends -/

/-- The fuel of the records is enough: more of it changes nothing. -/
theorem paxLoop_succ : ∀ (fuel : Nat) (text : List Nat), text.length ≤ fuel →
    paxLoop (fuel + 1) text = paxLoop fuel text
  | 0, [], _ => rfl
  | 0, _ :: _, h => absurd h (by simp)
  | _ + 1, [], _ => rfl
  | fuel + 1, u :: text, h => by
      have hdrop : ∀ length : Nat, ((u :: text).drop (length + 1)).length ≤ fuel := by
        intro length
        rw [List.length_drop]
        omega
      unfold paxLoop
      simp only [paxLoop_succ fuel _ (hdrop _)]

theorem paxLoop_fuel {fuel : Nat} {text : List Nat} (h : text.length ≤ fuel) :
    paxLoop fuel text = paxLoop text.length text := by
  induction fuel, h using Nat.le_induction with
  | base => rfl
  | succ fuel h ih => rw [paxLoop_succ fuel text h, ih]

/-- What is left after an entry is a header shorter. -/
theorem rest_length {bytes : Bytes} (size : Nat) (h : 512 ≤ bytes.length) :
    (bytes.drop (512 + size)).length / 512 + 1 ≤ bytes.length / 512 := by
  rw [List.length_drop]
  omega

theorem untarLoop_succ : ∀ (fuel : Nat) (pending : PendingNames) (bytes : Bytes),
    bytes.length / 512 + 1 ≤ fuel → untarLoop P (fuel + 1) pending bytes = untarLoop P fuel pending bytes
  | 0, _, _, h => absurd h (by omega)
  | fuel + 1, pending, bytes, h => by
      by_cases hshort : bytes.length < 512
      · unfold untarLoop
        rw [if_pos hshort, if_pos hshort]
      · have hrest : ∀ (size : Nat) (pending : PendingNames),
            untarLoop P (fuel + 1) pending (bytes.drop (512 + size)) =
              untarLoop P fuel pending (bytes.drop (512 + size)) := by
          intro size pending
          have hless := rest_length size (Nat.not_lt.mp hshort)
          exact untarLoop_succ fuel pending _ (by omega)
        unfold untarLoop
        simp only [hrest]

theorem untarLoop_fuel {fuel : Nat} {pending : PendingNames} {bytes : Bytes}
    (h : bytes.length / 512 + 1 ≤ fuel) :
    untarLoop P fuel pending bytes = untarLoop P (bytes.length / 512 + 1) pending bytes := by
  induction fuel, h using Nat.le_induction with
  | base => rfl
  | succ fuel h ih => rw [untarLoop_succ P fuel pending bytes h, ih]

/-! ### The paths of the result -/

theorem entryPath_staysBelow {raw path : String} (h : entryPath raw = some path) : StaysBelow path := by
  unfold entryPath at h
  dsimp only at h
  split at h
  · cases h
  · rename_i hbad
    simp only [not_or] at hbad
    obtain ⟨-, hparent, hne⟩ := hbad
    obtain rfl := Option.some.inj h
    have hseg : ∀ s ∈ FilePath.segments (slashed raw), FilePath.Plain s ∧ '\\' ∉ s.toList := by
      intro s hs
      obtain ⟨hempty, hdot, hslash⟩ := FilePath.of_mem_segments hs
      refine ⟨⟨hempty, hdot, fun he => hparent (he ▸ hs), hslash⟩, fun hback => ?_⟩
      have hmem : '\\' ∈ (slashed raw).toList :=
        Text.mem_of_mem_split (List.mem_of_mem_filter hs) hback
      rw [slashed, String.toList_ofList, List.mem_map] at hmem
      obtain ⟨c, -, hc⟩ := hmem
      split at hc
      · exact absurd hc (by decide)
      · exact absurd hc ‹_›
    have hsplit : Text.split (Text.join (FilePath.segments (slashed raw)) '/') '/' =
        FilePath.segments (slashed raw) := Text.split_join hne fun s hs => (hseg s hs).1.2.2.2
    rw [StaysBelow, hsplit]
    refine ⟨fun he => ?_, ?_, hseg⟩
    · rw [he] at hsplit
      have hone : "" ∈ FilePath.segments (slashed raw) := hsplit ▸ List.mem_singleton_self _
      exact (hseg _ hone).1.1 rfl
    · by_contra habs
      obtain ⟨rest, hrest⟩ := Text.startsWith_iff.mp (by simpa using habs)
      have hslash := @Text.split_append "" rest "/" '/' rfl
      rw [String.empty_append, ← hrest, hsplit] at hslash
      have hone : "" ∈ FilePath.segments (slashed raw) := hslash ▸ List.mem_append_left _ (by decide)
      exact (hseg _ hone).1.1 rfl

variable {P}

/-- Every path of the result went through `entryPath`. The induction is on the fuel. -/
theorem untarLoop_path : ∀ {fuel : Nat} {pending : PendingNames} {bytes : Bytes}
    {entries : List ArchiveEntry}, untarLoop P fuel pending bytes = .ok entries →
    ∀ entry ∈ entries, ∃ raw, entryPath raw = some entry.path
  | 0, _, _, _, h => by
      cases h
      exact fun _ hmem => absurd hmem List.not_mem_nil
  | fuel + 1, pending, bytes, entries, h => by
      unfold untarLoop at h
      dsimp only at h
      split at h
      · cases h
        exact fun _ hmem => absurd hmem List.not_mem_nil
      split at h
      · cases h
        exact fun _ hmem => absurd hmem List.not_mem_nil
      split at h
      · split at h
        · cases h
        split at h
        · exact untarLoop_path h
        split at h
        · exact untarLoop_path h
        split at h
        · exact untarLoop_path h
        split at h
        · cases h
        split at h
        · exact untarLoop_path h
        split at h
        · cases h
        rename_i path hpath
        obtain ⟨found, hfound, h⟩ := except_bind_ok.mp h
        cases h
        intro entry hmem
        rcases List.mem_cons.mp hmem with rfl | hmem
        · exact ⟨_, hpath⟩
        · exact untarLoop_path hfound entry hmem
      · cases h

theorem untar_staysBelow {bytes : Bytes} {entries : List ArchiveEntry} (h : untar P bytes = .ok entries)
    {entry : ArchiveEntry} (hmem : entry ∈ entries) : StaysBelow entry.path :=
  let ⟨_, hraw⟩ := untarLoop_path h entry hmem
  entryPath_staysBelow hraw

/-! ### What unpacking writes -/

/-- Joining such a path appends its segments. -/
theorem StaysBelow.join {path : String} (h : StaysBelow path) (target : FilePath) :
    FilePath.join target path = FilePath.normalize target ++ Text.split path '/' := by
  rw [FilePath.join, FilePath.normalize, List.foldl_append,
    FilePath.foldl_push_plain _ _ fun s hs => (h.2.2 s hs).1]
  rfl

/-- The event writes files of `target` only, at the segments of a path that stays below it. -/
def WritesBelow (target : FilePath) : Event → Prop
  | .writeFile file _ =>
    ∃ path, StaysBelow path ∧ file = FilePath.normalize target ++ Text.split path '/'
  | .copyFile .. => False
  | _ => True

/-- The event writes files of a new directory next to `slot` only. -/
def StagesBelow (φ : Type) [FileSystem φ] (slot : FilePath) (event : Event) : Prop :=
  ∀ file data, event = .writeFile file data → ∃ staging, ∃ before after : φ,
    FileSystem.makeTempDirectory (FilePath.dirname slot) "akua-stage-" before = (.ok staging, after) ∧
      WritesBelow staging event

section Disk

variable {φ : Type} [FileSystem φ]

open Run

theorem logs_writeBelow {target file : FilePath} {path : String} {data : Bytes} (h : StaysBelow path)
    (hfile : file = FilePath.join target path) :
    Logs (WritesBelow target) (Run.writeFile file data : Run φ PlatformError Unit) :=
  logs_bind (logs_log ⟨path, h, hfile.trans (h.join target)⟩) fun _ _ _ _ => logs_onDisk _

theorem logs_makeDirectoryBelow (target directory : FilePath) :
    Logs (WritesBelow target) (Run.makeDirectory directory : Run φ PlatformError Unit) :=
  logs_bind (logs_log trivial) fun _ _ _ _ => logs_onDisk _

theorem logs_unpackTarball (P : Platform) (tarGz : Bytes) (target : FilePath) :
    Logs (WritesBelow target) (unpackTarball P tarGz target : Run φ PackageTarError Unit) := by
  refine logs_bind (logs_ofExcept _) fun entries w w' hentries => ?_
  obtain ⟨bytes, -, huntar⟩ := except_bind_ok.mp
    (except_mapError_ok.mp (Effect.ofExcept_ok.mp hentries).1)
  refine logs_bind (logs_mapError (logs_makeDirectoryBelow _ _)) fun _ _ _ _ => ?_
  refine logs_bind (logs_forEach fun entry hentry => ?_) fun _ _ _ _ => logs_pure _
  exact logs_mapError (logs_bind (logs_makeDirectoryBelow _ _) fun _ _ _ _ =>
    logs_writeBelow (untar_staysBelow huntar hentry) rfl)

theorem logs_unpackInto_staged {bytes : Bytes} {entries : List ArchiveEntry}
    (h : untar P bytes = .ok entries) (slot : FilePath) :
    Logs (StagesBelow φ slot) (unpackInto slot entries : Run φ PlatformError Unit) := by
  have hother : ∀ event : Event, (∀ file data, event ≠ .writeFile file data) →
      StagesBelow φ slot event := fun event hne file data he => absurd he (hne file data)
  refine logs_bind ?_ fun _ _ _ _ => logs_bind (logs_read _) fun present _ _ _ => ?_
  · exact logs_bind (logs_log (hother _ (by simp))) fun _ _ _ _ => logs_onDisk _
  split
  · exact logs_pure _
  refine logs_bind (logs_onDisk _) fun staging w w' hstaging => ?_
  have hmade : FileSystem.makeTempDirectory (FilePath.dirname slot) "akua-stage-" w.fs =
      (.ok staging, w'.fs) := by
    obtain ⟨hresult, rfl⟩ := Prod.mk_inj.mp hstaging
    exact Prod.ext hresult rfl
  have hstage : ∀ event : Event, WritesBelow staging event → StagesBelow φ slot event :=
    fun _ h _ _ _ => ⟨staging, w.fs, w'.fs, hmade, h⟩
  refine logs_bind (logs_forEach fun entry hentry => ?_) fun _ _ _ _ => ?_
  · exact (logs_bind (logs_makeDirectoryBelow _ _) fun _ _ _ _ =>
      logs_writeBelow (untar_staysBelow h hentry) rfl).mono hstage
  · refine logs_bind (logs_result (logs_onDisk _)) fun moved _ _ _ => ?_
    rcases moved with error | _
    · refine logs_bind (logs_read _) fun present _ _ _ => ?_
      split
      · exact logs_bind (logs_log (hother _ (by simp))) fun _ _ _ _ => logs_onDisk _
      · exact logs_fail _
    · exact logs_pure _

/-- Reading an archive ends, whatever its bytes, and every file that is written from it is written at
    the target followed by the segments of a path without `..`. -/
theorem untar_safe (P : Platform) (bytes : Bytes) :
    (∀ fuel, bytes.length / 512 + 1 ≤ fuel → untarLoop P fuel {} bytes = untar P bytes) ∧
    (∀ (text : List Nat) (fuel), text.length ≤ fuel →
      paxLoop fuel text = paxLoop text.length text) ∧
    (∀ target, Logs (WritesBelow target) (unpackTarball P bytes target : Run φ PackageTarError Unit)) ∧
    ∀ entries, untar P bytes = .ok entries →
      (∀ entry ∈ entries, StaysBelow entry.path) ∧
      ∀ slot, Logs (StagesBelow φ slot) (unpackInto slot entries : Run φ PlatformError Unit) :=
  ⟨fun _ h => untarLoop_fuel P h, fun _ _ h => paxLoop_fuel h, logs_unpackTarball P bytes,
    fun _ h => ⟨fun _ hentry => untar_staysBelow h hentry, logs_unpackInto_staged h⟩⟩

end Disk

theorem untar_safe_one_file :
    ∀ entry ∈ [({ path := "charts/web.yaml", data := [97] } : ArchiveEntry)], StaysBelow entry.path :=
  ((@untar_safe Disk _ (.ofTables [] [] [] [])
    (tar [{ path := "charts/web.yaml", data := [97], mode := 0o644 }])).2.2.2 _ (by decide +kernel)).1

end Akua
