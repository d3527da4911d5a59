import Akua.Lockfile
import Akua.Lib.Keyed

/-! Merging updates into a lock. A merge drops the entries that were resolved at another version,
    writes each update over the entry of its name and version, and sorts. Where no name and version
    occur twice, the result is a function of the entries as a set: an entry of a name that is not
    updated stays as it is, an update has one entry, and a second merge finds nothing to do. -/

namespace Akua

/-- What a lock's entries are found by. -/
def LockedPackage.slot (entry : LockedPackage) : String × String := (entry.name, entry.version)

def LockUpdate.slot (update : LockUpdate) : String × String := (update.name, update.version)

/-- The entry has the name, version, source and digest of the update. -/
structure PinnedBy (update : LockUpdate) (entry : LockedPackage) : Prop where
  name : entry.name = update.name
  version : entry.version = update.version
  source : entry.source = update.source
  digest : entry.digest = update.digest

/-- The entry keeps what was recorded for the bytes of `old`. -/
structure Carries (old : LockedPackage) (update : LockUpdate) (entry : LockedPackage) : Prop where
  signature : entry.signature = (update.signature <|> old.signature)
  attestation : entry.attestation = old.attestation
  vendor_digest : entry.vendor_digest = old.vendor_digest
  dependencies : entry.dependencies = old.dependencies

/-- The entry has nothing that the update did not bring. -/
structure Afresh (update : LockUpdate) (entry : LockedPackage) : Prop where
  signature : entry.signature = update.signature
  attestation : entry.attestation = none
  vendor_digest : entry.vendor_digest = none
  dependencies : entry.dependencies = none

/-! ### One entry -/

theorem mergedEntry_slot (update : LockUpdate) (previous : Option LockedPackage) :
    (mergedEntry previous update).slot = update.slot := rfl

theorem mergedEntry_pinnedBy (previous : Option LockedPackage) (update : LockUpdate) :
    PinnedBy update (mergedEntry previous update) := ⟨rfl, rfl, rfl, rfl⟩

theorem mergedEntry_carries {old : LockedPackage} {update : LockUpdate}
    (h : old.digest = update.digest) : Carries old update (mergedEntry (some old) update) := by
  have hcarry : (some old).filter (fun p => p.digest = update.digest) = some old := by simp [h]
  constructor <;> simp only [mergedEntry, hcarry] <;> rfl

theorem mergedEntry_afresh {previous : Option LockedPackage} {update : LockUpdate}
    (h : ∀ old, previous = some old → old.digest ≠ update.digest) :
    Afresh update (mergedEntry previous update) := by
  have hcarry : previous.filter (fun p => p.digest = update.digest) = none := by
    cases previous with
    | none => rfl
    | some old => simp [h old rfl]
  constructor <;> simp only [mergedEntry, hcarry, Option.bind_none]
  cases update.signature <;> rfl

/-- Writing an update over its own entry changes nothing. -/
theorem mergedEntry_idem (previous : Option LockedPackage) (update : LockUpdate) :
    mergedEntry (some (mergedEntry previous update)) update = mergedEntry previous update := by
  have hcarry : (some (mergedEntry previous update)).filter (fun p => p.digest = update.digest) =
      some (mergedEntry previous update) := by simp [mergedEntry]
  rw [mergedEntry, hcarry]
  cases hs : update.signature <;> simp [mergedEntry, hs]

/-! ### The entries before they are sorted -/

theorem upsert_eq_update (update : LockUpdate) : ∀ packages : List LockedPackage,
    upsert packages update = Keyed.update LockedPackage.slot update.slot
      (fun previous => mergedEntry previous update) packages
  | [] => rfl
  | entry :: rest => by
      have ih := upsert_eq_update update rest
      have hslot : entry.slot = update.slot ↔
          (entry.name = update.name ∧ entry.version = update.version) := Prod.mk_inj
      rw [Keyed.update]
      unfold upsert at ih ⊢
      rw [List.findIdx?_cons]
      by_cases h : entry.slot = update.slot
      · simp [h, hslot.mp h]
      · have hne : ¬ (entry.name = update.name ∧ entry.version = update.version) :=
          fun he => h (hslot.mpr he)
        rw [if_neg h, ← ih]
        simp only [hne, decide_false, Bool.false_eq_true, if_false]
        cases rest.findIdx? fun e => decide (e.name = update.name ∧ e.version = update.version) with
        | none => rfl
        | some slot => simp

/-- The upserts of a merge, in terms of keyed updates. -/
theorem upserts_eq (updates : List LockUpdate) (packages : List LockedPackage) :
    updates.foldl upsert packages = updates.foldl (fun l update =>
      Keyed.update LockedPackage.slot update.slot (fun p => mergedEntry p update) l) packages := by
  congr 1
  funext packages update
  exact upsert_eq_update update packages

variable {updates : List LockUpdate}

theorem slots_nodup (h : (updates.map LockUpdate.name).Nodup) :
    (updates.map LockUpdate.slot).Nodup := by
  refine List.Nodup.of_map Prod.fst ?_
  rw [List.map_map]
  exact h

theorem mem_survivors {packages : List LockedPackage} {entry : LockedPackage} :
    entry ∈ survivors packages updates ↔ entry ∈ packages ∧
      (entry.name ∉ updates.map LockUpdate.name ∨ entry.slot ∈ updates.map LockUpdate.slot) := by
  rw [survivors, List.mem_filter]
  simp [LockedPackage.slot, LockUpdate.slot]

theorem find_survivors {packages : List LockedPackage} {update : LockUpdate} (h : update ∈ updates) :
    Keyed.find LockedPackage.slot update.slot (survivors packages updates) =
      Keyed.find LockedPackage.slot update.slot packages := by
  refine Keyed.find_filter (fun entry hslot => ?_) packages
  obtain ⟨hname, hversion⟩ := Prod.mk_inj.mp hslot
  simp only [decide_eq_true_eq, List.any_eq_true]
  exact Or.inr ⟨update, h, hname.symm, hversion.symm⟩

/-! ### The merged lock -/

variable {lock : Lock}

theorem mem_mergeIntoLock (hlock : (lock.packages.map LockedPackage.slot).Nodup)
    (hupdates : (updates.map LockUpdate.name).Nodup) {entry : LockedPackage} :
    entry ∈ (mergeIntoLock lock updates).packages ↔
      (entry ∈ lock.packages ∧ entry.name ∉ updates.map LockUpdate.name) ∨
        ∃ update ∈ updates, entry = mergedEntry
          (Keyed.find LockedPackage.slot update.slot lock.packages) update := by
  have hsurvivors : ((survivors lock.packages updates).map LockedPackage.slot).Nodup :=
    (List.Sublist.map _ List.filter_sublist).nodup hlock
  have hmem : entry ∈ (mergeIntoLock lock updates).packages ↔
      entry ∈ updates.foldl upsert (survivors lock.packages updates) := List.mem_insertionSort _
  rw [hmem, upserts_eq, Keyed.mem_updates mergedEntry_slot (slots_nodup hupdates) hsurvivors]
  refine or_congr ?_ (exists_congr fun update => and_congr_right fun h => by rw [find_survivors h])
  rw [mem_survivors]
  constructor
  · rintro ⟨⟨h, hname | hslot⟩, hnot⟩
    · exact ⟨h, hname⟩
    · exact absurd hslot hnot
  · rintro ⟨h, hname⟩
    refine ⟨⟨h, Or.inl hname⟩, fun hslot => hname ?_⟩
    obtain ⟨update, hu, he⟩ := List.mem_map.mp hslot
    exact List.mem_map.mpr ⟨update, hu, (Prod.mk_inj.mp he).1⟩

theorem nodup_mergeIntoLock (hlock : (lock.packages.map LockedPackage.slot).Nodup)
    (updates : List LockUpdate) :
    ((mergeIntoLock lock updates).packages.map LockedPackage.slot).Nodup := by
  have hsurvivors : ((survivors lock.packages updates).map LockedPackage.slot).Nodup :=
    (List.Sublist.map _ List.filter_sublist).nodup hlock
  have hupserts : ((updates.foldl upsert (survivors lock.packages updates)).map
      LockedPackage.slot).Nodup := by
    rw [upserts_eq]
    exact Keyed.nodup_updates mergedEntry_slot updates hsurvivors
  exact ((List.perm_insertionSort _ _).map LockedPackage.slot).nodup_iff.mpr hupserts

/-! ### The order of entries -/

theorem byNameThenVersion_iff {a b : LockedPackage} : byNameThenVersion a b = true ↔
    Text.less a.name b.name = true ∨ (a.name = b.name ∧ Text.atMost a.version b.version) := by
  rw [byNameThenVersion]
  by_cases hab : Text.less a.name b.name = true
  · simp [hab]
  · rw [if_neg hab]
    by_cases hba : Text.less b.name a.name = true
    · have hne : a.name ≠ b.name := by
        intro he
        rw [he, Text.less_irrefl] at hba
        cases hba
      simp [hab, hba, hne]
    · have he : a.name = b.name := Text.eq_of_not_less (by simpa using hab) (by simpa using hba)
      rw [if_neg hba]
      simp [he, Text.less_irrefl, Text.atMost]

instance : Std.Total fun a b : LockedPackage => byNameThenVersion a b = true := ⟨fun a b => by
  rw [byNameThenVersion_iff, byNameThenVersion_iff]
  by_cases hab : Text.less a.name b.name = true
  · exact Or.inl (Or.inl hab)
  · by_cases hba : Text.less b.name a.name = true
    · exact Or.inr (Or.inl hba)
    · have he : a.name = b.name := Text.eq_of_not_less (by simpa using hab) (by simpa using hba)
      rcases Std.Total.total (r := Text.atMost) a.version b.version with h | h
      · exact Or.inl (Or.inr ⟨he, h⟩)
      · exact Or.inr (Or.inr ⟨he.symm, h⟩)⟩

instance : IsTrans LockedPackage fun a b => byNameThenVersion a b = true := ⟨fun a b c hab hbc => by
  rw [byNameThenVersion_iff] at hab hbc ⊢
  rcases hab with hab | ⟨hab, hversion⟩ <;> rcases hbc with hbc | ⟨hbc, hversion'⟩
  · exact Or.inl (Text.less_trans hab hbc)
  · exact Or.inl (hbc ▸ hab)
  · exact Or.inl (hab ▸ hbc)
  · exact Or.inr ⟨hab.trans hbc, IsTrans.trans _ _ _ hversion hversion'⟩⟩

theorem sortPackages_sorted (packages : List LockedPackage) :
    (sortPackages packages).Pairwise fun a b => byNameThenVersion a b = true :=
  List.pairwise_insertionSort _ packages

theorem sortPackages_idem (packages : List LockedPackage) :
    sortPackages (sortPackages packages) = sortPackages packages :=
  (sortPackages_sorted packages).insertionSort_eq

/-! ### A merge done twice -/

/-- The entry a merge writes for an update is found again by it. -/
theorem find_merged (hlock : (lock.packages.map LockedPackage.slot).Nodup)
    (hupdates : (updates.map LockUpdate.name).Nodup) {update : LockUpdate} (h : update ∈ updates) :
    Keyed.find LockedPackage.slot update.slot (mergeIntoLock lock updates).packages =
      some (mergedEntry (Keyed.find LockedPackage.slot update.slot lock.packages) update) :=
  (Keyed.find_eq_some (nodup_mergeIntoLock hlock updates)).mpr
    ⟨(mem_mergeIntoLock hlock hupdates).mpr (Or.inr ⟨update, h, rfl⟩), rfl⟩

theorem survivors_merged (hlock : (lock.packages.map LockedPackage.slot).Nodup)
    (hupdates : (updates.map LockUpdate.name).Nodup) :
    survivors (mergeIntoLock lock updates).packages updates =
      (mergeIntoLock lock updates).packages := by
  rw [survivors, List.filter_eq_self]
  intro entry hentry
  simp only [decide_eq_true_eq, List.any_eq_true]
  rcases (mem_mergeIntoLock hlock hupdates).mp hentry with ⟨-, hname⟩ | ⟨update, hu, rfl⟩
  · exact Or.inl hname
  · exact Or.inr ⟨update, hu, rfl, rfl⟩

theorem mergeIntoLock_idem (hlock : (lock.packages.map LockedPackage.slot).Nodup)
    (hupdates : (updates.map LockUpdate.name).Nodup) :
    mergeIntoLock (mergeIntoLock lock updates) updates = mergeIntoLock lock updates := by
  have hfixed : updates.foldl upsert (mergeIntoLock lock updates).packages =
      (mergeIntoLock lock updates).packages := by
    rw [upserts_eq]
    refine Keyed.updates_of_fixed fun update hu => ⟨_, find_merged hlock hupdates hu, ?_⟩
    exact mergedEntry_idem _ update
  have hsort : sortPackages (mergeIntoLock lock updates).packages =
      (mergeIntoLock lock updates).packages := sortPackages_idem _
  rw [mergeIntoLock, survivors_merged hlock hupdates, hfixed, hsort]
  rfl

/-- The one entry of an update's name. -/
theorem merged_of_name (hlock : (lock.packages.map LockedPackage.slot).Nodup)
    (hupdates : (updates.map LockUpdate.name).Nodup) {update : LockUpdate} (h : update ∈ updates) :
    (mergeIntoLock lock updates).packages.filter (fun e => e.name = update.name) =
      [mergedEntry (Keyed.find LockedPackage.slot update.slot lock.packages) update] := by
  have hnodup := ((nodup_mergeIntoLock hlock updates).of_map).filter fun e => e.name = update.name
  refine List.perm_singleton.mp
    ((List.perm_ext_iff_of_nodup hnodup (List.nodup_singleton _)).mpr fun entry => ?_)
  rw [List.mem_filter, List.mem_singleton, mem_mergeIntoLock hlock hupdates, decide_eq_true_eq]
  constructor
  · rintro ⟨⟨-, hname⟩ | ⟨other, hother, rfl⟩, he⟩
    · exact absurd (he ▸ List.mem_map_of_mem h) hname
    · rw [List.inj_on_of_nodup_map hupdates hother h he]
  · rintro rfl
    exact ⟨Or.inr ⟨update, h, rfl⟩, rfl⟩

/-- A merge keeps the entries of other names, leaves one entry for each update, which keeps what
    was recorded for its bytes and nothing else, and done again changes nothing. -/
theorem mergeIntoLock_framed (hlock : (lock.packages.map fun e => (e.name, e.version)).Nodup)
    (hupdates : (updates.map LockUpdate.name).Nodup) :
    (∀ entry, entry.name ∉ updates.map LockUpdate.name →
      (entry ∈ (mergeIntoLock lock updates).packages ↔ entry ∈ lock.packages)) ∧
    (∀ update ∈ updates, ∃ entry,
      (mergeIntoLock lock updates).packages.filter (fun e => e.name = update.name) = [entry] ∧
      PinnedBy update entry ∧
      (∀ old ∈ lock.packages, old.name = update.name → old.version = update.version →
        old.digest = update.digest → Carries old update entry) ∧
      ((¬ ∃ old ∈ lock.packages, old.name = update.name ∧ old.version = update.version ∧
        old.digest = update.digest) → Afresh update entry)) ∧
    mergeIntoLock (mergeIntoLock lock updates) updates = mergeIntoLock lock updates := by
  replace hlock : (lock.packages.map LockedPackage.slot).Nodup := hlock
  refine ⟨?_, ?_, mergeIntoLock_idem hlock hupdates⟩
  · intro entry hname
    rw [mem_mergeIntoLock hlock hupdates]
    constructor
    · rintro (⟨h, -⟩ | ⟨update, hu, rfl⟩)
      · exact h
      · exact absurd (List.mem_map_of_mem hu) hname
    · exact fun h => Or.inl ⟨h, hname⟩
  · intro update hu
    have hslot : ∀ old ∈ lock.packages, old.name = update.name → old.version = update.version →
        Keyed.find LockedPackage.slot update.slot lock.packages = some old :=
      fun old hold hname hversion =>
        (Keyed.find_eq_some hlock).mpr ⟨hold, Prod.mk_inj.mpr ⟨hname, hversion⟩⟩
    refine ⟨mergedEntry (Keyed.find LockedPackage.slot update.slot lock.packages) update, ?_,
      mergedEntry_pinnedBy _ update, ?_, ?_⟩
    · exact merged_of_name hlock hupdates hu
    · intro old hold hname hversion hdigest
      rw [hslot old hold hname hversion]
      exact mergedEntry_carries hdigest
    · intro hnone
      refine mergedEntry_afresh fun old hfound hdigest => hnone ?_
      obtain ⟨hold, hkey⟩ := (Keyed.find_eq_some hlock).mp hfound
      obtain ⟨hname, hversion⟩ := Prod.mk_inj.mp hkey
      exact ⟨old, hold, hname, hversion, hdigest⟩

/-- A signed entry next to another. -/
def signedLock : Lock where
  version := LOCK_VERSION
  package := some [
    { name := "db", version := "1", source := "oci://r/db", digest := "sha256:0a" },
    { name := "web", version := "1", source := "oci://r/web", digest := "sha256:0b",
      signature := some "s" }]

/-- The signed entry, resolved again to the same bytes. -/
def resolvedAgain : LockUpdate :=
  { name := "web", version := "1", source := "oci://r/web", digest := "sha256:0b" }

theorem mergeIntoLock_keeps_signature : ∃ entry,
    (mergeIntoLock signedLock [resolvedAgain]).packages.filter (fun e => e.name = "web") = [entry] ∧
      entry.signature = some "s" := by
  have hframed := @mergeIntoLock_framed [resolvedAgain] signedLock (by decide) (by decide)
  obtain ⟨entry, hone, -, hcarries, -⟩ := hframed.2.1 resolvedAgain List.mem_cons_self
  have hold := hcarries _ (List.mem_cons_of_mem _ List.mem_cons_self) rfl rfl rfl
  exact ⟨entry, hone, hold.signature⟩

end Akua
