import Akua.Lib.Volume
import Akua.Sources

/-! The cache of single files over a run of fetches. A slot is named by the digest of the bytes and filled
    under the file name of the url that was first to bring them. So every slot holds one file with the bytes
    of its name, but a url whose bytes came under another file name gets a slot without its file. -/

namespace Akua

variable (P : Platform)

/-! ### Slots -/

/-- The text is a digest as `sha256` writes it. -/
def IsDigest (text : String) : Prop := ∃ hex : Hex256, text = "sha256:" ++ hex.digits

/-- The slot of a digest, by its digits. -/
def slotOf (hex : Hex256) : FilePath := cacheRoot P .url ++ [hex.digits]

/-- A directory holds one file and nothing else. -/
def HoldsOnly (volume : Volume) (directory : FilePath) (name : String) (data : Bytes) : Prop :=
  volume.at? directory = some .directory ∧ volume.data? (directory ++ [name]) = some data ∧
    ∀ rel, rel ≠ [] → rel ≠ [name] → volume.at? (directory ++ rel) = none

/-- Every slot holds one file, with the bytes that the slot is named after. -/
def CacheSound (volume : Volume) : Prop :=
  ∀ hex : Hex256, (volume.at? (slotOf P hex)).isSome →
    ∃ name data, P.sha256Hex data = hex ∧ HoldsOnly volume (slotOf P hex) name data

/-- A slot of `volume` is as `old` has it. -/
def SameSlot (old volume : Volume) (hex : Hex256) : Prop :=
  ∀ rel, volume.at? (slotOf P hex ++ rel) = old.at? (slotOf P hex ++ rel)

theorem Hex256.digits_plain (hex : Hex256) : FilePath.Plain hex.digits := by
  have hlength := hex.length
  refine ⟨?_, ?_, ?_, fun hslash => absurd (hex.hex _ hslash) (by decide)⟩ <;>
  · intro h
    rw [h] at hlength
    exact absurd hlength (by decide)

theorem Hex256.ext_digits {a b : Hex256} (h : a.digits = b.digits) : a = b := by
  cases a; cases b; simp_all

/-- No slot is a staging directory. -/
theorem Hex256.digits_ne_staging (hex : Hex256) (suffix : String) : hex.digits ≠ "akua-stage-" ++ suffix := by
  intro h
  have hk : 'k' ∈ hex.digits.toList := by simp [h]
  exact absurd (hex.hex _ hk) (by decide)

theorem urlSlot_digest (hex : Hex256) : urlSlot P ("sha256:" ++ hex.digits) = slotOf P hex := by
  rw [urlSlot, Text.stripPrefix_append, FilePath.join_name hex.digits_plain,
    FilePath.normalize_normal (cacheRoot_normal P .url), slotOf]

theorem slotOf_injective {a b : Hex256} {rel rel' : List String}
    (h : slotOf P a ++ rel = slotOf P b ++ rel') : a = b := by
  rw [slotOf, slotOf, List.append_assoc, List.append_assoc] at h
  exact Hex256.ext_digits (List.cons.inj (List.append_cancel_left h)).1

theorem urlFileName_plain (url : String) : FilePath.Plain (urlFileName url) := by
  rw [urlFileName]
  split
  · decide
  · rename_i h
    rw [not_or, not_or] at h
    refine ⟨h.1, h.2.1, h.2.2, fun hslash => ?_⟩
    rw [String.toList_ofList, List.mem_flatMap] at hslash
    obtain ⟨c, -, hc⟩ := hslash
    split at hc
    · rename_i hsafe
      obtain rfl := List.mem_singleton.mp hc
      exact absurd hsafe (by decide)
    · exact absurd (List.eq_of_mem_replicate hc) (by decide)

/-! ### Filling a slot -/

section Unpack

variable {w w' : World Volume}

/-- A change of the disk is what it does there. -/
theorem Run.onDisk_run {α : Type} {m : Effect Volume PlatformError α} {r : Except PlatformError α}
    (h : Run.onDisk m w = (r, w')) : m w.fs = (r, w'.fs) := by
  obtain ⟨rfl, rfl⟩ := Prod.mk.inj h
  rfl

/-- Making a directory changes only what is above it. -/
theorem makeDirectory_frame {path : FilePath} {r : Except PlatformError Unit}
    (h : Run.makeDirectory path w = (r, w')) {q : FilePath} (hq : ¬ q <+: FilePath.normalize path) :
    w'.fs.at? q = w.fs.at? q := by
  have hdisk : (FileSystem.makeDirectory path : Effect Volume PlatformError Unit) w.fs = (r, w'.fs) := by
    cases h; rfl
  cases r with
  | ok =>
    rw [Volume.makeDirectory_ok hdisk, if_neg hq]
  | error e => rw [Volume.change_error hdisk]

theorem writeFile_frame {path : FilePath} {data : Bytes} {r : Except PlatformError Unit}
    (h : Run.writeFile path data w = (r, w')) :
    (∀ q, q ≠ FilePath.normalize path → w'.fs.at? q = w.fs.at? q) ∧
      (r = .ok () → w'.fs.data? (FilePath.normalize path) = some data) := by
  have hdisk : (FileSystem.writeFile path data : Effect Volume PlatformError Unit) w.fs = (r, w'.fs) := by
    cases h; rfl
  cases r with
  | ok =>
    obtain ⟨-, mode, hat⟩ := Volume.writeFile_ok hdisk
    exact ⟨fun q hq => by rw [hat, if_neg hq], fun _ => Volume.data?_of_file (by rw [hat, if_pos rfl])⟩
  | error e =>
    refine ⟨fun q _ => ?_, fun hr => by cases hr⟩
    rw [Volume.change_error hdisk]

/-- Writing an entry changes only what is at it and above it. -/
theorem writeEntry_frame {directory : FilePath} {name : String} {data : Bytes} {r : Except PlatformError Unit}
    (hdir : FilePath.Normal directory) (hname : FilePath.Plain name)
    (h : writeEntry directory { path := name, data } w = (r, w')) :
    (∀ q, ¬ q <+: directory ++ [name] → w'.fs.at? q = w.fs.at? q) ∧
      (r = .ok () → w'.fs.data? (directory ++ [name]) = some data) := by
  have hjoin : FilePath.join directory name = directory ++ [name] := by
    rw [FilePath.join_name hname, FilePath.normalize_normal hdir]
  have hnormal : FilePath.normalize (directory ++ [name]) = directory ++ [name] := by
    rw [← hjoin, FilePath.normalize_join]
  have hparent : FilePath.normalize (FilePath.dirname (directory ++ [name])) = directory := by
    rw [FilePath.dirname, List.dropLast_concat, FilePath.normalize_normal hdir]
  rw [writeEntry, hjoin] at h
  have habove : ∀ q, ¬ q <+: directory ++ [name] → ¬ q <+: directory := fun q hq hle =>
    hq (hle.trans (List.prefix_append _ _))
  rcases hmake : Run.makeDirectory (FilePath.dirname (directory ++ [name])) w with ⟨e | _, w₁⟩
  · rw [Effect.bind_of_error hmake] at h
    obtain ⟨rfl, rfl⟩ := Prod.mk.inj h
    refine ⟨fun q hq => makeDirectory_frame hmake ?_, fun hr => by cases hr⟩
    rw [hparent]
    exact habove q hq
  · rw [Effect.bind_of_ok hmake] at h
    obtain ⟨hframe, hdata⟩ := writeFile_frame h
    rw [hnormal] at hframe hdata
    refine ⟨fun q hq => ?_, hdata⟩
    rw [hframe q fun heq => hq (heq ▸ List.prefix_rfl)]
    refine makeDirectory_frame hmake ?_
    rw [hparent]
    exact habove q hq

/-- What is at and above a staging directory's file is in no slot. -/
theorem not_above_staging (hex : Hex256) (rel : List String) (suffix name : String) :
    ¬ slotOf P hex ++ rel <+: cacheRoot P .url ++ ["akua-stage-" ++ suffix, name] := by
  rw [slotOf, List.append_assoc, List.prefix_append_right_inj]
  intro hle
  exact hex.digits_ne_staging suffix (List.cons_prefix_cons.mp hle).1

theorem normalize_slotOf (hex : Hex256) : FilePath.normalize (slotOf P hex) = slotOf P hex := by
  rw [← urlSlot_digest, urlSlot, FilePath.normalize_join]

/-- Moving a staging directory with one file to a free slot leaves the slots alone when it fails; else it
    fills the slot with the file and leaves the others alone. -/
theorem moveIntoPlace_slot {hex : Hex256} {staging : FilePath} {suffix name : String} {data : Bytes}
    {r : Except PlatformError Unit} (hstaging : staging = cacheRoot P .url ++ ["akua-stage-" ++ suffix])
    (hfree : w.fs.at? (slotOf P hex) = none) (hholds : HoldsOnly w.fs staging name data)
    (h : moveIntoPlace staging (slotOf P hex) w = (r, w')) :
    (r ≠ .ok () ∧ ∀ other, SameSlot P w.fs w'.fs other) ∨
      (HoldsOnly w'.fs (slotOf P hex) name data ∧ ∀ other, other ≠ hex → SameSlot P w.fs w'.fs other) := by
  obtain ⟨hdir, hdata, honly⟩ := hholds
  have hapart : ∀ (other : Hex256) rel, ¬ staging <+: slotOf P other ++ rel := by
    intro other rel hle
    rw [hstaging, slotOf, List.append_assoc, List.prefix_append_right_inj] at hle
    exact other.digits_ne_staging suffix (List.cons_prefix_cons.mp hle).1.symm
  have hnormal := FilePath.normalize_normal (Volume.normal_of_at? hdir)
  rw [moveIntoPlace] at h
  rcases hmove : (Run.onDisk (FileSystem.rename staging (slotOf P hex)) : Run Volume PlatformError Unit) w
    with ⟨e | _, w₁⟩
  · have hresult : (Run.onDisk (FileSystem.rename staging (slotOf P hex)) : Run Volume PlatformError Unit).result w =
        ((.ok (.error e), w₁) : Except PlatformError _ × _) := by
      rw [Effect.result_run, hmove]
    have hvolume := Volume.change_error (Run.onDisk_run hmove)
    rw [Effect.bind_of_ok hresult] at h
    simp only at h
    rw [Run.read_bind_of_ok Volume.fileExists_run, normalize_slotOf, hvolume, hfree, Option.isSome_none,
      if_neg Bool.false_ne_true] at h
    obtain ⟨rfl, rfl⟩ := Prod.mk.inj h
    refine .inl ⟨fun hr => (by cases hr), fun other rel => ?_⟩
    rw [hvolume]
  · have hresult : (Run.onDisk (FileSystem.rename staging (slotOf P hex)) : Run Volume PlatformError Unit).result w =
        ((.ok (.ok ()), w₁) : Except PlatformError _ × _) := by
      rw [Effect.result_run, hmove]
    rw [Effect.bind_of_ok hresult] at h
    obtain ⟨-, rfl⟩ := Prod.mk.inj h
    have hout : ¬ FilePath.normalize staging <+: FilePath.normalize (slotOf P hex) := by
      rw [hnormal, normalize_slotOf]
      simpa using hapart hex []
    obtain ⟨-, hat⟩ := Volume.rename_ok hout (Run.onDisk_run hmove)
    rw [hnormal, normalize_slotOf] at hat
    have hmoved : ∀ rel, w₁.fs.at? (slotOf P hex ++ rel) = w.fs.at? (staging ++ rel) := by
      intro rel
      rw [hat, if_pos (List.prefix_append _ _), List.drop_left]
    refine .inr ⟨⟨?_, ?_, fun rel hnil hrel => ?_⟩, fun other hother rel => ?_⟩
    · simpa [hdir] using hmoved []
    · rw [Volume.data?_congr (hmoved [name]), hdata]
    · rw [hmoved, honly rel hnil hrel]
    · rw [hat, if_neg, if_neg (hapart other rel)]
      rintro ⟨more, hmore⟩
      exact hother (slotOf_injective P hmore).symm

/-- Unpacking one file leaves the slots alone when it fails or the slot is there; else it fills the slot
    with the file and leaves the others alone. -/
theorem unpackInto_slot {hex : Hex256} {name : String} {data : Bytes} {r : Except PlatformError Unit}
    (hname : FilePath.Plain name)
    (h : unpackInto (slotOf P hex) [{ path := name, data }] w = (r, w')) :
    ((∀ other, SameSlot P w.fs w'.fs other) ∧ (r = .ok () → (w.fs.at? (slotOf P hex)).isSome)) ∨
      (w.fs.at? (slotOf P hex) = none ∧ HoldsOnly w'.fs (slotOf P hex) name data ∧
        ∀ other, other ≠ hex → SameSlot P w.fs w'.fs other) := by
  have hroot := FilePath.normalize_normal (cacheRoot_normal P .url)
  have hparent : FilePath.dirname (slotOf P hex) = cacheRoot P .url := by
    rw [slotOf, FilePath.dirname, List.dropLast_concat]
  have habove : ∀ (other : Hex256) rel, ¬ slotOf P other ++ rel <+: FilePath.normalize (cacheRoot P .url) := by
    intro other rel hle
    rw [hroot] at hle
    exact not_above_staging P other rel "" name (hle.trans (List.prefix_append _ _))
  rw [unpackInto, hparent] at h
  rcases hmake : Run.makeDirectory (cacheRoot P .url) w with ⟨e | _, w₁⟩
  · rw [Effect.bind_of_error hmake] at h
    obtain ⟨rfl, rfl⟩ := Prod.mk.inj h
    exact .inl ⟨fun other rel => makeDirectory_frame hmake (habove other rel), fun hr => by cases hr⟩
  rw [Effect.bind_of_ok hmake] at h
  have hsame₁ : ∀ other, SameSlot P w.fs w₁.fs other := fun other rel =>
    makeDirectory_frame hmake (habove other rel)
  have hpresent : w₁.fs.at? (slotOf P hex) = w.fs.at? (slotOf P hex) := by
    simpa using hsame₁ hex []
  rw [Run.read_bind_of_ok Volume.fileExists_run, normalize_slotOf, hpresent] at h
  rcases hat : w.fs.at? (slotOf P hex) with _ | node
  · rw [hat, Option.isSome_none, if_neg Bool.false_ne_true] at h
    -- a staging directory next to the slot
    rcases htemp : (Run.onDisk (FileSystem.makeTempDirectory (cacheRoot P .url) "akua-stage-") :
      Run Volume PlatformError FilePath) w₁ with ⟨e | staging, w₂⟩
    · rw [Effect.bind_of_error htemp] at h
      obtain ⟨rfl, rfl⟩ := Prod.mk.inj h
      refine .inl ⟨fun other rel => ?_, fun hr => by cases hr⟩
      rw [Volume.makeTempDirectory_error (Run.onDisk_run htemp)]
      exact hsame₁ other rel
    rw [Effect.bind_of_ok htemp] at h
    obtain ⟨⟨suffix, hstaging⟩, hfree, hmade⟩ := Volume.makeTempDirectory_ok (Run.onDisk_run htemp)
    rw [hroot] at hstaging
    have hsame₂ : ∀ other, SameSlot P w.fs w₂.fs other := by
      intro other rel
      rw [hmade, if_neg, hsame₁ other rel]
      intro heq
      refine not_above_staging P other rel suffix name ?_
      rw [heq, hstaging]
      exact ⟨[name], by simp⟩
    have hnormal : FilePath.Normal staging :=
      Volume.normal_of_at? (show w₂.fs.at? staging = some .directory by rw [hmade, if_pos rfl])
    -- the file in it
    rcases hentry : writeEntry staging { path := name, data } w₂ with ⟨e | _, w₃⟩
    all_goals
      obtain ⟨hframe, hdata⟩ := writeEntry_frame hnormal hname hentry
      have hsame₃ : ∀ other, SameSlot P w.fs w₃.fs other := by
        intro other rel
        rw [hframe _ _, hsame₂ other rel]
        rw [hstaging, List.append_assoc]
        exact not_above_staging P other rel suffix name
    · have hwrite : (forEach (writeEntry staging) [{ path := name, data }] :
          Run Volume PlatformError (List Unit)) w₂ = (.error e, w₃) := Effect.bind_of_error hentry
      rw [Effect.bind_of_error hwrite] at h
      obtain ⟨rfl, rfl⟩ := Prod.mk.inj h
      exact .inl ⟨hsame₃, fun hr => by cases hr⟩
    have hwrite : (forEach (writeEntry staging) [{ path := name, data }] :
        Run Volume PlatformError (List Unit)) w₂ = (.ok [()], w₃) := by
      rw [forEach, Effect.bind_of_ok hentry]
      rfl
    have hdata := hdata rfl
    have hdir : w₃.fs.at? staging = some .directory := by
      rcases hfile : w₃.fs.at? (staging ++ [name]) with _ | node
      · rw [Volume.data?_of_none hfile] at hdata
        cases hdata
      · exact Volume.directory_of_entry hfile
    have honly : ∀ rel, rel ≠ [] → rel ≠ [name] → w₃.fs.at? (staging ++ rel) = none := by
      intro rel hnil hrel
      rw [hframe, hmade, if_neg (by simpa using hnil), Volume.at?_below_none hfree]
      rw [List.prefix_append_right_inj]
      intro hle
      rcases List.prefix_concat_iff.mp (by simpa using hle : rel <+: [] ++ [name]) with heq | hle
      · exact hrel heq
      · exact hnil (List.prefix_nil.mp hle)
    rw [Effect.bind_of_ok hwrite] at h
    have hfree₃ : w₃.fs.at? (slotOf P hex) = none := by
      have hsame := hsame₃ hex []
      rwa [List.append_nil, hat] at hsame
    rcases moveIntoPlace_slot P hstaging hfree₃ ⟨hdir, hdata, honly⟩ h with ⟨hr, hsame⟩ | ⟨hholds, hsame⟩
    · exact .inl ⟨fun other rel => (hsame other rel).trans (hsame₃ other rel), fun heq => absurd heq hr⟩
    · exact .inr ⟨rfl, hholds, fun other hother rel => (hsame other hother rel).trans (hsame₃ other rel)⟩
  · rw [hat, Option.isSome_some, if_pos rfl] at h
    obtain ⟨rfl, rfl⟩ := Prod.mk.inj h
    exact .inl ⟨hsame₁, fun _ => rfl⟩

end Unpack

/-! ### A fetch -/

/-- The file of a request is in the slot of its pin. -/
def Hit (request : UrlRequest) (volume : Volume) (pin : String) : Prop :=
  request.pin = some pin ∧ (volume.at? (FilePath.join (urlSlot P pin) (urlFileName request.url))).isSome

/-- The bytes that a url's server has for the next request. -/
def served (w : World Volume) (url : String) : Option Bytes :=
  (P.http w.requests { url }).toOption.bind fun response => response.body.toOption

section Fetch

variable {request : UrlRequest} {w w' : World Volume}

/-- The look at the cache finds the pin if the file is there, and changes nothing but the log. -/
theorem urlFetch_lookup (request : UrlRequest) (w : World Volume) :
    ∃ hit trace, (onPin request.pin (fun pin => do
      Run.log (.cacheSlot (cacheRoot P .url) (urlSlot P pin))
      let present ← Run.read ((FileSystem.fileExists
        (FilePath.join (urlSlot P pin) (urlFileName request.url))).orElseSucceed false)
      pure (if present then some pin else none)) : Run Volume UrlFetchFailed (Option String)) w =
        (.ok hit, { w with trace }) ∧ ∀ pin, hit = some pin ↔ Hit P request w.fs pin := by
  rcases hpin : request.pin with _ | pin
  · exact ⟨none, w.trace, rfl, fun pin => by simp [Hit, hpin]⟩
  · refine ⟨if (w.fs.at? (FilePath.normalize (FilePath.join (urlSlot P pin) (urlFileName request.url)))).isSome
      then some pin else none, .cacheSlot (cacheRoot P .url) (urlSlot P pin) :: w.trace, rfl, fun other => ?_⟩
    rw [FilePath.normalize_join, Hit, hpin, Option.some_inj]
    split
    · rename_i hsome
      constructor
      · rintro h
        obtain rfl := Option.some.inj h
        exact ⟨rfl, hsome⟩
      · rintro ⟨rfl, -⟩
        rfl
    · rename_i hnone
      constructor
      · rintro ⟨⟩
      · rintro ⟨rfl, hsome⟩
        exact absurd hsome hnone

/-- What a bounded read returns is the body. -/
theorem readBounded_ok {response : HttpResponse} {url : String} {limit : Nat} {status : Nat → String → String}
    {bytes : Bytes} (h : readBounded P response url limit status = .ok bytes) : response.body = .ok bytes := by
  unfold readBounded at h
  split at h
  · cases h
  simp only at h
  split at h
  · cases h
  split at h
  · cases h
  · rename_i body hbody
    split at h
    · cases h
    · rw [hbody, Except.ok.inj h]

/-- A fetch finds its file in the cache, or fails without changing the disk, or unpacks what is served. -/
theorem urlFetch_cases {r : Except UrlFetchFailed FetchedFile} (h : urlFetch P request w = (r, w')) :
    (w'.fs = w.fs ∧ ∀ fetched, r = .ok fetched →
      ∃ pin, Hit P request w.fs pin ∧ fetched = { directory := urlSlot P pin, digest := pin }) ∨
    (∃ bytes, served P w request.url = some bytes ∧ (¬ ∃ pin, Hit P request w.fs pin) ∧
      (∀ pin ∈ request.pin, pin = sha256 P bytes) ∧
      ∃ w₁ w₂ unpacked, w₁.fs = w.fs ∧ w'.fs = w₂.fs ∧
        unpackInto (slotOf P (P.sha256Hex bytes)) [{ path := urlFileName request.url, data := bytes }] w₁ =
          (unpacked, w₂) ∧
        ∀ fetched, r = .ok fetched → unpacked = .ok () ∧
          fetched = { directory := slotOf P (P.sha256Hex bytes), digest := sha256 P bytes }) := by
  rw [urlFetch] at h
  obtain ⟨hit, trace, hlookup, hhit⟩ := urlFetch_lookup P request w
  rw [Effect.bind_of_ok hlookup] at h
  rcases hit with _ | pin
  · have hmiss : ¬ ∃ pin, Hit P request w.fs pin := fun ⟨pin, hpin⟩ => by cases (hhit pin).mpr hpin
    -- every failure before the cache is written leaves the disk
    have hfail : ∀ (e : UrlFetchFailed) (w₁ : World Volume), w₁.fs = w.fs → (.error e, w₁) = (r, w') →
        w'.fs = w.fs ∧ ∀ fetched, r = .ok fetched →
          ∃ pin, Hit P request w.fs pin ∧ fetched = { directory := urlSlot P pin, digest := pin } := by
      rintro e w₁ hfs heq
      obtain ⟨rfl, rfl⟩ := Prod.mk.inj heq
      exact ⟨hfs, fun fetched hr => by cases hr⟩
    simp only at h
    split at h
    · exact .inl (hfail _ { w with trace } rfl h)
    split at h
    · exact .inl (hfail _ { w with trace } rfl h)
    generalize hsend : ((Run.send P { url := request.url } : Run Volume String HttpResponse).mapError fun cause =>
      ({ message := "fetching " ++ request.url ++ ": " ++ cause } : UrlFetchFailed)) = send at h
    have hsent : send { w with trace } = ((P.http w.requests { url := request.url }).mapError (fun cause =>
        { message := "fetching " ++ request.url ++ ": " ++ cause }),
        { w with trace, requests := w.requests ++ [{ url := request.url }] }) := by
      rw [← hsend]
      rfl
    rcases hresponse : P.http w.requests { url := request.url } with cause | response
    · rw [hresponse] at hsent
      rw [Effect.bind_of_error hsent] at h
      exact .inl (hfail _ { w with trace, requests := w.requests ++ [{ url := request.url }] } rfl h)
    rw [hresponse] at hsent
    rw [Effect.bind_of_ok hsent] at h
    generalize hread : (readBounded P response request.url MAX_FILE_BYTES fun status _ =>
      "fetching " ++ request.url ++ ": HTTP " ++ toString status).mapError
        (fun message => ({ message } : UrlFetchFailed)) = bounded at h
    rcases bounded with e | bytes
    · exact .inl (hfail _ { w with trace, requests := w.requests ++ [{ url := request.url }] } rfl h)
    have hbody := readBounded_ok P (except_mapError_ok.mp hread)
    have hserved : served P w request.url = some bytes := by
      rw [served, hresponse, Except.toOption, Option.bind_some, hbody]
      rfl
    rw [Effect.bind_of_ok (Effect.ofExcept_run _ _)] at h
    split at h
    · exact .inl (hfail _ { w with trace, requests := w.requests ++ [{ url := request.url }] } rfl h)
    rename_i hpin
    have hpinned : ∀ pin ∈ request.pin, pin = sha256 P bytes := by
      intro pin hmem
      rw [Option.mem_def.mp hmem] at hpin
      simpa using hpin
    have hslot : urlSlot P (sha256 P bytes) = slotOf P (P.sha256Hex bytes) := urlSlot_digest P _
    -- the log of the slot changes no file
    obtain ⟨w₁, hlog, hfs⟩ : ∃ w₁ : World Volume, (Run.log (.cacheSlot (cacheRoot P .url)
        (urlSlot P (sha256 P bytes))) : Run Volume UrlFetchFailed Unit)
        { w with trace, requests := w.requests ++ [{ url := request.url }] } = (.ok (), w₁) ∧ w₁.fs = w.fs :=
      ⟨_, rfl, rfl⟩
    rw [Effect.bind_of_ok hlog, hslot] at h
    refine .inr ⟨bytes, hserved, hmiss, hpinned, w₁, ?_⟩
    rcases hunpack : unpackInto (slotOf P (P.sha256Hex bytes)) [{ path := urlFileName request.url, data := bytes }] w₁
      with ⟨e | _, w₂⟩
    · have hmapped : ∀ f : PlatformError → UrlFetchFailed, Effect.mapError f (unpackInto (slotOf P (P.sha256Hex bytes))
          [{ path := urlFileName request.url, data := bytes }]) w₁ = (.error (f e), w₂) := by
        intro f
        rw [Effect.mapError, hunpack]
        rfl
      rw [Effect.bind_of_error (hmapped _)] at h
      obtain ⟨rfl, rfl⟩ := Prod.mk.inj h
      exact ⟨_, _, hfs, rfl, rfl, fun fetched hr => by cases hr⟩
    · rw [Effect.bind_of_ok (Effect.mapError_ok.mpr hunpack)] at h
      obtain ⟨rfl, rfl⟩ := Prod.mk.inj h
      exact ⟨_, _, hfs, rfl, rfl, fun fetched hr => ⟨rfl, (Except.ok.inj hr).symm⟩⟩
  · obtain ⟨rfl, rfl⟩ := Prod.mk.inj h
    exact .inl ⟨rfl, fun fetched hr => ⟨pin, (hhit pin).mp rfl, (Except.ok.inj hr).symm⟩⟩

/-- What is in the slot of the pin is returned, online and offline. -/
theorem urlFetch_hit {pin : String} (h : Hit P request w.fs pin) :
    (urlFetch P request w).1 = .ok { directory := urlSlot P pin, digest := pin } ∧
      (urlFetch P request w).2.fs = w.fs := by
  obtain ⟨hit, trace, hlookup, hhit⟩ := urlFetch_lookup P request w
  obtain rfl := (hhit pin).mpr h
  rw [urlFetch, Effect.bind_of_ok hlookup]
  exact ⟨rfl, rfl⟩

end Fetch

/-! ### Runs of fetches -/

/-- A fetch of any url, however it ends, or a change of other files. -/
inductive CacheStep : World Volume → World Volume → Prop
  | fetch (request : UrlRequest) (w : World Volume) : CacheStep w (urlFetch P request w).2
  | elsewhere {w w' : World Volume} (same : ∀ hex, SameSlot P w.fs w'.fs hex) : CacheStep w w'

/-- A state after any steps from one without a slot. -/
def CacheReached (w : World Volume) : Prop :=
  ∃ start : World Volume, (∀ hex, start.fs.at? (slotOf P hex) = none) ∧
    Relation.ReflTransGen (CacheStep P) start w

/-- The slots that are there stay as they are. -/
def SlotsKept (old volume : Volume) : Prop :=
  ∀ hex, (old.at? (slotOf P hex)).isSome → SameSlot P old volume hex

section Runs

variable {w w' : World Volume}

theorem HoldsOnly.same {old volume : Volume} {hex : Hex256} {name : String} {data : Bytes}
    (h : HoldsOnly old (slotOf P hex) name data) (hsame : SameSlot P old volume hex) :
    HoldsOnly volume (slotOf P hex) name data := by
  obtain ⟨hdir, hdata, honly⟩ := h
  refine ⟨?_, ?_, fun rel hnil hrel => ?_⟩
  · simpa [hdir] using hsame []
  · rw [Volume.data?_congr (hsame [name]), hdata]
  · rw [hsame rel, honly rel hnil hrel]

theorem CacheSound.same {old volume : Volume} (h : CacheSound P old) (hsame : ∀ hex, SameSlot P old volume hex) :
    CacheSound P volume := by
  intro hex hthere
  have hold : old.at? (slotOf P hex) = volume.at? (slotOf P hex) := by simpa using (hsame hex []).symm
  obtain ⟨name, data, hdigest, hholds⟩ := h hex (hold ▸ hthere)
  exact ⟨name, data, hdigest, hholds.same P (hsame hex)⟩

/-- A step keeps the slots that are there, and every slot sound. -/
theorem cacheStep_sound (h : CacheStep P w w') (hsound : CacheSound P w.fs) :
    CacheSound P w'.fs ∧ SlotsKept P w.fs w'.fs := by
  cases h with
  | elsewhere same => exact ⟨hsound.same P same, fun hex _ => same hex⟩
  | fetch request w =>
    rcases hfetch : urlFetch P request w with ⟨r, w'⟩
    rcases urlFetch_cases P hfetch with ⟨hfs, -⟩ | ⟨bytes, -, -, -, w₁, w₂, unpacked, hfs₁, hfs₂, hunpack, -⟩
    · rw [hfs]
      exact ⟨hsound, fun _ _ _ => rfl⟩
    · rw [hfs₂]
      rcases unpackInto_slot P (urlFileName_plain request.url) hunpack with ⟨hsame, -⟩ | ⟨hfree, hholds, hsame⟩
      all_goals rw [hfs₁] at hsame
      · exact ⟨hsound.same P hsame, fun hex _ => hsame hex⟩
      rw [hfs₁] at hfree
      constructor
      · intro hex hthere
        by_cases heq : hex = P.sha256Hex bytes
        · subst heq
          exact ⟨_, bytes, rfl, hholds⟩
        · have hold : w₂.fs.at? (slotOf P hex) = w.fs.at? (slotOf P hex) := by simpa using hsame hex heq []
          obtain ⟨name, data, hdigest, hold⟩ := hsound hex (hold ▸ hthere)
          exact ⟨name, data, hdigest, hold.same P (hsame hex heq)⟩
      · intro hex hthere
        refine hsame hex fun heq => ?_
        rw [heq, hfree] at hthere
        cases hthere

theorem cacheRun_sound (h : Relation.ReflTransGen (CacheStep P) w w') (hsound : CacheSound P w.fs) :
    CacheSound P w'.fs ∧ SlotsKept P w.fs w'.fs := by
  induction h with
  | refl => exact ⟨hsound, fun _ _ _ => rfl⟩
  | tail _ hstep ih =>
    obtain ⟨hsound₁, hkept₁⟩ := ih
    obtain ⟨hsound₂, hkept₂⟩ := cacheStep_sound P hstep hsound₁
    refine ⟨hsound₂, fun hex hthere rel => ?_⟩
    have hat := hkept₁ hex hthere []
    rw [List.append_nil] at hat
    rw [hkept₂ hex (hat ▸ hthere) rel, hkept₁ hex hthere rel]

theorem CacheReached.sound (h : CacheReached P w) : CacheSound P w.fs := by
  obtain ⟨start, hnone, hrun⟩ := h
  refine (cacheRun_sound P hrun fun hex hthere => ?_).1
  rw [hnone] at hthere
  cases hthere

end Runs

/-! ### What a fetch returns -/

/-- The returned directory holds the file of the url, with the bytes of the returned digest, and only it. -/
def Delivered (request : UrlRequest) (fetched : FetchedFile) (volume : Volume) : Prop :=
  ∃ data, sha256 P data = fetched.digest ∧
    HoldsOnly volume fetched.directory (urlFileName request.url) data

/-- Fetched again offline under the returned digest, the url gives the directory with what `volume` has
    in it. -/
def FetchedAgain (request : UrlRequest) (fetched : FetchedFile) (volume : Volume) (later : World Volume) : Prop :=
  let again := urlFetch P { url := request.url, pin := some fetched.digest, offline := true } later
  again.1 = .ok fetched ∧
    ∀ rel, again.2.fs.at? (fetched.directory ++ rel) = volume.at? (fetched.directory ++ rel)

/-- The slot of the bytes that are served is free, or has the url's file. -/
def SlotFits (request : UrlRequest) (w : World Volume) : Prop :=
  ∀ bytes ∈ served P w request.url, w.fs.at? (slotOf P (P.sha256Hex bytes)) = none ∨
    (w.fs.at? (slotOf P (P.sha256Hex bytes) ++ [urlFileName request.url])).isSome

section Delivery

variable {request : UrlRequest} {fetched : FetchedFile} {w w' : World Volume}

theorem file_of_slot (hex : Hex256) (url : String) :
    FilePath.join (slotOf P hex) (urlFileName url) = slotOf P hex ++ [urlFileName url] := by
  rw [FilePath.join_name (urlFileName_plain url), normalize_slotOf]

/-- A slot that has the url's file holds it alone, with the bytes of its digest. -/
theorem CacheSound.holds {volume : Volume} (h : CacheSound P volume) {hex : Hex256} {name : String}
    (hfile : (volume.at? (slotOf P hex ++ [name])).isSome) :
    ∃ data, P.sha256Hex data = hex ∧ HoldsOnly volume (slotOf P hex) name data := by
  obtain ⟨node, hnode⟩ := Option.isSome_iff_exists.mp hfile
  obtain ⟨held, data, hdigest, hholds⟩ := h hex (by rw [Volume.directory_of_entry hnode]; rfl)
  by_cases hname : name = held
  · exact ⟨data, hdigest, hname ▸ hholds⟩
  · rw [hholds.2.2 [name] (by simp) (by simpa using hname)] at hnode
    cases hnode

theorem HoldsOnly.file {volume : Volume} {directory : FilePath} {name : String} {data : Bytes}
    (h : HoldsOnly volume directory name data) : (volume.at? (directory ++ [name])).isSome := by
  rcases hat : volume.at? (directory ++ [name]) with _ | node
  · have hdata := h.2.1
    rw [Volume.data?_of_none hat] at hdata
    cases hdata
  · rfl

/-- A slot with the url's file serves the url from then on. -/
theorem fetchedAgain_of_held {hex : Hex256} {data : Bytes} (hsound : CacheSound P w.fs)
    (hholds : HoldsOnly w.fs (slotOf P hex) (urlFileName request.url) data)
    (hfetched : fetched = { directory := slotOf P hex, digest := "sha256:" ++ hex.digits })
    {later : World Volume} (hrun : Relation.ReflTransGen (CacheStep P) w later) :
    FetchedAgain P request fetched w.fs later := by
  have hsame := (cacheRun_sound P hrun hsound).2 hex (by rw [hholds.1]; rfl)
  have hhit : Hit P { url := request.url, pin := some fetched.digest, offline := true } later.fs
      ("sha256:" ++ hex.digits) := by
    refine ⟨by rw [hfetched], ?_⟩
    rw [urlSlot_digest, file_of_slot]
    exact (hholds.same P hsame).file
  obtain ⟨hok, hfs⟩ := urlFetch_hit P hhit
  refine ⟨by rw [hok, urlSlot_digest, hfetched], fun rel => ?_⟩
  rw [hfs, hfetched]
  exact hsame rel

/-- In every state that fetches reach, a fetch that succeeds has delivered its file, for good, exactly when it
    found it in the slot of a digest, or the slot of what was served was free or had the file. -/
theorem fetched_file_iff (hreached : CacheReached P w) (h : urlFetch P request w = (.ok fetched, w')) :
    (Delivered P request fetched w'.fs ∧
      ∀ later, Relation.ReflTransGen (CacheStep P) w' later → FetchedAgain P request fetched w'.fs later) ↔
    ((∃ pin, Hit P request w.fs pin ∧ IsDigest pin) ∨
      (¬ (∃ pin, Hit P request w.fs pin) ∧ SlotFits P request w)) := by
  have hsound := hreached.sound
  have hsound' : CacheSound P w'.fs := by
    have hstep := CacheStep.fetch (P := P) request w
    rw [h] at hstep
    exact (cacheStep_sound P hstep hsound).1
  rcases urlFetch_cases P h with ⟨hfs, hhit⟩ | ⟨bytes, hserved, hmiss, -, w₁, w₂, unpacked, hfs₁, hfs₂, hunpack, hok⟩
  · obtain ⟨pin, hpin, rfl⟩ := hhit fetched rfl
    constructor
    · rintro ⟨⟨data, hdigest, -⟩, -⟩
      exact .inl ⟨pin, hpin, _, hdigest.symm⟩
    · rintro (⟨other, hother, hex, hdigits⟩ | ⟨hmiss, -⟩)
      · obtain rfl : other = pin := Option.some.inj (hother.1.symm.trans hpin.1)
        have hfile := hpin.2
        rw [hdigits, urlSlot_digest, file_of_slot, ← hfs] at hfile
        obtain ⟨data, hdata, hholds⟩ := hsound'.holds P hfile
        have hslot : urlSlot P other = slotOf P hex := by rw [hdigits, urlSlot_digest]
        refine ⟨⟨data, by rw [sha256, hdata, hdigits], by rw [hslot]; exact hholds⟩, fun later hrun => ?_⟩
        exact fetchedAgain_of_held P hsound' hholds (by rw [hslot, hdigits]) hrun
      · exact absurd ⟨pin, hpin⟩ hmiss
  · obtain ⟨rfl, rfl⟩ := hok fetched rfl
    have hslot := unpackInto_slot P (urlFileName_plain request.url) hunpack
    rw [hfs₁, ← hfs₂] at hslot
    constructor
    · rintro ⟨⟨data, -, hholds⟩, -⟩
      refine .inr ⟨hmiss, fun other hother => ?_⟩
      obtain rfl : bytes = other := Option.some.inj (hserved.symm.trans hother)
      rcases hslot with ⟨hsame, -⟩ | ⟨hfree, -⟩
      · refine .inr ?_
        rw [← hsame (P.sha256Hex bytes) [urlFileName request.url]]
        exact hholds.file
      · exact .inl hfree
    · rintro (⟨pin, hpin, -⟩ | ⟨-, hfits⟩)
      · exact absurd ⟨pin, hpin⟩ hmiss
      obtain ⟨data, hdata, hholds⟩ : ∃ data, P.sha256Hex data = P.sha256Hex bytes ∧
          HoldsOnly w'.fs (slotOf P (P.sha256Hex bytes)) (urlFileName request.url) data := by
        rcases hslot with ⟨hsame, hthere⟩ | ⟨-, hholds, -⟩
        · have hthere := hthere rfl
          rcases hfits bytes hserved with hnone | hfile
          · rw [hnone] at hthere
            cases hthere
          · rw [← hsame (P.sha256Hex bytes) [urlFileName request.url]] at hfile
            exact hsound'.holds P hfile
        · exact ⟨bytes, rfl, hholds⟩
      refine ⟨⟨data, by rw [sha256, hdata, sha256], hholds⟩, fun later hrun => ?_⟩
      exact fetchedAgain_of_held P hsound' hholds rfl hrun

end Delivery

/-- Two servers with the same bytes, under the names `x.yaml` and `y.yaml`. -/
def twoServers : Platform := .ofTables [] []
  [("https://a/x.yaml", { status := 200, body := .ok [1] }),
    ("https://b/y.yaml", { status := 200, body := .ok [1] })] []

def emptyWorld : World Volume := { fs := ⟨⟨Table.empty⟩, by decide⟩ }

/-- The cache after a fetch. -/
def onceFetched : World Volume :=
  (urlFetch twoServers { url := "https://a/x.yaml", pin := none, offline := false } emptyWorld).2

/-- From a cache that has the file, a fetch delivers it again, and finds it from then on. -/
theorem cached_file_delivered :
    ∃ w', (urlFetch twoServers { url := "https://a/x.yaml", pin := none, offline := false } onceFetched).2 = w' ∧
      (onceFetched.fs.at? (slotOf twoServers (.repeated '0' (by decide)) ++ ["x.yaml"])).isSome ∧
      Delivered twoServers { url := "https://a/x.yaml", pin := none, offline := false }
        { directory := slotOf twoServers (.repeated '0' (by decide)), digest := sha256 twoServers [1] } w'.fs := by
  have hreached : CacheReached twoServers onceFetched :=
    ⟨emptyWorld, fun hex => rfl, .single (CacheStep.fetch _ emptyWorld)⟩
  have hthere : (onceFetched.fs.at? (slotOf twoServers (.repeated '0' (by decide)) ++ ["x.yaml"])).isSome := by
    decide +kernel
  have hrun : urlFetch twoServers { url := "https://a/x.yaml", pin := none, offline := false } onceFetched =
      (.ok { directory := slotOf twoServers (.repeated '0' (by decide)), digest := sha256 twoServers [1] },
        (urlFetch twoServers { url := "https://a/x.yaml", pin := none, offline := false } onceFetched).2) := by
    refine Prod.ext ?_ rfl
    decide +kernel
  have hserved : served twoServers onceFetched "https://a/x.yaml" = some [1] := by decide +kernel
  refine ⟨_, rfl, hthere, ((fetched_file_iff twoServers hreached hrun).mpr (.inr ⟨?_, fun bytes hbytes => ?_⟩)).1⟩
  · rintro ⟨pin, hpin, -⟩
    cases hpin
  · obtain rfl : [1] = bytes := Option.some.inj (hserved.symm.trans hbytes)
    exact .inr hthere

/-- Of two urls with the same bytes under different names, the second gets the slot without its file, and
    is not found again offline. -/
theorem second_name_missing :
    let first := urlFetch twoServers { url := "https://a/x.yaml", pin := none, offline := false } emptyWorld
    let second := urlFetch twoServers { url := "https://b/y.yaml", pin := none, offline := false } first.2
    let slot := slotOf twoServers (.repeated '0' (by decide))
    second.1 = .ok { directory := slot, digest := sha256 twoServers [1] } ∧
      second.2.fs.at? (slot ++ [urlFileName "https://b/y.yaml"]) = none ∧
      (urlFetch twoServers { url := "https://b/y.yaml", pin := some (sha256 twoServers [1]), offline := true }
        second.2).1.toOption = none := by
  decide +kernel

end Akua
