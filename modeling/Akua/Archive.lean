import Akua.Cosign

/-! Untrusted archives unpacked into memory, and the reproducible archives a Package is published
    as. Reading is strict: an absolute path, a `..` segment or a path that is not UTF-8 fails the
    archive; links and devices are skipped; the decompressed size is capped. -/

namespace Akua

variable (P : Platform)

/-- Ceiling on a decompressed archive. -/
def MAX_DECOMPRESSED_BYTES : Nat := 2 * 1024 * 1024 * 1024

/-- gzip-decompress `bytes`, failing past the ceiling. -/
def gunzip (bytes : Bytes) : Except String Bytes :=
  match P.inflate bytes with
  | (out, cause) =>
    if out.length > MAX_DECOMPRESSED_BYTES then
      .error ("decompressed size exceeds the " ++ toString MAX_DECOMPRESSED_BYTES ++
        "-byte ceiling (possible decompression bomb)")
    else
      match cause with
      | some message => .error ("decompressing: " ++ message)
      | none => .ok out

structure ArchiveEntry where
  /-- POSIX path relative to the archive root. -/
  path : String
  data : Bytes
deriving DecidableEq

/-! ### Reading -/

/-- The `length` bytes at `offset`. -/
def slice (bytes : Bytes) (offset length : Nat) : Bytes := (bytes.drop offset).take length

/-- A header field: the bytes before the first NUL. -/
def field (block : Bytes) (offset length : Nat) : Bytes :=
  (slice block offset length).takeWhile (· ≠ 0)

/-- The value of leading digits in `base`; none where there is no digit. -/
def digitsValue (base : Nat) (cs : List Char) : Option Nat :=
  match cs.takeWhile fun c => '0' ≤ c && c.toNat < '0'.toNat + base with
  | [] => none
  | digits => some (digits.foldl (fun n c => n * base + (c.toNat - '0'.toNat)) 0)

/-- The least whole number that is read as `Infinity`. -/
def INFINITE : Nat := 2 ^ 1024 - 2 ^ 970

/-- `Number.parseInt(text, base)` for a base up to ten, exactly; none is `NaN`. -/
def parseInt (text : List Char) (base : Nat) : Option Int :=
  match text.dropWhile isSpace with
  | '-' :: cs => (digitsValue base cs).map fun n => -(n : Int)
  | '+' :: cs => (digitsValue base cs).map Int.ofNat
  | cs => (digitsValue base cs).map Int.ofNat

/-- A number in a header; irreducible, so that unfolding the loop below does not read one. -/
@[irreducible] def octal (block : Bytes) (offset length : Nat) : Option Int :=
  let text := trim (decodeText P (field block offset length))
  parseInt (if text = "" then "0" else text).toList 8

/-- A string of UTF-16 code units; a surrogate without its pair is written as U+FFFD. -/
def fromUnits : List Nat → List Char
  | [] => []
  | [u] => [if 0xD800 ≤ u ∧ u < 0xE000 then '\uFFFD' else Char.ofNat u]
  | u :: v :: rest =>
    if 0xD800 ≤ u ∧ u < 0xDC00 ∧ 0xDC00 ≤ v ∧ v < 0xE000 then
      Char.ofNat (0x10000 + (u - 0xD800) * 0x400 + (v - 0xDC00)) :: fromUnits rest
    else
      (if 0xD800 ≤ u ∧ u < 0xE000 then '\uFFFD' else Char.ofNat u) :: fromUnits (v :: rest)

/-- The records from a position on: `<length> <key>=<value>\n`, where the length counts code units
    of the decoded text. -/
def paxLoop : Nat → List Nat → List (List Nat × List Nat)
  | 0, _ => []
  | _, [] => []
  | fuel + 1, text =>
    let number := text.takeWhile (· ≠ 0x20)
    match parseInt (fromUnits number) 10 with
    | some (.ofNat (length + 1)) =>
      if number.length = text.length ∨ INFINITE ≤ length + 1 then []
      else
        let record := (text.take length).drop (number.length + 1)
        let key := record.takeWhile (· ≠ 0x3d)
        let found := if key.length = record.length ∨ key = [] then []
          else [(key, record.drop (key.length + 1))]
        found ++ paxLoop fuel (text.drop (length + 1))
    | _ => []

/-- PAX records; a later record of the same key wins. -/
def paxRecords (data : Bytes) : Table String String :=
  let units := Text.units (decodeText P data)
  Table.ofList ((paxLoop units.length units).map fun r =>
    (String.ofList (fromUnits r.1), String.ofList (fromUnits r.2)))

/-- `raw.replaceAll("\\", "/")`. -/
def slashed (raw : String) : String :=
  String.ofList (raw.toList.map fun c => if c = '\\' then '/' else c)

/-- `path` made relative and checked: no absolute paths, no `..`, no empty names. -/
def entryPath (raw : String) : Option String :=
  let parts := FilePath.segments (slashed raw)
  if Text.startsWith raw "/" ∨ ".." ∈ parts ∨ parts = [] then none
  else some (Text.join parts '/')

/-- The name a header gives: its prefix and name fields, which must be UTF-8. -/
def headerName (header : Bytes) : Option String := do
  let ustar := decodeText P (slice header 257 5) = "ustar"
  let directory := if ustar then field header 345 155 else []
  if directory = [] then decodeStrict (field header 0 100)
  else do
    let directory ← decodeStrict directory
    let name ← decodeStrict (field header 0 100)
    some (directory ++ "/" ++ name)

/-- The names met before the entry they are for. -/
structure PendingNames where
  longName : Option String := none
  pax : Option (Table String String) := none

def untarLoop : Nat → PendingNames → Bytes → Except String (List ArchiveEntry)
  | 0, _, _ => .ok []
  | fuel + 1, pending, bytes =>
    if bytes.length < 512 then .ok []
    else
      let header := bytes.take 512
      if header.all (· = 0) then .ok []
      else
        match octal P header 124 12 with
        | some (.ofNat size) =>
          if bytes.length < 512 + size then .error "truncated tar archive"
          else
            let type := (header[156]?.getD 0).toNat
            let data := slice bytes 512 size
            let rest := bytes.drop (512 + (size + 511) / 512 * 512)
            if type = 'x'.toNat then
              untarLoop fuel { pending with pax := some (paxRecords P data) } rest
            else if type = 'g'.toNat then untarLoop fuel pending rest
            else if type = 'L'.toNat then
              untarLoop fuel { pending with longName := some (decodeText P (field data 0 size)) } rest
            else
              let raw := (pending.pax.bind fun pax => pax.get? "path") <|> pending.longName <|>
                headerName P header
              match raw with
              | none => .error "tar entry name is not UTF-8"
              | some raw =>
                -- Regular files only: links could point anywhere, devices are never content.
                if type ≠ '0'.toNat ∧ type ≠ 0 ∧ type ≠ '7'.toNat then untarLoop fuel {} rest
                else
                  match entryPath raw with
                  | none => .error ("tar entry `" ++ raw ++ "` escapes the archive")
                  | some path => do
                    let entries ← untarLoop fuel {} rest
                    .ok ({ path, data } :: entries)
        | _ => .error "truncated tar archive"

/-- The regular files of a ustar/PAX/GNU tar archive; each entry takes at least one block. -/
def untar (bytes : Bytes) : Except String (List ArchiveEntry) :=
  untarLoop P (bytes.length / 512 + 1) {} bytes

/-! ### Writing -/

/-- A file to archive: its POSIX path, contents and permission bits. -/
structure TarFile where
  path : String
  data : Bytes
  mode : Nat
deriving DecidableEq

/-- `bytes` in a field of `length`: cut off, or padded with NUL. -/
def fixed (length : Nat) (bytes : Bytes) : Bytes :=
  bytes.take length ++ List.replicate (length - bytes.length) 0

/-- `value.toString(8).padStart(width, "0")`. -/
def octalDigits (width value : Nat) : List Char :=
  let digits := Nat.toDigits 8 value
  List.replicate (width - digits.length) '0' ++ digits

/-- An octal header field of `length`, NUL-terminated. -/
def octalField (length value : Nat) : Bytes :=
  fixed length (encodeText (String.ofList (octalDigits (length - 1) value ++ ['\x00'])))

/-- A header with its checksum field as given. -/
def headerBlock (name : Bytes) (size mode : Nat) (type : Char) (checksum : Bytes) : Bytes :=
  fixed 100 name ++ octalField 8 mode ++ octalField 8 0 ++ octalField 8 0 ++ octalField 12 size ++
    octalField 12 0 ++ checksum ++ [.ofNat type.toNat] ++ List.replicate 100 0 ++
    fixed 6 (encodeText "ustar\x00") ++ encodeText "00" ++ List.replicate 247 0

/-- One 512-byte ustar header: owner, group and mtime are zero, so archives are reproducible. -/
def tarHeader (name : Bytes) (size mode : Nat) (type : Char) : Bytes :=
  let blank := headerBlock name size mode type (encodeText "        ")
  let sum := blank.foldl (fun n byte => n + byte.toNat) 0
  headerBlock name size mode type
    (fixed 8 (encodeText (String.ofList (octalDigits 6 sum ++ ['\x00', ' ']))))

/-- `data` up to the next block boundary. -/
def padded (data : Bytes) : Bytes := fixed ((data.length + 511) / 512 * 512) data

/-- The length that counts itself: `body` and its own digits. -/
def paxLength (body : Nat) : Nat → Nat → Nat
  | 0, length => length
  | fuel + 1, length =>
    let next := (Nat.toDigits 10 length).length + body
    if next = length then length else paxLength body fuel next

/-- A PAX `path` record, `<length> path=<name>\n`. -/
def paxPath (name : String) : Bytes :=
  let body := encodeText (" path=" ++ name ++ "\n")
  encodeText (toString (paxLength body.length (body.length + 1) (body.length + 1))) ++ body

/-- The blocks of one file; a name over 100 bytes has a PAX record before it. -/
def tarFile (file : TarFile) : Bytes :=
  let name := encodeText file.path
  let long := if name.length > 100 then
      let record := paxPath file.path
      tarHeader (encodeText ("PaxHeader/" ++ file.path)) record.length 0o644 'x' ++ padded record
    else []
  long ++ tarHeader name file.data.length file.mode '0' ++ padded file.data

/-- A ustar archive of `files`, in the given order. -/
def tar (files : List TarFile) : Bytes := files.flatMap tarFile ++ List.replicate 1024 0

/-- Four bytes, the low one first. -/
def littleEndian (n : Nat) : Bytes :=
  [.ofNat n, .ofNat (n / 256), .ofNat (n / 65536), .ofNat (n / 16777216)]

/-- gzip with a fixed header, so the same bytes always compress to the same archive. -/
def gzip (data : Bytes) : Bytes :=
  [0x1f, 0x8b, 8, 0, 0, 0, 0, 0, 0, 0xff] ++ P.deflate data ++ littleEndian (P.crc32 data) ++
    littleEndian data.length

end Akua
