import ContainerProbe.Zip.Names
import ContainerProbe.Deflate.Inflate
import ContainerProbe.Deflate.Crc
import ContainerProbe.Bytes
import ContainerProbe.Container.Basic

/-!
# ZIP archives

A ZIP archive is read from its end: the end record (found by searching backwards from the
last 22 bytes, through at most a maximal comment) gives the number of entries and the size
and offset of the central directory, whose records describe each entry: flags, method,
CRC-32, compressed size, name, and the offset of the entry's local header. Bytes before the
archive proper shift every offset by the same amount, which the end record's position
reveals.

An entry is opened at its local header, which gives the lengths of its name and extra field
and so where its data starts. Stored data is read as is; deflated data is inflated. Either
way the CRC-32 of what was read is checked when the reader reaches the end.
-/

namespace ContainerProbe.Zip

open Deflate

/-- What the central directory says of one entry. -/
structure Record where
  /-- The entry's name. -/
  name : String
  /-- The general-purpose flags. -/
  flags : Nat
  /-- The compression method. -/
  method : Nat
  /-- The CRC-32 of the entry's bytes. -/
  crc : Nat
  /-- The size of the stored data. -/
  compressedSize : Nat
  /-- The offset of the local header in the file. -/
  headerOffset : Nat

/-- The signature of the end record. -/
def endSignature : Nat := 0x06054b50

/-- The signature of a central directory record. -/
def centralSignature : Nat := 0x02014b50

/-- The signature of a local header. -/
def localSignature : Nat := 0x04034b50

/-- A fault of the archive's structure. -/
def malformed (detail : String) : Fault := .container ("Failed to open ZIP archive: " ++ detail)

/-! ## §1 The end record and the central directory -/

/-- The offset of the end record: the last signature no further from the end than the
largest comment allows. -/
def findEnd (data : ByteArray) : Option Nat :=
  if data.size < 22 then none
  else
    let last := data.size - 22
    ((List.range (Nat.min last 65535 + 1)).find? fun k =>
      Bytes.le32? data (last - k) == some endSignature).map (last - ·)

/-- A two-byte field that is known to be present. -/
def field16 (data : ByteArray) (offset : Nat) : Nat := (Bytes.le16? data offset).getD 0

/-- A four-byte field that is known to be present. -/
def field32 (data : ByteArray) (offset : Nat) : Nat := (Bytes.le32? data offset).getD 0

/-- Reads the central directory record at `p`; returns it and the offset of the next. -/
def readRecord (data : ByteArray) (shift p : Nat) : Except Fault (Record × Nat) :=
  if p + 46 ≤ data.size ∧ Bytes.le32? data p = some centralSignature then
    let nameLen := field16 data (p + 28)
    let total := 46 + nameLen + field16 data (p + 30) + field16 data (p + 32)
    if p + total ≤ data.size then
      let flags := field16 data (p + 8)
      .ok ({ name := decodeName (flags / 2048 % 2 == 1) (data.extract (p + 46) (p + 46 + nameLen))
             flags
             method := field16 data (p + 10)
             crc := field32 data (p + 16)
             compressedSize := field32 data (p + 20)
             headerOffset := field32 data (p + 42) + shift }, p + total)
    else .error (malformed "central directory record runs past the end")
  else .error (malformed "invalid central directory header")

/-- Reads `count` consecutive central directory records from `p`. -/
def readRecords (data : ByteArray) (shift : Nat) : Nat → Nat → Except Fault (List Record)
  | 0, _ => .ok []
  | count + 1, p => do
    let (r, next) ← readRecord data shift p
    let rest ← readRecords data shift count next
    pure (r :: rest)

/-- The records of an archive. -/
def directory (data : ByteArray) : Except Fault (List Record) :=
  match findEnd data with
  | none => .error (malformed "could not find central directory end")
  | some e =>
    let commentLen := field16 data (e + 20)
    if data.size < e + 22 + commentLen then .error (malformed "truncated end record comment")
    else if field16 data (e + 4) != field16 data (e + 6) then
      .error (malformed "multi-disk archives are not supported")
    else
      let size := field32 data (e + 12)
      let offset := field32 data (e + 16)
      if e < size + offset then .error (malformed "invalid central directory size or offset")
      else
        let shift := e - size - offset
        readRecords data shift (field16 data (e + 8)) (offset + shift)

/-! ## §2 Entries -/

/-- The failure of data whose CRC-32 does not match. -/
def invalidChecksum : IoError := ⟨"Invalid checksum"⟩

/-- The failure of corrupt deflated data. -/
def corruptStream : IoError := ⟨"corrupt deflate stream"⟩

/-- Bytes read to their end, failing there if their CRC-32 is not the expected one. -/
def checked (crc : Nat) (bytes : ByteArray) : Feed :=
  if crc32 bytes = crc then Feed.ofBytes bytes else ⟨bytes, some invalidChecksum⟩

/-- Opens an entry: checks its local header and reads its data. Deflated data that ends
early simply ends, so the checksum decides. -/
def Record.read (data : ByteArray) (r : Record) : Except String Feed :=
  if r.flags % 2 = 1 then .error "Password required to decrypt file"
  else
    match Bytes.le32? data r.headerOffset, Bytes.le16? data (r.headerOffset + 26),
        Bytes.le16? data (r.headerOffset + 28) with
    | some sig, some nameLen, some extraLen =>
      if sig != localSignature then .error "Invalid local file header"
      else
        let start := r.headerOffset + 30 + nameLen + extraLen
        let payload := data.extract start (start + r.compressedSize)
        match r.method with
        | 0 => .ok (checked r.crc payload)
        | 8 =>
          let z := inflate payload 0
          match z.halt with
          | some .corrupt => .ok ⟨z.delivered, some corruptStream⟩
          | _ => .ok (checked r.crc z.output)
        | _ => .error "Compression method not supported"
    | _, _, _ => .error "failed to fill whole buffer"

/-- Reads a ZIP archive as a container; entry names lose their trailing slashes. -/
def container (data : ByteArray) (name : Option String) : Except Fault Container :=
  (directory data).map fun records =>
    { kind := .zip, name,
      entries := records.map fun r => ⟨trimEntryName r.name, (r.read data).mapError .unreadable⟩ }

end ContainerProbe.Zip
