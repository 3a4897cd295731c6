import ContainerProbe.Gzip.Name
import ContainerProbe.Deflate.Inflate
import ContainerProbe.Deflate.Crc
import ContainerProbe.Bytes
import ContainerProbe.Container.Basic

/-!
# GZIP members

A GZIP container is one member: a header (magic `1F 8B`, method 8, flags, and the optional
extra field, file name, comment and header checksum the flags announce), a DEFLATE stream,
and a trailer with the CRC-32 and the length (modulo `2 ^ 32`) of the decoded bytes. Bytes
after the member are ignored.

Reading the member's entry delivers the decoded bytes as they come, and fails where the
header is broken, where the stream is corrupt or cut short, or at the end when the trailer
is missing or does not match.
-/

namespace ContainerProbe.Gzip

open Deflate

/-- The failure of a header that is not a GZIP header. -/
def badHeader : IoError := ⟨"invalid gzip header"⟩

/-- The failure of a corrupt or truncated member. -/
def corruptStream : IoError := ⟨"corrupt deflate stream"⟩

/-- The failure of a trailer that does not match the decoded bytes. -/
def badTrailer : IoError := ⟨"corrupt gzip stream does not have a matching checksum"⟩

/-- The offset just past the zero byte that ends a field starting at `start`. -/
def pastZero (data : ByteArray) (start : Nat) : Except IoError Nat :=
  match ((List.range (data.size - start)).find? fun k => Bytes.byteAt data (start + k) 1 == 0) with
  | some k => .ok (start + k + 1)
  | none => .error corruptStream

/-- The offset of the compressed data: past the fixed header and the optional fields its
flags announce. -/
def headerEnd (data : ByteArray) : Except IoError Nat := do
  if data.size < 10 then throw corruptStream
  if Bytes.byteAt data 0 0 != 0x1F || Bytes.byteAt data 1 0 != 0x8B || Bytes.byteAt data 2 0 != 8 then
    throw badHeader
  let flags := (Bytes.byteAt data 3 0).toNat
  let flag (bit : Nat) : Bool := flags / Nat.pow 2 bit % 2 == 1
  let pos := 10
  let pos ← if flag 2 then
      match Bytes.le16? data pos with
      | some xlen => if pos + 2 + xlen ≤ data.size then pure (pos + 2 + xlen) else throw corruptStream
      | none => throw corruptStream
    else pure pos
  let pos ← if flag 3 then pastZero data pos else pure pos
  let pos ← if flag 4 then pastZero data pos else pure pos
  if flag 1 then
    match Bytes.le16? data pos with
    | some stored =>
      if stored == crc32 (data.extract 0 pos) % Nat.pow 2 16 then pure (pos + 2) else throw corruptStream
    | none => throw corruptStream
  else pure pos

/-- Whether the trailer at `offset` matches the decoded bytes. -/
def trailerMatches (data : ByteArray) (offset : Nat) (decoded : ByteArray) : Bool :=
  Bytes.le32? data offset == some (crc32 decoded) &&
    Bytes.le32? data (offset + 4) == some (decoded.size % Nat.pow 2 32)

/-- What reading the member delivers. -/
def memberFeed (data : ByteArray) : Feed :=
  match headerEnd data with
  | .error e => ⟨ByteArray.empty, some e⟩
  | .ok start =>
    let r := inflate data start
    match r.halt with
    | some _ => ⟨r.delivered, some corruptStream⟩
    | none => if trailerMatches data r.next r.output then Feed.ofBytes r.output
      else ⟨r.output, some badTrailer⟩

/-- Reads a GZIP container: it must start with the GZIP magic. -/
def container (data : ByteArray) (name : Option String) : Except Fault Container :=
  if Bytes.byteAt data 0 0 == 0x1F && Bytes.byteAt data 1 0 == 0x8B && 2 ≤ data.size then
    .ok { kind := .gzip, name, entries := [⟨entryName name, .ok (memberFeed data)⟩] }
  else .error (.container "not a gzip stream")

end ContainerProbe.Gzip
