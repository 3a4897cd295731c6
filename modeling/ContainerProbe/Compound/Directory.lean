import ContainerProbe.Compound.Layout

/-!
# Compound document directory

The directory is a chain of 128-byte records. Each names an object (the root storage,
storages, streams) and links it into a red-black tree of siblings (`left`, `right`) with
its first child (`child`). A record's name is UTF-16 with its byte length, terminator
included, at offset 64; names are read leniently (an unpaired surrogate becomes U+FFFD) and
lose leading and trailing control characters and blanks, so `\x01CompObj` reads `CompObj`.

The streams of a document are found by walking the tree from the root's child, each sibling
set in order, descending into storages. The walk visits each record at most once, so a tree
whose links loop still ends.
-/

namespace ContainerProbe.Compound

/-! ## §1 Records -/

/-- The kind of a directory record. -/
inductive ObjectKind where
  /-- An unused record. -/
  | empty
  /-- A storage: a folder of further objects. -/
  | storage
  /-- A stream: a named run of bytes. -/
  | stream
  /-- The root storage, which also holds the mini stream. -/
  | root
  deriving DecidableEq, Repr

/-- The kind named by a record's type byte; unknown values are unused records. -/
def ObjectKind.ofByte : Nat → ObjectKind
  | 1 => .storage
  | 2 => .stream
  | 5 => .root
  | _ => .empty

/-- One directory record. -/
structure DirectoryRecord where
  /-- The object's name. -/
  name : String
  /-- The object's kind. -/
  kind : ObjectKind
  /-- The left sibling. -/
  left : Nat
  /-- The right sibling. -/
  right : Nat
  /-- The first child of a storage. -/
  child : Nat
  /-- The first sector (or mini sector) of the object's data. -/
  start : Nat
  /-- The object's size in bytes. -/
  size : Nat
  deriving DecidableEq, Repr

/-! ## §2 Names -/

/-- The replacement character. -/
def replacement : Char := Char.ofNat 0xFFFD

/-- Whether a code unit is a high (leading) surrogate. -/
def isHighSurrogate (u : Nat) : Bool := 0xD800 ≤ u && u < 0xDC00

/-- Whether a code unit is a low (trailing) surrogate. -/
def isLowSurrogate (u : Nat) : Bool := 0xDC00 ≤ u && u < 0xE000

/-- Decodes UTF-16 code units; each unpaired surrogate becomes the replacement character. -/
def decodeUtf16 : List Nat → List Char
  | [] => []
  | [u] => [if isHighSurrogate u || isLowSurrogate u then replacement else Char.ofNat u]
  | u :: v :: rest =>
    if isHighSurrogate u then
      if isLowSurrogate v then
        Char.ofNat (0x10000 + (u - 0xD800) * 0x400 + (v - 0xDC00)) :: decodeUtf16 rest
      else replacement :: decodeUtf16 (v :: rest)
    else if isLowSurrogate u then replacement :: decodeUtf16 (v :: rest)
    else Char.ofNat u :: decodeUtf16 (v :: rest)

/-- Whether a character is a control character or a blank. -/
def isTrimmed (c : Char) : Bool := c.toNat ≤ 0x20

/-- The characters without leading and trailing control characters and blanks. -/
def trimControls (cs : List Char) : List Char :=
  ((cs.dropWhile isTrimmed).reverse.dropWhile isTrimmed).reverse

/-- The name of a record: the UTF-16 units before the terminator, at most 31 of them. -/
def recordName (raw : ByteArray) : String :=
  let byteLength := Nat.min (le16 raw 64) 64
  let units := (List.range ((byteLength - 2) / 2)).map fun i => le16 raw (2 * i)
  String.ofList (trimControls (decodeUtf16 units))

/-- Decodes one 128-byte record. In documents with 512-byte sectors only the low half of the
size field counts, as older writers leave the high half undefined. -/
def decodeRecord (sectorSize : Nat) (raw : ByteArray) : DirectoryRecord :=
  { name := recordName raw
    kind := ObjectKind.ofByte (Bytes.byteAt raw 66 0).toNat
    left := le32 raw 68
    right := le32 raw 72
    child := le32 raw 76
    start := le32 raw 116
    size := if sectorSize = 512 then le64 raw 120 % Nat.pow 2 32 else le64 raw 120 }

/-- The records of the directory's bytes; a trailing part shorter than a record is ignored. -/
def decodeDirectory (sectorSize : Nat) (data : ByteArray) : Array DirectoryRecord :=
  ((List.range (data.size / 128)).map fun i =>
    decodeRecord sectorSize (data.extract (128 * i) (128 * i + 128))).toArray

/-! ## §3 The stream walk -/

/-- Walks the tree from a stack of record ids (the head is visited first), skipping missing
links and records already visited; collects stream ids in reverse in `acc`. A record pushes
its right sibling, then (for a storage) its first child, then its left sibling, so the left
subtree comes out first. -/
def walk (entries : Array DirectoryRecord) : Nat → List Nat → List Nat → List Nat → List Nat
  | 0, _, _, acc => acc.reverse
  | _, [], _, acc => acc.reverse
  | fuel + 1, sid :: stack, visited, acc =>
    if sid = noStream ∨ sid ∈ visited then walk entries fuel stack visited acc
    else
      match entries[sid]? with
      | none => walk entries fuel stack (sid :: visited) acc
      | some e =>
        match e.kind with
        | .stream => walk entries fuel (e.left :: e.right :: stack) (sid :: visited) (sid :: acc)
        | .storage => walk entries fuel (e.left :: e.child :: e.right :: stack) (sid :: visited) acc
        | _ => walk entries fuel (e.left :: e.right :: stack) (sid :: visited) acc

/-- The ids of every stream, in tree order. Each record is entered once and pushes at most
three links, so `3 * size + 2` steps empty the stack. -/
def streamIds (entries : Array DirectoryRecord) : List Nat :=
  match entries[0]? with
  | some root => walk entries (3 * entries.size + 2) [root.child] [] []
  | none => []

end ContainerProbe.Compound
