import ContainerProbe.Compound.Directory
import ContainerProbe.Container.Basic

/-!
# Reading a compound document

Opening a document checks its header and loads the three tables identification needs:

* the FAT, whose sectors are listed in the header (up to 109) and then in a chain of DIFAT
  sectors, each ending with the id of the next;
* the directory, a FAT chain from the header's directory start;
* the mini FAT, a FAT chain, when the header says it has sectors.

Streams shorter than the header's cutoff live in the mini stream (the root's data, cut to
the root's size) in 64-byte mini sectors chained through the mini FAT; they are read whole
when opened. Larger streams are FAT chains read sector by sector; the reader fails where a
sector lies past the end of the file, or where the chain ends before the declared size.
-/

namespace ContainerProbe.Compound

/-- The signature at the start of every compound document. -/
def magic : List UInt8 := [0xD0, 0xCF, 0x11, 0xE0, 0xA1, 0xB1, 0x1A, 0xE1]

/-- A structural fault of the document. -/
def corrupt (detail : String) : Fault := .container ("compound document: " ++ detail)

/-- An opened compound document. -/
structure Document where
  /-- The document's bytes. -/
  image : ByteArray
  /-- The size of a sector. -/
  sectorSize : Nat
  /-- The size of a mini sector. -/
  miniSectorSize : Nat
  /-- Streams shorter than this live in the mini stream. -/
  miniCutoff : Nat
  /-- The sector allocation table. -/
  fat : Array Nat
  /-- The mini sector allocation table. -/
  miniFat : Array Nat
  /-- The directory records. -/
  entries : Array DirectoryRecord

namespace Document

/-! ## §1 Opening -/

/-- Whether a sector id in a sector list counts: neither marker. -/
def isListed (s : Nat) : Bool := !isChainEnd s

/-- Follows the DIFAT chain from `sector` for at most `count` sectors, collecting the FAT
sector ids each lists before its last field, which names the next DIFAT sector. -/
def difatFrom (image : ByteArray) (sectorSize : Nat) :
    Nat → Nat → List Nat → List Nat → Except Fault (List Nat)
  | 0, _, _, acc => .ok acc
  | count + 1, sector, visited, acc =>
    if isChainEnd sector then .ok acc
    else if sector ∈ visited then .error (corrupt "DIFAT chain loops")
    else
      match sectorBytes image sectorSize sector with
      | .error e => .error (corrupt ("DIFAT sector " ++ toString sector ++ ": " ++ e.message))
      | .ok data =>
        let perSector := sectorSize / 4
        let listed := ((List.range (perSector - 1)).map fun i => le32 data (4 * i)).filter isListed
        difatFrom image sectorSize count (le32 data (4 * (perSector - 1))) (sector :: visited)
          (acc ++ listed)

/-- Reads the listed FAT sectors, in order, into the FAT. -/
def readFat (image : ByteArray) (sectorSize : Nat) (sectors : List Nat) :
    Except Fault (Array Nat) :=
  sectors.foldlM (fun fat s =>
    match sectorBytes image sectorSize s with
    | .ok data => .ok (fat ++ (u32Fields data).toArray)
    | .error e => .error (corrupt ("FAT sector " ++ toString s ++ ": " ++ e.message))) #[]

/-- Loads the FAT: the sectors listed in the header, then those of the DIFAT chain. -/
def collectFat (image header : ByteArray) (sectorSize : Nat) : Except Fault (Array Nat) := do
  let fromHeader := ((List.range 109).map fun i => le32 header (0x4C + 4 * i)).takeWhile isListed
  let listed ← difatFrom image sectorSize (le32 header 0x48) (le32 header 0x44) [] fromHeader
  readFat image sectorSize listed

/-- Opens a document, checking its header and loading its tables. -/
def load (image : ByteArray) : Except Fault Document := do
  if image.size < 512 then throw (corrupt "file is shorter than its header")
  let header := image.extract 0 512
  if header.toList.take 8 != magic then throw (corrupt "bad signature")
  if le16 header 0x1C != 0xFFFE then throw (corrupt "invalid byte order mark")
  let shift := le16 header 0x1E
  let miniShift := le16 header 0x20
  if shift < 7 ∨ 16 < shift ∨ shift < miniShift then
    throw (corrupt ("unsupported sector shift " ++ toString shift))
  let sectorSize := Nat.pow 2 shift
  let fat ← collectFat image header sectorSize
  let directory ← (chainBytes image sectorSize fat (le32 header 0x30)).mapError
    fun e => corrupt ("directory: " ++ e.message)
  let entries := decodeDirectory sectorSize directory
  let miniFat ← if 0 < le32 header 0x40 then
      (chainBytes image sectorSize fat (le32 header 0x3C)).map (fun d => (u32Fields d).toArray)
        |>.mapError fun e => corrupt ("mini FAT: " ++ e.message)
    else pure #[]
  match entries[0]? with
  | some root =>
    if root.kind = .root then
      pure { image, sectorSize, miniSectorSize := Nat.pow 2 miniShift, miniCutoff := le32 header 0x38,
             fat, miniFat, entries }
    else throw (corrupt "missing root entry")
  | none => throw (corrupt "missing root entry")

/-! ## §2 Streams -/

/-- The failure of a stream whose sectors end before its declared size. -/
def shortStream : IoError := ⟨"stream is shorter than its declared size"⟩

/-- The mini stream: the root's chain, cut to the root's size. -/
def miniStream (f : Document) : Except IoError ByteArray :=
  match f.entries[0]? with
  | some root => (chainBytes f.image f.sectorSize f.fat root.start).map (·.extract 0 root.size)
  | none => .ok ByteArray.empty

/-- Collects mini sectors from the mini stream until `size` bytes are gathered. -/
def gatherMini (ms : ByteArray) (miniSize size : Nat) :
    List Nat → ByteArray → Except IoError ByteArray
  | [], acc => .ok acc
  | s :: rest, acc =>
    let offset := s * miniSize
    if offset + miniSize ≤ ms.size then
      let acc' := acc ++ ms.extract offset (offset + miniSize)
      if size ≤ acc'.size then .ok acc' else gatherMini ms miniSize size rest acc'
    else .error ⟨"mini sector outside mini stream"⟩

/-- The bytes of a stream stored in the mini stream. -/
def readMini (f : Document) (start size : Nat) : Except IoError ByteArray := do
  let ms ← f.miniStream
  let sectors ← chain f.miniFat start
  let data ← gatherMini ms f.miniSectorSize size sectors ByteArray.empty
  if data.size < size then throw shortStream
  pure (data.extract 0 size)

/-- What reading a regular stream delivers: the sectors' bytes up to the remaining size, then
the failure of the first sector past the end of the file, or of a chain too short. -/
def chainFeed (image : ByteArray) (sectorSize : Nat) : List Nat → Nat → ByteArray → Feed
  | _, 0, acc => ⟨acc, none⟩
  | [], _ + 1, acc => ⟨acc, some shortStream⟩
  | s :: rest, remaining + 1, acc =>
    match sectorBytes image sectorSize s with
    | .error e => ⟨acc, some e⟩
    | .ok data =>
      let n := Nat.min data.size (remaining + 1)
      chainFeed image sectorSize rest (remaining + 1 - n) (acc ++ data.extract 0 n)

/-- Opens the stream of a directory record: a mini stream is read whole, a regular stream's
chain is resolved and its sectors read as the reader goes. -/
def streamFeed (f : Document) (sid : Nat) : Except IoError Feed :=
  match f.entries[sid]? with
  | some e =>
    if e.kind = .stream then
      if e.size < f.miniCutoff then (f.readMini e.start e.size).map Feed.ofBytes
      else (chain f.fat e.start).map fun sectors => chainFeed f.image f.sectorSize sectors e.size ByteArray.empty
    else .error ⟨"no such stream"⟩
  | none => .error ⟨"no such stream"⟩

/-- The document as a container: its streams in tree order, under their names. -/
def toContainer (f : Document) (name : Option String) : Container :=
  { kind := .ole2, name,
    entries := (streamIds f.entries).filterMap fun sid =>
      f.entries[sid]?.map fun e => ⟨e.name, (f.streamFeed sid).mapError (OpenFailure.unreadable ·.message)⟩ }

end Document

end ContainerProbe.Compound
