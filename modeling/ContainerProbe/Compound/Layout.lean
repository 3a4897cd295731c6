import ContainerProbe.Fault
import ContainerProbe.Bytes

/-!
# Compound document layout

A compound document (structured storage) is a 512-byte header followed by sectors of one
size, a power of two; sector `n` starts at byte `(n + 1) * size`. Allocation tables link
sectors into chains: entry `n` of a table names the sector after `n`, or a marker that ends
the chain.

Fields are little-endian. A field read past the end of its buffer gives a fixed fallback
(zero, or the free-sector marker for sector ids), so a short buffer reads as absent data
rather than failing.

Chain walks are bounded by the size of their table: a chain longer than the table must
revisit a sector, so it loops, and is refused.
-/

namespace ContainerProbe.Compound

/-! ## §1 Markers and fields -/

/-- The marker that ends a chain. -/
def endOfChain : Nat := 0xFFFFFFFE

/-- The marker of an unused sector. -/
def freeSector : Nat := 0xFFFFFFFF

/-- The marker of a missing directory link. -/
def noStream : Nat := 0xFFFFFFFF

/-- Whether a sector id ends a chain. -/
def isChainEnd (s : Nat) : Bool := s == endOfChain || s == freeSector

/-- A two-byte field, zero when absent. -/
def le16 (buf : ByteArray) (offset : Nat) : Nat := (Bytes.leAt? buf offset 2).getD 0

/-- A four-byte field, the free-sector marker when absent. -/
def le32 (buf : ByteArray) (offset : Nat) : Nat := (Bytes.leAt? buf offset 4).getD freeSector

/-- An eight-byte field, zero when absent. -/
def le64 (buf : ByteArray) (offset : Nat) : Nat := (Bytes.leAt? buf offset 8).getD 0

/-- The four-byte fields of a buffer, in order; a trailing part shorter than four bytes is
ignored. -/
def u32Fields (buf : ByteArray) : List Nat :=
  (List.range (buf.size / 4)).map fun i => le32 buf (4 * i)

/-! ## §2 Sectors and chains -/

/-- The failure of a read that runs past the end of the file. -/
def shortRead : IoError := ⟨"failed to fill whole buffer"⟩

/-- The bytes of a sector. -/
def sectorBytes (image : ByteArray) (sectorSize sector : Nat) : Except IoError ByteArray :=
  let start := (sector + 1) * sectorSize
  if start + sectorSize ≤ image.size then .ok (image.extract start (start + sectorSize))
  else .error shortRead

/-- Follows a chain through a table from `sector`, with `taken` sectors already collected
(in reverse in `acc`) and at most `fuel` more steps. -/
def chainFrom (table : Array Nat) : Nat → Nat → Nat → List Nat → Except IoError (List Nat)
  | 0, _, _, _ => .error ⟨"sector chain loops"⟩
  | fuel + 1, sector, taken, acc =>
    if isChainEnd sector then .ok acc.reverse
    else
      match table[sector]? with
      | none => .error ⟨"sector " ++ toString sector ++ " outside allocation table"⟩
      | some next =>
        if table.size ≤ taken then .error ⟨"sector chain loops"⟩
        else chainFrom table fuel next (taken + 1) (sector :: acc)

/-- The sectors of the chain that starts at `start`. A chain can hold at most one sector per
table entry; one more step is a loop. -/
def chain (table : Array Nat) (start : Nat) : Except IoError (List Nat) :=
  chainFrom table (table.size + 1) start 0 []

/-- The bytes of every sector of a chain, in order. -/
def chainBytes (image : ByteArray) (sectorSize : Nat) (table : Array Nat) (start : Nat) :
    Except IoError ByteArray := do
  let sectors ← chain table start
  sectors.foldlM (fun acc s => (sectorBytes image sectorSize s).map (acc ++ ·)) ByteArray.empty

theorem chain_end (table : Array Nat) (s : Nat) (h : isChainEnd s = true) :
    chain table s = .ok [] := by
  simp [chain, chainFrom, h]

end ContainerProbe.Compound
