/-!
# CRC-32

The checksum of GZIP members and ZIP entries: the reflected CRC with polynomial
`0xEDB88320`, started from all ones and inverted at the end.
-/

namespace ContainerProbe.Deflate

/-- One shift of the reflected register. -/
def crcShift (c : UInt32) : UInt32 := if c &&& 1 = 1 then (0xEDB88320 : UInt32) ^^^ (c >>> 1) else c >>> 1

/-- The register step for one byte value, eight shifts. -/
def crcEntry (n : Nat) : UInt32 := (List.range 8).foldl (fun c _ => crcShift c) n.toUInt32

/-- The register steps of the 256 byte values. -/
def crcTable : Array UInt32 := (List.range 256).map crcEntry |>.toArray

/-- The CRC-32 of a byte string. -/
def crc32 (data : ByteArray) : Nat :=
  (data.foldl (fun c b => crcTable.getD ((c ^^^ b.toUInt32) &&& 0xFF).toNat 0 ^^^ (c >>> 8))
    0xFFFFFFFF ^^^ 0xFFFFFFFF).toNat

end ContainerProbe.Deflate
