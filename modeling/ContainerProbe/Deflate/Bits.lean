import ContainerProbe.Bytes

/-!
# Bit streams

DEFLATE packs its data into bytes from the least significant bit up: bit `i` of a stream
is bit `i % 8` of byte `i / 8`. Multi-bit fields are read least significant bit first;
Huffman codes, read one bit at a time, start with their most significant bit.

A `BitReader` is a position in a byte string, counted in bits. Reading past the end gives
`none`: the stream has been cut short, which is different from a stream that is wrong.
-/

namespace ContainerProbe.Deflate

/-- A position in a byte string, counted in bits. -/
structure BitReader where
  /-- The bytes. -/
  data : ByteArray
  /-- The number of bits already read. -/
  pos : Nat

namespace BitReader

/-- A reader at the start of byte `offset`. -/
def atByte (data : ByteArray) (offset : Nat) : BitReader := ⟨data, 8 * offset⟩

/-- The number of bits left. -/
def remaining (r : BitReader) : Nat := 8 * r.data.size - r.pos

/-- Bit `i` of the stream. -/
def bitAt (data : ByteArray) (i : Nat) : Nat := ((Bytes.byteAt data (i / 8) 0).toNat / Nat.pow 2 (i % 8)) % 2

/-- Reads an `n`-bit field, least significant bit first; `none` when fewer bits remain. -/
def read? (r : BitReader) (n : Nat) : Option (Nat × BitReader) :=
  if r.pos + n ≤ 8 * r.data.size then
    some ((List.range n).foldr (fun k acc => bitAt r.data (r.pos + k) + 2 * acc) 0,
      { r with pos := r.pos + n })
  else none

/-- The reader moved to the next byte boundary. -/
def align (r : BitReader) : BitReader := { r with pos := (r.pos + 7) / 8 * 8 }

/-- The offset of the byte the reader is in, or of the next one when it is on a boundary. -/
def byteOffset (r : BitReader) : Nat := (r.pos + 7) / 8

theorem read?_pos {r r' : BitReader} {n v : Nat} (h : r.read? n = some (v, r')) :
    r'.pos = r.pos + n := by
  unfold read? at h
  split at h
  · cases h; rfl
  · cases h

end BitReader

end ContainerProbe.Deflate
