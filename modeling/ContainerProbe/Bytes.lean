/-!
# Little-endian fields

Container formats store their numbers as little-endian unsigned fields of two, four or
eight bytes. A field is read at a byte offset and is absent when it runs past the end of
the buffer.
-/

namespace ContainerProbe.Bytes

/-- The byte at `index`, or `fallback` past the end of the buffer. -/
def byteAt (buf : ByteArray) (index : Nat) (fallback : UInt8) : UInt8 :=
  if h : index < buf.size then buf[index] else fallback

/-- Reading a byte is reading the buffer's array of bytes with a default. -/
theorem byteAt_eq_getD (buf : ByteArray) (index : Nat) (fallback : UInt8) :
    byteAt buf index fallback = buf.data.getD index fallback := rfl

/-- The little-endian value of `width` bytes at `offset`, or `none` when they run past the
end of the buffer. -/
def leAt? (buf : ByteArray) (offset width : Nat) : Option Nat :=
  if offset + width ≤ buf.size then
    some ((List.range width).foldr (fun i acc => (byteAt buf (offset + i) 0).toNat + 256 * acc) 0)
  else none

/-- A two-byte field. -/
def le16? (buf : ByteArray) (offset : Nat) : Option Nat := leAt? buf offset 2

/-- A four-byte field. -/
def le32? (buf : ByteArray) (offset : Nat) : Option Nat := leAt? buf offset 4

theorem leAt?_isSome (buf : ByteArray) (offset width : Nat) :
    (leAt? buf offset width).isSome = decide (offset + width ≤ buf.size) := by
  unfold leAt?
  split <;> simp_all

end ContainerProbe.Bytes
