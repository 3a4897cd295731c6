import ContainerProbe.Size

/-!
# Byte sets

A byte set is given by ranges of byte values, possibly negated. Ranges keep the
order in which they were written, each with its smaller end first; membership is the
range test, flipped when the set is negated.

A set is looked up through a table of 256 bits built once: four 64-bit words, byte `x` being
bit `x % 64` of word `x / 64`. The table is filled range by range, a byte at a time, and
complemented word by word for a negated set; its size is the number of bits set.

## Main statements

* `ByteSet.accepts_make`: a byte is in `ByteSet.make rs neg` iff some range, read with
  its ends in order, holds it, flipped by `neg`.
* `ByteSet.mem_members`: `members` lists exactly the accepted bytes.
-/

namespace ContainerProbe

/-! ## §1 Ranges -/

/-- An inclusive range of byte values, smaller end first. -/
structure ByteRange where
  /-- The smallest byte of the range. -/
  lo : UInt8
  /-- The largest byte of the range. -/
  hi : UInt8
  ordered : lo ≤ hi
  deriving DecidableEq, Repr

namespace ByteRange

/-- The range between two bytes given in either order. -/
def span (a b : UInt8) : ByteRange :=
  if h : a ≤ b then ⟨a, b, h⟩ else ⟨b, a, UInt8.le_of_lt (UInt8.not_le.mp h)⟩

/-- Whether the range holds a byte. -/
def holds (r : ByteRange) (x : UInt8) : Bool := decide (r.lo ≤ x ∧ x ≤ r.hi)

theorem holds_span (a b x : UInt8) :
    (span a b).holds x = if a ≤ b then decide (a ≤ x ∧ x ≤ b) else decide (b ≤ x ∧ x ≤ a) := by
  unfold span holds
  split <;> simp_all

end ByteRange

/-! ## §2 Classes -/

/-- A set of byte values: the union of the ranges, or its complement when negated. -/
structure ByteSet where
  /-- The ranges as written. -/
  ranges : List ByteRange
  /-- Whether the set holds the bytes outside the ranges instead. -/
  negated : Bool
  deriving DecidableEq, Repr

namespace ByteSet

/-- The set of the given ranges, each read with its ends in order. -/
def make (pairs : List (UInt8 × UInt8)) (negated : Bool) : ByteSet :=
  ⟨pairs.map fun p => ByteRange.span p.1 p.2, negated⟩

/-- The set of every byte, written `??`. -/
def any : ByteSet := make [(0, 255)] false

/-- Whether the set accepts a byte. -/
def accepts (c : ByteSet) (x : UInt8) : Bool :=
  (c.ranges.any fun r => r.holds x) != c.negated

/-- Every byte value, in ascending order. -/
def allBytes : List UInt8 := (List.range 256).map UInt8.ofNat

/-- The accepted bytes in ascending order. -/
def members (c : ByteSet) : List UInt8 := allBytes.filter c.accepts

/-- The number of accepted bytes. -/
def cardinality (c : ByteSet) : Nat := c.members.length

theorem mem_allBytes (x : UInt8) : x ∈ allBytes := by
  unfold allBytes
  refine List.mem_map.mpr ⟨x.toNat, List.mem_range.mpr x.toNat_lt, ?_⟩
  simp

theorem mem_members (c : ByteSet) (x : UInt8) : x ∈ c.members ↔ c.accepts x = true := by
  simp [members, mem_allBytes]

theorem accepts_make (pairs : List (UInt8 × UInt8)) (neg : Bool) (x : UInt8) :
    (make pairs neg).accepts x =
      ((pairs.any fun p => (ByteRange.span p.1 p.2).holds x) != neg) := by
  simp [make, accepts, List.any_map, Function.comp_def]

/-! ## §3 The membership table -/

/-- The word of the table that holds a byte's bit. -/
def word (x : UInt8) : Fin 4 :=
  ⟨(x >>> 6).toNat, by
    rw [UInt8.toNat_shiftRight, Nat.shiftRight_eq_div_pow]
    have := x.toNat_lt
    simp only [UInt8.reduceToNat, Nat.reduceMod]
    omega⟩

/-- The byte's bit within its word. -/
def bit (x : UInt8) : UInt64 := 1 <<< (x &&& 63).toUInt64

/-- Sets a byte's bit. -/
def mark (t : Vector UInt64 4) (x : UInt8) : Vector UInt64 4 :=
  t.set (word x) (t[word x] ||| bit x)

/-- Sets the bits of every byte of a range, smallest first; the loop runs over numbers, so it
stops after the byte 255 without wrapping around. -/
def markRange (t : Vector UInt64 4) (r : ByteRange) : Vector UInt64 4 :=
  (List.range' r.lo.toNat (r.hi.toNat - r.lo.toNat + 1)).foldl
    (fun t n => mark t (UInt8.ofNat n)) t

/-- The table of a set: the bits of its ranges, complemented when it is negated. -/
def table (c : ByteSet) : Vector UInt64 4 :=
  let marked := c.ranges.foldl markRange (Vector.replicate 4 0)
  if c.negated then marked.map (~~~ ·) else marked

/-- Whether the table holds a byte's bit. -/
def contains (c : ByteSet) (x : UInt8) : Bool := (c.table[word x] &&& bit x) != 0

/-- The bit a table keeps for a byte: bit `x % 64` of word `x / 64`. -/
def holds (t : Vector UInt64 4) (x : UInt8) : Bool := t[word x].toNat.testBit (x.toNat % 64)

/-- The number of set bits of a word. -/
def popCount (w : UInt64) : Nat := (List.range 64).countP fun i => w.toNat.testBit i

/-- The size of the set as the table gives it: the set bits of its words. -/
def bitCount (c : ByteSet) : Nat := Size.total (c.table.toList.map popCount)

end ByteSet

end ContainerProbe
