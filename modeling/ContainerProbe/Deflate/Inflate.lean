import ContainerProbe.Deflate.Huffman

/-!
# Inflating a DEFLATE stream

A DEFLATE stream is a run of blocks, the last one flagged. A block is stored (a byte count
and its complement, then the bytes), or Huffman coded with the fixed codes or with codes
described at its start. Coded data is literals, back-references (a length and a distance
into the output so far) and an end-of-block symbol.

The decoder produces output as soon as the input allows: when the input ends inside the
stream, everything before the incomplete symbol has been produced (for a stored block, the
bytes present). A back-reference reaching before the first output byte reads zeros, as from
a fresh window.

Every loop consumes at least one bit per round, so its fuel is the number of bits left.
-/

namespace ContainerProbe.Deflate

/-- Why decoding stopped before the end of the stream. -/
inductive Halt where
  /-- The input ended inside the stream. -/
  | starved
  /-- The stream breaks the format. -/
  | corrupt
  deriving DecidableEq, Repr

/-- The outcome of inflating a stream. -/
structure Inflated where
  /-- The bytes produced. -/
  output : ByteArray
  /-- The byte offset just past the stream, when it ended properly. -/
  next : Nat
  /-- Why decoding stopped early, if it did. -/
  halt : Option Halt

/-! ## §1 Length and distance tables -/

/-- The base lengths of length symbols `257 .. 285`. -/
def lengthBase : List Nat :=
  [3, 4, 5, 6, 7, 8, 9, 10, 11, 13, 15, 17, 19, 23, 27, 31, 35, 43, 51, 59, 67, 83, 99, 115,
   131, 163, 195, 227, 258]

/-- The extra bits of length symbols `257 .. 285`. -/
def lengthExtra : List Nat :=
  [0, 0, 0, 0, 0, 0, 0, 0, 1, 1, 1, 1, 2, 2, 2, 2, 3, 3, 3, 3, 4, 4, 4, 4, 5, 5, 5, 5, 0]

/-- The base distances of distance symbols `0 .. 29`. -/
def distBase : List Nat :=
  [1, 2, 3, 4, 5, 7, 9, 13, 17, 25, 33, 49, 65, 97, 129, 193, 257, 385, 513, 769, 1025, 1537,
   2049, 3073, 4097, 6145, 8193, 12289, 16385, 24577]

/-- The extra bits of distance symbols `0 .. 29`. -/
def distExtra : List Nat :=
  [0, 0, 0, 0, 1, 1, 2, 2, 3, 3, 4, 4, 5, 5, 6, 6, 7, 7, 8, 8, 9, 9, 10, 10, 11, 11, 12, 12,
   13, 13]

/-- The fixed literal/length code. -/
def fixedLit : Huffman :=
  Huffman.ofLengths (List.replicate 144 8 ++ List.replicate 112 9 ++ List.replicate 24 7 ++
    List.replicate 8 8)

/-- The fixed distance code. -/
def fixedDist : Huffman := Huffman.ofLengths (List.replicate 30 5)

/-- The order in which a block header lists the code lengths of the code-length code. -/
def lengthOrder : List Nat := [16, 17, 18, 0, 8, 7, 9, 6, 10, 5, 11, 4, 12, 3, 13, 2, 14, 1, 15]

/-! ## §2 Coded data -/

/-- Appends `len` bytes copied from `dist` bytes back, one at a time, so a copy may overlap
the bytes it produces. -/
def copyBack (dist : Nat) : Nat → ByteArray → ByteArray
  | 0, out => out
  | len + 1, out =>
    copyBack dist len (out.push (if dist ≤ out.size then Bytes.byteAt out (out.size - dist) 0 else 0))

/-- How a block ended: the reader after it, or why decoding stopped; with the output. -/
abbrev Step := Except Halt BitReader × ByteArray

/-- Decodes coded data up to the end-of-block symbol. -/
def codes (lit dist : Huffman) : Nat → BitReader → ByteArray → Step
  | 0, _, out => (.error .corrupt, out)
  | fuel + 1, r, out =>
    match lit.decode r with
    | .starved => (.error .starved, out)
    | .invalid => (.error .corrupt, out)
    | .symbol s r =>
      if s < 256 then codes lit dist fuel r (out.push s.toUInt8)
      else if s = 256 then (.ok r, out)
      else if 285 < s then (.error .corrupt, out)
      else
        match r.read? (lengthExtra.getD (s - 257) 0) with
        | none => (.error .starved, out)
        | some (e, r) =>
          let len := lengthBase.getD (s - 257) 0 + e
          match dist.decode r with
          | .starved => (.error .starved, out)
          | .invalid => (.error .corrupt, out)
          | .symbol d r =>
            if 29 < d then (.error .corrupt, out)
            else
              match r.read? (distExtra.getD d 0) with
              | none => (.error .starved, out)
              | some (e, r) => codes lit dist fuel r (copyBack (distBase.getD d 0 + e) len out)

/-! ## §3 Block headers -/

/-- Reads `n` three-bit code lengths. -/
def readLengths : Nat → BitReader → Option (List Nat × BitReader)
  | 0, r => some ([], r)
  | n + 1, r => do
    let (l, r) ← r.read? 3
    let (ls, r) ← readLengths n r
    pure (l :: ls, r)

/-- What reading the code lengths of a dynamic block gave. -/
inductive LengthsRead where
  /-- The lengths, and the reader after them. -/
  | done (lengths : List Nat) (rest : BitReader)
  /-- Decoding stopped. -/
  | halted (h : Halt)

/-- Reads code lengths with the code-length code until `total` are known; `acc` holds those
read so far, in reverse. -/
def codeLengths (clc : Huffman) (total : Nat) : Nat → List Nat → BitReader → LengthsRead
  | 0, _, _ => .halted .corrupt
  | fuel + 1, acc, r =>
    if total ≤ acc.length then
      if acc.length = total then .done acc.reverse r else .halted .corrupt
    else
      match clc.decode r with
      | .starved => .halted .starved
      | .invalid => .halted .corrupt
      | .symbol s r =>
        if s < 16 then codeLengths clc total fuel (s :: acc) r
        else
          let (bits, base) := if s = 16 then (2, 3) else if s = 17 then (3, 3) else (7, 11)
          match r.read? bits with
          | none => .halted .starved
          | some (e, r) =>
            if s = 16 then
              match acc with
              | [] => .halted .corrupt
              | prev :: _ =>
                if total < acc.length + base + e then .halted .corrupt
                else codeLengths clc total fuel (List.replicate (base + e) prev ++ acc) r
            else if total < acc.length + base + e then .halted .corrupt
            else codeLengths clc total fuel (List.replicate (base + e) 0 ++ acc) r

/-- The codes a dynamic block header describes, or why they cannot be read. -/
def dynamicCodes (r : BitReader) : Except Halt (Huffman × Huffman × BitReader) :=
  match r.read? 14 with
  | none => .error .starved
  | some (h, r) =>
    let nlit := h % 32 + 257
    let ndist := h / 32 % 32 + 1
    let nclen := h / 1024 + 4
    if 286 < nlit ∨ 30 < ndist then .error .corrupt
    else
      match readLengths nclen r with
      | none => .error .starved
      | some (cls, r) =>
        let placed := (List.range 19).map fun sym =>
          match lengthOrder.idxOf? sym with
          | some i => cls.getD i 0
          | none => 0
        let clc := Huffman.ofLengths placed
        if !clc.isUsable then .error .corrupt
        else
          match codeLengths clc (nlit + ndist) (nlit + ndist + 1) [] r with
          | .halted h => .error h
          | .done ls r =>
            let lit := Huffman.ofLengths (ls.take nlit)
            let dist := Huffman.ofLengths (ls.drop nlit)
            if lit.isUsable && dist.isUsable then .ok (lit, dist, r) else .error .corrupt

/-! ## §4 Blocks -/

/-- Copies a stored block's bytes: all of them, or those present before the input ends. -/
def stored (r : BitReader) (out : ByteArray) : Step :=
  let r := r.align
  match r.read? 16 with
  | none => (.error .starved, out)
  | some (len, r) =>
    match r.read? 16 with
    | none => (.error .starved, out)
    | some (nlen, r) =>
      if len + nlen != 0xFFFF then (.error .corrupt, out)
      else
        let start := r.pos / 8
        if start + len ≤ r.data.size then
          (.ok ⟨r.data, 8 * (start + len)⟩, out ++ r.data.extract start (start + len))
        else (.error .starved, out ++ r.data.extract start r.data.size)

/-- Decodes one block after its three header bits. -/
def block (kind : Nat) (r : BitReader) (out : ByteArray) : Step :=
  match kind with
  | 0 => stored r out
  | 1 => codes fixedLit fixedDist (r.remaining + 1) r out
  | 2 =>
    match dynamicCodes r with
    | .error h => (.error h, out)
    | .ok (lit, dist, r) => codes lit dist (r.remaining + 1) r out
  | _ => (.error .corrupt, out)

/-- Decodes blocks until the last one. -/
def blocks : Nat → BitReader → ByteArray → Inflated
  | 0, r, out => ⟨out, r.byteOffset, some .corrupt⟩
  | fuel + 1, r, out =>
    match r.read? 3 with
    | none => ⟨out, r.byteOffset, some .starved⟩
    | some (h, r) =>
      match block (h / 2) r out with
      | (.error e, out) => ⟨out, r.byteOffset, some e⟩
      | (.ok r, out) =>
        if h % 2 = 1 then ⟨out, r.byteOffset, none⟩ else blocks fuel r out

/-- Inflates the stream that starts at byte `offset`. -/
def inflate (data : ByteArray) (offset : Nat) : Inflated :=
  let r := BitReader.atByte data offset
  blocks (r.remaining + 1) r ByteArray.empty

/-! ## §5 What a streaming reader hands out -/

/-- The decoder's window: a streaming reader decodes up to this many bytes at a time. -/
def windowSize : Nat := 32768

/-- The bytes a streaming reader has handed out when decoding stops. When the input ran out,
everything decoded; when the stream is corrupt, the fault fails the window being decoded, so
only the windows completed before it were handed out. -/
def Inflated.delivered (r : Inflated) : ByteArray :=
  match r.halt with
  | some .corrupt => r.output.extract 0 (r.output.size / windowSize * windowSize)
  | _ => r.output

end ContainerProbe.Deflate
