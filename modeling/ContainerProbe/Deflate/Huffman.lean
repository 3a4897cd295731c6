import ContainerProbe.Deflate.Bits

/-!
# Canonical Huffman codes

DEFLATE describes a code by the length of each symbol's code word alone: code words of one
length are consecutive integers in symbol order, and each length's first word follows the
previous length's last. So a code is determined by how many symbols have each length and
the symbols sorted by (length, symbol).

Decoding reads one bit at a time and, at each length, asks whether the word read so far
falls among that length's words. A symbol is therefore decoded as soon as all of its bits
are present, and a cut-short stream is told apart from a word that no symbol has.

A code with more than one symbol must be complete: its words must use up the whole code
space, neither leaving words unused nor claiming more than there are.
-/

namespace ContainerProbe.Deflate

/-- The longest code word. -/
def maxBits : Nat := 15

/-- A canonical Huffman code. -/
structure Huffman where
  /-- How many symbols have a code word of each length `0 .. 15`. -/
  counts : Array Nat
  /-- The coded symbols, sorted by code length and then by symbol. -/
  symbols : Array Nat

/-- The result of decoding one symbol. -/
inductive Decoded where
  /-- A symbol, and the reader after its code word. -/
  | symbol (s : Nat) (rest : BitReader)
  /-- The stream ended inside a code word. -/
  | starved
  /-- No symbol has the word read. -/
  | invalid

namespace Huffman

/-- The code given by each symbol's code length (zero for an unused symbol). -/
def ofLengths (lengths : List Nat) : Huffman :=
  { counts := ((List.range (maxBits + 1)).map fun l => lengths.count l).toArray
    symbols := ((List.range' 1 maxBits).flatMap fun l =>
      (lengths.zipIdx.filter (·.1 = l)).map (·.2)).toArray }

/-- The number of symbols with a code word. -/
def used (h : Huffman) : Nat := h.symbols.size

/-- The code space the words take, in units of the shortest possible share (`2 ^ -15`). -/
def space (h : Huffman) : Nat :=
  (List.range' 1 maxBits).foldl (fun acc l => acc + h.counts.getD l 0 * Nat.pow 2 (maxBits - l)) 0

/-- Whether the code can be used: at most one symbol, or words that fill the code space. -/
def isUsable (h : Huffman) : Bool := h.used ≤ 1 || h.space == Nat.pow 2 maxBits

/-- Continues decoding with `len` bits read into `code`; `first` is the first word of that
length and `index` the position of its first symbol. -/
def decodeFrom (h : Huffman) : Nat → Nat → Nat → Nat → Nat → BitReader → Decoded
  | 0, _, _, _, _, _ => .invalid
  | fuel + 1, len, code, first, index, r =>
    match r.read? 1 with
    | none => .starved
    | some (b, r') =>
      let code := code + b
      let count := h.counts.getD len 0
      if code < first + count then .symbol (h.symbols.getD (index + (code - first)) 0) r'
      else decodeFrom h fuel (len + 1) (2 * code) (2 * (first + count)) (index + count) r'

/-- Decodes one symbol. -/
def decode (h : Huffman) (r : BitReader) : Decoded := h.decodeFrom maxBits 1 0 0 0 r

end Huffman

end ContainerProbe.Deflate
