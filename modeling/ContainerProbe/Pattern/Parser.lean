import ContainerProbe.Fault
import ContainerProbe.Pattern.Basic
import ContainerProbe.Pattern.Canonical

/-!
# Reading pattern expressions

A canonical expression is a blank-separated sequence of fragments, with an optional leading
`^` and an optional trailing `$`:

| Text                    | Fragment                                   |
|-------------------------|--------------------------------------------|
| `4d 5a`                 | literal bytes, two hex digits each         |
| `'text'`                | literal ASCII bytes                        |
| `` `text` ``            | literal bytes of any value                 |
| `[00:1f 7f]`, `[!00]`   | one byte of a set, or outside it           |
| `['abc' 20]`            | set members given as text                  |
| `??`                    | any single byte                            |
| `[2:4]`, `[2:*]`        | a gap of 2 to 4 (or at least 2) bytes      |
| `{4}`, `{2-4}`, `{2-*}` | a gap                                      |
| `*`                     | a gap of any length                        |
| `(01 02 | 'ab' | ??)`   | one of several fixed runs                  |

A bracket whose bounds are both two-digit numbers, such as `[10:20]`, is a byte range; any
other purely numeric bracket is a gap.

The reader works on the UTF-8 bytes of the text and reports the first problem met from the
left, at the byte position where the offending construct starts. Every step of the reader
returns a cursor strictly further along than the one it was given, which is what makes the
loops over fragments, set members and branches end.
-/

namespace ContainerProbe.Pattern.Parser

/-! ## §1 Bytes and cursors -/

/-- Blank bytes: space, tab, line feed, form feed and carriage return. -/
def isBlank (b : UInt8) : Bool := b == 32 || b == 9 || b == 10 || b == 12 || b == 13

/-- The value of a hexadecimal digit in either case. -/
def hexValue? (b : UInt8) : Option UInt8 :=
  if 48 ≤ b ∧ b ≤ 57 then some (b - 48)
  else if 97 ≤ b ∧ b ≤ 102 then some (b - 87)
  else if 65 ≤ b ∧ b ≤ 70 then some (b - 55)
  else none

/-- A byte position in the text and the bytes from there on. -/
structure Cursor where
  /-- Offset of the first remaining byte. -/
  pos : Nat
  /-- The remaining bytes. -/
  rest : List UInt8

/-- Cursors strictly further along than `c`. -/
abbrev Past (c : Cursor) := { d : Cursor // d.rest.length < c.rest.length }

/-- A syntax problem at a position. -/
def fail {α : Type} (position : Nat) (problem : SyntaxProblem) : Except Fault α :=
  .error (.badPattern position problem)

/-- The cursor after the longest run of bytes that `keep` accepts. -/
def skipWhile (keep : UInt8 → Bool) (pos : Nat) : List UInt8 → Cursor
  | [] => ⟨pos, []⟩
  | b :: bs => if keep b then skipWhile keep (pos + 1) bs else ⟨pos, b :: bs⟩

theorem skipWhile_rest_length_le (keep : UInt8 → Bool) (pos : Nat) (s : List UInt8) :
    (skipWhile keep pos s).rest.length ≤ s.length := by
  induction s generalizing pos with
  | nil => simp [skipWhile]
  | cons b bs ih =>
    unfold skipWhile
    split
    · exact Nat.le_succ_of_le (ih _)
    · simp

/-- The cursor after any blanks. -/
def Cursor.skipBlanks (c : Cursor) : Cursor := skipWhile isBlank c.pos c.rest

/-- The cursor after any blanks and commas, which separate the members of a set. -/
def Cursor.skipDelimiters (c : Cursor) : Cursor :=
  skipWhile (fun b => isBlank b || b == 44) c.pos c.rest

theorem Cursor.skipBlanks_le (c : Cursor) : c.skipBlanks.rest.length ≤ c.rest.length :=
  skipWhile_rest_length_le _ _ _

theorem Cursor.skipSeparators_le (c : Cursor) :
    c.skipDelimiters.rest.length ≤ c.rest.length :=
  skipWhile_rest_length_le _ _ _

/-- The text without leading and trailing blanks. -/
def trimBlanks (s : List UInt8) : List UInt8 :=
  ((s.dropWhile isBlank).reverse.dropWhile isBlank).reverse

/-- The text before the first `sep` and the text after it, if `sep` occurs. -/
def splitFirst (sep : UInt8) (s : List UInt8) : Option (List UInt8 × List UInt8) :=
  let before := s.takeWhile (· != sep)
  if before.length < s.length then some (before, s.drop (before.length + 1)) else none

/-- A non-empty run of decimal digits. -/
def isNumber (s : List UInt8) : Bool := !s.isEmpty && s.all fun b => 48 ≤ b && b ≤ 57

/-! ## §2 Hex bytes and quoted text -/

/-- A byte written as two hex digits. -/
def hexByte (c : Cursor) : Except Fault (UInt8 × Past c) :=
  match h : c.rest with
  | [] => fail c.pos .incompleteHexByte
  | hb :: [] =>
    match hexValue? hb with
    | none => fail c.pos (.invalidHexDigit hb)
    | some _ => fail (c.pos + 1) .incompleteHexByte
  | hb :: lb :: t =>
    match hexValue? hb, hexValue? lb with
    | none, _ => fail c.pos (.invalidHexDigit hb)
    | some _, none => fail (c.pos + 1) (.invalidHexDigit lb)
    | some hi, some lo => .ok (hi * 16 + lo, ⟨⟨c.pos + 2, t⟩, by rw [h]; simp only [List.length_cons]; omega⟩)

/-- The bytes of a quotation up to its closing `delim`, and the cursor after that. Inside
`'..'` only ASCII bytes are allowed. -/
def quotedBody (delim : UInt8) (start pos : Nat) :
    (s : List UInt8) → Except Fault (List UInt8 × { d : Cursor // d.rest.length < s.length })
  | [] => fail start .unterminatedQuote
  | b :: bs =>
    if b = delim then .ok ([], ⟨⟨pos + 1, bs⟩, by simp⟩)
    else if delim = 39 ∧ 128 ≤ b then fail pos .nonAsciiInQuote
    else
      match quotedBody delim start (pos + 1) bs with
      | .error e => .error e
      | .ok (body, ⟨d, hd⟩) => .ok (b :: body, ⟨d, by simp; omega⟩)

/-- The bytes of the non-empty quotation that starts at the cursor. -/
def quoted (c : Cursor) : Except Fault (List UInt8 × Past c) :=
  match h : c.rest with
  | [] => fail c.pos .unexpectedEnd
  | q :: body =>
    match quotedBody q c.pos (c.pos + 1) body with
    | .error e => .error e
    | .ok ([], _) => fail c.pos .emptyQuote
    | .ok (b :: bytes, ⟨d, hd⟩) => .ok (b :: bytes, ⟨d, by rw [h]; simp only [List.length_cons] at hd ⊢; omega⟩)

/-! ## §3 Brackets: byte sets and numeric gaps -/

/-- The bytes up to the `]` that closes a bracket opened at `start`, skipping quoted text,
and the cursor after that `]`. -/
def closeBracket (start : Nat) (quote : Option UInt8) (pos : Nat) :
    (s : List UInt8) → Except Fault (List UInt8 × { d : Cursor // d.rest.length < s.length })
  | [] => fail start .unterminatedBracket
  | b :: bs =>
    let continueWith (q : Option UInt8) : Except Fault (List UInt8 × { d : Cursor // d.rest.length < (b :: bs).length }) :=
      match closeBracket start q (pos + 1) bs with
      | .error e => .error e
      | .ok (body, ⟨d, hd⟩) => .ok (b :: body, ⟨d, by simp; omega⟩)
    match quote with
    | some q => continueWith (if b = q then none else some q)
    | none =>
      if b = 39 ∨ b = 96 then continueWith (some b)
      else if b = 91 then fail pos .nestedBracket
      else if b = 93 then .ok ([], ⟨⟨pos + 1, bs⟩, by simp⟩)
      else continueWith none

/-- The bounds of a numeric bracket gap, as text: digits before the first `:`, and digits or
`*` after it. Two two-digit bounds are a byte range instead. -/
def gapBounds? (content : List UInt8) : Option (List UInt8 × List UInt8) :=
  match splitFirst 58 content with
  | none => none
  | some (before, after) =>
    let lo := trimBlanks before
    let hi := trimBlanks after
    if isNumber lo ∧ (isNumber hi ∨ hi = [42]) ∧ ¬(lo.length = 2 ∧ hi.length = 2) then
      some (lo, hi)
    else none

/-- The members of a byte set up to its closing `]`, as written ranges: hex bytes, ranges
`lo : hi` and quoted text, separated by blanks or commas. -/
def members (start : Nat) (c : Cursor) (acc : List (UInt8 × UInt8)) :
    Except Fault (List (UInt8 × UInt8)) :=
  let c1 := c.skipDelimiters
  have h1 : c1.rest.length ≤ c.rest.length := c.skipSeparators_le
  match h : c1.rest with
  | [] => fail start .unterminatedBracket
  | b :: _ =>
    if b = 93 then .ok acc.reverse
    else if b = 39 ∨ b = 96 then
      match quoted c1 with
      | .error e => .error e
      | .ok (bytes, ⟨d, hd⟩) =>
        have : d.rest.length < c.rest.length := by omega
        members start d ((bytes.map fun x => (x, x)).reverse ++ acc)
    else
      match hexByte c1 with
      | .error e => .error e
      | .ok (lo, ⟨d, hd⟩) =>
        let d1 := d.skipBlanks
        have hd1 : d1.rest.length ≤ d.rest.length := d.skipBlanks_le
        match h2 : d1.rest with
        | 58 :: more =>
          let d2 := skipWhile isBlank (d1.pos + 1) more
          have hd2 : d2.rest.length ≤ more.length := skipWhile_rest_length_le _ _ _
          match hexByte d2 with
          | .error e => .error e
          | .ok (hi, ⟨e, he⟩) =>
            have : e.rest.length < c.rest.length := by
              rw [h2] at hd1; simp at hd1; omega
            members start e ((lo, hi) :: acc)
        | _ =>
          have : d1.rest.length < c.rest.length := by omega
          members start d1 ((lo, lo) :: acc)
termination_by c.rest.length

/-- What a bracket holds. -/
inductive Bracket where
  /-- A numeric gap, its bounds still as text. -/
  | gapText (lo hi : List UInt8)
  /-- A byte set. -/
  | set (c : ByteSet)

/-- The bracket that starts at the cursor. -/
def bracket (c : Cursor) : Except Fault (Bracket × Past c) :=
  match h : c.rest with
  | [] => fail c.pos .unexpectedEnd
  | _ :: body =>
    match closeBracket c.pos none (c.pos + 1) body with
    | .error e => .error e
    | .ok (content, ⟨after, ha⟩) =>
      have hp : after.rest.length < c.rest.length := by
        rw [h]; simp only [List.length_cons] at ha ⊢; omega
      match gapBounds? content with
      | some (lo, hi) => .ok (.gapText lo hi, ⟨after, hp⟩)
      | none =>
        let c1 := skipWhile isBlank (c.pos + 1) body
        let negated := c1.rest.head? == some 33
        let c2 : Cursor := if negated then ⟨c1.pos + 1, c1.rest.drop 1⟩ else c1
        match members c.pos c2 [] with
        | .error e => .error e
        | .ok [] => fail c.pos .emptyByteSet
        | .ok ranges => .ok (.set (ByteSet.make ranges negated), ⟨after, hp⟩)

/-- A numeric bracket gap from its bounds. -/
def gapOfText (start : Nat) (lo hi : List UInt8) : Except Fault Fragment :=
  match Size.ofDigits? lo with
  | none => fail start .gapBoundOutOfRange
  | some m =>
    if hi = [42] then .ok (.gap m none)
    else
      match Size.ofDigits? hi with
      | none => fail start .gapBoundOutOfRange
      | some n => if n < m then fail start .gapMinExceedsMax else .ok (.gap m (some n))

/-! ## §4 Brace gaps -/

/-- The brace gap `{n}`, `{n-m}` or `{n-*}` that starts at the cursor. -/
def braceGap (c : Cursor) : Except Fault (Fragment × Past c) :=
  match h : c.rest with
  | [] => fail c.pos .unexpectedEnd
  | _ :: body =>
    let inner := body.takeWhile (· != 125)
    if hlt : inner.length < body.length then
      let after : Past c := ⟨⟨c.pos + inner.length + 2, body.drop (inner.length + 1)⟩,
        by rw [h]; simp only [List.length_cons, List.length_drop]; omega⟩
      let content := trimBlanks inner
      let bounds : List UInt8 × Option (List UInt8) :=
        match splitFirst 45 content with
        | some (lo, hi) => (trimBlanks lo, some (trimBlanks hi))
        | none => (content, none)
      match Size.ofDigits? bounds.1 with
      | none => fail c.pos .invalidGapBounds
      | some m =>
        let hi? : Except Fault (Option Nat) :=
          match bounds.2 with
          | none => .ok (some m)
          | some text =>
            if text = [42] then .ok none
            else match Size.ofDigits? text with
              | none => fail c.pos .invalidGapBounds
              | some n => .ok (some n)
        match hi? with
        | .error e => .error e
        | .ok (some n) =>
          if n < m then fail c.pos .gapMinExceedsMax else .ok (.gap m (some n), after)
        | .ok none => .ok (.gap m none, after)
    else fail c.pos .unterminatedBrace

/-! ## §5 Fragments and alternatives -/

/-- The cursor one byte further, when there is a byte. -/
def step (c : Cursor) (b : UInt8) (t : List UInt8) (h : c.rest = b :: t) : Past c :=
  ⟨⟨c.pos + 1, t⟩, by simp [h]⟩

/-- The `??` that starts at the cursor. -/
def anyByte (c : Cursor) : Except Fault (ByteSet × Past c) :=
  match h : c.rest with
  | _ :: 63 :: t => .ok (ByteSet.any, ⟨⟨c.pos + 2, t⟩, by rw [h]; simp only [List.length_cons]; omega⟩)
  | _ => fail c.pos .expectedAnyByte

/-- The problem of a byte that cannot start a fragment, if it is one of the closing or
anchoring characters. -/
def misplaced? (b : UInt8) : Option SyntaxProblem :=
  if b = 93 then some (.unmatched ']')
  else if b = 41 then some (.unmatched ')')
  else if b = 125 then some (.unmatched '}')
  else if b = 124 then some .barOutsideAlternatives
  else if b = 94 then some .caretNotAtStart
  else if b = 36 then some .dollarNotAtEnd
  else none

/-- One element of a branch of alternatives: a hex byte, quoted text, a byte set or `??`. -/
def piece (c : Cursor) : Except Fault (Piece × Past c) :=
  match c.rest with
  | [] => fail c.pos .unexpectedEnd
  | b :: _ =>
    if b = 39 ∨ b = 96 then
      (quoted c).map fun r => (.literal r.1, r.2)
    else if b = 91 then
      match bracket c with
      | .error e => .error e
      | .ok (.gapText _ _, _) => fail c.pos .gapInAlternatives
      | .ok (.set cls, d) => .ok (.byteSet cls, d)
    else if b = 123 ∨ b = 42 then fail c.pos .gapInAlternatives
    else if b = 63 then (anyByte c).map fun r => (.byteSet r.1, r.2)
    else if b = 40 then fail c.pos .nestedAlternatives
    else
      match misplaced? b with
      | some problem => fail c.pos problem
      | none => (hexByte c).map fun r => (.literal [r.1], r.2)

/-- The branches of alternatives from the cursor up to the closing `)`: `current` holds the
pieces of the open branch, newest first, and `done` the finished branches, newest first. -/
def branches (start : Nat) (c : Cursor) (current : List Piece) (done : List (List Piece)) :
    Except Fault (List (List Piece) × Past c) :=
  let c1 := c.skipBlanks
  have h1 : c1.rest.length ≤ c.rest.length := c.skipBlanks_le
  match h : c1.rest with
  | [] => fail start .unterminatedParen
  | b :: t =>
    if b = 124 ∨ b = 41 then
      if current.isEmpty then fail c1.pos .emptyAlternative
      else
        let done' := Piece.coalesce current.reverse :: done
        have ht : t.length < c.rest.length := by rw [h] at h1; simp at h1; omega
        if b = 41 then .ok (done'.reverse, ⟨⟨c1.pos + 1, t⟩, ht⟩)
        else
          match branches start ⟨c1.pos + 1, t⟩ [] done' with
          | .error e => .error e
          | .ok (bs, ⟨d, hd⟩) => .ok (bs, ⟨d, by simp at hd; omega⟩)
    else
      match piece c1 with
      | .error e => .error e
      | .ok (p, ⟨d, hd⟩) =>
        have : d.rest.length < c.rest.length := by omega
        match branches start d (p :: current) done with
        | .error e => .error e
        | .ok (bs, ⟨e, he⟩) => .ok (bs, ⟨e, by omega⟩)
termination_by c.rest.length

/-- The alternatives `( .. | .. )` that start at the cursor. -/
def alternatives (c : Cursor) : Except Fault (Fragment × Past c) :=
  match h : c.rest with
  | [] => fail c.pos .unexpectedEnd
  | _ :: t =>
    match branches c.pos ⟨c.pos + 1, t⟩ [] [] with
    | .error e => .error e
    | .ok (bs, ⟨d, hd⟩) => .ok (.alternatives bs, ⟨d, by simp [h]; simp at hd; omega⟩)

/-- The fragment that starts at the cursor. -/
def fragment (c : Cursor) : Except Fault (Fragment × Past c) :=
  match h : c.rest with
  | [] => fail c.pos .unexpectedEnd
  | b :: t =>
    if b = 39 ∨ b = 96 then
      (quoted c).map fun r => (.literal r.1, r.2)
    else if b = 91 then
      match bracket c with
      | .error e => .error e
      | .ok (.gapText lo hi, d) => (gapOfText c.pos lo hi).map fun f => (f, d)
      | .ok (.set cls, d) => .ok (.byteSet cls, d)
    else if b = 123 then braceGap c
    else if b = 42 then .ok (.gap 0 none, step c b t h)
    else if b = 63 then (anyByte c).map fun r => (.byteSet r.1, r.2)
    else if b = 40 then alternatives c
    else
      match misplaced? b with
      | some problem => fail c.pos problem
      | none => (hexByte c).map fun r => (.literal [r.1], r.2)

/-- The fragments from the cursor to the end of the text, newest first in `acc`, and the
anchor once a trailing `$` has been read. -/
def fragments (c : Cursor) (anchor : Anchor) (acc : List Fragment) :
    Except Fault (Anchor × List Fragment) :=
  let c1 := c.skipBlanks
  have h1 : c1.rest.length ≤ c.rest.length := c.skipBlanks_le
  match c1.rest with
  | [] => .ok (anchor, acc.reverse)
  | b :: t =>
    if b = 36 then
      if (skipWhile isBlank (c1.pos + 1) t).rest.isEmpty then .ok (anchor.combine .atEnd, acc.reverse)
      else fail c1.pos .dollarNotAtEnd
    else
      match fragment c1 with
      | .error e => .error e
      | .ok (f, ⟨d, hd⟩) =>
        have : d.rest.length < c.rest.length := by omega
        fragments d anchor (f :: acc)
termination_by c.rest.length

/-- The anchor and fragments of a canonical expression, or the first problem in it. -/
def parse (text : String) : Except Fault (Anchor × List Fragment) :=
  let c0 := skipWhile isBlank 0 text.toUTF8.toList
  let start : Anchor × Cursor :=
    match c0.rest with
    | 94 :: t => (.atStart, ⟨c0.pos + 1, t⟩)
    | _ => (.floating, c0)
  match fragments start.2 start.1 [] with
  | .error e => .error e
  | .ok (_, []) => fail 0 .emptyPattern
  | .ok (anchor, fs) => .ok (anchor, fs)

end ContainerProbe.Pattern.Parser

namespace ContainerProbe.Pattern

/-- The pattern of a canonical expression. -/
def ofCanonical (expression : String) : Except Fault Pattern :=
  (Parser.parse expression).map fun r => make expression r.1 r.2

/-- The pattern of an expression as written: legacy set syntax is rewritten first, and the
pattern keeps the canonical text. -/
def compile (raw : String) : Except Fault Pattern := ofCanonical (Canonical.normalize raw)

end ContainerProbe.Pattern
