import ContainerProbe.Document.Value

/-!
# Reading YAML text

A reader for the part of YAML that signature documents use:

* block mappings (`key: value`) and block sequences (`- item`), nested by indentation, a
  sequence also at the same indentation as the key that holds it, and compact nesting
  (`- key: value`, `- - item`);
* flow sequences `[a, b]` and flow mappings `{a: 1, b: 2}`, nested and spanning lines;
* plain scalars, kept untyped (`Doc.plain`), and single- or double-quoted scalars, read as
  texts with their escapes; a line break written inside quotes folds to a space, an escaped
  one stays;
* comments, blank lines, and an optional `---` document marker.

Anchors, aliases, tags, block scalars, complex keys and plain scalars that continue on a
further line are refused, as is more than one document.

Positions are tracked as the remaining characters and the column of the first of them. Each
nested read costs one unit of a budget set to four times the length of the text plus
sixteen, which no text can exhaust, since each read consumes at least one character.
-/

namespace ContainerProbe.YamlText

/-- A reading failure, with a short description. -/
abbrev Reading (α : Type) := Except String α

/-- The remaining characters and the column of the first of them. -/
structure Cur where
  /-- The characters not read yet. -/
  rest : List Char
  /-- The column of the first of them. -/
  col : Nat

/-! ## §1 Characters -/

/-- Blanks inside a line. -/
def isSpace (c : Char) : Bool := c = ' ' || c = '\t' || c = '\r'

/-- Characters that end a plain scalar in a flow collection. -/
def isFlowIndicator (c : Char) : Bool := c = ',' || c = '[' || c = ']' || c = '{' || c = '}'

/-- Whether a position ends a line: a line break, the end of the text, or a comment. -/
def atLineEnd (cs : List Char) : Bool :=
  match cs with
  | [] => true
  | '\n' :: _ => true
  | '#' :: _ => true
  | _ => false

/-- Whether the character after an indicator lets it stand as one: a blank, a line break or
the end of the text. -/
def spaceOrEnd : Option Char → Bool
  | none => true
  | some c => isSpace c || c = '\n'

/-- The cursor after `n` characters of the current line. -/
def Cur.skipN (c : Cur) (n : Nat) : Cur := ⟨c.rest.drop n, c.col + n⟩

/-- The cursor after the blanks of the current line. -/
def Cur.skipSpaces (c : Cur) : Cur :=
  let n := (c.rest.takeWhile isSpace).length
  c.skipN n

/-- Skips blanks, comments and line breaks up to the next token. -/
def skipToTokenAux : List Char → Nat → Bool → Cur
  | [], col, _ => ⟨[], col⟩
  | '\n' :: r, _, _ => skipToTokenAux r 0 false
  | _ :: r, col, true => skipToTokenAux r (col + 1) true
  | c :: r, col, false =>
    if c = '#' then skipToTokenAux r (col + 1) true
    else if isSpace c then skipToTokenAux r (col + 1) false
    else ⟨c :: r, col⟩

/-- The cursor at the next token, past blanks, comments and line breaks. -/
def Cur.toToken (c : Cur) : Cur := skipToTokenAux c.rest c.col false

/-- Whether the cursor stands at the end of the text. -/
def Cur.atEnd (c : Cur) : Bool := c.rest.isEmpty

/-! ## §2 Scalars -/

/-- The characters of a plain scalar from the cursor: up to a line break, a `: ` or a ` #`,
and in a flow collection also up to a flow indicator. Trailing blanks are dropped. -/
def plainChars (flow : Bool) : List Char → List Char
  | [] => []
  | '\n' :: _ => []
  | ':' :: rest =>
    match rest.head? with
    | none => []
    | some c =>
      if isSpace c || c = '\n' || (flow && isFlowIndicator c) then [] else ':' :: plainChars flow rest
  | c :: rest =>
    if flow && isFlowIndicator c then []
    else if isSpace c && rest.head? = some '#' then []
    else c :: plainChars flow rest

/-- A plain scalar: its text without trailing blanks, and the cursor after it. -/
def plainScalar (flow : Bool) (c : Cur) : String × Cur :=
  let raw := plainChars flow c.rest
  let text := (raw.reverse.dropWhile isSpace).reverse
  (String.ofList text, c.skipN text.length)

/-- Whether a character may not start a plain scalar. -/
def refusedStart (c : Char) : Bool :=
  "&*!|>%@`".toList.contains c

/-- The separator of two lines of a quoted scalar with `breaks` empty lines between them: a
space, or one line break per empty line. -/
def lineSeparator (breaks : Nat) : List Char :=
  if breaks = 0 then [' '] else List.replicate breaks '\n'

/-- Joins the lines after the first, counting the empty lines met so far. -/
def joinLines (breaks : Nat) : List (List Char) → List Char
  | [] => []
  | [l] => lineSeparator breaks ++ l
  | l :: rest =>
    if l.isEmpty then joinLines (breaks + 1) rest else lineSeparator breaks ++ l ++ joinLines 0 rest

/-- A character of a quoted scalar's body, as it was written. Only characters written as
themselves take part in line folding; an escaped blank or line break is content. -/
inductive QuotedChar where
  /-- A character written as itself. -/
  | literal (c : Char)
  /-- A character written as an escape sequence. -/
  | escaped (c : Char)

namespace QuotedChar

/-- The character, however it was written. -/
def char : QuotedChar → Char
  | .literal c | .escaped c => c

/-- Whether the character is a blank written as such, which folding may drop. -/
def isFoldable : QuotedChar → Bool
  | .literal c => isSpace c
  | .escaped _ => false

/-- Whether the character is a line break written as such. -/
def isBreak : QuotedChar → Bool
  | .literal c => c == '\n'
  | .escaped _ => false

end QuotedChar

/-- Joins the lines of a quoted scalar: the blanks around each line break are dropped, a line
break becomes one space, and each further empty line a line break. Only blanks and breaks
written as such fold; escaped ones stay. -/
def foldLines (body : List QuotedChar) : List Char :=
  let trimEnd := fun (l : List QuotedChar) => (l.reverse.dropWhile QuotedChar.isFoldable).reverse
  match body.splitOnP QuotedChar.isBreak with
  | [] => []
  | [only] => only.map QuotedChar.char
  | first :: rest =>
    let inner := rest.mapIdx fun i l =>
      let l := l.dropWhile QuotedChar.isFoldable
      (if i + 1 < rest.length then trimEnd l else l).map QuotedChar.char
    (trimEnd first).map QuotedChar.char ++ joinLines 0 inner

/-- The body of a single-quoted scalar after its opening quote: `''` stands for one quote.
Also gives how many characters were read, the closing quote included. -/
def singleQuoted : List QuotedChar → Nat → List Char →
    Reading (List QuotedChar × Nat × List Char)
  | _, _, [] => .error "unterminated quoted scalar"
  | acc, n, '\'' :: '\'' :: rest => singleQuoted (.literal '\'' :: acc) (n + 2) rest
  | acc, n, '\'' :: rest => .ok (acc.reverse, n + 1, rest)
  | acc, n, c :: rest => singleQuoted (.literal c :: acc) (n + 1) rest

/-- The character of an escape `\c` in a double-quoted scalar with a one-letter code. -/
def simpleEscape : Char → Option Char
  | '0' => some '\x00'
  | 'a' => some '\x07'
  | 'b' => some '\x08'
  | 't' => some '\t'
  | '\t' => some '\t'
  | 'n' => some '\n'
  | 'v' => some '\x0b'
  | 'f' => some '\x0c'
  | 'r' => some '\r'
  | 'e' => some '\x1b'
  | ' ' => some ' '
  | '"' => some '"'
  | '/' => some '/'
  | '\\' => some '\\'
  | 'N' => some (Char.ofNat 0x85)
  | '_' => some (Char.ofNat 0xA0)
  | 'L' => some (Char.ofNat 0x2028)
  | 'P' => some (Char.ofNat 0x2029)
  | _ => none

/-- The body of a double-quoted scalar after its opening quote, escapes decoded and
marked as such; line breaks are folded afterwards. A line break escaped
by a backslash is dropped together with the blanks that start the next line. Also gives how
many characters were read, the closing quote included. -/
def doubleQuoted : List QuotedChar → Nat → List Char →
    Reading (List QuotedChar × Nat × List Char)
  | _, _, [] => .error "unterminated quoted scalar"
  | acc, n, '"' :: rest => .ok (acc.reverse, n + 1, rest)
  | acc, n, '\\' :: '\n' :: rest =>
    doubleQuoted acc (n + 2 + (rest.takeWhile isSpace).length) (rest.dropWhile isSpace)
  | acc, n, '\\' :: c :: rest =>
    match simpleEscape c with
    | some e => doubleQuoted (.escaped e :: acc) (n + 2) rest
    | none =>
      let width := if c = 'x' then 2 else if c = 'u' then 4 else if c = 'U' then 8 else 0
      if width = 0 then .error "unknown escape"
      else
        match Doc.natInRadix? 16 (rest.take width) with
        | some v =>
          if (rest.take width).length = width ∧ v < 0x110000 ∧ ¬(0xD800 ≤ v ∧ v < 0xE000) then
            doubleQuoted (.escaped (Char.ofNat v) :: acc) (n + 2 + width) (rest.drop width)
          else .error "bad escape"
        | none => .error "bad escape"
  | _, _, ['\\'] => .error "unterminated quoted scalar"
  | acc, n, c :: rest => doubleQuoted (.literal c :: acc) (n + 1) rest
termination_by _ _ cs => cs.length
decreasing_by
  all_goals simp_wf
  all_goals
    first
    | omega
    | (have h : (rest.dropWhile isSpace).length ≤ rest.length :=
          (List.dropWhile_sublist isSpace).length_le
       omega)

/-- The cursor at `after`, once the characters `consumed` have been read from `c`: its column
counts from the last line break read, or on from `c`'s column when none was. -/
def Cur.jumpTo (c : Cur) (consumed : List Char) (after : List Char) : Cur :=
  match (consumed.reverse.takeWhile (· ≠ '\n')).length, consumed.contains '\n' with
  | k, true => ⟨after, k⟩
  | k, false => ⟨after, c.col + k⟩

/-- A quoted scalar at the cursor: its text and the cursor after the closing quote. -/
def quotedScalar (c : Cur) : Reading (String × Cur) :=
  match c.rest with
  | '\'' :: rest =>
    match singleQuoted [] 1 rest with
    | .error e => .error e
    | .ok (body, n, after) => .ok (String.ofList (foldLines body), c.jumpTo (c.rest.take n) after)
  | '"' :: rest =>
    match doubleQuoted [] 1 rest with
    | .error e => .error e
    | .ok (body, n, after) => .ok (String.ofList (foldLines body), c.jumpTo (c.rest.take n) after)
  | _ => .error "expected a quoted scalar"

/-- Whether a mapping key's `:` follows, after blanks on the same line. -/
def keyAhead (c : Cur) : Bool :=
  match c.skipSpaces.rest with
  | ':' :: rest => spaceOrEnd rest.head?
  | _ => false

/-! ## §3 Flow collections -/

mutual
/-- A node inside a flow collection, at a token. -/
def flowNode : Nat → Cur → Reading (Doc × Cur)
  | 0, _ => .error "nesting too deep"
  | fuel + 1, c =>
    match c.rest with
    | '[' :: _ => flowSeq fuel [] (c.skipN 1)
    | '{' :: _ => flowMap fuel [] (c.skipN 1)
    | '\'' :: _ | '"' :: _ => (quotedScalar c).map fun (s, c') => (.text s, c')
    | [] => .error "unexpected end of text"
    | ch :: rest =>
      if isFlowIndicator ch ∨ refusedStart ch ∨ ch = '#' then .error "unexpected character"
      else if (ch = '-' ∨ ch = '?' ∨ ch = ':') ∧ spaceOrEnd rest.head? then
        .error "block indicator in a flow collection"
      else
        let (s, c') := plainScalar true c
        .ok (.plain s, c')

/-- The items of a flow sequence after its `[`, newest first in `acc`. -/
def flowSeq : Nat → List Doc → Cur → Reading (Doc × Cur)
  | 0, _, _ => .error "nesting too deep"
  | fuel + 1, acc, c =>
    let c1 := c.toToken
    match c1.rest with
    | ']' :: _ => .ok (.seq acc.reverse, c1.skipN 1)
    | [] => .error "unterminated flow sequence"
    | _ =>
      match flowNode fuel c1 with
      | .error e => .error e
      | .ok (item, c2) =>
        let c3 := c2.toToken
        match c3.rest with
        | ',' :: _ => flowSeq fuel (item :: acc) (c3.skipN 1)
        | ']' :: _ => .ok (.seq (item :: acc).reverse, c3.skipN 1)
        | ':' :: _ =>
          let c4 := (c3.skipN 1).toToken
          match c4.rest with
          | ',' :: _ => flowSeq fuel (.map [(item, .plain "")] :: acc) (c4.skipN 1)
          | ']' :: _ => .ok (.seq (.map [(item, .plain "")] :: acc).reverse, c4.skipN 1)
          | _ =>
            match flowNode fuel c4 with
            | .error e => .error e
            | .ok (v, c5) =>
              let c6 := c5.toToken
              match c6.rest with
              | ',' :: _ => flowSeq fuel (.map [(item, v)] :: acc) (c6.skipN 1)
              | ']' :: _ => .ok (.seq (.map [(item, v)] :: acc).reverse, c6.skipN 1)
              | _ => .error "expected ',' or ']'"
        | _ => .error "expected ',' or ']'"

/-- The entries of a flow mapping after its opening brace, newest first in `acc`. -/
def flowMap : Nat → List (Doc × Doc) → Cur → Reading (Doc × Cur)
  | 0, _, _ => .error "nesting too deep"
  | fuel + 1, acc, c =>
    let c1 := c.toToken
    match c1.rest with
    | '}' :: _ => .ok (.map acc.reverse, c1.skipN 1)
    | [] => .error "unterminated flow mapping"
    | _ =>
      match flowNode fuel c1 with
      | .error e => .error e
      | .ok (key, c2) =>
        let c3 := c2.toToken
        let entry : Reading ((Doc × Doc) × Cur) :=
          match c3.rest with
          | ':' :: _ =>
            let c4 := (c3.skipN 1).toToken
            match c4.rest with
            | ',' :: _ | '}' :: _ => .ok ((key, .plain ""), c4)
            | _ => (flowNode fuel c4).map fun (v, c5) => ((key, v), c5.toToken)
          | _ => .ok ((key, .plain ""), c3)
        match entry with
        | .error e => .error e
        | .ok (kv, c6) =>
          match c6.rest with
          | ',' :: _ => flowMap fuel (kv :: acc) (c6.skipN 1)
          | '}' :: _ => .ok (.map (kv :: acc).reverse, c6.skipN 1)
          | _ => .error "expected ',' or the end of the mapping"
end

/-! ## §4 Block collections -/

/-- Whether the cursor stands at a block sequence item `- `. -/
def atItem (c : Cur) : Bool :=
  match c.rest with
  | '-' :: rest => spaceOrEnd rest.head?
  | _ => false

/-- Whether the cursor stands at a document marker `---` or `...` in the first column. -/
def atMarker (c : Cur) : Bool :=
  c.col = 0 && ((c.rest.take 3 == "---".toList) || (c.rest.take 3 == "...".toList)) &&
    spaceOrEnd (c.rest.drop 3).head?

/-- A scalar or flow collection that stands on the rest of a line after a key or an item
indicator, which no further key may follow on that line. -/
def inlineValue (fuel : Nat) (c : Cur) : Reading (Doc × Cur) :=
  let r : Reading (Doc × Cur) :=
    match c.rest with
    | '[' :: _ | '{' :: _ => flowNode fuel c
    | '\'' :: _ | '"' :: _ =>
      match quotedScalar c with
      | .error e => .error e
      | .ok (s, c') => if keyAhead c' then .error "mapping values are not allowed here" else .ok (.text s, c')
    | [] => .ok (.plain "", c)
    | ch :: rest =>
      if refusedStart ch then .error "unsupported node"
      else if ch = '-' ∧ spaceOrEnd rest.head? then .error "block sequence entries are not allowed here"
      else
        let (s, c') := plainScalar false c
        if keyAhead c' then .error "mapping values are not allowed here" else .ok (.plain s, c')
  match r with
  | .error e => .error e
  | .ok (d, c') => if atLineEnd c'.skipSpaces.rest then .ok (d, c') else .error "unexpected text after a value"

mutual
/-- A block node at a token. A scalar or flow collection must end its line. -/
def blockNode : Nat → Cur → Reading (Doc × Cur)
  | 0, _ => .error "nesting too deep"
  | fuel + 1, c =>
    let endsLine (d : Doc) (c' : Cur) : Reading (Doc × Cur) :=
      if atLineEnd c'.skipSpaces.rest then .ok (d, c') else .error "unexpected text after a value"
    if atItem c then blockSeq fuel c.col [] c
    else
      match c.rest with
      | '[' :: _ | '{' :: _ =>
        match flowNode fuel c with
        | .error e => .error e
        | .ok (d, c') => if keyAhead c' then .error "flow keys are not supported" else endsLine d c'
      | '\'' :: _ | '"' :: _ =>
        match quotedScalar c with
        | .error e => .error e
        | .ok (s, c') =>
          if keyAhead c' then blockMap fuel c.col [] (.text s) c'.skipSpaces
          else endsLine (.text s) c'
      | [] => .ok (.plain "", c)
      | ch :: _ =>
        if refusedStart ch ∨ ch = '?' then .error "unsupported node"
        else
          let (s, c') := plainScalar false c
          if keyAhead c' then blockMap fuel c.col [] (.plain s) c'.skipSpaces
          else endsLine (.plain s) c'

/-- The value of a key or an item whose indicator ends its line: the node on the following
lines when it is indented further than `col`, a sequence at `col` itself when `seqAtCol`,
and otherwise the empty value. -/
def nextLineValue : Nat → Nat → Bool → Cur → Reading (Doc × Cur)
  | 0, _, _, _ => .error "nesting too deep"
  | fuel + 1, col, seqAtCol, c =>
    let c1 := c.toToken
    if c1.atEnd ∨ atMarker c1 then .ok (.plain "", c1)
    else if c1.col > col then blockNode fuel c1
    else if seqAtCol ∧ c1.col = col ∧ atItem c1 then blockSeq fuel col [] c1
    else .ok (.plain "", c1)

/-- The entries of a block mapping at column `col`; `key` is read and the cursor stands at
its `:`. -/
def blockMap : Nat → Nat → List (Doc × Doc) → Doc → Cur → Reading (Doc × Cur)
  | 0, _, _, _, _ => .error "nesting too deep"
  | fuel + 1, col, acc, key, c =>
    let c1 := (c.skipN 1).skipSpaces
    let value :=
      if atLineEnd c1.rest then nextLineValue fuel col true c1
      else inlineValue fuel c1
    match value with
    | .error e => .error e
    | .ok (v, c2) =>
      let acc' := (key, v) :: acc
      let c3 := c2.toToken
      if c3.atEnd ∨ atMarker c3 ∨ c3.col < col then .ok (.map acc'.reverse, c3)
      else if c3.col > col then .error "bad indentation of a mapping entry"
      else
        match c3.rest with
        | '\'' :: _ | '"' :: _ =>
          match quotedScalar c3 with
          | .error e => .error e
          | .ok (s, c4) =>
            if keyAhead c4 then blockMap fuel col acc' (.text s) c4.skipSpaces
            else .error "expected a mapping key"
        | ch :: rest =>
          if refusedStart ch ∨ ch = '?' ∨ ch = '[' ∨ ch = '{' ∨ (ch = '-' ∧ spaceOrEnd rest.head?) then
            .error "expected a mapping key"
          else
            let (s, c4) := plainScalar false c3
            if keyAhead c4 then blockMap fuel col acc' (.plain s) c4.skipSpaces
            else .error "expected a mapping key"
        | [] => .ok (.map acc'.reverse, c3)

/-- The items of a block sequence at column `col`; the cursor stands at an item's `-`. -/
def blockSeq : Nat → Nat → List Doc → Cur → Reading (Doc × Cur)
  | 0, _, _, _ => .error "nesting too deep"
  | fuel + 1, col, acc, c =>
    let c1 := (c.skipN 1).skipSpaces
    let item :=
      if atLineEnd c1.rest then nextLineValue fuel col false c1
      else blockNode fuel c1
    match item with
    | .error e => .error e
    | .ok (d, c2) =>
      let acc' := d :: acc
      let c3 := c2.toToken
      if c3.atEnd ∨ atMarker c3 ∨ c3.col < col then .ok (.seq acc'.reverse, c3)
      else if c3.col > col then .error "bad indentation of a sequence entry"
      else if atItem c3 then blockSeq fuel col acc' c3
      else .ok (.seq acc'.reverse, c3)
end

/-- The value of a whole YAML text holding one document; the empty text is the empty value. -/
def parse (text : String) : Reading Doc :=
  let cs := text.toList
  let fuel := 4 * cs.length + 16
  let c0 := (Cur.mk cs 0).toToken
  let c1 := if atMarker c0 ∧ c0.rest.take 3 == "---".toList then (c0.skipN 3).toToken else c0
  if c1.atEnd then .ok (.plain "")
  else
    match blockNode fuel c1 with
    | .error e => .error e
    | .ok (d, c2) =>
      let c3 := c2.toToken
      let c4 := if atMarker c3 ∧ c3.rest.take 3 == "...".toList then (c3.skipN 3).toToken else c3
      if c4.atEnd then .ok d else .error "more than one document, or text after the document"

end ContainerProbe.YamlText
