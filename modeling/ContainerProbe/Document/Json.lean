import ContainerProbe.Document.Value

/-!
# Reading JSON text

A strict reader of JSON text (RFC 8259) into document values: one value surrounded by
blanks, strings with the standard escapes (surrogate pairs joined, lone surrogates refused),
no control characters inside strings, and numbers without leading zeros. An integer is read
as an integer and any number with a fraction or an exponent as a float.

Each nested value or member costs one unit of a budget set to twice the length of the text
plus two, which no text can exhaust, since each of them consumes at least one character.
-/

namespace ContainerProbe.JsonText

/-- A reading failure, with a short description. -/
abbrev Reading (α : Type) := Except String α

/-- Blanks between JSON tokens. -/
def isBlank (c : Char) : Bool := c = ' ' || c = '\t' || c = '\n' || c = '\r'

/-- The text after any blanks. -/
def skipBlanks (cs : List Char) : List Char := cs.dropWhile isBlank

/-- The value of four hex digits. -/
def hex4? (cs : List Char) : Option Nat :=
  match cs with
  | [a, b, c, d] => Doc.natInRadix? 16 [a, b, c, d]
  | _ => none

/-- The characters of a string body up to its closing quote, and the text after it. -/
def stringBody : List Char → List Char → Reading (String × List Char)
  | _, [] => .error "unterminated string"
  | acc, '"' :: rest => .ok (String.ofList acc.reverse, rest)
  | acc, '\\' :: c :: rest =>
    match c with
    | '"' => stringBody ('"' :: acc) rest
    | '\\' => stringBody ('\\' :: acc) rest
    | '/' => stringBody ('/' :: acc) rest
    | 'b' => stringBody ('\x08' :: acc) rest
    | 'f' => stringBody ('\x0c' :: acc) rest
    | 'n' => stringBody ('\n' :: acc) rest
    | 'r' => stringBody ('\r' :: acc) rest
    | 't' => stringBody ('\t' :: acc) rest
    | 'u' =>
      match hex4? (rest.take 4) with
      | none => .error "bad unicode escape"
      | some hi =>
        if 0xD800 ≤ hi ∧ hi < 0xDC00 then
          match _hdrop : rest.drop 4 with
          | '\\' :: 'u' :: more =>
            match hex4? (more.take 4) with
            | some lo =>
              if 0xDC00 ≤ lo ∧ lo < 0xE000 then
                let code := 0x10000 + (hi - 0xD800) * 0x400 + (lo - 0xDC00)
                stringBody (Char.ofNat code :: acc) (more.drop 4)
              else .error "lone surrogate"
            | none => .error "bad unicode escape"
          | _ => .error "lone surrogate"
        else if 0xDC00 ≤ hi ∧ hi < 0xE000 then .error "lone surrogate"
        else stringBody (Char.ofNat hi :: acc) (rest.drop 4)
    | _ => .error "bad escape"
  | _, ['\\'] => .error "unterminated string"
  | acc, c :: rest =>
    if c.toNat < 0x20 then .error "control character in string" else stringBody (c :: acc) rest
termination_by _ cs => cs.length
decreasing_by
  all_goals simp_wf
  all_goals
    first
    | omega
    | (have hlen := congrArg List.length _hdrop; simp at hlen; omega)

/-- A number: an optional minus, an integer part without leading zeros, an optional fraction
and an optional exponent. -/
def number (cs : List Char) : Reading (Doc × List Char) :=
  let (neg, body) := match cs with
    | '-' :: rest => (true, rest)
    | _ => (false, cs)
  let intPart := body.takeWhile Char.isDigit
  let afterInt := body.drop intPart.length
  if intPart.isEmpty then .error "expected a digit"
  else if intPart.length > 1 ∧ intPart.head? = some '0' then .error "leading zero"
  else
    let (frac, afterFrac) : List Char × List Char := match afterInt with
      | '.' :: rest => let ds := rest.takeWhile Char.isDigit; ('.' :: ds, rest.drop ds.length)
      | _ => ([], afterInt)
    let (expo, afterExp) : List Char × List Char := match afterFrac with
      | e :: rest =>
        if e = 'e' ∨ e = 'E' then
          let (sign, r2) := match rest with
            | '+' :: r => (['+'], r)
            | '-' :: r => (['-'], r)
            | r => ([], r)
          let ds := r2.takeWhile Char.isDigit
          (e :: sign ++ ds, r2.drop ds.length)
        else ([], afterFrac)
      | [] => ([], afterFrac)
    if frac = ['.'] then .error "expected a digit after the point"
    else if !expo.isEmpty ∧ !(expo.getLast?.map Char.isDigit).getD false then
      .error "expected a digit in the exponent"
    else if frac.isEmpty ∧ expo.isEmpty then
      let n := (Doc.natInRadix? 10 intPart).getD 0
      .ok (.int (if neg then -(n : Int) else n), afterExp)
    else
      .ok (.float (String.ofList ((if neg then ['-'] else []) ++ intPart ++ frac ++ expo)), afterExp)

/-- Whether the text starts with the word. -/
def startsWith (cs : List Char) (w : String) : Bool := cs.take w.length == w.toList

mutual
/-- One value after any blanks, within a budget of nested reads. -/
def value : Nat → List Char → Reading (Doc × List Char)
  | 0, _ => .error "nesting too deep"
  | fuel + 1, cs =>
    match skipBlanks cs with
    | [] => .error "unexpected end of text"
    | '{' :: rest => members fuel [] true rest
    | '[' :: rest => elements fuel [] true rest
    | '"' :: rest => (stringBody [] rest).map fun (s, r) => (.text s, r)
    | cs' =>
      if startsWith cs' "null" then .ok (.null, cs'.drop 4)
      else if startsWith cs' "true" then .ok (.bool true, cs'.drop 4)
      else if startsWith cs' "false" then .ok (.bool false, cs'.drop 5)
      else number cs'

/-- The elements of an array after its `[`, newest first in `acc`. -/
def elements : Nat → List Doc → Bool → List Char → Reading (Doc × List Char)
  | 0, _, _, _ => .error "nesting too deep"
  | fuel + 1, acc, first, cs =>
    match skipBlanks cs with
    | ']' :: rest => if first then .ok (.seq [], rest) else .error "trailing comma"
    | cs' =>
      match value fuel cs' with
      | .error e => .error e
      | .ok (v, rest) =>
        match skipBlanks rest with
        | ',' :: more => elements fuel (v :: acc) false more
        | ']' :: more => .ok (.seq (v :: acc).reverse, more)
        | _ => .error "expected ',' or ']'"

/-- The members of an object after its opening brace, newest first in `acc`. -/
def members : Nat → List (Doc × Doc) → Bool → List Char → Reading (Doc × List Char)
  | 0, _, _, _ => .error "nesting too deep"
  | fuel + 1, acc, first, cs =>
    match skipBlanks cs with
    | '}' :: rest => if first then .ok (.map [], rest) else .error "trailing comma"
    | '"' :: rest =>
      match stringBody [] rest with
      | .error e => .error e
      | .ok (key, afterKey) =>
        match skipBlanks afterKey with
        | ':' :: afterColon =>
          match value fuel afterColon with
          | .error e => .error e
          | .ok (v, rest) =>
            match skipBlanks rest with
            | ',' :: more => members fuel ((.text key, v) :: acc) false more
            | '}' :: more => .ok (.map ((.text key, v) :: acc).reverse, more)
            | _ => .error "expected ',' or the end of the object"
        | _ => .error "expected ':'"
    | _ => .error "expected a key"
end

/-- The value of a whole JSON text. -/
def parse (text : String) : Reading Doc :=
  let cs := text.toList
  match value (2 * cs.length + 2) cs with
  | .error e => .error e
  | .ok (v, rest) => if (skipBlanks rest).isEmpty then .ok v else .error "trailing characters"

end ContainerProbe.JsonText
