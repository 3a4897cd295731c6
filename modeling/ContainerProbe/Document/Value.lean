/-!
# Document values

Signature definitions arrive as YAML or JSON documents. Both are read into one tree of
values. JSON values carry their type; a YAML scalar written without quotes (a plain scalar)
keeps its text, because its type depends on what the reader of the document asks for: the
plain scalar `5` is the number five where a number is expected and the text `5` where a text
is. `Doc.resolve` gives every plain scalar the type the YAML core schema gives it, which is
how a value is read when the schema does not say what to expect.
-/

namespace ContainerProbe

/-- A value of a YAML or JSON document. -/
inductive Doc where
  /-- The null value. -/
  | null
  /-- A truth value. -/
  | bool (b : Bool)
  /-- An integer. -/
  | int (i : Int)
  /-- A number with a fraction or an exponent. -/
  | float (text : String)
  /-- A text: a JSON string or a quoted YAML scalar. -/
  | text (s : String)
  /-- A YAML scalar written without quotes, not yet given a type. -/
  | plain (s : String)
  /-- A sequence of values. -/
  | seq (items : List Doc)
  /-- A mapping, its entries in the order written. -/
  | map (entries : List (Doc × Doc))
  deriving Repr, Inhabited

namespace Doc

/-! ## §1 Plain scalars -/

/-- Whether a plain scalar means null. -/
def isNullText (s : String) : Bool :=
  s.isEmpty || s == "~" || s == "null" || s == "Null" || s == "NULL"

/-- The truth value a plain scalar means, if any. -/
def boolOfText? (s : String) : Option Bool :=
  if s == "true" || s == "True" || s == "TRUE" then some true
  else if s == "false" || s == "False" || s == "FALSE" then some false
  else none

/-- The value of a digit in the given radix. -/
def digitIn (radix : Nat) (c : Char) : Option Nat :=
  let v :=
    if c.isDigit then c.toNat - 48
    else if 'a' ≤ c ∧ c ≤ 'z' then c.toNat - 87
    else if 'A' ≤ c ∧ c ≤ 'Z' then c.toNat - 55
    else 99
  if v < radix then some v else none

/-- A non-empty run of digits in the given radix. -/
def natInRadix? (radix : Nat) (cs : List Char) : Option Nat :=
  if cs.isEmpty then none
  else cs.foldl (fun acc c => acc.bind fun a => (digitIn radix c).map (a * radix + ·)) (some 0)

/-- Whether the text is a zero followed by more digits, which YAML reads as a text. -/
def leadingZeroDigits (cs : List Char) : Bool :=
  match cs with
  | '0' :: rest => !rest.isEmpty && rest.all Char.isDigit
  | _ => false

/-- The magnitude of an unsigned YAML integer: an optional `+`, then `0x`, `0o` or `0b` and
digits of that radix, or decimal digits without a leading zero (after the sign). -/
def unsignedOfText? (s : String) : Option Nat :=
  let cs := s.toList
  let body := match cs with
    | '+' :: rest => rest
    | _ => cs
  match body with
  | '0' :: 'x' :: rest => if rest.head? = some '+' ∨ rest.head? = some '-' then none else natInRadix? 16 rest
  | '0' :: 'o' :: rest => if rest.head? = some '+' ∨ rest.head? = some '-' then none else natInRadix? 8 rest
  | '0' :: 'b' :: rest => if rest.head? = some '+' ∨ rest.head? = some '-' then none else natInRadix? 2 rest
  | _ =>
    if body.head? = some '+' ∨ body.head? = some '-' then none
    else if leadingZeroDigits body then none
    else natInRadix? 10 body

/-- The integer a plain scalar means, if any. -/
def intOfText? (s : String) : Option Int :=
  match s.toList with
  | '-' :: rest =>
    match unsignedOfText? (String.ofList rest) with
    | some n => if rest.head? = some '+' then none else some (-(n : Int))
    | none => none
  | _ => (unsignedOfText? s).map Int.ofNat

/-- Whether a plain scalar reads as a floating-point number: digits with a point or an
exponent, or one of the YAML spellings of infinity and not-a-number. -/
def isFloatText (s : String) : Bool :=
  let cs := match s.toList with
    | '+' :: rest => rest
    | '-' :: rest => rest
    | cs => cs
  let special := [".inf", ".Inf", ".INF", ".nan", ".NaN", ".NAN"]
  if special.contains (String.ofList cs) then true
  else
    let mantissa := cs.takeWhile fun c => c ≠ 'e' ∧ c ≠ 'E'
    let expo := cs.drop (mantissa.length + 1)
    let intPart := mantissa.takeWhile Char.isDigit
    let frac := mantissa.drop intPart.length
    let fracOk := match frac with
      | [] => true
      | '.' :: ds => ds.all Char.isDigit
      | _ => false
    let digits := intPart.length + (frac.drop 1).length
    let expoOk := if mantissa.length = cs.length then true
      else match expo with
        | '+' :: ds | '-' :: ds => !ds.isEmpty && ds.all Char.isDigit
        | ds => !ds.isEmpty && ds.all Char.isDigit
    digits > 0 && fracOk && expoOk && !leadingZeroDigits cs

/-- The typed value of a plain scalar under the YAML core schema. -/
def ofPlain (s : String) : Doc :=
  if isNullText s then .null
  else match boolOfText? s with
    | some b => .bool b
    | none =>
      match intOfText? s with
      | some i => .int i
      | none => if isFloatText s then .float s else .text s

mutual
/-- The document with every plain scalar given its typed value. -/
def resolve : Doc → Doc
  | .plain s => ofPlain s
  | .seq items => .seq (resolveAll items)
  | .map entries => .map (resolveEntries entries)
  | d => d

/-- Every value of the list resolved. -/
def resolveAll : List Doc → List Doc
  | [] => []
  | d :: ds => resolve d :: resolveAll ds

/-- Every key and value of the entries resolved. -/
def resolveEntries : List (Doc × Doc) → List (Doc × Doc)
  | [] => []
  | (k, v) :: es => (resolve k, resolve v) :: resolveEntries es
end

end Doc

end ContainerProbe
