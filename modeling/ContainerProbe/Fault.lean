/-!
# Faults

Everything that can go wrong while compiling signatures or identifying a container, as a
cause rather than a text. Each family of causes has one `message` function that gives its
wording, and `Fault.message` assembles the full report.

## Main definitions

* `SyntaxProblem`: why a pattern expression was refused (its position travels beside it).
* `DefinitionProblem`: why a signature document was refused.
* `IoError`: a failed read, carrying the reader's own text.
* `Fault`: the library-wide error.
-/

namespace ContainerProbe

/-! ## §1 Pattern syntax -/

/-- Why a pattern expression cannot be compiled. -/
inductive SyntaxProblem where
  /-- Nothing but blanks and anchors. -/
  | emptyPattern
  /-- A `$` followed by more text. -/
  | dollarNotAtEnd
  /-- The text ended where a fragment was expected. -/
  | unexpectedEnd
  /-- A gap (`*`, `{..}` or a numeric bracket) inside `( .. )`. -/
  | gapInAlternatives
  /-- A single `?`. -/
  | expectedAnyByte
  /-- A `(` inside `( .. )`. -/
  | nestedAlternatives
  /-- A closing bracket, brace or parenthesis with no opener. -/
  | unmatched (closer : Char)
  /-- A `|` outside `( .. )`. -/
  | barOutsideAlternatives
  /-- A `^` after the first fragment. -/
  | caretNotAtStart
  /-- A byte that is no hexadecimal digit where one was expected. -/
  | invalidHexDigit (byte : UInt8)
  /-- The text ended inside a hex byte. -/
  | incompleteHexByte
  /-- A quotation without its closing delimiter. -/
  | unterminatedQuote
  /-- A byte above 127 inside `'..'`. -/
  | nonAsciiInQuote
  /-- A quotation with nothing inside. -/
  | emptyQuote
  /-- A `[` inside a byte set. -/
  | nestedBracket
  /-- A `[` without its `]`. -/
  | unterminatedBracket
  /-- A gap bound written with too many digits for a size. -/
  | gapBoundOutOfRange
  /-- A gap whose maximum is below its minimum. -/
  | gapMinExceedsMax
  /-- A byte set with no members. -/
  | emptyByteSet
  /-- A `{` without its `}`. -/
  | unterminatedBrace
  /-- A brace gap whose bounds are no sizes. -/
  | invalidGapBounds
  /-- A `(` without its `)`. -/
  | unterminatedParen
  /-- A branch of `( .. )` with no fragment. -/
  | emptyAlternative
  deriving DecidableEq, Repr

/-- The character whose code point is the byte's value, as a byte is shown in a report. -/
def byteChar (b : UInt8) : Char := Char.ofNat b.toNat

/-- The wording of a syntax problem. -/
def SyntaxProblem.message : SyntaxProblem → String
  | .emptyPattern => "empty pattern"
  | .dollarNotAtEnd => "'$' is only allowed at the end of a pattern"
  | .unexpectedEnd => "unexpected end of pattern"
  | .gapInAlternatives => "gaps are not allowed inside alternatives"
  | .expectedAnyByte => "expected '??'"
  | .nestedAlternatives => "nested alternatives are not supported"
  | .unmatched c => "unmatched '" ++ c.toString ++ "'"
  | .barOutsideAlternatives => "'|' outside alternatives"
  | .caretNotAtStart => "'^' is only allowed at the start of a pattern"
  | .invalidHexDigit b => "invalid hex digit '" ++ (byteChar b).toString ++ "'"
  | .incompleteHexByte => "incomplete hex byte"
  | .unterminatedQuote => "unterminated quoted text"
  | .nonAsciiInQuote => "non-ASCII character in quoted text"
  | .emptyQuote => "empty quoted text"
  | .nestedBracket => "nested '[' inside a byte set"
  | .unterminatedBracket => "unterminated '['"
  | .gapBoundOutOfRange => "gap bound is out of range"
  | .gapMinExceedsMax => "gap minimum exceeds maximum"
  | .emptyByteSet => "empty byte set"
  | .unterminatedBrace => "unterminated '\x7b'"
  | .invalidGapBounds => "invalid gap bounds"
  | .unterminatedParen => "unterminated '('"
  | .emptyAlternative => "empty alternative"

/-! ## §2 Signature definitions -/

/-- Why a signature document, or a part of it, is refused. -/
inductive DefinitionProblem where
  /-- Offsets given on a sequence without a `bof` or `eof` reference. -/
  | offsetsNeedReference (sequence : String)
  /-- A window whose maximum offset is below its minimum. -/
  | maxBelowMin (max min : Nat) (sequence : String)
  /-- A signature id used twice. -/
  | duplicateSignature (id : Nat)
  /-- A signature without file requirements. -/
  | noFiles (id : Nat)
  /-- A file requirement whose binary signature lists no sequence. -/
  | emptyBinary (id : Nat) (path : String)
  /-- A declared entry path that is empty once trailing slashes are gone. -/
  | emptyEntryPath
  /-- A `{` without its `}` in a declared entry path. -/
  | unterminatedPathBrace (path : String)
  /-- A templated entry path evaluated without a container name. -/
  | needsContainerName (path : String)
  /-- A pattern id that the library does not hold. -/
  | unknownPattern (id : Nat)
  deriving DecidableEq, Repr

/-- The wording of a definition problem. -/
def DefinitionProblem.message : DefinitionProblem → String
  | .offsetsNeedReference s => "offsets on '" ++ s ++ "' need a bof or eof reference"
  | .maxBelowMin hi lo s =>
    "max_offset " ++ toString hi ++ " is below min_offset " ++ toString lo ++ " on '" ++ s ++ "'"
  | .duplicateSignature id => "duplicate signature id " ++ toString id
  | .noFiles id => "signature " ++ toString id ++ " declares no files"
  | .emptyBinary id path => "signature " ++ toString id ++ ": empty binary signature for " ++ path
  | .emptyEntryPath => "entry path must not be empty"
  | .unterminatedPathBrace path => "unterminated '\x7b' in entry path " ++ path
  | .needsContainerName path => "entry path " ++ path ++ " needs the container file name"
  | .unknownPattern id => "unknown pattern id " ++ toString id

/-! ## §3 Reads and the library-wide error -/

/-- A failed read, with the text its reader gave. -/
structure IoError where
  /-- The reader's description of the failure. -/
  message : String
  deriving DecidableEq, Repr

/-- The library-wide error. -/
inductive Fault where
  /-- A pattern expression refused at a byte position of its text. -/
  | badPattern (position : Nat) (problem : SyntaxProblem)
  /-- A signature definition refused. -/
  | definition (problem : DefinitionProblem)
  /-- A YAML document that does not have the shape of a definition document. -/
  | yaml (detail : String)
  /-- A JSON document that does not have the shape of a definition document. -/
  | json (detail : String)
  /-- A read failed. -/
  | io (error : IoError)
  /-- An entry the container does not hold. -/
  | entryNotFound (entry : String)
  /-- An entry that could not be read. -/
  | entryRead (entry : String) (detail : String)
  /-- A container whose structure is broken. -/
  | container (detail : String)
  /-- Identification ran out of time. -/
  | timeout
  deriving DecidableEq, Repr

/-- The full report of a fault. -/
def Fault.message : Fault → String
  | .badPattern p problem =>
    "Pattern syntax error at position " ++ toString p ++ ": " ++ problem.message
  | .definition problem => "Invalid signature definition: " ++ problem.message
  | .yaml d => "YAML parsing error: " ++ d
  | .json d => "JSON parsing error: " ++ d
  | .io e => "IO error: " ++ e.message
  | .entryNotFound e => "Entry not found: " ++ e
  | .entryRead e d => "Failed to read entry " ++ e ++ ": " ++ d
  | .container d => "Container error: " ++ d
  | .timeout => "Identification timeout exceeded"

end ContainerProbe
