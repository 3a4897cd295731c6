import ContainerProbe.Fault

/-!
# Globs over entry names

A glob is read into tokens and compiled to an anchored regular expression, token by token:

| Glob                  | Expression                      | Runs                                   |
|-----------------------|---------------------------------|----------------------------------------|
| `*`                   | `[^/]*`                         | any characters except `/`              |
| `?`                   | `[^/]`                          | one character except `/`               |
| `**`                  | `.*`                            | any characters except a line feed      |
| `**/`                 | `(?:.*/)?`                      | nothing, or such a run ending in `/`   |
| `{a,b}`               | `(?:a\|b)`, alternatives escaped | exactly one of the alternatives        |
| `{containerFileName}` | the stem, escaped               | the container's file name without its extension |
| any other character   | the character, escaped          | itself                                 |

The expression is `^`, the tokens' texts and `$`. Escaping puts a backslash before each
character the expression syntax gives a meaning to, so that it stands for itself.
-/

namespace ContainerProbe

/-- One element of a glob. -/
inductive GlobToken where
  /-- `**`: any run of characters other than a line feed. -/
  | anyRun
  /-- `**/`: the empty run, or a run of characters other than a line feed followed by `/`. -/
  | dirPrefix
  /-- `*`: any run of characters other than `/`. -/
  | segmentRun
  /-- `?`: one character other than `/`. -/
  | oneChar
  /-- `{a,b,..}`: one of the alternatives, taken literally. -/
  | choice (alternatives : List (List Char))
  /-- A character standing for itself. -/
  | char (c : Char)
  deriving DecidableEq, Repr

namespace Glob

/-- The brace body that stands for the container's file name. -/
def containerFileName : List Char := "containerFileName".toList

/-- The tokens of the rest of a glob. `brace` holds the body read so far of an open brace,
and `stem` the container's file name without its extension, when known. -/
def tokensFrom (glob : String) (stem : Option String) :
    Option (List Char) → List Char → Except Fault (List GlobToken)
  | some _, [] => .error (.definition (.unterminatedPathBrace glob))
  | some body, c :: rest =>
    if c = '}' then
      -- the template is the stem's characters, each standing for itself
      let emitted : Except Fault (List GlobToken) :=
        if body = containerFileName then
          match stem with
          | some s => .ok (s.toList.map .char)
          | none => .error (.definition (.needsContainerName glob))
        else .ok [.choice (body.splitOn ',')]
      match emitted, tokensFrom glob stem none rest with
      | .error e, _ => .error e
      | .ok _, .error e => .error e
      | .ok es, .ok ts => .ok (es ++ ts)
    else tokensFrom glob stem (some (body ++ [c])) rest
  | none, [] => .ok []
  | none, '*' :: '*' :: '/' :: rest => (tokensFrom glob stem none rest).map (.dirPrefix :: ·)
  | none, '*' :: '*' :: rest => (tokensFrom glob stem none rest).map (.anyRun :: ·)
  | none, '*' :: rest => (tokensFrom glob stem none rest).map (.segmentRun :: ·)
  | none, '?' :: rest => (tokensFrom glob stem none rest).map (.oneChar :: ·)
  | none, '{' :: rest => tokensFrom glob stem (some []) rest
  | none, c :: rest => (tokensFrom glob stem none rest).map (.char c :: ·)

/-- The tokens of a glob. -/
def tokens (glob : String) (stem : Option String) : Except Fault (List GlobToken) :=
  tokensFrom glob stem none glob.toList

end Glob

namespace Regex

/-- The characters the expression syntax gives a meaning to. -/
def isMeta (c : Char) : Bool :=
  ['\\', '.', '+', '*', '?', '(', ')', '|', '[', ']', '{', '}', '^', '$', '#', '&', '-',
    '~'].contains c

/-- A text as an expression that matches it literally: a backslash before each meta
character. -/
def escape (text : List Char) : List Char :=
  text.flatMap fun c => if isMeta c then ['\\', c] else [c]

@[simp] theorem escape_nil : escape [] = [] := rfl

@[simp] theorem escape_cons (c : Char) (text : List Char) :
    escape (c :: text) = (if isMeta c then ['\\', c] else [c]) ++ escape text :=
  List.flatMap_cons

/-- The expression that matches a name when `body` matches all of it, from `^` to `$`. -/
def anchored (body : List Char) : String := String.ofList ('^' :: body ++ ['$'])

end Regex

/-- The text of the expression a token compiles to. -/
def GlobToken.regex : GlobToken → List Char
  | .anyRun => ".*".toList
  | .dirPrefix => "(?:.*/)?".toList
  | .segmentRun => "[^/]*".toList
  | .oneChar => "[^/]".toList
  | .choice alts => "(?:".toList ++ ['|'].intercalate (alts.map Regex.escape) ++ [')']
  | .char c => Regex.escape [c]

namespace GlobToken

@[simp] theorem regex_anyRun : anyRun.regex = ['.', '*'] := rfl

@[simp] theorem regex_dirPrefix : dirPrefix.regex = ['(', '?', ':', '.', '*', '/', ')', '?'] := rfl

@[simp] theorem regex_segmentRun : segmentRun.regex = ['[', '^', '/', ']', '*'] := rfl

@[simp] theorem regex_oneChar : oneChar.regex = ['[', '^', '/', ']'] := rfl

@[simp] theorem regex_choice (alts : List (List Char)) :
    (choice alts).regex = '(' :: '?' :: ':' :: (['|'].intercalate (alts.map Regex.escape) ++ [')']) :=
  rfl

@[simp] theorem regex_char (c : Char) : (char c).regex = Regex.escape [c] := rfl

end GlobToken

namespace Glob

/-- The text of the expression a list of tokens compiles to, between its anchors. -/
def regexBody (ts : List GlobToken) : List Char := ts.flatMap GlobToken.regex

@[simp] theorem regexBody_nil : regexBody [] = [] := rfl

@[simp] theorem regexBody_cons (t : GlobToken) (ts : List GlobToken) :
    regexBody (t :: ts) = t.regex ++ regexBody ts := List.flatMap_cons

/-- The anchored expression a glob compiles to, with `stem` for the template. -/
def toRegex (glob : String) (stem : Option String) : Except Fault String :=
  (tokens glob stem).map fun ts => Regex.anchored (regexBody ts)

end Glob

end ContainerProbe
