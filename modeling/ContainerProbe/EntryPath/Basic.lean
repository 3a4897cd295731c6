import ContainerProbe.EntryPath.Regex

/-!
# Declared entry paths

A signature names the entries it needs by path. A declared path is compared with entry names
exactly, read as a glob when it holds `*`, `?` or `{`, or kept as a template when it mentions
`{containerFileName}`, which only a container's own name can resolve. Trailing `/` are not
part of a path or of an entry name.

`EntryPath.bind` resolves a declared path for one container: a template without other glob
syntax becomes an exact name, one with glob syntax a glob, and one that needs an unknown
container name matches nothing. A glob is kept as the expression it compiles to, which a regex
engine runs against entry names: `ResolvedPath.acceptsWith` takes the engine, and
`ResolvedPath.accepts` runs the engine of `Regex.isMatch`.
-/

namespace ContainerProbe

/-- A name without its trailing `/` characters. -/
def trimEntryName (name : String) : String :=
  String.ofList (name.toList.reverse.dropWhile (· = '/')).reverse

/-- Whether the characters after a `{` complete the template `{containerFileName}`, which
stands for the container's file name. -/
def closesTemplate (rest : List Char) : Bool := (Glob.containerFileName ++ ['}']).isPrefixOf rest

/-- Whether a path mentions the template `{containerFileName}`. -/
def mentionsTemplate : List Char → Bool
  | [] => false
  | c :: rest => (c == '{' && closesTemplate rest) || mentionsTemplate rest

/-- The path with every occurrence of the template `{containerFileName}` replaced by `stem`,
occurrences taken from the left. -/
def substituteTemplate (stem : List Char) : List Char → List Char
  | [] => []
  | c :: rest =>
    if c = '{' ∧ closesTemplate rest then
      stem ++ substituteTemplate stem (rest.drop (Glob.containerFileName.length + 1))
    else c :: substituteTemplate stem rest
termination_by path => path.length
decreasing_by all_goals simp only [List.length_drop, List.length_cons]; omega

/-- The last part of a path, read with `/` between directories: the last component that is
neither empty nor `.`, unless it is `..` or there is none. -/
def fileNameOf (path : String) : Option String :=
  match ((path.splitOn "/").filter fun c => c ≠ "" ∧ c ≠ ".").getLast? with
  | some ".." => none
  | some c => some c
  | none => none

/-- The container's file name without directories and without its last extension; a name
that starts with its only dot keeps it. -/
def containerStem (containerName : String) : String :=
  let file := (fileNameOf containerName).getD containerName
  let chars := file.toList
  let beforeDot := (chars.reverse.dropWhile (· ≠ '.')).reverse
  match beforeDot with
  | [] => file
  | [_] => file
  | _ => String.ofList beforeDot.dropLast

/-- Whether a path holds glob syntax. -/
def isGlobText (path : String) : Bool := path.toList.any fun c => c = '*' ∨ c = '?' ∨ c = '{'

/-- A declared entry path. -/
inductive EntryPath where
  /-- Compared character for character with each entry name. -/
  | exact (name : String)
  /-- A glob independent of the container, with the expression it compiles to. -/
  | glob (source : String) (regex : String)
  /-- A path that mentions the container's file name. -/
  | templated (source : String) (hasWildcards : Bool)
  deriving DecidableEq, Repr

/-- A declared path resolved for one container. -/
inductive ResolvedPath where
  /-- Only this name matches. -/
  | exact (name : String)
  /-- The names the expression of a glob matches. -/
  | glob (regex : String)
  /-- The path needs the container's name, which is unknown: nothing matches. -/
  | unresolvable
  deriving DecidableEq, Repr

namespace EntryPath

/-- Reads a declared path. -/
def parse (raw : String) : Except Fault EntryPath :=
  let path := trimEntryName raw
  if path.isEmpty then .error (.definition .emptyEntryPath)
  else if mentionsTemplate path.toList then
    match Glob.toRegex path (some "x") with
    | .error e => .error e
    | .ok _ =>
      .ok (.templated path (isGlobText (String.ofList (substituteTemplate [] path.toList))))
  else if isGlobText path then
    (Glob.toRegex path none).map (.glob path)
  else .ok (.exact path)

/-- The path as declared, without trailing `/`. -/
def source : EntryPath → String
  | .exact s | .glob s _ | .templated s _ => s

/-- The path resolved for a container with the given name. -/
def bind (p : EntryPath) (containerName : Option String) : ResolvedPath :=
  match p with
  | .exact name => .exact name
  | .glob _ re => .glob re
  | .templated source hasWildcards =>
    match containerName with
    | none => .unresolvable
    | some n =>
      let stem := containerStem n
      if hasWildcards then
        match Glob.toRegex source (some stem) with
        | .ok re => .glob re
        | .error _ => .unresolvable
      else .exact (String.ofList (substituteTemplate stem.toList source.toList))

end EntryPath

namespace ResolvedPath

/-- Whether an entry name matches, the expression of a glob run by the engine `isMatch`. -/
def acceptsWith (isMatch : String → String → Bool) : ResolvedPath → String → Bool
  | .exact name, n => name == n
  | .glob re, n => isMatch re n
  | .unresolvable, _ => false

/-- Whether an entry name matches. -/
def accepts (p : ResolvedPath) (n : String) : Bool := p.acceptsWith Regex.isMatch n

/-- Whether any one matching entry can satisfy the path on its own. -/
def isWildcard : ResolvedPath → Bool
  | .glob _ => true
  | _ => false

end ResolvedPath

end ContainerProbe
