/-!
# The entry name of a GZIP stream

A GZIP stream holds one member, exposed as one entry named after the container: the
container's name without its `.gz`, `-gz` or `.gzip` suffix (compared without regard to ASCII
case), `bundle.tgz` becoming `bundle.tar`, and `content` when there is no name or nothing
is left.
-/

namespace ContainerProbe.Gzip

/-- The entry name used when the container's name gives none. -/
def defaultEntryName : String := "content"

/-- Whether the name ends with the suffix, ASCII letters compared without case. -/
def endsWithFolded (name suffix : String) : Bool :=
  let n := name.toList.map Char.toLower
  let s := suffix.toList
  s.length ≤ n.length && n.drop (n.length - s.length) == s

/-- The name without its last `k` characters. -/
def dropChars (name : String) (k : Nat) : String := String.ofList (name.toList.take (name.length - k))

/-- The name of the single entry of a GZIP container with the given name. -/
def entryName : Option String → String
  | none => defaultEntryName
  | some name =>
    if endsWithFolded name ".tgz" then dropChars name 4 ++ ".tar"
    else
      let stem :=
        if endsWithFolded name ".gzip" then dropChars name 5
        else if endsWithFolded name ".gz" ∨ endsWithFolded name "-gz" then dropChars name 3
        else name
      if stem.isEmpty then defaultEntryName else stem

end ContainerProbe.Gzip
