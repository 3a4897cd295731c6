import ContainerProbe.Definition.Basic
import ContainerProbe.EntryPath.Basic

/-!
# Compiled signatures

A compiled signature refers to its byte patterns by id, an index into the library's pattern
table, and to its files by their parsed entry paths.
-/

namespace ContainerProbe

/-- One file a signature declares, compiled. -/
structure DeclaredFile where
  /-- The declared entry path. -/
  path : EntryPath
  /-- Whether the file must be present. -/
  presence : Presence
  /-- Alternatives, each a conjunction of pattern ids; none means the name alone decides. -/
  binary : List (List Nat)
  deriving DecidableEq, Repr

/-- Whether reading an entry can matter for the file. -/
def DeclaredFile.hasBinary (f : DeclaredFile) : Bool := !f.binary.isEmpty

/-- A container signature ready for matching. -/
structure Signature where
  /-- The signature's id. -/
  id : Nat
  /-- The container format it applies to. -/
  container : ContainerKind
  /-- A description. -/
  description : Option String
  /-- The declared files, in the order declared. -/
  files : List DeclaredFile
  deriving DecidableEq, Repr

/-- Whether matching the signature can require reading any entry. -/
def Signature.hasBinary (s : Signature) : Bool := s.files.any DeclaredFile.hasBinary

end ContainerProbe
