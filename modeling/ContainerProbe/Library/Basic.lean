import ContainerProbe.Library.Catalog

/-!
# Signature libraries

A library is a finished catalog: its signatures, its pattern table, the format identifiers
of each signature, and the prefilter over its patterns. It answers which signatures apply to
a container format (in ascending id order) and which entry paths they declare (distinct and
sorted).
-/

namespace ContainerProbe

/-- An immutable set of compiled signatures. -/
structure Library where
  /-- The signatures, in definition order. -/
  signatures : List Signature
  /-- The pattern table. -/
  patterns : List Pattern
  /-- The format identifiers of each signature that has any. -/
  formats : List (Nat × List String)
  /-- The prefilter over the pattern table, if one was built. -/
  prefilter : Option Prefilter

namespace Library

/-- The library of a catalog. -/
def ofCatalog (c : Catalog) : Library :=
  ⟨c.signatures, c.patterns, c.formats, Prefilter.build c.patterns c.prefilter⟩

/-- The number of signatures. -/
def size (lib : Library) : Nat := lib.signatures.length

/-- The signatures declared for a container format, in ascending id order. -/
def candidates (lib : Library) (kind : ContainerKind) : List Signature :=
  (lib.signatures.filter (·.container = kind)).mergeSort fun a b => a.id ≤ b.id

/-- Every distinct path declared for a container format, sorted. -/
def entryPathsFor (lib : Library) (kind : ContainerKind) : List String :=
  let sources := (lib.signatures.filter (·.container = kind)).flatMap fun s =>
    s.files.map (·.path.source)
  sources.eraseDups.mergeSort fun a b => decide (a ≤ b)

/-- The format identifiers mapped to a signature. -/
def puids (lib : Library) (id : Nat) : List String := (lib.formats.lookup id).getD []

/-- The pattern with an id. -/
def pattern? (lib : Library) (id : Nat) : Option Pattern := lib.patterns[id]?

end Library

end ContainerProbe
