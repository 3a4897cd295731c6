/-!
# Container kinds

The container formats signatures are declared against, and how each is recognised from the
first bytes of a file.
-/

namespace ContainerProbe

/-- A container format. -/
inductive ContainerKind where
  /-- A compound document (structured storage). -/
  | ole2
  /-- A ZIP archive. -/
  | zip
  /-- A GZIP stream. -/
  | gzip
  deriving DecidableEq, Repr

namespace ContainerKind

/-- The lower-case name of the format. -/
def name : ContainerKind → String
  | .ole2 => "ole2"
  | .zip => "zip"
  | .gzip => "gzip"

/-- Every format, in the order of their names' ranks. -/
def all : List ContainerKind := [.ole2, .zip, .gzip]

/-- Whether the bytes start with the given prefix. -/
def startsWith (header : ByteArray) (pre : List UInt8) : Bool :=
  pre.length ≤ header.size && (header.toList.take pre.length) == pre

/-- The format a file's first bytes announce: the compound-document signature, a ZIP local
header or end record, or the GZIP magic. -/
def sniff (header : ByteArray) : Option ContainerKind :=
  if startsWith header [0xD0, 0xCF, 0x11, 0xE0, 0xA1, 0xB1, 0x1A, 0xE1] then some .ole2
  else if startsWith header [0x50, 0x4B, 0x03, 0x04] ∨ startsWith header [0x50, 0x4B, 0x05, 0x06]
    then some .zip
  else if startsWith header [0x1F, 0x8B] then some .gzip
  else none

end ContainerKind

end ContainerProbe
