import ContainerProbe.Pattern.Parser
import ContainerProbe.Container.Kind

/-!
# Signature definitions

A definition document lists container signatures and the format identifiers (puids) they
stand for. A signature declares the files a container must (or must not) hold; a file may
carry binary signatures, alternatives of which any one may satisfy it, each a conjunction of
byte sequences that must all match one entry.

A byte sequence is an expression, optionally placed relative to the start (`bof`) or the end
(`eof`) of the entry: `SequenceDef.compile` turns `bof` with offsets `m ..= M` into the
pattern placed `m` to `M` bytes after the start, and `eof` the same distance before the end.
Offsets need such a reference, and the maximum offset defaults to the minimum.
-/

namespace ContainerProbe

/-- Whether a declared file must be present or must not be. -/
inductive Presence where
  /-- The file must be present (and satisfy its binary signatures). -/
  | required
  /-- The file must not be present (or no copy may satisfy its binary signatures). -/
  | absent
  deriving DecidableEq, Repr

/-- Where a byte sequence's offsets are measured from. -/
inductive Reference where
  /-- From the first byte of the entry. -/
  | bof
  /-- From the last byte of the entry. -/
  | eof
  /-- Anywhere: no offsets. -/
  | variable
  deriving DecidableEq, Repr

/-- A byte sequence as declared. -/
structure SequenceDef where
  /-- The pattern expression. -/
  sequence : String
  /-- Where its offsets are measured from. -/
  reference : Option Reference := none
  /-- The least offset. -/
  minOffset : Option Nat := none
  /-- The greatest offset. -/
  maxOffset : Option Nat := none
  deriving DecidableEq, Repr

/-- A file a signature declares. -/
structure FileDef where
  /-- The declared entry path, as written. -/
  path : String
  /-- Whether the file must be present. -/
  presence : Presence := .required
  /-- Alternatives, each a conjunction of byte sequences. -/
  binary : List (List SequenceDef) := []
  deriving DecidableEq, Repr

/-- A container signature as declared. -/
structure SignatureDef where
  /-- The signature's id. -/
  id : Nat
  /-- The container format it applies to. -/
  container : ContainerKind
  /-- A description. -/
  description : Option String := none
  /-- The declared files. -/
  files : List FileDef := []
  deriving DecidableEq, Repr

/-- A format identifier for a signature. -/
structure FormatDef where
  /-- The signature it maps. -/
  signatureId : Nat
  /-- The format identifier. -/
  puid : String
  deriving DecidableEq, Repr

/-- A definition document. -/
structure Definitions where
  /-- The signatures, in the order declared. -/
  signatures : List SignatureDef := []
  /-- The format mappings, in the order declared. -/
  formats : List FormatDef := []
  deriving DecidableEq, Repr

namespace SequenceDef

/-- The pattern of a byte sequence, placed by its reference window. -/
def compile (s : SequenceDef) : Except Fault Pattern :=
  match Pattern.compile s.sequence with
  | .error e => .error e
  | .ok p =>
    let hasOffsets := s.minOffset.isSome || s.maxOffset.isSome
    let placed (eof : Bool) : Except Fault Pattern :=
      let lo := s.minOffset.getD 0
      let hi := s.maxOffset.getD lo
      if hi < lo then .error (.definition (.maxBelowMin hi lo s.sequence))
      else if eof then .ok (p.placeBeforeEnd lo hi) else .ok (p.placeAfterStart lo hi)
    match s.reference with
    | some .bof => placed false
    | some .eof => placed true
    | _ => if hasOffsets then .error (.definition (.offsetsNeedReference s.sequence)) else .ok p

end SequenceDef

end ContainerProbe
