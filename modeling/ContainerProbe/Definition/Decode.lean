import ContainerProbe.Definition.Basic
import ContainerProbe.Document.Json
import ContainerProbe.Document.Yaml

/-!
# Decoding definition documents

How a document value becomes `Definitions`. The schema decides what each value must be:

* a record is read from a mapping, its keys naming fields (unknown keys are ignored, a field
  named twice is refused), or from a sequence, its items giving the fields in order; the
  empty YAML value is the empty mapping; a byte sequence given as a record is read from a
  mapping only;
* a text field takes a JSON string or any YAML scalar's text;
* a number field takes an integer in its range (a YAML plain scalar read as an integer);
* an optional field is absent, or null, or a value;
* a named choice (container, presence, reference) takes one of its names.

A binary signature is either one byte sequence or a list of them, and a byte sequence either
an expression or a record. These two are told apart by trying each reading in turn on the
value with its YAML scalars typed (`Doc.resolve`), the first that succeeds being taken.
-/

namespace ContainerProbe

/-- A decoding failure, with a short description. -/
abbrev Decoding (α : Type) := Except String α

namespace Decode

/-- A text: a JSON string or a YAML scalar's text. -/
def text : Doc → Decoding String
  | .text s => .ok s
  | .plain s => .ok s
  | _ => .error "expected a string"

/-- An integer below `bound`, not negative. -/
def natBelow (bound : Nat) : Doc → Decoding Nat
  | .int i => if 0 ≤ i ∧ i < bound then .ok i.toNat else .error "number out of range"
  | .plain s =>
    match Doc.intOfText? s with
    | some i => if 0 ≤ i ∧ i < bound then .ok i.toNat else .error "number out of range"
    | none => .error "expected an integer"
  | _ => .error "expected an integer"

/-- A signature id: an unsigned 32-bit integer. -/
def id : Doc → Decoding Nat := natBelow (Nat.pow 2 32)

/-- An offset: a size. -/
def size : Doc → Decoding Nat := natBelow (Nat.pow 2 64)

/-- An optional value: absent when null. -/
def optional {α : Type} (dec : Doc → Decoding α) : Doc → Decoding (Option α)
  | .null => .ok none
  | .plain s => if Doc.isNullText s then .ok none else (dec (.plain s)).map some
  | d => (dec d).map some

/-- One of several names. -/
def named {α : Type} (table : List (String × α)) (d : Doc) : Decoding α :=
  match text d with
  | .error e => .error e
  | .ok s =>
    match table.lookup s with
    | some a => .ok a
    | none => .error ("unknown variant " ++ s)

/-- A sequence of values. -/
def list {α : Type} (dec : Doc → Decoding α) : Doc → Decoding (List α)
  | .seq items => items.mapM dec
  | .plain "" => .ok []
  | _ => .error "expected a sequence"

/-- The field a key names: by its text, or by its position for an integer key. -/
def fieldIndex (fields : List String) : Doc → Option Nat
  | .text s | .plain s => fields.idxOf? s
  | .int i => if 0 ≤ i ∧ i.toNat < fields.length then some i.toNat else none
  | _ => none

/-- The values of a record's fields, in the order of `fields`: from a mapping by key, or
from a sequence by position. -/
def slots (fields : List String) : Doc → Decoding (List (Option Doc))
  | .map entries =>
    entries.foldlM (fun acc (k, v) =>
      match fieldIndex fields k with
      | none => .ok acc
      | some i =>
        match acc[i]? with
        | some (some _) => .error ("duplicate field " ++ fields.getD i "")
        | _ => .ok (acc.set i (some v))) (fields.map fun _ => none)
  | .seq items =>
    if items.length > fields.length then .error "invalid length"
    else .ok ((items.map some) ++ (List.replicate (fields.length - items.length) none))
  | .plain "" => .ok (fields.map fun _ => none)
  | _ => .error "expected a mapping"

/-- A required field. -/
def required {α : Type} (dec : Doc → Decoding α) (name : String) : Option Doc → Decoding α
  | some d => dec d
  | none => .error ("missing field " ++ name)

/-- A field with a default. -/
def orElse {α : Type} (dec : Doc → Decoding α) (default : α) : Option Doc → Decoding α
  | some d => dec d
  | none => .ok default

/-- The container format names. -/
def containers : List (String × ContainerKind) :=
  [("ole2", .ole2), ("OLE2", .ole2), ("cfb", .ole2), ("zip", .zip), ("ZIP", .zip),
   ("gzip", .gzip), ("GZIP", .gzip), ("gz", .gzip)]

/-- The presence names. -/
def presences : List (String × Presence) :=
  [("required", .required), ("absent", .absent), ("forbidden", .absent)]

/-- The reference names. -/
def references : List (String × Reference) :=
  [("bof", .bof), ("BOFoffset", .bof), ("start", .bof), ("eof", .eof), ("EOFoffset", .eof),
   ("end", .eof), ("variable", .variable), ("any", .variable)]

/-- A byte sequence read as a record, which only a mapping gives. -/
def sequenceRecord (d : Doc) : Decoding SequenceDef := do
  let entries ← match d with
    | .map entries => pure entries
    | _ => .error "expected a mapping"
  let s ← slots ["sequence", "reference", "min_offset", "max_offset"] (.map entries)
  let sequence ← required text "sequence" (s.getD 0 none)
  let reference ← orElse (optional (named references)) none (s.getD 1 none)
  let minOffset ← orElse (optional size) none (s.getD 2 none)
  let maxOffset ← orElse (optional size) none (s.getD 3 none)
  pure { sequence, reference, minOffset, maxOffset }

/-- A byte sequence from a typed value: an expression, or else a record. -/
def sequence : Doc → Decoding SequenceDef
  | .text s => .ok { sequence := s }
  | d => sequenceRecord d

/-- A binary signature: one byte sequence, or else a list of them. -/
def binary (d : Doc) : Decoding (List SequenceDef) :=
  let typed := d.resolve
  match sequence typed with
  | .ok s => .ok [s]
  | .error _ =>
    match typed with
    | .seq items => items.mapM sequence
    | _ => .error "no accepted shape fits the value"

/-- A declared file. -/
def file (d : Doc) : Decoding FileDef := do
  let s ← slots ["path", "presence", "binary_signatures"] d
  let path ← required text "path" (s.getD 0 none)
  let presence ← orElse (named presences) .required (s.getD 1 none)
  let binary ← orElse (list binary) [] (s.getD 2 none)
  pure { path, presence, binary }

/-- A declared signature. -/
def signature (d : Doc) : Decoding SignatureDef := do
  let s ← slots ["id", "container", "description", "files"] d
  let id ← required id "id" (s.getD 0 none)
  let container ← required (named containers) "container" (s.getD 1 none)
  let description ← orElse (optional text) none (s.getD 2 none)
  let files ← orElse (list file) [] (s.getD 3 none)
  pure { id, container, description, files }

/-- A format mapping. -/
def format (d : Doc) : Decoding FormatDef := do
  let s ← slots ["signature_id", "puid"] d
  let signatureId ← required id "signature_id" (s.getD 0 none)
  let puid ← required text "puid" (s.getD 1 none)
  pure { signatureId, puid }

/-- A whole definition document. -/
def definitions (d : Doc) : Decoding Definitions := do
  let s ← slots ["signatures", "formats"] d
  let signatures ← orElse (list signature) [] (s.getD 0 none)
  let formats ← orElse (list format) [] (s.getD 1 none)
  pure { signatures, formats }

end Decode

/-- A definition document as it arrives. -/
inductive DefinitionText where
  /-- YAML text. -/
  | yaml (text : String)
  /-- JSON text. -/
  | json (text : String)
  /-- A JSON value already read. -/
  | value (doc : Doc)

/-- The definitions of a document, or the fault of its text or shape. -/
def DefinitionText.read : DefinitionText → Except Fault Definitions
  | .yaml t =>
    match YamlText.parse t with
    | .error e => .error (.yaml e)
    | .ok d => (Decode.definitions d).mapError Fault.yaml
  | .json t =>
    match JsonText.parse t with
    | .error e => .error (.json e)
    | .ok d => (Decode.definitions d).mapError Fault.json
  | .value d => (Decode.definitions d).mapError Fault.json

end ContainerProbe
