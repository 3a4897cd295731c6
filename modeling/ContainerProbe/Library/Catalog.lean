import ContainerProbe.Library.Signature
import ContainerProbe.Definition.Decode
import ContainerProbe.Prefilter

/-!
# Catalogs

A catalog gathers the signatures of several definition documents into one pattern table and
one signature list. Equal patterns share one id, across documents; a new pattern gets the
next free id.

Adding a document is all or nothing: if any of its signatures fails to compile, the catalog
stays as it was. Format mappings of a document are applied after its signatures, in order:
a mapping to an unknown signature is skipped, and a format identifier is recorded for a
signature once.
-/

namespace ContainerProbe

/-- Signatures and patterns compiled from definition documents. -/
structure Catalog where
  /-- The pattern table: pattern `i` has id `i`. -/
  patterns : List Pattern := []
  /-- The signatures, in the order added. -/
  signatures : List Signature := []
  /-- The format identifiers of each signature that has any, in the order recorded. -/
  formats : List (Nat × List String) := []
  /-- How the library builds its prefilter. -/
  prefilter : PrefilterSettings := {}
  deriving DecidableEq

namespace Catalog

/-- Whether a signature id is taken. -/
def hasSignature (c : Catalog) (id : Nat) : Bool := c.signatures.any (·.id == id)

/-- The id a pattern will have once the patterns `pending` are added after the table, and
`pending` with the pattern added when it is new. -/
def pendingId (c : Catalog) (pending : List Pattern) (p : Pattern) : Nat × List Pattern :=
  match c.patterns.idxOf? p with
  | some i => (i, pending)
  | none =>
    match pending.idxOf? p with
    | some i => (c.patterns.length + i, pending)
    | none => (c.patterns.length + pending.length, pending ++ [p])

/-- Compiles one alternative (a conjunction of byte sequences) of a file. -/
def compileConjunction (c : Catalog) (pending : List Pattern) :
    List SequenceDef → Except Fault (List Nat × List Pattern)
  | [] => .ok ([], pending)
  | s :: rest =>
    match s.compile with
    | .error e => .error e
    | .ok p =>
      let (i, pending') := c.pendingId pending p
      match compileConjunction c pending' rest with
      | .error e => .error e
      | .ok (ids, pending'') => .ok (i :: ids, pending'')

/-- Compiles the alternatives of a file of signature `id`. -/
def compileBinary (c : Catalog) (id : Nat) (path : String) (pending : List Pattern) :
    List (List SequenceDef) → Except Fault (List (List Nat) × List Pattern)
  | [] => .ok ([], pending)
  | conj :: rest =>
    if conj.isEmpty then .error (.definition (.emptyBinary id path))
    else
      match c.compileConjunction pending conj with
      | .error e => .error e
      | .ok (ids, pending') =>
        match compileBinary c id path pending' rest with
        | .error e => .error e
        | .ok (alts, pending'') => .ok (ids :: alts, pending'')

/-- Compiles the files of signature `id`. -/
def compileFiles (c : Catalog) (id : Nat) (pending : List Pattern) :
    List FileDef → Except Fault (List DeclaredFile × List Pattern)
  | [] => .ok ([], pending)
  | f :: rest =>
    match EntryPath.parse f.path with
    | .error e => .error e
    | .ok path =>
      match c.compileBinary id f.path pending f.binary with
      | .error e => .error e
      | .ok (binary, pending') =>
        match compileFiles c id pending' rest with
        | .error e => .error e
        | .ok (files, pending'') => .ok (⟨path, f.presence, binary⟩ :: files, pending'')

/-- Compiles one signature, given the patterns pending from the document so far. -/
def compileSignature (c : Catalog) (pending : List Pattern) (d : SignatureDef) :
    Except Fault (Signature × List Pattern) :=
  if d.files.isEmpty then .error (.definition (.noFiles d.id))
  else
    match c.compileFiles d.id pending d.files with
    | .error e => .error e
    | .ok (files, pending') => .ok (⟨d.id, d.container, d.description, files⟩, pending')

/-- Compiles the signatures of a document, refusing an id already taken or met earlier in
the document. -/
def compileSignatures (c : Catalog) (seen : List Nat) (pending : List Pattern) :
    List SignatureDef → Except Fault (List Signature × List Pattern)
  | [] => .ok ([], pending)
  | d :: rest =>
    if c.hasSignature d.id ∨ d.id ∈ seen then .error (.definition (.duplicateSignature d.id))
    else
      match c.compileSignature pending d with
      | .error e => .error e
      | .ok (s, pending') =>
        match compileSignatures c (d.id :: seen) pending' rest with
        | .error e => .error e
        | .ok (ss, pending'') => .ok (s :: ss, pending'')

/-- Records a format identifier for a signature, once. -/
def addFormat (formats : List (Nat × List String)) (id : Nat) (puid : String) :
    List (Nat × List String) :=
  match formats.lookup id with
  | some puids =>
    if puids.contains puid then formats
    else formats.map fun (i, ps) => if i = id then (i, ps ++ [puid]) else (i, ps)
  | none => formats ++ [(id, [puid])]

/-- Applies the format mappings of a document, skipping unknown signatures. -/
def applyFormats (c : Catalog) (mappings : List FormatDef) : Catalog :=
  mappings.foldl (fun c m =>
    if c.hasSignature m.signatureId then { c with formats := addFormat c.formats m.signatureId m.puid }
    else c) c

/-- Adds the signatures and formats of a document, or nothing if any signature fails. -/
def add (c : Catalog) (defs : Definitions) : Except Fault Catalog :=
  match c.compileSignatures [] [] defs.signatures with
  | .error e => .error e
  | .ok (sigs, pending) =>
    .ok (applyFormats { c with patterns := c.patterns ++ pending, signatures := c.signatures ++ sigs }
      defs.formats)

/-- Adds documents one after another; a document that fails leaves the catalog as it was. -/
def addAll (c : Catalog) : List Definitions → Catalog
  | [] => c
  | d :: ds =>
    match c.add d with
    | .ok c' => c'.addAll ds
    | .error _ => c.addAll ds

/-- Reads a document and adds it. -/
def addText (c : Catalog) (t : DefinitionText) : Except Fault Catalog :=
  match t.read with
  | .error e => .error e
  | .ok defs => c.add defs

end Catalog

end ContainerProbe
