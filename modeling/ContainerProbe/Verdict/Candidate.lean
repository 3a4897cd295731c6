import ContainerProbe.Library.Basic

/-!
# Candidate states

While a container is identified, each signature declared for its format is a candidate with
a state: for every declared file, the entry path resolved for the container, how many
entries matched the path (`seen`), how many of those satisfied the file's binary signatures
(`passed`), and whether one could not be read. The candidate's phase moves forward only:

`pending → partiallySatisfied → matched | rejected r`, possibly skipping the middle phase; a terminal phase
never changes again.

A file whose path is a glob is existential: one satisfying entry settles it. A required file
with any other path must be satisfied by every matching entry, and a file declared absent
by none.
-/

namespace ContainerProbe

/-- Why a candidate was rejected. -/
inductive Rejection where
  /-- A required file never appeared. -/
  | missingEntry
  /-- A required file's content did not match. -/
  | binaryMismatch
  /-- A file declared absent was present (and matched, when it has patterns). -/
  | absentEntryPresent
  /-- An entry the candidate needed could not be read. -/
  | unreadable
  deriving DecidableEq, Repr

/-- The progress of a candidate. -/
inductive Phase where
  /-- No declared file has been seen yet. -/
  | pending
  /-- Some declared files were seen; the verdict is open. -/
  | partiallySatisfied
  /-- The candidate matches. -/
  | matched
  /-- The candidate does not match. -/
  | rejected (reason : Rejection)
  deriving DecidableEq, Repr

/-- Whether a phase is a verdict. -/
def Phase.isTerminal : Phase → Bool
  | .matched | .rejected _ => true
  | _ => false

/-- What is known of one declared file. -/
structure FileTally where
  /-- The declared file. -/
  requirement : DeclaredFile
  /-- Its path, resolved for the container. -/
  bound : ResolvedPath
  /-- Entries whose name matched the path. -/
  seen : Nat := 0
  /-- Matching entries whose content satisfied the file. -/
  passed : Nat := 0
  /-- Whether a matching entry could not be read. -/
  unreadable : Bool := false
  deriving DecidableEq, Repr

namespace FileTally

/-- Whether the content of further matching entries can still change the verdict: the file
has binary signatures, and it is not a glob already satisfied by an entry. -/
def awaitsContent (f : FileTally) : Bool :=
  f.requirement.hasBinary &&
    match f.requirement.presence with
    | .required => if f.bound.isWildcard then f.passed == 0 else true
    | .absent => true

/-- Whether an entry name concerns the file and its content is still wanted. -/
def wantsEntry (f : FileTally) (name : String) : Bool := f.bound.accepts name && f.awaitsContent

/-- Whether a required file with binary signatures is satisfied: by one entry for a glob, by
every matching entry (at least one) otherwise. -/
def satisfied (f : FileTally) : Bool :=
  if f.bound.isWildcard then f.passed > 0 else f.seen > 0 && f.passed == f.seen

end FileTally

/-- The state of one candidate signature against one container. -/
structure Candidate where
  /-- The signature. -/
  signature : Signature
  /-- The state of each declared file, in the order declared. -/
  files : List FileTally
  /-- The phase. -/
  phase : Phase
  deriving DecidableEq, Repr

namespace Candidate

/-- The fresh state of a signature for a container with the given name. -/
def start (s : Signature) (containerName : Option String) : Candidate :=
  ⟨s, s.files.map fun f => { requirement := f, bound := f.path.bind containerName }, .pending⟩

/-- Whether the candidate has no verdict yet. -/
def isLive (c : Candidate) : Bool := !c.phase.isTerminal

/-- The candidate rejected for a reason, unless it already has a verdict. -/
def reject (c : Candidate) (r : Rejection) : Candidate :=
  if c.isLive then { c with phase := .rejected r } else c

/-- Records the name of an entry in the files it matches, in order, and tells whether the
entry's content is needed. A file declared absent without binary signatures rejects the
candidate as soon as an entry matches it. -/
def noteNameFiles (name : String) :
    List FileTally → List FileTally × Bool × Bool
  | [] => ([], false, false)
  | f :: rest =>
    if f.bound.accepts name then
      let f' := { f with seen := f.seen + 1 }
      if f.requirement.presence = .absent ∧ !f.requirement.hasBinary then (f' :: rest, false, true)
      else
        let (rest', needs, stop) := noteNameFiles name rest
        (f' :: rest', f.requirement.hasBinary || needs, stop)
    else
      let (rest', needs, stop) := noteNameFiles name rest
      (f :: rest', needs, stop)

/-- Records an entry name; returns whether the entry's content is needed. -/
def noteName (c : Candidate) (name : String) : Candidate × Bool :=
  if !c.isLive then (c, false)
  else
    let (files, needs, stop) := noteNameFiles name c.files
    if stop then ({ c with files, phase := .rejected .absentEntryPresent }, false)
    else
      let phase := if c.phase = .pending ∧ files.any (·.seen > 0) then .partiallySatisfied else c.phase
      ({ c with files, phase }, needs)

/-- Settles what the names alone decide; returns whether binary work remains. -/
def settleNames (c : Candidate) : Candidate × Bool :=
  if !c.isLive then (c, false)
  else if c.files.any (fun f => f.requirement.presence = .required ∧ f.seen = 0) then
    ({ c with phase := .rejected .missingEntry }, false)
  else if c.files.any (fun f => f.seen > 0 ∧ f.requirement.hasBinary) then (c, true)
  else ({ c with phase := .matched }, false)

/-- Whether the content of an entry with this name is still needed. -/
def needsContent (c : Candidate) (name : String) : Bool :=
  c.isLive && c.files.any (·.wantsEntry name)

/-- Records that an entry the candidate needed could not be read: every file that wanted it
notes the failure, and a file that needs every matching entry (a non-glob required path, or
an absent path) rejects the candidate. -/
def noteUnreadable (c : Candidate) (name : String) : Candidate :=
  if !c.isLive then c
  else
    let wanted := c.files.map fun f => f.wantsEntry name
    let files := (c.files.zip wanted).map fun (f, w) => if w then { f with unreadable := true } else f
    let fatal := (c.files.zip wanted).any fun (f, w) =>
      w && (f.requirement.presence = .absent || !f.bound.isWildcard)
    { c with files, phase := if fatal then .rejected .unreadable else c.phase }

/-- The final verdict once every needed entry was evaluated. -/
def conclude (c : Candidate) : Candidate × Phase :=
  if !c.isLive then (c, c.phase)
  else
    let unsettled := c.files.find? fun f =>
      f.requirement.presence = .required ∧ f.requirement.hasBinary ∧ !f.satisfied
    let phase : Phase :=
      match unsettled with
      | some f => .rejected (if f.unreadable then .unreadable else .binaryMismatch)
      | none =>
        if c.files.any (fun f => f.requirement.presence = .required ∧ f.seen = 0) then
          .rejected .missingEntry
        else .matched
    ({ c with phase }, phase)

end Candidate

end ContainerProbe
