import ContainerProbe.Verdict.Candidate
import ContainerProbe.Pattern.Evaluate
import ContainerProbe.Prefilter

/-!
# Shared entry content

One open entry is shown to every candidate that needs it through a single `OpenEntry`:
the entry's byte source, the verdict of every pattern already run on it (so a pattern shared
by several candidates runs once per entry) and, once a prefiltered pattern asks, the scanned
bytes that give its start offsets.

`Candidate.noteContent` feeds an entry to a candidate: each declared file that wants the
entry is checked against its binary signatures (a disjunction of conjunctions of pattern
ids), and the outcome moves the file's counters or settles the candidate.
-/

namespace ContainerProbe

/-- One open entry, shared by the candidates that need it. -/
structure OpenEntry (σ : Type) where
  /-- The entry's name, for reports. -/
  entry : String
  /-- The entry's bytes. -/
  source : σ
  /-- The verdicts of the patterns already run, by pattern id. -/
  results : List (Nat × Bool) := []
  /-- The bytes the prefilter scanned, once a prefiltered pattern asked for them. -/
  scanned : Option ByteArray := none
  /-- Whether floating patterns start only where the prefilter found their literal. -/
  usePrefilter : Bool := true
  /-- How many distinct patterns were run. -/
  evaluated : Nat := 0

namespace OpenEntry

variable {σ : Type} [ByteAccess σ]

/-- A fresh view of an entry. -/
def make (entry : String) (source : σ) (usePrefilter : Bool) : OpenEntry σ :=
  { entry, source, usePrefilter }

/-- The start offsets the prefilter gives a pattern, reading the entry on first use; `none`
when the pattern runs unfiltered. -/
def startsFor (lib : Library) (id : Nat) (c : OpenEntry σ) :
    Except Fault (Option (List Nat)) × OpenEntry σ :=
  match lib.prefilter with
  | some pf =>
    if c.usePrefilter && pf.covers id then
      match c.scanned with
      | some data => (.ok (pf.offsets id data), c)
      | none =>
        match ByteAccess.contents c.source with
        | (.ok data, s) => (.ok (pf.offsets id data), { c with source := s, scanned := some data })
        | (.error e, s) => (.error (.entryRead c.entry e.message), { c with source := s })
    else (.ok none, c)
  | none => (.ok none, c)

/-- Whether a pattern of the library matches the entry, remembered per pattern id. -/
def evaluate (lib : Library) (id : Nat) (c : OpenEntry σ) : Except Fault Bool × OpenEntry σ :=
  match c.results.lookup id with
  | some r => (.ok r, c)
  | none =>
    match lib.pattern? id with
    | none => (.error (.definition (.unknownPattern id)), c)
    | some p =>
      match startsFor lib id c with
      | (.error e, c') => (.error e, c')
      | (.ok starts, c') =>
        match p.evaluate starts c'.source with
        | (.error e, s) => (.error (.entryRead c'.entry e.message), { c' with source := s })
        | (.ok r, s) =>
          (.ok r, { c' with source := s, results := (id, r) :: c'.results,
                            evaluated := c'.evaluated + 1 })

/-- Whether every pattern of a conjunction matches, stopping at the first that does not. -/
def allMatch (lib : Library) : List Nat → OpenEntry σ → Except Fault Bool × OpenEntry σ
  | [], c => (.ok true, c)
  | id :: rest, c =>
    match c.evaluate lib id with
    | (.ok true, c') => allMatch lib rest c'
    | other => other

/-- Whether some conjunction matches, stopping at the first that does. -/
def anyMatch (lib : Library) : List (List Nat) → OpenEntry σ → Except Fault Bool × OpenEntry σ
  | [], c => (.ok false, c)
  | conj :: rest, c =>
    match allMatch lib conj c with
    | (.ok false, c') => anyMatch lib rest c'
    | other => other

end OpenEntry

/-- How feeding an entry to a candidate's files ended. -/
inductive ContentOutcome where
  /-- Every file that wanted the entry took its verdict. -/
  | settled
  /-- A file's verdict rejects the candidate. -/
  | rejects (reason : Rejection)
  /-- The entry could not be read. -/
  | fails (fault : Fault)

namespace Candidate

variable {σ : Type} [ByteAccess σ]

/-- Feeds an entry to the files, in order. A required file counts a match; a required file
with a non-glob path that does not match rejects the candidate, and so does an absent file
that matches. The files after a settling file are left as they were. -/
def noteContentFiles (lib : Library) (name : String) :
    List FileTally → OpenEntry σ → List FileTally × ContentOutcome × OpenEntry σ
  | [], c => ([], .settled, c)
  | f :: rest, c =>
    if !f.wantsEntry name then
      let (rest', o, c') := noteContentFiles lib name rest c
      (f :: rest', o, c')
    else
      match c.anyMatch lib f.requirement.binary, f.requirement.presence with
      | (.error e, c'), _ => (f :: rest, .fails e, c')
      | (.ok true, c'), .required =>
        let (rest', o, c'') := noteContentFiles lib name rest c'
        ({ f with passed := f.passed + 1 } :: rest', o, c'')
      | (.ok false, c'), .required =>
        if f.bound.isWildcard then
          let (rest', o, c'') := noteContentFiles lib name rest c'
          (f :: rest', o, c'')
        else (f :: rest, .rejects .binaryMismatch, c')
      | (.ok true, c'), .absent => (f :: rest, .rejects .absentEntryPresent, c')
      | (.ok false, c'), .absent =>
        let (rest', o, c'') := noteContentFiles lib name rest c'
        (f :: rest', o, c'')

/-- Evaluates the patterns declared for an entry against its content. A read failure is
recorded as by `noteUnreadable` and returned. -/
def noteContent (lib : Library) (name : String) (c : Candidate) (content : OpenEntry σ) :
    Except Fault Unit × Candidate × OpenEntry σ :=
  if !c.isLive then (.ok (), c, content)
  else
    let (files, outcome, content') := noteContentFiles lib name c.files content
    let c' := { c with files }
    match outcome with
    | .settled => (.ok (), c', content')
    | .rejects r => (.ok (), c'.reject r, content')
    | .fails e => (.error e, c'.noteUnreadable name, content')

end Candidate

end ContainerProbe
