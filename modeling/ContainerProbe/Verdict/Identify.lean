import ContainerProbe.Verdict.Content
import ContainerProbe.Container.Basic

/-!
# Identifying a container

Identification runs in two passes over the container's entries.

1. **Names.** Every entry name is shown to every candidate signature of the container's
   format; each candidate says whether it needs the entry's content. The name pass then
   settles every candidate that names alone decide (a missing required file, or no binary
   work left).
2. **Content.** Each entry some candidate still needs is opened once and shown, through one
   shared `OpenEntry`, to those candidates in order. An entry that cannot be opened or
   read leaves a warning naming the candidates it concerned and those it rejected.

Last, every candidate gives its verdict; the matched ones, in ascending id, and their format
identifiers (each once, in order) are the answer.
-/

namespace ContainerProbe

/-- Match-time settings. -/
structure ScanSettings where
  /-- How many bytes of each entry the matcher may look at; `none` for all of them. -/
  scanLimit : Option Nat := none
  /-- Whether floating patterns start only where the prefilter found their literal. -/
  usePrefilter : Bool := true
  /-- Whether the time allowed for identification is already spent when it starts. -/
  expired : Bool := false

/-- An entry that could not be evaluated. -/
structure EntryFailure where
  /-- The entry's name. -/
  entry : String
  /-- What went wrong. -/
  fault : Fault
  /-- The candidates that needed the entry. -/
  affected : List Nat
  /-- Those among them that the failure rejected. -/
  rejected : List Nat

/-- Counters of the work done. -/
structure PassStats where
  /-- Entries listed by the container. -/
  entriesSeen : Nat := 0
  /-- Entries opened for their content. -/
  entriesOpened : Nat := 0
  /-- Candidate signatures of the container's format. -/
  candidates : Nat := 0
  /-- Candidates settled as rejected by the name pass. -/
  prunedByName : Nat := 0
  /-- Times a candidate was shown an entry's content. -/
  candidatesEvaluated : Nat := 0
  /-- Distinct patterns run, summed over entries. -/
  patternsEvaluated : Nat := 0
  /-- Bytes read from entries. -/
  bytesRead : Nat := 0

/-- The outcome of identifying a container. -/
structure Identification where
  /-- The container's format. -/
  kind : ContainerKind
  /-- The matched signature ids, ascending. -/
  matched : List Nat
  /-- The format identifiers of the matched signatures, each once. -/
  puids : List String
  /-- The entries that could not be evaluated. -/
  warnings : List EntryFailure
  /-- The counters. -/
  stats : PassStats

namespace Identify

/-! ## §1 The name pass -/

/-- Shows one entry name to every candidate; returns the candidates and the positions of
those that need the entry's content. -/
def noteName (name : String) (cs : List Candidate) : List Candidate × List Nat :=
  let rs := cs.map (·.noteName name)
  (rs.map Prod.fst, (rs.zipIdx.filter (·.1.2)).map Prod.snd)

/-- Shows every entry name to every candidate, in entry order; returns the candidates and,
per entry, the positions of the candidates that need it. -/
def namePass : List Entry → List Candidate → List Candidate × List (List Nat)
  | [], cs => (cs, [])
  | e :: es, cs =>
    let (cs', needers) := noteName e.name cs
    let (cs'', rest) := namePass es cs'
    (cs'', needers :: rest)

/-- Whether a candidate was rejected. -/
def isRejected (c : Candidate) : Bool :=
  match c.phase with
  | .rejected _ => true
  | _ => false

/-! ## §2 The content pass -/

/-- Shows the content of an entry to the candidates at the given positions, in order;
returns the candidates, the shared content after the last of them, how many candidates were
shown the entry and the first failure. -/
def showContent {σ : Type} [ByteAccess σ] (lib : Library) (name : String) :
    List Nat → List Candidate → OpenEntry σ → Nat → Option Fault →
      List Candidate × OpenEntry σ × Nat × Option Fault
  | [], cs, content, shown, first => (cs, content, shown, first)
  | i :: is, cs, content, shown, first =>
    match cs[i]? with
    | none => showContent lib name is cs content (shown + 1) first
    | some c =>
      let (r, c', content') := c.noteContent lib name content
      let first' := match first, r with
        | some f, _ => some f
        | none, .error f => some f
        | none, .ok () => none
      showContent lib name is (cs.set i c') content' (shown + 1) first'

/-- The candidates after an entry could not be opened: each one that needed it notes the
failure. -/
def markUnreadable (name : String) (live : List Nat) (cs : List Candidate) : List Candidate :=
  live.foldl (fun cs i => cs.modify i (·.noteUnreadable name)) cs

/-- The ids of the candidates at the given positions. -/
def idsAt (cs : List Candidate) (positions : List Nat) : List Nat :=
  positions.filterMap fun i => cs[i]?.map (·.signature.id)

/-- The warning for an entry that failed, from the candidates after the failure. -/
def warning (name : String) (fault : Fault) (live : List Nat) (cs : List Candidate) :
    EntryFailure :=
  { entry := name, fault, affected := idsAt cs live,
    rejected := idsAt cs (live.filter fun i => (cs[i]?.map (·.phase)) = some (.rejected .unreadable)) }

/-- What the content pass carries from entry to entry. -/
structure Progress where
  /-- The candidates. -/
  candidates : List Candidate
  /-- The warnings so far, latest first. -/
  warnings : List EntryFailure := []
  /-- The counters. -/
  stats : PassStats

/-- Evaluates one entry for the candidates that still need it. -/
def examineEntry (lib : Library) (config : ScanSettings) (e : Entry) (needers : List Nat)
    (p : Progress) : Except Fault Progress :=
  if needers.isEmpty then .ok p
  else if config.expired then .error .timeout
  else
    let live := needers.filter fun i => (p.candidates[i]?.map (·.needsContent e.name)) = some true
    if live.isEmpty then .ok p
    else
      let stats := { p.stats with entriesOpened := p.stats.entriesOpened + 1 }
      match e.content with
      | .error failure =>
        let fault := failure.fault e.name
        let cs := markUnreadable e.name live p.candidates
        .ok { candidates := cs, warnings := warning e.name fault live cs :: p.warnings, stats }
      | .ok feed =>
        let content := OpenEntry.make e.name (Stream.make feed config.scanLimit)
          config.usePrefilter
        let (cs, content', shown, first) := showContent lib e.name live p.candidates content 0 none
        let stats := { stats with
          candidatesEvaluated := stats.candidatesEvaluated + shown
          patternsEvaluated := stats.patternsEvaluated + content'.evaluated
          bytesRead := stats.bytesRead + content'.source.pulled }
        let warnings := match first with
          | some fault => warning e.name fault live cs :: p.warnings
          | none => p.warnings
        .ok { candidates := cs, warnings, stats }

/-- The content pass over every entry, in order. -/
def contentPass (lib : Library) (config : ScanSettings) :
    List Entry → List (List Nat) → Progress → Except Fault Progress
  | e :: es, n :: ns, p => (examineEntry lib config e n p).bind (contentPass lib config es ns)
  | _, _, p => .ok p

/-- Each matched id's format identifiers, each identifier once, in order. -/
def puidsOf (lib : Library) (ids : List Nat) : List String :=
  ids.foldl (fun acc id => (lib.puids id).foldl (fun acc p => if acc.contains p then acc else acc ++ [p]) acc) []

end Identify

open Identify in
/-- Identifies a container against a library. -/
def identify (lib : Library) (config : ScanSettings) (c : Container) : Except Fault Identification :=
  let start := (lib.candidates c.kind).map (Candidate.start · c.name)
  let (named, needers) := namePass c.entries start
  let settled := named.map fun s => (s.settleNames).1
  let stats : PassStats :=
    { entriesSeen := c.entries.length, candidates := start.length,
      prunedByName := settled.countP isRejected }
  (contentPass lib config c.entries needers { candidates := settled, stats }).map fun p =>
    let finished := p.candidates.map fun s => (s.conclude).2
    let matched := ((p.candidates.zip finished).filter (·.2 = .matched)).map (·.1.signature.id)
    { kind := c.kind, matched, puids := puidsOf lib matched, warnings := p.warnings.reverse,
      stats := p.stats }

end ContainerProbe
