import ContainerProbe.EntryPath.Glob

/-!
# An engine for the expressions globs compile to

Declared globs compile to anchored regular expressions (`Glob.toRegex`), which a regex engine
runs against entry names. This module is an engine for those expressions. It reads the text
between `^` and `$` back into the constructs the expression is made of, `GlobToken`s, and
matches a name against them by carrying the set of positions in the name where a partial match
may stand, construct after construct. Text that no glob compiles to reads as no expression and
matches nothing.

What proofs about declared paths need of an engine is stated apart, as the documented meaning of
each construct (`Regex.Documented`); this engine is one that has it.
-/

namespace ContainerProbe

namespace Regex

/-- Reads the text of an expression after its `^` back into constructs, up to the `$` that ends
it. Inside a group `(?:`, the state holds the alternatives read so far and the one being read;
in an alternative, a meta character stands behind a backslash. -/
def readFrom : Option (List (List Char) × List Char) → List Char → Option (List GlobToken)
  | none, [] => none
  | none, '$' :: rest => if rest = [] then some [] else none
  | none, '\\' :: c :: rest => (readFrom none rest).map (.char c :: ·)
  | none, '.' :: '*' :: rest => (readFrom none rest).map (.anyRun :: ·)
  | none, '(' :: '?' :: ':' :: '.' :: '*' :: '/' :: ')' :: '?' :: rest =>
    (readFrom none rest).map (.dirPrefix :: ·)
  | none, '(' :: '?' :: ':' :: rest => readFrom (some ([], [])) rest
  | none, '[' :: '^' :: '/' :: ']' :: '*' :: rest => (readFrom none rest).map (.segmentRun :: ·)
  | none, '[' :: '^' :: '/' :: ']' :: rest => (readFrom none rest).map (.oneChar :: ·)
  | none, c :: rest => if isMeta c then none else (readFrom none rest).map (.char c :: ·)
  | some _, [] => none
  | some (done, cur), ')' :: rest => (readFrom none rest).map (.choice (done ++ [cur]) :: ·)
  | some (done, cur), '|' :: rest => readFrom (some (done ++ [cur], [])) rest
  | some (done, cur), '\\' :: c :: rest => readFrom (some (done, cur ++ [c])) rest
  | some (done, cur), c :: rest =>
    if isMeta c then none else readFrom (some (done, cur ++ [c])) rest

/-- The `$` that ends an expression reads as no more constructs. -/
theorem readFrom_end : readFrom none ['$'] = some [] := by
  -- through the equation lemmas, so that they are made once, here
  simp [readFrom]

/-- The positions after the longest run from `p` of characters that `keep` accepts, each
prefix of the run giving one position. -/
def runFrom (name : Array Char) (keep : Char → Bool) (p : Nat) : List Nat :=
  let rec go (q : Nat) (fuel : Nat) : List Nat :=
    match fuel with
    | 0 => [q]
    | fuel + 1 =>
      match name[q]? with
      | some c => if keep c then q :: go (q + 1) fuel else [q]
      | none => [q]
  go p (name.size - p)

/-- Whether `chars` stand in `name` from position `p` on. -/
def charsAt (name : Array Char) (p : Nat) (chars : List Char) : Bool :=
  chars.zipIdx.all fun (c, i) => name[p + i]? == some c

/-- The positions a construct can reach from position `p` of the name. -/
def advance (name : Array Char) (p : Nat) : GlobToken → List Nat
  | .char c => if name[p]? == some c then [p + 1] else []
  | .oneChar => match name[p]? with
    | some c => if c ≠ '/' then [p + 1] else []
    | none => []
  | .segmentRun => runFrom name (· ≠ '/') p
  | .anyRun => runFrom name (· ≠ '\n') p
  | .dirPrefix =>
    p :: ((runFrom name (· ≠ '\n') p).filterMap fun q =>
      if name[q]? == some '/' then some (q + 1) else none)
  | .choice alts => alts.filterMap fun a =>
    if p + a.length ≤ name.size ∧ charsAt name p a then some (p + a.length) else none

/-- The positions where a match of all constructs may end, from the given positions. -/
def reach (name : Array Char) (ts : List GlobToken) (ps : List Nat) : List Nat :=
  ts.foldl (fun ps t => (ps.flatMap fun p => advance name p t).eraseDups) ps

/-- Whether the constructs, in order, match the whole name. -/
def accepts (ts : List GlobToken) (name : String) : Bool :=
  let chars := name.toList.toArray
  (reach chars ts [0]).contains chars.size

/-- Whether an expression, given as its text, matches a name. Only an expression that starts
with `^` and reads back into constructs up to its final `$` matches anything. -/
def isMatch (expr name : String) : Bool :=
  match expr.toList with
  | '^' :: body =>
    match readFrom none body with
    | some ts => accepts ts name
    | none => false
  | _ => false

end Regex

end ContainerProbe
