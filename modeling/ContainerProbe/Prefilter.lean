import ContainerProbe.Pattern.Basic

/-!
# Literal prefilter

A floating pattern that begins with a literal can only match where that literal occurs. The
prefilter gathers the leading literals of the floating patterns of a library, so that one
pass over an entry yields the candidate start offsets of all of them.

A pattern is covered when it is floating and its leading literal has at least
`max(minLiteralLength, 1)` bytes. `Prefilter.build` gives `none` when prefiltering is
disabled or no pattern is covered. For a covered pattern, `Prefilter.offsets` lists every
offset where its literal occurs, overlapping occurrences included, in ascending order.

The distinct literals are the slots of one automaton, which reports the occurrences of all
of them in one pass over a haystack; `Prefilter.scan` hands each occurrence to the patterns
of its slot.
-/

namespace ContainerProbe

/-- Whether `bytes` stand in `d` from offset `p` on. -/
def bytesAt (d : ByteArray) (p : Nat) (bytes : List UInt8) : Bool :=
  decide (p + bytes.length ≤ d.size) &&
    (bytes.zipIdx.all fun (b, i) => d[p + i]?.getD 0 == b)

/-- How a library builds its prefilter. -/
structure PrefilterSettings where
  /-- Whether to build a prefilter at all. -/
  enabled : Bool := true
  /-- The shortest leading literal worth covering. -/
  minLiteralLength : Nat := 2
  deriving DecidableEq, Repr

/-- The leading literals of the covered floating patterns of a library. -/
structure Prefilter where
  /-- The literal of each pattern id, for the covered ones. -/
  literalOf : List (Option (List UInt8))
  /-- The distinct literals, in the order they were first met. -/
  literals : List (List UInt8)
  /-- The number of floating patterns left uncovered. -/
  unfilteredCount : Nat
  deriving DecidableEq

namespace Prefilter

/-- The literal a pattern is covered by, if it is covered. -/
def coverOf (config : PrefilterSettings) (p : Pattern) : Option (List UInt8) :=
  if p.anchor = .floating then
    match p.leadingLiteral? with
    | some lit => if Nat.max config.minLiteralLength 1 ≤ lit.length then some lit else none
    | none => none
  else none

/-- The prefilter of the patterns, pattern `i` having id `i`. -/
def build (patterns : List Pattern) (config : PrefilterSettings) : Option Prefilter :=
  if !config.enabled then none
  else
    let literalOf := patterns.map (coverOf config)
    let literals := (literalOf.filterMap id).eraseDups
    if literals.isEmpty then none
    else
      let unfiltered := (patterns.zip literalOf).countP fun (p, l) =>
        p.anchor = .floating ∧ l.isNone
      some ⟨literalOf, literals, unfiltered⟩

/-- Whether the prefilter supplies the start offsets of a pattern. -/
def covers (pf : Prefilter) (id : Nat) : Bool := (pf.literalOf[id]?.getD none).isSome

/-- The number of covered patterns. -/
def patternCount (pf : Prefilter) : Nat := pf.literalOf.countP Option.isSome

/-- Every offset of the haystack where the literal occurs, ascending. -/
def occurrences (haystack : ByteArray) (lit : List UInt8) : List Nat :=
  (List.range (haystack.size + 1)).filter fun p => bytesAt haystack p lit

/-- The candidate start offsets of a pattern: `none` for a pattern it does not cover. -/
def offsets (pf : Prefilter) (id : Nat) (haystack : ByteArray) : Option (List Nat) :=
  (pf.literalOf[id]?.getD none).map (occurrences haystack)

/-- The patterns that share a slot of the literal automaton, the slot of `literals[slot]`:
the ids, in ascending order, of the covered patterns with that literal. -/
def slotPatterns (pf : Prefilter) (slot : Nat) : List Nat :=
  match pf.literals[slot]? with
  | some lit => (List.range pf.literalOf.length).filter fun id => pf.literalOf[id]? = some (some lit)
  | none => []

/-- One scan of a haystack, from the occurrences the automaton over `literals` reports, each as
its slot and its start, in the order reported (by their end, not their start): each start is
added to the list of every pattern of its slot, and a covered pattern's list is then sorted
and rid of repeated starts. A pattern the prefilter does not cover has no list. -/
def scan (pf : Prefilter) (hits : List (Nat × Nat)) (id : Nat) : Option (List Nat) :=
  if pf.covers id then
    some (hits.filterMap fun (slot, start) =>
      if id ∈ pf.slotPatterns slot then some start else none).mergeSort.eraseReps
  else none

end Prefilter

end ContainerProbe
