import ContainerProbe.Size
import ContainerProbe.Pattern.ByteSet

/-!
# Fragments

A compiled pattern is a list of fragments, each matching a run of bytes: a literal, one
byte of a set, a gap of bounded or unbounded length, or a choice between fixed runs.
Branches of a choice hold only literals and byte sets (`Piece`), so every branch has one
length.

## Main definitions

* `Fragment.minLength`, `Fragment.maxLength`: the shortest and longest run a fragment matches.
* `Fragment.coalesce`: the normal form that drops empty fragments and merges neighbours.
* `Fragment.reversed`: the fragment as seen when the input is read from its end.
-/

namespace ContainerProbe

/-! ## §1 Pieces of a branch -/

/-- A fixed-length element of a branch of alternatives. -/
inductive Piece where
  /-- Exactly these bytes. -/
  | literal (bytes : List UInt8)
  /-- One byte of the set. -/
  | byteSet (c : ByteSet)
  deriving DecidableEq, Repr

namespace Piece

/-- The number of bytes a piece matches. -/
def length : Piece → Nat
  | .literal bytes => bytes.length
  | .byteSet _ => 1

/-- The piece as seen when reading from the end. -/
def reversed : Piece → Piece
  | .literal bytes => .literal bytes.reverse
  | p => p

/-- Prepends a piece to a branch, joining it to a leading literal and dropping it when empty. -/
def prepend : Piece → List Piece → List Piece
  | .literal [], out => out
  | .literal a, .literal b :: out => .literal (a ++ b) :: out
  | p, out => p :: out

/-- A branch with neighbouring literals joined and empty literals dropped. -/
def coalesce (branch : List Piece) : List Piece := branch.foldr prepend []

end Piece

/-- The number of bytes a branch matches. -/
def branchLength (branch : List Piece) : Nat := Size.total (branch.map Piece.length)

/-! ## §2 Fragments -/

/-- One element of a compiled pattern. -/
inductive Fragment where
  /-- Exactly these bytes. -/
  | literal (bytes : List UInt8)
  /-- One byte of the set. -/
  | byteSet (c : ByteSet)
  /-- Between `min` and `max` arbitrary bytes; no `max` means no upper bound. -/
  | gap (min : Nat) (max : Option Nat)
  /-- The bytes of one of the branches. -/
  | alternatives (branches : List (List Piece))
  deriving DecidableEq, Repr

namespace Fragment

/-- The fewest bytes the fragment matches. -/
def minLength : Fragment → Nat
  | .literal bytes => bytes.length
  | .byteSet _ => 1
  | .gap lo _ => lo
  | .alternatives branches => ((branches.map branchLength).min?).getD 0

/-- The most bytes the fragment matches, if bounded. -/
def maxLength : Fragment → Option Nat
  | .literal bytes => some bytes.length
  | .byteSet _ => some 1
  | .gap _ hi => hi
  | .alternatives branches => some ((branches.map branchLength).foldl Nat.max 0)

/-- The fragment as seen when reading from the end: literals and branches run backwards. -/
def reversed : Fragment → Fragment
  | .literal bytes => .literal bytes.reverse
  | .alternatives branches => .alternatives (branches.map fun b => (b.map Piece.reversed).reverse)
  | f => f

/-- Whether the fragment matches the empty run only and can be left out. -/
def isVoid : Fragment → Bool
  | .literal [] => true
  | .gap 0 (some 0) => true
  | _ => false

/-- Upper bounds of two merged gaps: sizes add up to the largest size, and an absent bound
absorbs the other. -/
def mergeMax : Option Nat → Option Nat → Option Nat
  | some a, some b => some (Size.satAdd a b)
  | _, _ => none

/-- Prepends a fragment to a coalesced list: it is dropped when void, joined to a leading
literal or gap of its own kind, and otherwise put in front. -/
def prepend (f : Fragment) (out : List Fragment) : List Fragment :=
  if f.isVoid then out
  else
    match f, out with
    | .literal a, .literal b :: rest => .literal (a ++ b) :: rest
    | .gap lo hi, .gap lo' hi' :: rest => .gap (Size.satAdd lo lo') (mergeMax hi hi') :: rest
    | f, out => f :: out

/-- The normal form of a fragment list: no void fragment, no two neighbouring literals and
no two neighbouring gaps. -/
def coalesce (fs : List Fragment) : List Fragment := fs.foldr prepend []

end Fragment

end ContainerProbe
