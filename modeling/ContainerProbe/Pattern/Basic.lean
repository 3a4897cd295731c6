import ContainerProbe.Pattern.Anchor
import ContainerProbe.Pattern.Fragment

/-!
# Compiled patterns

A compiled pattern keeps its canonical expression text, its anchor and its coalesced
fragments. Its length bounds decide how much of an entry is read: the shortest span wraps
around past the largest size, as machine sizes do, and the longest is absent when a gap is
unbounded or the sum leaves the range of sizes.

Byte-sequence windows (`placeAfterStart`, `placeBeforeEnd`) put a pattern a bounded number
of bytes after the start or before the end of an entry by adding a gap and an anchor.
-/

namespace ContainerProbe

/-- A compiled byte pattern. -/
structure Pattern where
  /-- The canonical expression the pattern was compiled from. -/
  expression : String
  /-- Where the pattern may match. -/
  anchor : Anchor
  /-- The coalesced fragments, matched one after the other. -/
  fragments : List Fragment
  deriving DecidableEq, Repr

namespace Pattern

/-- The pattern with the given parts, its fragments coalesced. -/
def make (expression : String) (anchor : Anchor) (fragments : List Fragment) : Pattern :=
  ⟨expression, anchor, Fragment.coalesce fragments⟩

/-- The fewest bytes an entry needs for the pattern to match, as a size that wraps around. -/
def minLength (p : Pattern) : Nat := Size.wrapSum (p.fragments.map Fragment.minLength)

/-- The most bytes a match spans, if that is a size. -/
def maxLength (p : Pattern) : Option Nat :=
  (p.fragments.mapM Fragment.maxLength).bind Size.checkedSum

/-- The literal the pattern starts with, if it starts with one. -/
def leadingLiteral? (p : Pattern) : Option (List UInt8) :=
  match p.fragments with
  | .literal bytes :: _ => some bytes
  | _ => none

/-- The pattern placed `lo` to `hi` bytes after the start of the entry. -/
def placeAfterStart (p : Pattern) (lo hi : Nat) : Pattern :=
  make p.expression (p.anchor.combine .atStart) (.gap lo (some hi) :: p.fragments)

/-- The pattern placed `lo` to `hi` bytes before the end of the entry. -/
def placeBeforeEnd (p : Pattern) (lo hi : Nat) : Pattern :=
  make p.expression (p.anchor.combine .atEnd) (p.fragments ++ [.gap lo (some hi)])

/-- The fragments as met when reading the entry from its last byte backwards. -/
def backward (p : Pattern) : List Fragment := (p.fragments.map Fragment.reversed).reverse

end Pattern

end ContainerProbe
