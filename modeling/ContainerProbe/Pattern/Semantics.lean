import ContainerProbe.Pattern.Basic
import ContainerProbe.Source.Basic

/-!
# What a pattern means

The matcher computes; this module says what it should compute. A run of fragments matches a
byte string when the string splits into consecutive parts, one per fragment, each matched by
its fragment:

* a literal matches exactly its bytes;
* a byte set matches one byte it accepts;
* a gap matches any run whose length lies between its bounds (no upper bound when `max` is
  absent);
* alternatives match the bytes of one of their branches, a branch being a run of pieces
  matched the same way.

Over a scan window of width `W` (the limit, or the whole entry, whichever is shorter) a
pattern's anchor says where the run must lie: a prefix of the first `W` bytes (`atStart`), a
suffix of the last `W` bytes (`atEnd`), the whole entry when it fits in the window (`exact`),
or anywhere within the first `W` bytes (`floating`).

## Main definitions

* `Piece.Matches`, `Piece.MatchesAll`: pieces and branches.
* `Fragment.Matches`, `Fragment.MatchesAll`: fragments and runs of fragments.
* `Pattern.Finds`: the anchored relation over a scan window.
-/

namespace ContainerProbe

/-! ## §1 Pieces and branches -/

/-- A piece matches exactly these bytes. -/
inductive Piece.Matches : Piece → List UInt8 → Prop where
  /-- A literal matches its bytes. -/
  | literal (bytes : List UInt8) : Piece.Matches (.literal bytes) bytes
  /-- A byte set matches one byte it accepts. -/
  | byteSet {s : ByteSet} {b : UInt8} (accepted : s.accepts b = true) :
      Piece.Matches (.byteSet s) [b]

/-- A branch matches a string split into one part per piece, in order. -/
inductive Piece.MatchesAll : List Piece → List UInt8 → Prop where
  /-- The empty branch matches the empty string. -/
  | nil : Piece.MatchesAll [] []
  /-- The first piece matches a first part, the rest of the branch the remainder. -/
  | cons {p : Piece} {ps : List Piece} {xs ys : List UInt8} :
      Piece.Matches p xs → Piece.MatchesAll ps ys → Piece.MatchesAll (p :: ps) (xs ++ ys)

/-! ## §2 Fragments -/

/-- A fragment matches exactly these bytes. -/
inductive Fragment.Matches : Fragment → List UInt8 → Prop where
  /-- A literal matches its bytes. -/
  | literal (bytes : List UInt8) : Fragment.Matches (.literal bytes) bytes
  /-- A byte set matches one byte it accepts. -/
  | byteSet {s : ByteSet} {b : UInt8} (accepted : s.accepts b = true) :
      Fragment.Matches (.byteSet s) [b]
  /-- A gap matches any run whose length lies within its bounds. -/
  | gap {lo : Nat} {hi : Option Nat} {bytes : List UInt8} (atLeast : lo ≤ bytes.length)
      (atMost : ∀ m, hi = some m → bytes.length ≤ m) : Fragment.Matches (.gap lo hi) bytes
  /-- Alternatives match what one of their branches matches. -/
  | alternatives {branches : List (List Piece)} {branch : List Piece} {bytes : List UInt8}
      (chosen : branch ∈ branches) (matched : Piece.MatchesAll branch bytes) :
      Fragment.Matches (.alternatives branches) bytes

/-- A run of fragments matches a string split into one part per fragment, in order. -/
inductive Fragment.MatchesAll : List Fragment → List UInt8 → Prop where
  /-- No fragments match the empty string. -/
  | nil : Fragment.MatchesAll [] []
  /-- The first fragment matches a first part, the rest the remainder. -/
  | cons {f : Fragment} {fs : List Fragment} {xs ys : List UInt8} :
      Fragment.Matches f xs → Fragment.MatchesAll fs ys → Fragment.MatchesAll (f :: fs) (xs ++ ys)

/-! ## §3 Anchored over a scan window -/

namespace Pattern

/-- The width of the scan window over an entry: the limit, or the entry's length if that is
shorter. -/
def windowWidth (limit : Option Nat) (d : List UInt8) : Nat := Nat.min (windowOf limit) d.length

/-- Whether a pattern finds a match in an entry's bytes, as its anchor asks, within the scan
window of the given limit. -/
def Finds (p : Pattern) (limit : Option Nat) (d : List UInt8) : Prop :=
  let w := windowWidth limit d
  let headBytes := d.take w
  let tailBytes := d.drop (d.length - w)
  match p.anchor with
  | .atStart => ∃ k, Fragment.MatchesAll p.fragments (headBytes.take k)
  | .atEnd => ∃ k, Fragment.MatchesAll p.fragments (tailBytes.drop k)
  | .exact => d.length ≤ w ∧ Fragment.MatchesAll p.fragments d
  | .floating => ∃ i k, Fragment.MatchesAll p.fragments ((headBytes.drop i).take k)

end Pattern

theorem Fragment.MatchesAll.nil_iff (s : List UInt8) : Fragment.MatchesAll [] s ↔ s = [] := by
  constructor
  · intro h
    cases h
    rfl
  · intro h
    subst h
    exact .nil

end ContainerProbe
