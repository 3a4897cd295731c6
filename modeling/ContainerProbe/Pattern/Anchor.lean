/-!
# Anchors

Where a pattern may match inside an entry: from the first byte, up to the last byte, both,
or anywhere. `Anchor.combine` joins two constraints placed on one pattern; it is the join
of the lattice whose bottom is `floating`, whose top is `exact`, and whose middle holds
`atStart` and `atEnd`.
-/

namespace ContainerProbe

/-- Where a pattern may match within an entry. -/
inductive Anchor where
  /-- The match begins at the first byte. -/
  | atStart
  /-- The match ends at the last byte; it is searched from the end backwards. -/
  | atEnd
  /-- The match begins at the first byte and ends at the last. -/
  | exact
  /-- The match may begin anywhere. -/
  | floating
  deriving DecidableEq, Repr

namespace Anchor

/-- Both constraints at once. -/
def combine : Anchor → Anchor → Anchor
  | .floating, a => a
  | a, .floating => a
  | .exact, _ => .exact
  | _, .exact => .exact
  | .atStart, .atStart => .atStart
  | .atEnd, .atEnd => .atEnd
  | .atStart, .atEnd => .exact
  | .atEnd, .atStart => .exact

/-- Whether the match must begin at the first byte. -/
def fixesStart : Anchor → Bool
  | .atStart | .exact => true
  | _ => false

/-- Whether the match must end at the last byte. -/
def fixesEnd : Anchor → Bool
  | .atEnd | .exact => true
  | _ => false

theorem combine_comm (a b : Anchor) : a.combine b = b.combine a := by
  cases a <;> cases b <;> rfl

@[simp] theorem combine_floating (a : Anchor) : a.combine .floating = a := by
  cases a <;> rfl

theorem combine_assoc (a b c : Anchor) : (a.combine b).combine c = a.combine (b.combine c) := by
  cases a <;> cases b <;> cases c <;> rfl

/-- Combining keeps both constraints and adds no other. -/
theorem fixesStart_combine (a b : Anchor) :
    (a.combine b).fixesStart = (a.fixesStart || b.fixesStart) := by
  cases a <;> cases b <;> rfl

theorem fixesEnd_combine (a b : Anchor) :
    (a.combine b).fixesEnd = (a.fixesEnd || b.fixesEnd) := by
  cases a <;> cases b <;> rfl

end Anchor

end ContainerProbe
