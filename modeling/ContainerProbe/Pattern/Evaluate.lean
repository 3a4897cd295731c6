import ContainerProbe.Pattern.Backtrack
import ContainerProbe.Pattern.Basic
import ContainerProbe.Source.Basic

/-!
# Evaluating a pattern against a source

How much of an entry a pattern needs depends on its anchor:

| Anchor     | Bytes requested                         | Match                              |
|------------|-----------------------------------------|------------------------------------|
| `atStart`  | head of at most the longest span        | from offset 0                      |
| `atEnd`    | tail                                    | the fragments reversed, from the last byte backwards |
| `exact`    | the whole entry, which must fit         | from offset 0 to the last byte     |
| `floating` | the scan window                         | from any start (or the given ones) |

An entry shorter than the pattern's shortest span is refused before any matching. Each
evaluation runs a new backtracker; a floating pattern shares one between its starts, tried in
ascending order up to the last one that leaves room for the shortest span. A floating pattern
whose first fragment is a gap without an upper bound is tried from offset 0 alone, since that
gap reaches every later start.
-/

namespace ContainerProbe

namespace Pattern

/-- Whether the pattern matches what the source shows of an entry. A floating pattern tries
the given start offsets in order while they leave room for its shortest span, or every start
when none are given. -/
def evaluate {σ : Type} [ByteAccess σ] (p : Pattern) (starts : Option (List Nat)) (s : σ) :
    Except IoError Bool × σ :=
  match p.anchor with
  | .atStart =>
    let (r, s') := match p.maxLength with
      | some m => ByteAccess.head s m
      | none => ByteAccess.contents s
    (r.map fun d => decide (p.minLength ≤ d.size) &&
      ((Backtracker.new p.fragments).matchAt ⟨d.data, .forward⟩ 0 false).1, s')
  | .atEnd =>
    let (r, s') := ByteAccess.tail s
    (r.map fun d => decide (p.minLength ≤ d.size) &&
      ((Backtracker.new p.backward).matchAt ⟨d.data, .backward⟩ 0 false).1, s')
  | .exact =>
    match ByteAccess.isTruncated s with
    | (.error e, s') => (.error e, s')
    | (.ok true, s') => (.ok false, s')
    | (.ok false, s') =>
      let (r, s'') := ByteAccess.contents s'
      (r.map fun d => decide (p.minLength ≤ d.size) && p.maxLength.all (d.size ≤ ·) &&
        ((Backtracker.new p.fragments).matchAt ⟨d.data, .forward⟩ 0 true).1, s'')
  | .floating =>
    let (r, s') := ByteAccess.contents s
    (r.map fun d =>
      if d.size < p.minLength then false
      else
        let last := d.size - p.minLength
        let bt := Backtracker.new p.fragments
        match starts with
        | some l => bt.anyMatch ⟨d.data, .forward⟩ false (l.takeWhile (· ≤ last))
        | none =>
          match p.fragments with
          | .gap _ none :: _ => (bt.matchAt ⟨d.data, .forward⟩ 0 false).1
          | _ => bt.anyMatch ⟨d.data, .forward⟩ false (List.range (last + 1)), s')

end Pattern

end ContainerProbe
