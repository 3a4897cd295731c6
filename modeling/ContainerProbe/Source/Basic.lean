import ContainerProbe.Fault
import ContainerProbe.Size

/-!
# Byte sources

The matcher never reads an entry directly. It asks a byte source for the head of the entry,
for everything inside the scan window, for the tail, or whether the entry runs past the
window. A source may read lazily and may fail; each request returns the answer together
with the source as it stands afterwards.

`Window` is the source over bytes already in memory: with `W = min(limit, |d|)` it answers
`head n = d[0, min(n, W))`, `contents = d[0, W)`, `tail` = the last `W` bytes, and
`isTruncated = W < |d|`, and never fails.
-/

namespace ContainerProbe

/-- Byte access for the matcher: every request returns its answer or a read failure,
together with the source after the request. -/
class ByteAccess (σ : Type) where
  /-- The first `n` bytes, or fewer when the entry or the scan window is shorter. -/
  head : σ → Nat → Except IoError ByteArray × σ
  /-- All bytes inside the scan window. -/
  contents : σ → Except IoError ByteArray × σ
  /-- The last bytes of the entry, no more than the scan window holds. -/
  tail : σ → Except IoError ByteArray × σ
  /-- Whether the entry extends past the scan window. -/
  isTruncated : σ → Except IoError Bool × σ

/-- The scan window of a limit: no limit means the largest size. -/
def windowOf (limit : Option Nat) : Nat := limit.getD Size.max

/-- A source over bytes in memory, seen through a scan window. -/
structure Window where
  /-- All bytes of the entry. -/
  data : ByteArray
  /-- How many leading bytes the scan window holds; never more than `data.size`. -/
  width : Nat

namespace Window

/-- The source over `data` with an optional scan limit. -/
def make (data : ByteArray) (limit : Option Nat) : Window :=
  ⟨data, Nat.min (windowOf limit) data.size⟩

instance : ByteAccess Window where
  head w n := (.ok (w.data.extract 0 (Nat.min n w.width)), w)
  contents w := (.ok (w.data.extract 0 w.width), w)
  tail w := (.ok (w.data.extract (w.data.size - w.width) w.data.size), w)
  isTruncated w := (.ok (decide (w.width < w.data.size)), w)

end Window

/-! ## Requests as data -/

/-- One of the four requests a matcher makes of a source. -/
inductive Request where
  | head (n : Nat)
  | contents
  | tail
  | isTruncated
  deriving DecidableEq, Repr

/-- What a request answers: bytes, or whether the entry runs past the window. -/
inductive Answer where
  | bytes (data : ByteArray)
  | truncated (beyond : Bool)

namespace ByteAccess

variable {σ : Type} [ByteAccess σ]

/-- Issues one request. -/
def serve (s : σ) : Request → Except IoError Answer × σ
  | .head n => let (r, s') := head s n; (r.map .bytes, s')
  | .contents => let (r, s') := contents s; (r.map .bytes, s')
  | .tail => let (r, s') := tail s; (r.map .bytes, s')
  | .isTruncated => let (r, s') := isTruncated s; (r.map .truncated, s')

/-- The source after a run of requests, each issued on the source the one before left. -/
def serveAll (s : σ) (qs : List Request) : σ := qs.foldl (fun s q => (serve s q).2) s

/-- The outcome of each request of a run, in order. -/
def outcomes (s : σ) : List Request → List (Except IoError Answer)
  | [] => []
  | q :: qs => (serve s q).1 :: outcomes (serve s q).2 qs

end ByteAccess

end ContainerProbe
