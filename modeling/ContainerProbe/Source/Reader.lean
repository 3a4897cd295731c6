import ContainerProbe.Source.Stream

/-!
# Stream sources over readers

A stream source pulls its entry from a reader one call at a time. Each call asks for up to a
number of bytes and gets some of them, none at all when the entry has ended, a failure, or an
interruption, after which the source asks again. A `Reader` is a reader whose calls answer as
its script says: the script chooses how many bytes each call hands over and which calls are
interrupted, while the reader always delivers the bytes of its `Feed` in order and then ends
or fails as the feed does. Once the script is spent, every call hands over all it is asked.

`ReaderStream` is the stream source over such a reader, call by call. Filling the buffer asks
for at most `64 KiB` per call and stops once the buffer holds what the request needs;
`isTruncated` asks for one byte past a full window; `tail` reads the rest of the entry into a
ring that it cuts back to the last window whenever it has grown a whole call past the window.
A failure is remembered and replayed before any later call.
-/

namespace ContainerProbe

/-- How one read call answers, in the order of the calls. -/
inductive ReadStep where
  /-- The call is interrupted before it hands over anything. -/
  | interrupted
  /-- The call hands over at most `cap` bytes, and never more than asked for or left. -/
  | upTo (cap : Nat) (positive : 0 < cap)

/-- What one read call returns. -/
inductive ReadReply where
  /-- The bytes handed over; none at all means that the entry has ended. -/
  | bytes (got : ByteArray)
  /-- The call was interrupted. -/
  | interrupted
  /-- The reader failed. -/
  | failed (e : IoError)

/-- A reader that delivers the bytes of `feed`, in the chunks that `script` chooses. -/
structure Reader where
  /-- What the reader delivers over all its calls. -/
  feed : Feed
  /-- How its next calls answer. -/
  script : List ReadStep
  /-- How many bytes it has handed over. -/
  pos : Nat := 0

namespace Reader

/-- A call asking for `n` bytes that is not interrupted. -/
def deliver (r : Reader) (n : Nat) : ReadReply × Reader :=
  if r.pos < r.feed.bytes.size then
    let got := r.feed.bytes.extract r.pos (r.pos + n)
    (.bytes got, { r with pos := r.pos + got.size })
  else
    match r.feed.failure with
    | some e => (.failed e, r)
    | none => (.bytes ByteArray.empty, r)

/-- One call asking for `n` bytes. -/
def read (r : Reader) (n : Nat) : ReadReply × Reader :=
  match r.script with
  | [] => r.deliver n
  | .interrupted :: rest => (.interrupted, { r with script := rest })
  | .upTo cap _ :: rest => deliver { r with script := rest } (Nat.min cap n)

/-- An interrupted call uses up a step of the script and hands over nothing. -/
theorem read_interrupted {r r' : Reader} {n : Nat} (h : r.read n = (.interrupted, r')) :
    r'.script.length < r.script.length ∧ r'.feed = r.feed ∧ r'.pos = r.pos := by
  unfold read deliver at h
  split at h
  · split at h
    · cases h
    · split at h <;> cases h
  · next rest hs =>
    cases h
    simp [hs]
  · split at h
    · cases h
    · split at h <;> cases h

/-- A call that hands over bytes moves the reader on by their number, never past the end. -/
theorem deliver_bytes {r r' : Reader} {n : Nat} {got : ByteArray}
    (h : r.deliver n = (.bytes got, r')) :
    r'.feed = r.feed ∧ r'.pos = r.pos + got.size ∧ (0 < got.size → r'.pos ≤ r.feed.bytes.size) := by
  unfold deliver at h
  split at h
  · cases h
    refine ⟨rfl, rfl, fun _ => ?_⟩
    simp only [ByteArray.size_extract]
    omega
  · split at h
    · cases h
    · cases h
      exact ⟨rfl, by simp, by simp⟩

theorem read_bytes {r r' : Reader} {n : Nat} {got : ByteArray}
    (h : r.read n = (.bytes got, r')) :
    r'.feed = r.feed ∧ r'.pos = r.pos + got.size ∧ (0 < got.size → r'.pos ≤ r.feed.bytes.size) := by
  unfold read at h
  split at h
  · exact deliver_bytes h
  · cases h
  · obtain ⟨h1, h2, h3⟩ := deliver_bytes h
    exact ⟨h1, h2, h3⟩

set_option linter.unusedVariables false in
/-- Calls the reader until a call is not interrupted: the bytes handed over, or the failure. -/
def readRetrying (r : Reader) (n : Nat) : Except IoError ByteArray × Reader :=
  match h : r.read n with
  | (.interrupted, r') => r'.readRetrying n
  | (.bytes got, r') => (.ok got, r')
  | (.failed e, r') => (.error e, r')
termination_by r.script.length
decreasing_by exact (read_interrupted h).1

theorem readRetrying_ok {r r' : Reader} {n : Nat} {got : ByteArray}
    (h : r.readRetrying n = (.ok got, r')) :
    r'.feed = r.feed ∧ r'.pos = r.pos + got.size ∧ (0 < got.size → r'.pos ≤ r.feed.bytes.size) := by
  fun_induction readRetrying r n with
  | case1 r r1 hr ih =>
    obtain ⟨-, hfeed, hpos⟩ := read_interrupted hr
    obtain ⟨h1, h2, h3⟩ := ih h
    rw [hfeed, hpos] at *
    exact ⟨h1, h2, h3⟩
  | case2 r got1 r1 hr =>
    cases h
    exact read_bytes hr
  | case3 r e r1 hr => cases h

end Reader

/-- The most bytes a stream source asks its reader for in one call. -/
def readChunkSize : Nat := 65536

/-- The last `w` bytes of `ring`, or all of it when it is shorter. -/
def keepLast (w : Nat) (ring : ByteArray) : ByteArray := ring.extract (ring.size - w) ring.size

/-- A stream source over a reader. -/
structure ReaderStream where
  /-- The reader, with the calls it has answered. -/
  reader : Reader
  /-- The scan limit. -/
  limit : Option Nat
  /-- The bytes read into the scan window so far. -/
  buffer : ByteArray := ByteArray.empty
  /-- The byte read past the window while checking for truncation, if any. -/
  overflow : ByteArray := ByteArray.empty
  /-- The tail, once computed. -/
  tailCache : Option ByteArray := none
  /-- Whether the entry runs past the window, once known. -/
  truncated : Option Bool := none
  /-- Whether the reader has reported its end. -/
  exhausted : Bool := false
  /-- The failure the reader reported, remembered. -/
  failed : Option IoError := none
  /-- How many bytes the reader has handed over. -/
  bytesRead : Nat := 0

namespace ReaderStream

/-- A fresh source over a reader. -/
def make (reader : Reader) (limit : Option Nat) : ReaderStream := { reader, limit }

/-- The scan window. -/
def window (s : ReaderStream) : Nat := windowOf s.limit

/-- One read of at most `max` bytes (and at most a chunk) onto `into`, retried while it is
interrupted: how many bytes arrived, zero once the entry has ended, or the failure, which is
remembered and replayed instead of any later call. -/
def readChunk (s : ReaderStream) (into : ByteArray) (max : Nat) :
    Except IoError Nat × ByteArray × ReaderStream :=
  match s.failed with
  | some e => (.error e, into, s)
  | none =>
    match s.reader.readRetrying (Nat.min max readChunkSize) with
    | (.ok got, r) =>
      if got.size = 0 then (.ok 0, into, { s with reader := r, exhausted := true })
      else (.ok got.size, into ++ got, { s with reader := r, bytesRead := s.bytesRead + got.size })
    | (.error e, r) => (.error e, into, { s with reader := r, failed := some e })

/-- What a successful read changes: nothing arrived and the end is recorded, or the bytes that
arrived are appended and the reader has moved on by their number. -/
theorem readChunk_ok {s s' : ReaderStream} {into into' : ByteArray} {max n : Nat}
    (h : s.readChunk into max = (.ok n, into', s')) :
    s'.limit = s.limit ∧ s'.reader.feed = s.reader.feed ∧
      ((n = 0 ∧ into' = into ∧ s'.exhausted = true ∧ s'.reader.pos = s.reader.pos) ∨
        (0 < n ∧ into'.size = into.size + n ∧ s'.exhausted = s.exhausted ∧
          s'.reader.pos = s.reader.pos + n ∧ s'.reader.pos ≤ s.reader.feed.bytes.size)) := by
  unfold readChunk at h
  split at h
  · cases h
  · split at h
    · next got r hr =>
      obtain ⟨hfeed, hpos, hle⟩ := Reader.readRetrying_ok hr
      split at h
      · next hzero =>
        cases h
        exact ⟨rfl, hfeed, .inl ⟨rfl, rfl, rfl, by rw [hpos, hzero, Nat.add_zero]⟩⟩
      · next hzero =>
        cases h
        exact ⟨rfl, hfeed, .inr ⟨by omega, by simp, rfl, hpos, hle (by omega)⟩⟩
    · cases h

set_option linter.unusedVariables false in
/-- Reads until the buffer holds `target` bytes (at most the window), or the reader ends or
fails. -/
def fillTo (s : ReaderStream) (target : Nat) : Except IoError Unit × ReaderStream :=
  if hgo : s.buffer.size < Nat.min target s.window ∧ s.exhausted = false then
    match h : s.readChunk s.buffer (Nat.min target s.window - s.buffer.size) with
    | (.error e, buf, s1) => (.error e, { s1 with buffer := buf })
    | (.ok _, buf, s1) => fillTo { s1 with buffer := buf } target
  else (.ok (), s)
termination_by 2 * (Nat.min target s.window - s.buffer.size) + (if s.exhausted then 0 else 1)
decreasing_by
  obtain ⟨hlim, -, hcase⟩ := readChunk_ok h
  have hw : windowOf s1.limit = windowOf s.limit := by rw [hlim]
  have hlt := hgo.1
  simp only [window, hw] at hlt ⊢
  rcases hcase with ⟨-, rfl, hex, -⟩ | ⟨hn, hsize, hex, -⟩
  · simp only [hex, hgo.2, if_true, Bool.false_eq_true, if_false]
    omega
  · simp only [hex, hgo.2, hsize, Bool.false_eq_true, if_false]
    omega

set_option linter.unusedVariables false in
/-- Reads the rest of the entry onto `ring`, cutting it back to the last window whenever it
has grown a whole call past the window; `beyond` is set once any byte arrives. -/
def readToEnd (s : ReaderStream) (ring : ByteArray) (beyond : Bool) :
    Except IoError (ByteArray × Bool) × ReaderStream :=
  if hgo : s.exhausted = false then
    match h : s.readChunk ring readChunkSize with
    | (.error e, _, s1) => (.error e, s1)
    | (.ok n, ring1, s1) =>
      let ring2 :=
        if Size.satAdd s.window readChunkSize < ring1.size then keepLast s.window ring1 else ring1
      readToEnd s1 ring2 (beyond || decide (0 < n))
  else (.ok (ring, beyond), s)
termination_by 2 * (s.reader.feed.bytes.size - s.reader.pos) + (if s.exhausted then 0 else 1)
decreasing_by
  obtain ⟨-, hfeed, hcase⟩ := readChunk_ok h
  rw [hfeed]
  rcases hcase with ⟨-, -, hex, hpos⟩ | ⟨hn, -, hex, hpos, hle⟩
  · simp only [hex, hpos, hgo, if_true, Bool.false_eq_true, if_false]
    omega
  · simp only [hex, hpos, hgo, Bool.false_eq_true, if_false]
    omega

/-- The first `n` bytes, or fewer when the entry or the window is shorter. -/
def head (s : ReaderStream) (n : Nat) : Except IoError ByteArray × ReaderStream :=
  match s.fillTo n with
  | (.error e, s1) => (.error e, s1)
  | (.ok (), s1) => (.ok (s1.buffer.extract 0 (Nat.min n s1.buffer.size)), s1)

/-- All bytes inside the window. -/
def contents (s : ReaderStream) : Except IoError ByteArray × ReaderStream :=
  match s.fillTo Size.max with
  | (.error e, s1) => (.error e, s1)
  | (.ok (), s1) => (.ok s1.buffer, s1)

/-- The last bytes of the entry, at most a window of them. Reads the reader to its end, unless
it has already ended with nothing read past the window. -/
def tail (s : ReaderStream) : Except IoError ByteArray × ReaderStream :=
  match s.tailCache with
  | some t => (.ok t, s)
  | none =>
    match s.fillTo Size.max with
    | (.error e, s1) => (.error e, s1)
    | (.ok (), s1) =>
      if s1.exhausted = true ∧ s1.overflow.size = 0 then
        (.ok s1.buffer, { s1 with truncated := some false, tailCache := some s1.buffer })
      else
        match s1.readToEnd (s1.buffer ++ s1.overflow) (decide (0 < s1.overflow.size)) with
        | (.error e, s2) => (.error e, s2)
        | (.ok (ring, beyond), s2) =>
          let t := keepLast s2.window ring
          (.ok t, { s2 with truncated := some beyond, tailCache := some t })

/-- Whether the entry runs past the window; asks for one byte past a full window. -/
def isTruncated (s : ReaderStream) : Except IoError Bool × ReaderStream :=
  match s.truncated with
  | some t => (.ok t, s)
  | none =>
    match s.fillTo Size.max with
    | (.error e, s1) => (.error e, s1)
    | (.ok (), s1) =>
      if s1.buffer.size < s1.window then (.ok false, { s1 with truncated := some false })
      else if 0 < s1.overflow.size then (.ok true, { s1 with truncated := some true })
      else
        match s1.readChunk s1.overflow 1 with
        | (.error e, o, s2) => (.error e, { s2 with overflow := o })
        | (.ok _, o, s2) =>
          let t := decide (0 < o.size)
          (.ok t, { s2 with overflow := o, truncated := some t })

instance : ByteAccess ReaderStream where
  head := ReaderStream.head
  contents := ReaderStream.contents
  tail := ReaderStream.tail
  isTruncated := ReaderStream.isTruncated

end ReaderStream

end ContainerProbe
