import ContainerProbe.Source.Basic

/-!
# Stream sources

A stream source buffers a reader on demand. The reader is described by what it delivers
(`Feed`): its bytes in order, then either a clean end or a failure. How the reader splits
its bytes into reads, and any interrupted read it retries, cannot change what a stream
source answers, so a feed is all the source needs to know.

A stream source reads at most `64 KiB` per request to its reader and only as far as a
request needs: `head n` and `contents` stop at the scan window, `isTruncated` reads one byte
past it, and `tail` reads to the end of the entry, keeping only the last window of bytes.
A read failure is remembered: later requests that can be answered from what was buffered
still succeed, and any request that needs more bytes fails with the same error.
-/

namespace ContainerProbe

/-- What a reader delivers: its bytes, then a clean end or a failure. -/
structure Feed where
  /-- The bytes the reader delivers before it ends or fails. -/
  bytes : ByteArray
  /-- The failure after the bytes, if the reader fails instead of ending. -/
  failure : Option IoError

namespace Feed

/-- A reader over bytes in memory that ends cleanly. -/
def ofBytes (data : ByteArray) : Feed := ⟨data, none⟩

/-- A reader over bytes in memory that fails with `e` once it has delivered `failAt` bytes,
or ends cleanly if the data is shorter than that. -/
def failingAt (data : ByteArray) (failAt : Option Nat) (e : IoError) : Feed :=
  match failAt with
  | some n => if n ≤ data.size then ⟨data.extract 0 n, some e⟩ else ⟨data, none⟩
  | none => ⟨data, none⟩

end Feed

/-- A source that buffers a reader on demand. -/
structure Stream where
  /-- What the reader delivers. -/
  feed : Feed
  /-- The scan limit. -/
  limit : Option Nat
  /-- The bytes read into the scan window so far. -/
  buffer : ByteArray := ByteArray.empty
  /-- The byte read past the window while checking for truncation, if any. -/
  overflow : ByteArray := ByteArray.empty
  /-- The tail, once computed. -/
  tailCache : Option ByteArray := none
  /-- Whether the entry runs past the window, once known. -/
  truncated : Option Bool := none
  /-- Whether the reader has reported its clean end. -/
  exhausted : Bool := false
  /-- The failure the reader reported, remembered. -/
  failed : Option IoError := none
  /-- How many bytes have been taken from the reader. -/
  pulled : Nat := 0

namespace Stream

/-- A fresh source over a reader. -/
def make (feed : Feed) (limit : Option Nat) : Stream := { feed, limit }

/-- The scan window. -/
def window (s : Stream) : Nat := windowOf s.limit

/-- The bytes the reader still holds after those already taken. -/
def pending (s : Stream) : ByteArray := s.feed.bytes.extract s.pulled s.feed.bytes.size

/-- Takes `k` more bytes from the reader, fewer if it runs out. -/
def take (s : Stream) (k : Nat) : ByteArray × Stream :=
  let got := s.feed.bytes.extract s.pulled (s.pulled + k)
  (got, { s with pulled := s.pulled + got.size })

/-- Records that the reader has nothing more: its clean end, or its failure. -/
def runOut (s : Stream) : Except IoError Unit × Stream :=
  match s.feed.failure with
  | some e => (.error e, { s with failed := some e })
  | none => (.ok (), { s with exhausted := true })

/-- Reads until the buffer holds `target` bytes (at most the window), the reader ends, or
it fails; a remembered failure is replayed when more bytes are needed. -/
def bufferTo (s : Stream) (target : Nat) : Except IoError Unit × Stream :=
  let goal := Nat.min target s.window
  if goal ≤ s.buffer.size ∨ s.exhausted then (.ok (), s)
  else
    match s.failed with
    | some e => (.error e, s)
    | none =>
      let (got, s1) := s.take (goal - s.buffer.size)
      let s2 := { s1 with buffer := s.buffer ++ got }
      if goal ≤ s2.buffer.size then (.ok (), s2) else s2.runOut

/-- The first `n` bytes, or fewer when the entry or the window is shorter. -/
def head (s : Stream) (n : Nat) : Except IoError ByteArray × Stream :=
  match s.bufferTo n with
  | (.error e, s1) => (.error e, s1)
  | (.ok (), s1) => (.ok (s1.buffer.extract 0 (Nat.min n s1.buffer.size)), s1)

/-- All bytes inside the window. -/
def contents (s : Stream) : Except IoError ByteArray × Stream :=
  match s.bufferTo Size.max with
  | (.error e, s1) => (.error e, s1)
  | (.ok (), s1) => (.ok s1.buffer, s1)

/-- The last window of bytes of `ring`, the entry's bytes from the first one read. -/
def lastWindow (s : Stream) (ring : ByteArray) : ByteArray :=
  ring.extract (ring.size - Nat.min ring.size s.window) ring.size

/-- The last bytes of the entry, at most a window of them. Reads the reader to its end. -/
def tail (s : Stream) : Except IoError ByteArray × Stream :=
  match s.tailCache with
  | some t => (.ok t, s)
  | none =>
    match s.bufferTo Size.max with
    | (.error e, s1) => (.error e, s1)
    | (.ok (), s1) =>
      if s1.exhausted then
        let t := s1.lastWindow (s1.buffer ++ s1.overflow)
        let beyond := decide (0 < s1.overflow.size)
        (.ok t, { s1 with truncated := some beyond, tailCache := some t })
      else
        match s1.failed with
        | some e => (.error e, s1)
        | none =>
          let (rest, s2) := s1.take s1.pending.size
          match s2.runOut with
          | (.error e, s3) => (.error e, s3)
          | (.ok (), s3) =>
            let t := s1.lastWindow (s1.buffer ++ s1.overflow ++ rest)
            let beyond := decide (0 < s1.overflow.size ∨ 0 < rest.size)
            (.ok t, { s3 with truncated := some beyond, tailCache := some t })

/-- Whether the entry runs past the window; reads one byte past the window to find out. -/
def isTruncated (s : Stream) : Except IoError Bool × Stream :=
  match s.truncated with
  | some t => (.ok t, s)
  | none =>
    match s.bufferTo Size.max with
    | (.error e, s1) => (.error e, s1)
    | (.ok (), s1) =>
      if s1.buffer.size < s1.window then (.ok false, { s1 with truncated := some false })
      else if 0 < s1.overflow.size then (.ok true, { s1 with truncated := some true })
      else
        match s1.failed with
        | some e => (.error e, s1)
        | none =>
          let (got, s2) := s1.take 1
          if 0 < got.size then (.ok true, { s2 with overflow := got, truncated := some true })
          else
            match s2.runOut with
            | (.error e, s3) => (.error e, s3)
            | (.ok (), s3) => (.ok false, { s3 with truncated := some false })

instance : ByteAccess Stream where
  head := Stream.head
  contents := Stream.contents
  tail := Stream.tail
  isTruncated := Stream.isTruncated

end Stream

end ContainerProbe
