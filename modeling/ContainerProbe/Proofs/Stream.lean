import Mathlib
import ContainerProbe.Proofs.Source
import ContainerProbe.Source.Stream

/-!
# Stream sources answer like windows

A stream source keeps the bytes it has read into the scan window, at most one byte read past
the window, the tail once computed, and the end or the failure of its reader once met.
`Stream.Valid` states how these fields stand to what the reader delivers (`Feed`), and every
request keeps it.

What a stream answers is right for every entry the reader could have been reading
(`Feed.Completes`): when the reader ends cleanly that entry is exactly the bytes delivered,
and when it fails it is any byte string that begins with them. A request whose answer would
depend on bytes past a failure fails instead, and over a reader that never fails no request
fails.

## Main statements

* `Stream.view`: the valid states of a stream over a feed are a view of the window over every
  completion of the feed.
* `Stream.neverFails`: over a feed without a failure no request fails.
-/

namespace ContainerProbe

/-- Cutting at the end of the bytes is cutting at any point past it. -/
theorem ByteArray.extract_min_size (a : ByteArray) (i j : Nat) :
    a.extract i (min j a.size) = a.extract i j := by
  apply ByteArray.ext
  rw [ByteArray.data_extract, ByteArray.data_extract, Array.extract_eq_extract_right,
    ByteArray.size_data]
  omega

/-- The entries a reader could have been delivering: exactly its bytes when it ends cleanly,
and any byte string that begins with its bytes when it fails. -/
def Feed.Completes (F : Feed) (D : ByteArray) : Prop :=
  F.bytes = D.extract 0 F.bytes.size ∧ F.bytes.size ≤ D.size ∧ (F.failure = none → D = F.bytes)

theorem Feed.completes_bytes (F : Feed) : F.Completes F.bytes :=
  ⟨by simp, Nat.le_refl _, fun _ => rfl⟩

/-- A prefix of the delivered bytes is the same prefix of every completion. -/
theorem Feed.Completes.extract_eq {F : Feed} {D : ByteArray} (hD : F.Completes D) {j : Nat}
    (hj : j ≤ F.bytes.size) : F.bytes.extract 0 j = D.extract 0 j := by
  conv => lhs; rw [hD.1]
  rw [ByteArray.extract_extract, Nat.zero_add, Nat.zero_add, Nat.min_eq_left hj]

namespace Stream

/-! ## §1 The invariant -/

/-- How the fields of a stream stand to what its reader delivers. -/
structure Valid (s : Stream) : Prop where
  /-- The buffer holds the first bytes delivered. -/
  buffer_eq : s.buffer = s.feed.bytes.extract 0 s.buffer.size
  /-- The buffer holds no more than the window. -/
  buffer_le : s.buffer.size ≤ s.window
  /-- The byte read past the window is the one after the buffer. -/
  overflow_eq : s.overflow = s.feed.bytes.extract s.buffer.size (s.buffer.size + s.overflow.size)
  overflow_le : s.overflow.size ≤ 1
  /-- A byte is read past the window only once the window is full. -/
  overflow_full : 0 < s.overflow.size → s.buffer.size = s.window
  /-- Until the tail is read or the reader fails, everything taken is kept. -/
  pulled_eq : s.tailCache = none → s.failed = none → s.pulled = s.buffer.size + s.overflow.size
  pulled_le : s.pulled ≤ s.feed.bytes.size
  /-- A clean end is met only after taking every byte, with the window filled as far as the
  bytes go. -/
  exhausted : s.exhausted = true → s.feed.failure = none ∧ s.pulled = s.feed.bytes.size ∧
    s.buffer.size = min s.window s.feed.bytes.size
  /-- A remembered failure is the reader's, met after taking every byte it delivers. -/
  failed : ∀ e, s.failed = some e → s.feed.failure = some e ∧ s.pulled = s.feed.bytes.size
  /-- A known truncation is right, and "not truncated" is known only at a clean end. -/
  truncated : ∀ v, s.truncated = some v →
    v = decide (s.window < s.feed.bytes.size) ∧ (v = false → s.exhausted = true)
  /-- A computed tail is the last window of bytes, met at a clean end. -/
  tailCache : ∀ t, s.tailCache = some t → s.exhausted = true ∧ s.truncated.isSome ∧
    t = s.feed.bytes.extract (s.feed.bytes.size - min s.window s.feed.bytes.size)
      s.feed.bytes.size

theorem make_valid (F : Feed) (limit : Option Nat) : (Stream.make F limit).Valid where
  buffer_eq := by simp [Stream.make]
  buffer_le := by simp [Stream.make]
  overflow_eq := by simp [Stream.make]
  overflow_le := by simp [Stream.make]
  overflow_full := by simp [Stream.make]
  pulled_eq := by simp [Stream.make]
  pulled_le := by simp [Stream.make]
  exhausted := by simp [Stream.make]
  failed := by simp [Stream.make]
  truncated := by simp [Stream.make]
  tailCache := by simp [Stream.make]

section Valid

variable {s : Stream}

theorem Valid.buffer_size_le (hv : s.Valid) : s.buffer.size ≤ s.feed.bytes.size := by
  have h := congrArg ByteArray.size hv.buffer_eq
  rw [ByteArray.size_extract] at h
  omega

/-- Everything kept, in order: the buffer, then the byte past the window. -/
theorem Valid.overflow_size_le (hv : s.Valid) :
    s.buffer.size + s.overflow.size ≤ s.feed.bytes.size := by
  have h := congrArg ByteArray.size hv.overflow_eq
  rw [ByteArray.size_extract] at h
  have := hv.buffer_size_le
  omega

theorem Valid.buffer_append_overflow (hv : s.Valid) :
    s.buffer ++ s.overflow = s.feed.bytes.extract 0 (s.buffer.size + s.overflow.size) := by
  have hmin : min 0 s.buffer.size = 0 := Nat.zero_min _
  have hmax : max s.buffer.size (s.buffer.size + s.overflow.size) =
      s.buffer.size + s.overflow.size := Nat.max_eq_right (Nat.le_add_right _ _)
  calc s.buffer ++ s.overflow
      = s.feed.bytes.extract 0 s.buffer.size ++
          s.feed.bytes.extract s.buffer.size (s.buffer.size + s.overflow.size) := by
        rw [← hv.buffer_eq, ← hv.overflow_eq]
    _ = s.feed.bytes.extract 0 (s.buffer.size + s.overflow.size) := by
        rw [ByteArray.extract_append_extract, hmin, hmax]

/-- At a clean end the reader's bytes are the only completion. -/
theorem Valid.completes_of_exhausted (hv : s.Valid) (hex : s.exhausted = true) {D : ByteArray}
    (hD : s.feed.Completes D) : D = s.feed.bytes :=
  hD.2.2 (hv.exhausted hex).1

/-- Meeting the clean end keeps a state valid once every byte is taken and the window is as
full as the bytes allow. -/
theorem Valid.exhaust (hv : s.Valid) (hf : s.feed.failure = none)
    (hall : s.pulled = s.feed.bytes.size) (hbuf : s.buffer.size = min s.window s.feed.bytes.size) :
    ({ s with exhausted := true } : Stream).Valid where
  buffer_eq := hv.buffer_eq
  buffer_le := hv.buffer_le
  overflow_eq := hv.overflow_eq
  overflow_le := hv.overflow_le
  overflow_full := hv.overflow_full
  pulled_eq := hv.pulled_eq
  pulled_le := hv.pulled_le
  exhausted := fun _ => ⟨hf, hall, hbuf⟩
  failed := hv.failed
  truncated := fun v h => ⟨(hv.truncated v h).1, fun _ => rfl⟩
  tailCache := fun t h => ⟨rfl, (hv.tailCache t h).2⟩

/-- Meeting the reader's failure keeps a state valid once every byte is taken. -/
theorem Valid.fail {e : IoError} (hv : s.Valid) (hf : s.feed.failure = some e) {p : Nat}
    (hall : p = s.feed.bytes.size) : ({ s with pulled := p, failed := some e } : Stream).Valid where
  buffer_eq := hv.buffer_eq
  buffer_le := hv.buffer_le
  overflow_eq := hv.overflow_eq
  overflow_le := hv.overflow_le
  overflow_full := hv.overflow_full
  pulled_eq := fun _ h => by cases h
  pulled_le := Nat.le_of_eq hall
  exhausted := fun h => ⟨(hv.exhausted h).1, hall, (hv.exhausted h).2.2⟩
  failed := fun e' h => by
    cases h
    exact ⟨hf, hall⟩
  truncated := hv.truncated
  tailCache := hv.tailCache

/-- Recording a right answer about truncation keeps a state valid. -/
theorem Valid.setTruncated {v : Bool} (hv : s.Valid)
    (hright : v = decide (s.window < s.feed.bytes.size)) (hend : v = false → s.exhausted = true) :
    ({ s with truncated := some v } : Stream).Valid where
  buffer_eq := hv.buffer_eq
  buffer_le := hv.buffer_le
  overflow_eq := hv.overflow_eq
  overflow_le := hv.overflow_le
  overflow_full := hv.overflow_full
  pulled_eq := hv.pulled_eq
  pulled_le := hv.pulled_le
  exhausted := hv.exhausted
  failed := hv.failed
  truncated := fun v' h => by
    cases h
    exact ⟨hright, hend⟩
  tailCache := fun t h => ⟨(hv.tailCache t h).1, rfl, (hv.tailCache t h).2.2⟩

/-- Having read to a clean end, recording the truncation and the last window keeps a state
valid. -/
theorem Valid.settle (hv : s.Valid) (hf : s.feed.failure = none) (hfailed : s.failed = none)
    (hbuf : s.buffer.size = min s.window s.feed.bytes.size) {p : Nat} {ex v : Bool}
    {t : ByteArray} (hall : p = s.feed.bytes.size) (hex : ex = true)
    (hright : v = decide (s.window < s.feed.bytes.size))
    (hlast : t = s.feed.bytes.extract (s.feed.bytes.size - min s.window s.feed.bytes.size)
      s.feed.bytes.size) :
    ({ s with pulled := p, exhausted := ex, truncated := some v, tailCache := some t } :
      Stream).Valid where
  buffer_eq := hv.buffer_eq
  buffer_le := hv.buffer_le
  overflow_eq := hv.overflow_eq
  overflow_le := hv.overflow_le
  overflow_full := hv.overflow_full
  pulled_eq := fun h => by cases h
  pulled_le := Nat.le_of_eq hall
  exhausted := fun _ => ⟨hf, hall, hbuf⟩
  failed := fun e h => by simp [hfailed] at h
  truncated := fun v' h => by
    cases h
    exact ⟨hright, fun _ => hex⟩
  tailCache := fun t' h => by
    cases h
    exact ⟨hex, rfl, hlast⟩

/-- Reading the one byte past a full window keeps a state valid. -/
theorem Valid.readPast (hv : s.Valid) (hfull : s.buffer.size = s.window)
    (hp : s.pulled = s.buffer.size) {o : ByteArray} {p : Nat}
    (ho : o = s.feed.bytes.extract s.pulled (s.pulled + 1)) (hsize : o.size = 1)
    (hp' : p = s.pulled + 1) :
    ({ s with overflow := o, pulled := p, truncated := some true } : Stream).Valid := by
  -- a byte was there to read, so the reader had not ended before it
  have hlt : s.pulled + 1 ≤ s.feed.bytes.size := by
    have h := hsize
    rw [ho, ByteArray.size_extract] at h
    omega
  exact {
    buffer_eq := hv.buffer_eq
    buffer_le := hv.buffer_le
    overflow_eq := by
      show o = s.feed.bytes.extract s.buffer.size (s.buffer.size + o.size)
      rw [hsize, ho, hp]
    overflow_le := Nat.le_of_eq hsize
    overflow_full := fun _ => hfull
    pulled_eq := fun _ _ => by
      show p = s.buffer.size + o.size
      omega
    pulled_le := by
      show p ≤ s.feed.bytes.size
      omega
    exhausted := fun h => absurd (hv.exhausted h).2.1 (by omega)
    failed := fun e h => absurd (hv.failed e h).2 (by omega)
    truncated := fun v h => by
      cases h
      refine ⟨(decide_eq_true ?_).symm, fun h => by cases h⟩
      show s.window < s.feed.bytes.size
      omega
    tailCache := fun t h => ⟨(hv.tailCache t h).1, rfl, (hv.tailCache t h).2.2⟩ }

end Valid

/-! ## §2 Filling the buffer -/

/-- The state after taking bytes towards `goal` into the buffer, before the reader's end is
looked at. -/
def filled (s : Stream) (goal : Nat) : Stream :=
  { s with
    buffer := s.buffer ++ s.feed.bytes.extract s.pulled (s.pulled + (goal - s.buffer.size)),
    pulled := s.pulled +
      (s.feed.bytes.extract s.pulled (s.pulled + (goal - s.buffer.size))).size }

section BufferTo

variable {s : Stream} {target : Nat}

theorem bufferTo_of_done (h : Nat.min target s.window ≤ s.buffer.size ∨ s.exhausted = true) :
    s.bufferTo target = (.ok (), s) := by
  rw [bufferTo, if_pos h]

theorem bufferTo_of_failed {e : IoError}
    (h : ¬(Nat.min target s.window ≤ s.buffer.size ∨ s.exhausted = true))
    (hf : s.failed = some e) : s.bufferTo target = (.error e, s) := by
  rw [bufferTo, if_neg h, hf]

theorem bufferTo_of_read (h : ¬(Nat.min target s.window ≤ s.buffer.size ∨ s.exhausted = true))
    (hf : s.failed = none) :
    s.bufferTo target =
      if Nat.min target s.window ≤ (s.filled (Nat.min target s.window)).buffer.size then
        (.ok (), s.filled (Nat.min target s.window))
      else (s.filled (Nat.min target s.window)).runOut := by
  rw [bufferTo, if_neg h, hf]
  rfl

theorem runOut_of_none (h : s.feed.failure = none) :
    s.runOut = (.ok (), { s with exhausted := true }) := by
  rw [runOut, h]

theorem runOut_of_some {e : IoError} (h : s.feed.failure = some e) :
    s.runOut = (.error e, { s with failed := some e }) := by
  rw [runOut, h]

/-- Reading from the end of the buffer towards `goal` extends the buffer to the first
`goal` bytes, or to all of them when fewer are delivered. -/
theorem filled_buffer (hv : s.Valid) (hp : s.pulled = s.buffer.size) {goal : Nat}
    (hg : s.buffer.size ≤ goal) : (s.filled goal).buffer = s.feed.bytes.extract 0 goal := by
  have hsum : s.buffer.size + (goal - s.buffer.size) = goal := by omega
  have hmin : min 0 s.buffer.size = 0 := Nat.zero_min _
  calc (s.filled goal).buffer
      = s.feed.bytes.extract 0 s.buffer.size ++ s.feed.bytes.extract s.buffer.size goal := by
        simp only [filled, hp, hsum]
        exact congrArg (· ++ _) hv.buffer_eq
    _ = s.feed.bytes.extract 0 goal := by
        rw [ByteArray.extract_append_extract, hmin, Nat.max_eq_right hg]

theorem filled_pulled (hv : s.Valid) (hp : s.pulled = s.buffer.size) {goal : Nat}
    (hg : s.buffer.size ≤ goal) : (s.filled goal).pulled = min goal s.feed.bytes.size := by
  have hle := hv.buffer_size_le
  simp only [filled, ByteArray.size_extract, hp]
  omega

theorem filled_size (hv : s.Valid) (hp : s.pulled = s.buffer.size) {goal : Nat}
    (hg : s.buffer.size ≤ goal) : (s.filled goal).buffer.size = min goal s.feed.bytes.size := by
  rw [filled_buffer hv hp hg, ByteArray.size_extract, Nat.sub_zero]

/-- Reading below the window, with nothing read past it and no end met, keeps a state valid. -/
theorem filled_valid (hv : s.Valid) (hp : s.pulled = s.buffer.size)
    (hover : s.overflow.size = 0) (hex : s.exhausted = false) (hfail : s.failed = none)
    (htail : s.tailCache = none) {goal : Nat} (hg : s.buffer.size ≤ goal)
    (hgw : goal ≤ s.window) : (s.filled goal).Valid := by
  have hbuf := filled_buffer hv hp hg
  have hsize := filled_size hv hp hg
  have hpulled := filled_pulled hv hp hg
  have hempty : s.overflow = ByteArray.empty := ByteArray.size_eq_zero_iff.mp hover
  exact {
    buffer_eq := by
      show (s.filled goal).buffer = s.feed.bytes.extract 0 (s.filled goal).buffer.size
      rw [hsize, hbuf, ByteArray.extract_min_size]
    buffer_le := by
      show (s.filled goal).buffer.size ≤ s.window
      omega
    overflow_eq := by
      show s.overflow = s.feed.bytes.extract _ (_ + s.overflow.size)
      rw [hempty]
      simp
    overflow_le := hv.overflow_le
    overflow_full := fun h => absurd h (by show ¬0 < s.overflow.size; omega)
    pulled_eq := fun _ _ => by
      show (s.filled goal).pulled = (s.filled goal).buffer.size + s.overflow.size
      omega
    pulled_le := by
      show (s.filled goal).pulled ≤ s.feed.bytes.size
      omega
    exhausted := fun h => by simp [filled, hex] at h
    failed := fun e h => by simp [filled, hfail] at h
    truncated := fun v h => by
      obtain ⟨h1, h2⟩ := hv.truncated v h
      exact ⟨h1, fun hf => by simp [h2 hf] at hex⟩
    tailCache := fun t h => by simp [filled, htail] at h }

/-- Filling the buffer from a valid state keeps it valid and keeps the reader, the limit, the
byte past the window and what is known of truncation and the tail. A success leaves the
buffer holding the goal or the reader ended; a reader that never fails gives a success. -/
theorem bufferTo_spec (hv : s.Valid) (target : Nat) :
    (s.bufferTo target).2.Valid ∧
      ((s.bufferTo target).2.feed = s.feed ∧ (s.bufferTo target).2.limit = s.limit ∧
        (s.bufferTo target).2.overflow = s.overflow ∧
        (s.bufferTo target).2.truncated = s.truncated ∧
        (s.bufferTo target).2.tailCache = s.tailCache ∧
        s.buffer.size ≤ (s.bufferTo target).2.buffer.size ∧
        (s.exhausted = true → (s.bufferTo target).2.exhausted = true)) ∧
      ((s.bufferTo target).1 = .ok () →
        Nat.min target s.window ≤ (s.bufferTo target).2.buffer.size ∨
          (s.bufferTo target).2.exhausted = true) ∧
      (s.feed.failure = none → (s.bufferTo target).1 = .ok ()) := by
  by_cases hdone : Nat.min target s.window ≤ s.buffer.size ∨ s.exhausted = true
  · rw [bufferTo_of_done hdone]
    exact ⟨hv, ⟨rfl, rfl, rfl, rfl, rfl, Nat.le_refl _, id⟩, fun _ => hdone, fun _ => rfl⟩
  cases hfail : s.failed with
  | some e =>
    rw [bufferTo_of_failed hdone hfail]
    exact ⟨hv, ⟨rfl, rfl, rfl, rfl, rfl, Nat.le_refl _, id⟩, (fun h => by cases h),
      fun h => by simp [(hv.failed e hfail).1] at h⟩
  | none =>
    rw [bufferTo_of_read hdone hfail]
    simp only [not_or, Bool.not_eq_true] at hdone
    obtain ⟨hshort, hnotex⟩ := hdone
    -- below the goal nothing was read past the buffer, so the reader stands right after it
    have hnotail : s.tailCache = none := by
      cases ht : s.tailCache with
      | none => rfl
      | some t => simp [(hv.tailCache t ht).1] at hnotex
    have hwin : Nat.min target s.window ≤ s.window := Nat.min_le_right _ _
    have hnoover : s.overflow.size = 0 := by
      have := hv.buffer_le
      have := hv.overflow_full
      omega
    have hpulled : s.pulled = s.buffer.size := by
      rw [hv.pulled_eq hnotail hfail, hnoover, Nat.add_zero]
    have hg : s.buffer.size ≤ Nat.min target s.window := by omega
    have hvalid := filled_valid hv hpulled hnoover hnotex hfail hnotail hg hwin
    have hsize := filled_size hv hpulled hg
    have hgrow : s.buffer.size ≤ (s.filled (Nat.min target s.window)).buffer.size := by
      have := hv.buffer_size_le
      omega
    have hkeep : s.exhausted = true → (s.filled (Nat.min target s.window)).exhausted = true :=
      fun h => by simp [h] at hnotex
    by_cases hfull : Nat.min target s.window ≤ (s.filled (Nat.min target s.window)).buffer.size
    · rw [if_pos hfull]
      exact ⟨hvalid, ⟨rfl, rfl, rfl, rfl, rfl, hgrow, hkeep⟩, fun _ => .inl hfull, fun _ => rfl⟩
    · rw [if_neg hfull]
      -- the reader delivered fewer bytes than the goal: all of them are taken
      have hall : (s.filled (Nat.min target s.window)).pulled = s.feed.bytes.size := by
        rw [filled_pulled hv hpulled hg]
        omega
      cases hrun : s.feed.failure with
      | none =>
        rw [runOut_of_none (show (s.filled _).feed.failure = none from hrun)]
        refine ⟨hvalid.exhaust hrun hall ?_, ⟨rfl, rfl, rfl, rfl, rfl, hgrow, fun _ => rfl⟩,
          fun _ => .inr rfl, fun _ => rfl⟩
        show (s.filled (Nat.min target s.window)).buffer.size = min s.window s.feed.bytes.size
        omega
      | some e =>
        rw [runOut_of_some (show (s.filled _).feed.failure = some e from hrun)]
        exact ⟨hvalid.fail hrun hall, ⟨rfl, rfl, rfl, rfl, rfl, hgrow, hkeep⟩,
          (fun h => by cases h), fun h => by cases h⟩

end BufferTo

/-! ## §3 Requests -/

/-- A request from `s` keeps the invariant, the reader and the limit, only adds to the
buffer, never forgets a clean end, answers as `right` says for every completion of the reader,
and succeeds whenever the reader never fails. -/
structure Answered {α : Type} (s : Stream) (r : Except IoError α × Stream)
    (right : ByteArray → α) : Prop where
  valid : r.2.Valid
  feed : r.2.feed = s.feed
  limit : r.2.limit = s.limit
  grows : s.buffer.size ≤ r.2.buffer.size
  ends : s.exhausted = true → r.2.exhausted = true
  right : ∀ x, r.1 = .ok x → ∀ D, s.feed.Completes D → x = right D
  total : s.feed.failure = none → ∃ x, r.1 = .ok x

section Requests

variable {s : Stream} {D : ByteArray}

theorem window_eq_of_limit {s' : Stream} (h : s'.limit = s.limit) : s'.window = s.window := by
  simp only [Stream.window, h]

/-- A failed request that keeps the invariant is answered, when the reader does fail. -/
theorem Answered.of_error {α : Type} {right : ByteArray → α} {e : IoError} {s' : Stream}
    (hv : s'.Valid) (hfeed : s'.feed = s.feed) (hlimit : s'.limit = s.limit)
    (hgrow : s.buffer.size ≤ s'.buffer.size) (hend : s.exhausted = true → s'.exhausted = true)
    (hfail : s.feed.failure ≠ none) : Answered s (.error e, s') right :=
  ⟨hv, hfeed, hlimit, hgrow, hend, (fun _ h => by cases h), fun h => absurd h hfail⟩

/-- The first `n` bytes of the buffer, once it holds them or the reader ended, are the first
`n` bytes of the window over every completion. -/
theorem Valid.head_eq (hv : s.Valid) {n : Nat}
    (hreach : min n s.window ≤ s.buffer.size ∨ s.exhausted = true) (hD : s.feed.Completes D) :
    s.buffer.extract 0 (min n s.buffer.size) = D.extract 0 (min n (min s.window D.size)) := by
  have hle := hv.buffer_size_le
  have hbw := hv.buffer_le
  have hbD := hD.2.1
  -- both sides keep the same number of bytes
  have hk : min n s.buffer.size = min n (min s.window D.size) := by
    rcases hreach with h | hex
    · omega
    · obtain ⟨-, -, hsize⟩ := hv.exhausted hex
      rw [hv.completes_of_exhausted hex hD]
      omega
  have hkb : min n s.buffer.size ≤ s.feed.bytes.size := by omega
  calc s.buffer.extract 0 (min n s.buffer.size)
      = (s.feed.bytes.extract 0 s.buffer.size).extract 0 (min n s.buffer.size) := by
        rw [← hv.buffer_eq]
    _ = s.feed.bytes.extract 0 (min n s.buffer.size) := by
        rw [ByteArray.extract_extract, Nat.zero_add, Nat.zero_add,
          Nat.min_eq_left (Nat.min_le_right _ _)]
    _ = D.extract 0 (min n s.buffer.size) := hD.extract_eq hkb
    _ = D.extract 0 (min n (min s.window D.size)) := by rw [hk]

/-- The buffer, once it fills the window or the reader ended, is the window over every
completion. -/
theorem Valid.contents_eq (hv : s.Valid) (hreach : s.window ≤ s.buffer.size ∨ s.exhausted = true)
    (hD : s.feed.Completes D) : s.buffer = D.extract 0 (min s.window D.size) := by
  have h := hv.head_eq (n := s.window) (by rwa [Nat.min_self]) hD
  have hk : min s.window (min s.window D.size) = min s.window D.size := by omega
  rwa [Nat.min_eq_right hv.buffer_le, ByteArray.extract_zero_size, hk] at h

/-- A computed tail is the last window of every completion. -/
theorem Valid.tail_eq (hv : s.Valid) {t : ByteArray} (ht : s.tailCache = some t)
    (hD : s.feed.Completes D) : t = D.extract (D.size - min s.window D.size) D.size := by
  obtain ⟨hex, -, rfl⟩ := hv.tailCache t ht
  rw [hv.completes_of_exhausted hex hD]

/-- A known truncation is the truncation of the window over every completion. -/
theorem Valid.truncated_eq (hv : s.Valid) {v : Bool} (ht : s.truncated = some v)
    (hD : s.feed.Completes D) : v = decide (min s.window D.size < D.size) := by
  obtain ⟨hright, hend⟩ := hv.truncated v ht
  cases v with
  | true =>
    have hlt := of_decide_eq_true hright.symm
    have hbD := hD.2.1
    exact (decide_eq_true (by omega)).symm
  | false =>
    have hge := of_decide_eq_false hright.symm
    rw [hv.completes_of_exhausted (hend rfl) hD]
    exact (decide_eq_false (by omega)).symm

/-- A request whose every success records its answer as the tail is answered. -/
theorem answered_of_tail {r : Except IoError ByteArray × Stream} (hv : r.2.Valid)
    (hfeed : r.2.feed = s.feed) (hlimit : r.2.limit = s.limit)
    (hgrow : s.buffer.size ≤ r.2.buffer.size) (hend : s.exhausted = true → r.2.exhausted = true)
    (hrec : ∀ x, r.1 = .ok x → r.2.tailCache = some x)
    (htotal : s.feed.failure = none → ∃ x, r.1 = .ok x) :
    Answered s r (fun D => D.extract (D.size - Nat.min s.window D.size) D.size) :=
  ⟨hv, hfeed, hlimit, hgrow, hend, fun x hx D hD => by
    have h := hv.tail_eq (hrec x hx) (hfeed ▸ hD)
    rwa [window_eq_of_limit hlimit] at h, htotal⟩

/-- A request whose every success records its answer as the truncation is answered. -/
theorem answered_of_truncated {r : Except IoError Bool × Stream} (hv : r.2.Valid)
    (hfeed : r.2.feed = s.feed) (hlimit : r.2.limit = s.limit)
    (hgrow : s.buffer.size ≤ r.2.buffer.size) (hend : s.exhausted = true → r.2.exhausted = true)
    (hrec : ∀ x, r.1 = .ok x → r.2.truncated = some x)
    (htotal : s.feed.failure = none → ∃ x, r.1 = .ok x) :
    Answered s r (fun D => decide (Nat.min s.window D.size < D.size)) :=
  ⟨hv, hfeed, hlimit, hgrow, hend, fun x hx D hD => by
    have h := hv.truncated_eq (hrec x hx) (hfeed ▸ hD)
    rwa [window_eq_of_limit hlimit] at h, htotal⟩

theorem head_spec (hv : s.Valid) (n : Nat) :
    Answered s (s.head n) (fun D => D.extract 0 (Nat.min n (Nat.min s.window D.size))) := by
  obtain ⟨hv1, ⟨hfeed, hlimit, -, -, -, hgrow, hend⟩, hreach, htotal⟩ := bufferTo_spec hv n
  rcases hb : s.bufferTo n with ⟨r, s1⟩
  rw [hb] at hv1 hfeed hlimit hgrow hend hreach htotal
  dsimp only at hv1 hfeed hlimit hgrow hend hreach htotal
  have hw1 := window_eq_of_limit hlimit
  cases r with
  | error e =>
    rw [show s.head n = (.error e, s1) by simp [head, hb]]
    exact Answered.of_error hv1 hfeed hlimit hgrow hend (fun h => by cases htotal h)
  | ok u =>
    cases u
    rw [show s.head n = (.ok (s1.buffer.extract 0 (Nat.min n s1.buffer.size)), s1) by
      simp [head, hb]]
    refine ⟨hv1, hfeed, hlimit, hgrow, hend, ?_, fun _ => ⟨_, rfl⟩⟩
    rintro x hx D hD
    obtain rfl := Except.ok.inj hx
    show _ = D.extract 0 (min n (min s.window D.size))
    rw [← hw1]
    exact hv1.head_eq (by rw [hw1]; exact hreach rfl) (hfeed ▸ hD)

theorem contents_spec (hv : s.Valid) (hw : s.window ≤ Size.max) :
    Answered s s.contents (fun D => D.extract 0 (Nat.min s.window D.size)) := by
  obtain ⟨hv1, ⟨hfeed, hlimit, -, -, -, hgrow, hend⟩, hreach, htotal⟩ :=
    bufferTo_spec hv Size.max
  rcases hb : s.bufferTo Size.max with ⟨r, s1⟩
  rw [hb] at hv1 hfeed hlimit hgrow hend hreach htotal
  dsimp only at hv1 hfeed hlimit hgrow hend hreach htotal
  have hw1 := window_eq_of_limit hlimit
  cases r with
  | error e =>
    rw [show s.contents = (.error e, s1) by simp [contents, hb]]
    exact Answered.of_error hv1 hfeed hlimit hgrow hend (fun h => by cases htotal h)
  | ok u =>
    cases u
    rw [show s.contents = (.ok s1.buffer, s1) by simp [contents, hb]]
    refine ⟨hv1, hfeed, hlimit, hgrow, hend, ?_, fun _ => ⟨_, rfl⟩⟩
    rintro x hx D hD
    obtain rfl := Except.ok.inj hx
    have hfull := hreach rfl
    rw [Nat.min_eq_min, Nat.min_eq_right hw, ← hw1] at hfull
    show _ = D.extract 0 (min s.window D.size)
    rw [← hw1]
    exact hv1.contents_eq hfull (hfeed ▸ hD)

theorem tail_spec (hv : s.Valid) (hw : s.window ≤ Size.max) :
    Answered s s.tail (fun D => D.extract (D.size - Nat.min s.window D.size) D.size) := by
  cases htc : s.tailCache with
  | some t =>
    rw [show s.tail = (.ok t, s) by simp [tail, htc]]
    exact answered_of_tail hv rfl rfl (Nat.le_refl _) id
      (fun x hx => by rw [← Except.ok.inj hx]; exact htc) (fun _ => ⟨t, rfl⟩)
  | none =>
    obtain ⟨hv1, ⟨hfeed, hlimit, -, -, htc1, hgrow, hend⟩, hreach, htotal⟩ :=
      bufferTo_spec hv Size.max
    rcases hb : s.bufferTo Size.max with ⟨r, s1⟩
    rw [hb] at hv1 hfeed hlimit htc1 hgrow hend hreach htotal
    dsimp only at hv1 hfeed hlimit htc1 hgrow hend hreach htotal
    rw [htc] at htc1
    have hw1 := window_eq_of_limit hlimit
    cases r with
    | error e =>
      rw [show s.tail = (.error e, s1) by simp [tail, htc, hb]]
      exact Answered.of_error hv1 hfeed hlimit hgrow hend (fun h => by cases htotal h)
    | ok u =>
      cases u
      have hfull := hreach rfl
      rw [Nat.min_eq_min, Nat.min_eq_right hw, ← hw1] at hfull
      have hbw := hv1.buffer_le
      have hover := hv1.overflow_size_le
      have hple := hv1.pulled_le
      by_cases hex : s1.exhausted = true
      · -- the reader has ended: what is kept is the whole entry
        rw [show s.tail = (.ok (s1.lastWindow (s1.buffer ++ s1.overflow)),
            { s1 with
              truncated := some (decide (0 < s1.overflow.size))
              tailCache := some (s1.lastWindow (s1.buffer ++ s1.overflow)) }) by
          simp [tail, htc, hb, hex]]
        obtain ⟨hf, hall, hbuf⟩ := hv1.exhausted hex
        have hfailed : s1.failed = none := by
          cases h : s1.failed with
          | none => rfl
          | some e => simp [(hv1.failed e h).1] at hf
        have hkept := hv1.pulled_eq htc1 hfailed
        have hring : s1.buffer ++ s1.overflow = s1.feed.bytes := by
          rw [hv1.buffer_append_overflow, ← hkept, hall, ByteArray.extract_zero_size]
        refine answered_of_tail (hv1.settle hf hfailed hbuf hall hex ?_ ?_) hfeed hlimit hgrow hend
          (fun x hx => congrArg some (Except.ok.inj hx)) (fun _ => ⟨_, rfl⟩)
        · -- a byte was read past the window exactly when the entry is longer than it
          have := hv1.overflow_full
          rw [decide_eq_decide]
          omega
        · rw [hring, lastWindow, Nat.min_eq_min, Nat.min_comm]
      · have hB : s1.buffer.size = s1.window := by
          rcases hfull with h | h
          · omega
          · exact absurd h hex
        cases hf1 : s1.failed with
        | some e =>
          rw [show s.tail = (.error e, s1) by simp [tail, htc, hb, hex, hf1]]
          exact Answered.of_error hv1 hfeed hlimit hgrow hend
            (by rw [← hfeed, (hv1.failed e hf1).1]; simp)
        | none =>
          have hkept := hv1.pulled_eq htc1 hf1
          -- the rest of the entry, read to its end
          have hrest : s1.feed.bytes.extract s1.pulled (s1.pulled + s1.pending.size) =
              s1.feed.bytes.extract s1.pulled s1.feed.bytes.size := by
            simp only [pending, ByteArray.size_extract, Nat.min_self]
            rw [Nat.add_sub_cancel' hple]
          have hpr : s1.pulled + (s1.feed.bytes.extract s1.pulled s1.feed.bytes.size).size =
              s1.feed.bytes.size := by
            simp only [ByteArray.size_extract, Nat.min_self]
            omega
          have hring : s1.buffer ++ s1.overflow ++
              s1.feed.bytes.extract s1.pulled s1.feed.bytes.size = s1.feed.bytes := by
            rw [hv1.buffer_append_overflow, ← hkept, ByteArray.extract_append_extract,
              Nat.zero_min, Nat.max_eq_right hple, ByteArray.extract_zero_size]
          cases hrun : s1.feed.failure with
          | some e =>
            rw [show s.tail = (.error e,
                { s1 with
                  pulled := s1.pulled + (s1.feed.bytes.extract s1.pulled s1.feed.bytes.size).size
                  failed := some e }) by
              simp [tail, htc, hb, hex, hf1, take, runOut, hrun, hrest]]
            exact Answered.of_error (hv1.fail hrun hpr) hfeed hlimit hgrow hend
              (by rw [← hfeed, hrun]; simp)
          | none =>
            rw [show s.tail = (.ok (s1.lastWindow (s1.buffer ++ s1.overflow ++
                  s1.feed.bytes.extract s1.pulled s1.feed.bytes.size)),
                { s1 with
                  pulled := s1.pulled + (s1.feed.bytes.extract s1.pulled s1.feed.bytes.size).size
                  exhausted := true
                  truncated := some (decide (0 < s1.overflow.size ∨
                    0 < (s1.feed.bytes.extract s1.pulled s1.feed.bytes.size).size))
                  tailCache := some (s1.lastWindow (s1.buffer ++ s1.overflow ++
                    s1.feed.bytes.extract s1.pulled s1.feed.bytes.size)) }) by
              simp [tail, htc, hb, hex, hf1, take, runOut, hrun, hrest]]
            refine answered_of_tail (hv1.settle hrun hf1 ?_ hpr rfl ?_ ?_) hfeed hlimit hgrow
              (fun _ => rfl)
              (fun x hx => congrArg some (Except.ok.inj hx)) (fun _ => ⟨_, rfl⟩)
            · omega
            · -- the entry runs past the window exactly when bytes were kept or read beyond it
              rw [decide_eq_decide]
              simp only [ByteArray.size_extract, Nat.min_self] at hpr ⊢
              omega
            · rw [hring, lastWindow, Nat.min_eq_min, Nat.min_comm]

theorem isTruncated_spec (hv : s.Valid) (hw : s.window ≤ Size.max) :
    Answered s s.isTruncated (fun D => decide (Nat.min s.window D.size < D.size)) := by
  cases htr : s.truncated with
  | some v =>
    rw [show s.isTruncated = (.ok v, s) by simp [isTruncated, htr]]
    exact answered_of_truncated hv rfl rfl (Nat.le_refl _) id
      (fun x hx => by rw [← Except.ok.inj hx]; exact htr) (fun _ => ⟨v, rfl⟩)
  | none =>
    obtain ⟨hv1, ⟨hfeed, hlimit, -, -, htc1, hgrow, hend⟩, hreach, htotal⟩ :=
      bufferTo_spec hv Size.max
    rcases hb : s.bufferTo Size.max with ⟨r, s1⟩
    rw [hb] at hv1 hfeed hlimit htc1 hgrow hend hreach htotal
    dsimp only at hv1 hfeed hlimit htc1 hgrow hend hreach htotal
    -- while the truncation is unknown, so is the tail
    have htc : s.tailCache = none := by
      cases h : s.tailCache with
      | none => rfl
      | some t =>
        have hsome := (hv.tailCache t h).2.1
        simp [htr] at hsome
    rw [htc] at htc1
    have hw1 := window_eq_of_limit hlimit
    cases r with
    | error e =>
      rw [show s.isTruncated = (.error e, s1) by simp [isTruncated, htr, hb]]
      exact Answered.of_error hv1 hfeed hlimit hgrow hend (fun h => by cases htotal h)
    | ok u =>
      cases u
      have hfull := hreach rfl
      rw [Nat.min_eq_min, Nat.min_eq_right hw, ← hw1] at hfull
      have hbw := hv1.buffer_le
      have hover := hv1.overflow_size_le
      have hple := hv1.pulled_le
      by_cases hshort : s1.buffer.size < s1.window
      · -- the window is not full, so the reader has ended inside it
        rw [show s.isTruncated = (.ok false, { s1 with truncated := some false }) by
          simp [isTruncated, htr, hb, hshort]]
        have hex : s1.exhausted = true := by
          rcases hfull with h | h
          · omega
          · exact h
        obtain ⟨-, -, hbuf⟩ := hv1.exhausted hex
        refine answered_of_truncated (hv1.setTruncated ?_ (fun _ => hex)) hfeed hlimit hgrow hend
          (fun x hx => congrArg some (Except.ok.inj hx)) (fun _ => ⟨_, rfl⟩)
        exact (decide_eq_false (by omega)).symm
      · have hB : s1.buffer.size = s1.window := by omega
        by_cases hO : 0 < s1.overflow.size
        · -- a byte past the window was read before
          rw [show s.isTruncated = (.ok true, { s1 with truncated := some true }) by
            simp [isTruncated, htr, hb, hshort, hO]]
          refine answered_of_truncated (hv1.setTruncated ?_ (fun h => by cases h)) hfeed hlimit
            hgrow hend
            (fun x hx => congrArg some (Except.ok.inj hx)) (fun _ => ⟨_, rfl⟩)
          exact (decide_eq_true (by omega)).symm
        · cases hf1 : s1.failed with
          | some e =>
            rw [show s.isTruncated = (.error e, s1) by simp [isTruncated, htr, hb, hshort, hO, hf1]]
            exact Answered.of_error hv1 hfeed hlimit hgrow hend
              (by rw [← hfeed, (hv1.failed e hf1).1]; simp)
          | none =>
            have hkept := hv1.pulled_eq htc1 hf1
            -- look for one byte past the full window
            by_cases hmore : 0 < (s1.feed.bytes.extract s1.pulled (s1.pulled + 1)).size
            · have hmore' : 0 < min (s1.pulled + 1) s1.feed.bytes.size - s1.pulled := by
                simpa only [ByteArray.size_extract] using hmore
              rw [show s.isTruncated = (.ok true,
                  { s1 with
                    overflow := s1.feed.bytes.extract s1.pulled (s1.pulled + 1)
                    pulled := s1.pulled + (s1.feed.bytes.extract s1.pulled (s1.pulled + 1)).size
                    truncated := some true }) by
                simp [isTruncated, htr, hb, hshort, hO, hf1, take, hmore']]
              have hone : (s1.feed.bytes.extract s1.pulled (s1.pulled + 1)).size = 1 := by
                simp only [ByteArray.size_extract] at hmore ⊢
                omega
              exact answered_of_truncated (hv1.readPast hB (by omega) rfl hone (by rw [hone]))
                hfeed hlimit hgrow hend (fun x hx => congrArg some (Except.ok.inj hx))
                (fun _ => ⟨_, rfl⟩)
            · have hzero : (s1.feed.bytes.extract s1.pulled (s1.pulled + 1)).size = 0 := by
                omega
              have hzero' : min (s1.pulled + 1) s1.feed.bytes.size - s1.pulled = 0 := by
                simpa only [ByteArray.size_extract] using hzero
              have hall : s1.pulled = s1.feed.bytes.size := by omega
              cases hrun : s1.feed.failure with
              | some e =>
                rw [show s.isTruncated = (.error e,
                    { s1 with
                      pulled := s1.pulled + (s1.feed.bytes.extract s1.pulled (s1.pulled + 1)).size
                      failed := some e }) by
                  simp [isTruncated, htr, hb, hshort, hO, hf1, take, hzero', runOut, hrun]]
                exact Answered.of_error (hv1.fail hrun (by rw [hzero, Nat.add_zero, hall]))
                  hfeed hlimit hgrow hend (by rw [← hfeed, hrun]; simp)
              | none =>
                -- the reader ends at the window: the entry fits exactly
                rw [show s.isTruncated = (.ok false,
                    { s1 with
                      pulled := s1.pulled + (s1.feed.bytes.extract s1.pulled (s1.pulled + 1)).size
                      exhausted := true
                      truncated := some false }) by
                  simp [isTruncated, htr, hb, hshort, hO, hf1, take, hzero', runOut, hrun]]
                have hv2 : ({ s1 with pulled :=
                    s1.pulled + (s1.feed.bytes.extract s1.pulled (s1.pulled + 1)).size } :
                      Stream).Valid := by
                  rw [hzero, Nat.add_zero]
                  exact hv1
                refine answered_of_truncated ((hv2.exhaust hrun ?_ ?_).setTruncated ?_
                  (fun _ => rfl)) hfeed hlimit hgrow (fun _ => rfl)
                  (fun x hx => congrArg some (Except.ok.inj hx)) (fun _ => ⟨_, rfl⟩)
                · show s1.pulled + _ = s1.feed.bytes.size
                  rw [hzero, Nat.add_zero, hall]
                · show s1.buffer.size = min s1.window s1.feed.bytes.size
                  omega
                · exact (decide_eq_false (by show ¬s1.window < s1.feed.bytes.size; omega)).symm

end Requests

/-! ## §4 Streams are views of the window -/

/-- Every request keeps a stream valid, over the same reader and limit. -/
theorem keeps (F : Feed) (limit : Option Nat) (hw : windowOf limit ≤ Size.max) :
    Keeps (fun s : Stream => s.Valid ∧ s.feed = F ∧ s.limit = limit) where
  head := by
    rintro s n ⟨hv, rfl, rfl⟩
    have h := head_spec hv n
    exact ⟨h.valid, h.feed, h.limit⟩
  contents := by
    rintro s ⟨hv, rfl, rfl⟩
    have h := contents_spec hv hw
    exact ⟨h.valid, h.feed, h.limit⟩
  tail := by
    rintro s ⟨hv, rfl, rfl⟩
    have h := tail_spec hv hw
    exact ⟨h.valid, h.feed, h.limit⟩
  isTruncated := by
    rintro s ⟨hv, rfl, rfl⟩
    have h := isTruncated_spec hv hw
    exact ⟨h.valid, h.feed, h.limit⟩

/-- The valid states of a stream over `F` with limit `limit` answer every request as the window
over any completion of `F` does, or fail. -/
theorem view (F : Feed) (limit : Option Nat) (hw : windowOf limit ≤ Size.max) {D : ByteArray}
    (hD : F.Completes D) :
    WindowView (fun s : Stream => s.Valid ∧ s.feed = F ∧ s.limit = limit) D limit where
  toKeeps := keeps F limit hw
  headAnswer := by
    rintro s n ⟨hv, rfl, rfl⟩ x hx
    rw [(head_spec hv n).right x hx D hD]
    rfl
  contentsAnswer := by
    rintro s ⟨hv, rfl, rfl⟩ x hx
    rw [(contents_spec hv hw).right x hx D hD]
    rfl
  tailAnswer := by
    rintro s ⟨hv, rfl, rfl⟩ x hx
    rw [(tail_spec hv hw).right x hx D hD]
    rfl
  truncatedAnswer := by
    rintro s ⟨hv, rfl, rfl⟩ x hx
    rw [(isTruncated_spec hv hw).right x hx D hD]
    rfl

/-- Over a reader that never fails no request fails. -/
theorem neverFails (F : Feed) (limit : Option Nat) (hw : windowOf limit ≤ Size.max)
    (hF : F.failure = none) :
    NeverFails (fun s : Stream => s.Valid ∧ s.feed = F ∧ s.limit = limit) where
  head := by
    rintro s n ⟨hv, rfl, -⟩
    exact (head_spec hv n).total hF
  contents := by
    rintro s ⟨hv, rfl, rfl⟩
    exact (contents_spec hv hw).total hF
  tail := by
    rintro s ⟨hv, rfl, rfl⟩
    exact (tail_spec hv hw).total hF
  isTruncated := by
    rintro s ⟨hv, rfl, rfl⟩
    exact (isTruncated_spec hv hw).total hF

/-! ## §5 Full windows -/

/-- The buffer holds the whole window, or all of an entry that ended inside it: no request
adds to it any more. -/
def Full (s : Stream) : Prop := s.window ≤ s.buffer.size ∨ s.exhausted = true

/-- A full stream answers `contents` from its buffer, reading nothing. -/
theorem contents_of_full {s : Stream} (h : s.Full) : s.contents = (.ok s.buffer, s) := by
  have hdone : Nat.min Size.max s.window ≤ s.buffer.size ∨ s.exhausted = true := by
    rcases h with h | h
    · exact .inl (Nat.le_trans (Nat.min_le_right _ _) h)
    · exact .inr h
  simp [contents, bufferTo_of_done hdone]

/-- After a successful `contents` the stream is full, and its buffer is the answer. -/
theorem full_of_contents {s : Stream} (hv : s.Valid) (hw : s.window ≤ Size.max)
    {data : ByteArray} (h : s.contents.1 = .ok data) :
    s.contents.2.Full ∧ s.contents.2.buffer = data := by
  obtain ⟨-, ⟨-, hlimit, -⟩, hreach, -⟩ := bufferTo_spec hv Size.max
  rcases hb : s.bufferTo Size.max with ⟨r, s1⟩
  rw [hb] at hlimit hreach
  dsimp only at hlimit hreach
  cases r with
  | error e => simp [contents, hb] at h
  | ok u =>
    cases u
    have hc : s.contents = (.ok s1.buffer, s1) := by simp [contents, hb]
    rw [hc] at h ⊢
    refine ⟨?_, Except.ok.inj h⟩
    have hfull := hreach rfl
    rw [Nat.min_eq_min, Nat.min_eq_right hw, ← window_eq_of_limit hlimit] at hfull
    exact hfull

/-- A request from a full state leaves the buffer as it was, and the state full. -/
theorem Answered.full {α : Type} {right : ByteArray → α} {s : Stream}
    {r : Except IoError α × Stream} (h : Answered s r right) (hv : s.Valid) (hfull : s.Full) :
    r.2.Full ∧ r.2.buffer = s.buffer := by
  have hw := window_eq_of_limit h.limit
  have hle := h.valid.buffer_le
  have hgrow := h.grows
  -- the window was already full, or the entry had ended: the size cannot move
  have hsize : r.2.buffer.size = s.buffer.size := by
    rcases hfull with hf | hex
    · omega
    · obtain ⟨-, -, h1⟩ := hv.exhausted hex
      obtain ⟨-, -, h2⟩ := h.valid.exhausted (h.ends hex)
      rw [h2, h1, hw, h.feed]
  refine ⟨?_, ?_⟩
  · rcases hfull with hf | hex
    · exact .inl (by omega)
    · exact .inr (h.ends hex)
  · rw [h.valid.buffer_eq, hv.buffer_eq, h.feed, hsize]

/-- Every request keeps a full stream full, with the same buffer. -/
theorem keeps_full (F : Feed) (limit : Option Nat) (hw : windowOf limit ≤ Size.max)
    (data : ByteArray) :
    Keeps (fun s : Stream => (s.Valid ∧ s.feed = F ∧ s.limit = limit) ∧ s.Full ∧
      s.buffer = data) where
  head := by
    rintro s n ⟨⟨hv, rfl, rfl⟩, hfull, rfl⟩
    have h := head_spec hv n
    exact ⟨⟨h.valid, h.feed, h.limit⟩, h.full hv hfull⟩
  contents := by
    rintro s ⟨⟨hv, rfl, rfl⟩, hfull, rfl⟩
    have h := contents_spec hv hw
    exact ⟨⟨h.valid, h.feed, h.limit⟩, h.full hv hfull⟩
  tail := by
    rintro s ⟨⟨hv, rfl, rfl⟩, hfull, rfl⟩
    have h := tail_spec hv hw
    exact ⟨⟨h.valid, h.feed, h.limit⟩, h.full hv hfull⟩
  isTruncated := by
    rintro s ⟨⟨hv, rfl, rfl⟩, hfull, rfl⟩
    have h := isTruncated_spec hv hw
    exact ⟨⟨h.valid, h.feed, h.limit⟩, h.full hv hfull⟩

end Stream

end ContainerProbe
