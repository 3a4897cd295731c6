import Mathlib
import ContainerProbe.Proofs.Stream
import ContainerProbe.Source.Reader

/-!
# How a reader splits its bytes changes nothing

A stream source over a reader (`ReaderStream`) holds the fields of a `Stream` together with
the reader's script. Forgetting the script (`ReaderStream.toStream`) carries each request of
the reader stream to the same request of the stream over the reader's feed: the answers are
equal, and so are the states after, read through the same map. So the sizes of the chunks a
reader hands over, and the calls it interrupts, change nothing a request answers, and the
count of bytes read is the stream's `pulled`.

## Main statements

* `ReaderStream.fillTo_toStream`: filling the buffer call by call is filling it at once.
* `ReaderStream.serve_toStream`: one request, on both sides.
* `ReaderStream.outcomes_toStream`: a run of requests answers as the stream over the feed.
* `outcomes_chunked_eq_window`: over a reader that never fails, however it splits the bytes
  and interrupts its calls, a run of requests answers as the window over the bytes.
-/

namespace ContainerProbe

/-! ## §1 Read calls -/

namespace Reader

variable {r : Reader} {n : Nat}

/-- A call before the end, asking for at least one byte, hands over between one byte and as
many as asked for. -/
theorem deliver_before_end (hn : 0 < n) (hpos : r.pos < r.feed.bytes.size) :
    ∃ k, 0 < k ∧ k ≤ n ∧ r.pos + k ≤ r.feed.bytes.size ∧
      (r.deliver n).1 = .bytes (r.feed.bytes.extract r.pos (r.pos + k)) ∧
      (r.deliver n).2.feed = r.feed ∧ (r.deliver n).2.pos = r.pos + k := by
  have hsize : (r.feed.bytes.extract r.pos (r.pos + n)).size =
      min (r.pos + n) r.feed.bytes.size - r.pos := ByteArray.size_extract ..
  have hd : r.deliver n = (.bytes (r.feed.bytes.extract r.pos (r.pos + n)),
      { r with pos := r.pos + (r.feed.bytes.extract r.pos (r.pos + n)).size }) := by
    simp only [deliver, if_pos hpos]
  refine ⟨min (r.pos + n) r.feed.bytes.size - r.pos, by omega, by omega, by omega, ?_, ?_, ?_⟩
  · rw [hd, ← ByteArray.extract_min_size _ _ (r.pos + n), Nat.add_sub_cancel' (by omega)]
  · rw [hd]
  · rw [hd, hsize]

/-- A call at the end reports the end, or the reader's failure. -/
theorem deliver_at_end (hpos : r.feed.bytes.size ≤ r.pos) :
    (r.deliver n).1 = (match r.feed.failure with
      | some e => .failed e
      | none => .bytes ByteArray.empty) ∧ (r.deliver n).2 = r := by
  simp only [deliver, if_neg (Nat.not_lt.mpr hpos)]
  cases r.feed.failure <;> exact ⟨rfl, rfl⟩

/-- A call is interrupted, or it is a call of a reader at the same place asking for between
one byte and as many as this call asks for. -/
theorem read_cases (hn : 0 < n) :
    ((r.read n).1 = .interrupted ∧ (r.read n).2.feed = r.feed ∧ (r.read n).2.pos = r.pos) ∨
      ∃ m, 0 < m ∧ m ≤ n ∧ ∃ r0 : Reader, r0.feed = r.feed ∧ r0.pos = r.pos ∧
        r.read n = r0.deliver m := by
  unfold read
  split
  · exact .inr ⟨n, hn, Nat.le_refl _, r, rfl, rfl, rfl⟩
  · exact .inl ⟨rfl, rfl, rfl⟩
  · next cap hcap rest _ =>
    exact .inr ⟨Nat.min cap n, by rw [Nat.min_eq_min]; omega, Nat.min_le_right _ _,
      { r with script := rest }, rfl, rfl, rfl⟩

/-- Retrying interrupted calls before the end gets between one byte and as many as asked. -/
theorem readRetrying_before_end (hn : 0 < n) (hpos : r.pos < r.feed.bytes.size) :
    ∃ k, 0 < k ∧ k ≤ n ∧ r.pos + k ≤ r.feed.bytes.size ∧
      (r.readRetrying n).1 = .ok (r.feed.bytes.extract r.pos (r.pos + k)) ∧
      (r.readRetrying n).2.feed = r.feed ∧ (r.readRetrying n).2.pos = r.pos + k := by
  -- the retries run over the script; every call in between leaves the reader in place
  fun_induction readRetrying r n with
  | case1 r r1 hr ih =>
    obtain ⟨-, hfeed, hpos1⟩ := read_interrupted hr
    rw [hfeed, hpos1] at ih
    exact ih hpos
  | case2 r got r1 hr =>
    rcases read_cases (r := r) hn with ⟨hint, -⟩ | ⟨m, hm, hmn, r0, hfeed, hp, hread⟩
    · rw [hr] at hint
      cases hint
    · obtain ⟨k, hk, hkm, hkB, hgot, hfeed1, hpos1⟩ :=
        deliver_before_end (r := r0) hm (by rw [hfeed, hp]; exact hpos)
      rw [← hread, hr] at hgot hfeed1 hpos1
      cases hgot
      rw [hfeed, hp] at *
      exact ⟨k, hk, by omega, hkB, rfl, hfeed1, hpos1⟩
  | case3 r e r1 hr =>
    rcases read_cases (r := r) hn with ⟨hint, -⟩ | ⟨m, hm, hmn, r0, hfeed, hp, hread⟩
    · rw [hr] at hint
      cases hint
    · obtain ⟨k, -, -, -, hgot, -⟩ :=
        deliver_before_end (r := r0) hm (by rw [hfeed, hp]; exact hpos)
      rw [← hread, hr] at hgot
      cases hgot

/-- A call at the end that is not interrupted leaves the reader in place, and reports the end
or the reader's failure. -/
theorem read_at_end (hn : 0 < n) (hpos : r.feed.bytes.size ≤ r.pos) {reply : ReadReply}
    {r1 : Reader} (hr : r.read n = (reply, r1)) (hint : reply ≠ .interrupted) :
    reply = (match r.feed.failure with
      | some e => .failed e
      | none => .bytes ByteArray.empty) ∧ r1.feed = r.feed ∧ r1.pos = r.pos := by
  rcases read_cases (r := r) hn with ⟨hi, -⟩ | ⟨m, -, -, r0, hfeed, hp, hread⟩
  · rw [hr] at hi
    exact absurd hi hint
  · obtain ⟨hreply, hsame⟩ := deliver_at_end (r := r0) (n := m) (by rw [hfeed, hp]; exact hpos)
    rw [← hread, hr] at hreply hsame
    dsimp only at hreply hsame
    subst hsame
    rw [hfeed] at hreply
    exact ⟨hreply, hfeed, hp⟩

/-- Retrying interrupted calls at the end gets the end, or the reader's failure. -/
theorem readRetrying_at_end (hn : 0 < n) (hpos : r.feed.bytes.size ≤ r.pos) :
    (r.readRetrying n).1 = (match r.feed.failure with
      | some e => .error e
      | none => .ok ByteArray.empty) ∧
      (r.readRetrying n).2.feed = r.feed ∧ (r.readRetrying n).2.pos = r.pos := by
  fun_induction readRetrying r n with
  | case1 r r1 hr ih =>
    obtain ⟨-, hfeed, hpos1⟩ := read_interrupted hr
    rw [hfeed, hpos1] at ih
    exact ih hpos
  | case2 r got r1 hr =>
    obtain ⟨hreply, hfeed, hp⟩ := read_at_end hn hpos hr (by simp)
    refine ⟨?_, hfeed, hp⟩
    cases hf : r.feed.failure with
    | some e =>
      rw [hf] at hreply
      cases hreply
    | none =>
      rw [hf] at hreply
      cases hreply
      rfl
  | case3 r e r1 hr =>
    obtain ⟨hreply, hfeed, hp⟩ := read_at_end hn hpos hr (by simp)
    refine ⟨?_, hfeed, hp⟩
    cases hf : r.feed.failure with
    | some e' =>
      rw [hf] at hreply
      cases hreply
      rfl
    | none =>
      rw [hf] at hreply
      cases hreply

end Reader

/-! ## §2 One read of a reader stream -/

namespace ReaderStream

/-- The stream a reader stream stands for: the same fields, with the reader seen only through
what it delivers and how far it has got. -/
def toStream (c : ReaderStream) : Stream :=
  { feed := c.reader.feed, limit := c.limit, buffer := c.buffer, overflow := c.overflow,
    tailCache := c.tailCache, truncated := c.truncated, exhausted := c.exhausted,
    failed := c.failed, pulled := c.reader.pos }

section Read

variable {c : ReaderStream}

@[simp] theorem window_toStream : c.toStream.window = c.window := rfl

theorem readChunk_of_failed {e : IoError} {into : ByteArray} {max : Nat} (h : c.failed = some e) :
    c.readChunk into max = (.error e, into, c) := by
  simp [readChunk, h]

/-- A read before the end appends between one byte and as many as asked for, and moves the
reader and the count on by as many. -/
theorem readChunk_before_end (into : ByteArray) (max : Nat) (hf : c.failed = none) (hmax : 0 < max)
    (hpos : c.reader.pos < c.reader.feed.bytes.size) :
    ∃ k, 0 < k ∧ k ≤ max ∧ c.reader.pos + k ≤ c.reader.feed.bytes.size ∧
      (c.readChunk into max).1 = .ok k ∧
      (c.readChunk into max).2.1 =
        into ++ c.reader.feed.bytes.extract c.reader.pos (c.reader.pos + k) ∧
      (c.readChunk into max).2.2.toStream = { c.toStream with pulled := c.reader.pos + k } ∧
      (c.readChunk into max).2.2.bytesRead = c.bytesRead + k := by
  have hn : 0 < Nat.min max readChunkSize := by
    rw [Nat.min_eq_min]
    simp only [readChunkSize]
    omega
  obtain ⟨k, hk, hkn, hkB, hres, hfeed, hpos'⟩ := Reader.readRetrying_before_end hn hpos
  have hsize : (c.reader.feed.bytes.extract c.reader.pos (c.reader.pos + k)).size = k := by
    simp only [ByteArray.size_extract]
    omega
  rcases hr : c.reader.readRetrying (Nat.min max readChunkSize) with ⟨res, r'⟩
  rw [hr] at hres hfeed hpos'
  dsimp only at hres hfeed hpos'
  subst hres
  have hc : c.readChunk into max = (.ok k,
      into ++ c.reader.feed.bytes.extract c.reader.pos (c.reader.pos + k),
      { c with reader := r', bytesRead := c.bytesRead + k }) := by
    simp only [readChunk, hf, hr, hsize, if_neg (Nat.ne_of_gt hk)]
  refine ⟨k, hk, Nat.le_trans hkn (Nat.min_le_left _ _), hkB, ?_⟩
  rw [hc]
  exact ⟨rfl, rfl, by simp only [toStream, hfeed, hpos'], rfl⟩

/-- A read at the end of a reader that ends records the end. -/
theorem readChunk_at_end_ok (into : ByteArray) (max : Nat) (hf : c.failed = none) (hmax : 0 < max)
    (hpos : c.reader.feed.bytes.size ≤ c.reader.pos) (hend : c.reader.feed.failure = none) :
    (c.readChunk into max).1 = .ok 0 ∧ (c.readChunk into max).2.1 = into ∧
      (c.readChunk into max).2.2.toStream = { c.toStream with exhausted := true } ∧
      (c.readChunk into max).2.2.bytesRead = c.bytesRead := by
  have hn : 0 < Nat.min max readChunkSize := by
    rw [Nat.min_eq_min]
    simp only [readChunkSize]
    omega
  obtain ⟨hres, hfeed, hpos'⟩ := Reader.readRetrying_at_end hn hpos
  rcases hr : c.reader.readRetrying (Nat.min max readChunkSize) with ⟨res, r'⟩
  rw [hr] at hres hfeed hpos'
  dsimp only at hres hfeed hpos'
  rw [hend] at hres
  subst hres
  have hc : c.readChunk into max = (.ok 0, into, { c with reader := r', exhausted := true }) := by
    simp only [readChunk, hf, hr, ByteArray.size_empty, if_true]
  rw [hc]
  exact ⟨rfl, rfl, by simp only [toStream, hfeed, hpos'], rfl⟩

/-- A read at the end of a reader that fails records the failure. -/
theorem readChunk_at_end_error {e : IoError} (into : ByteArray) (max : Nat) (hf : c.failed = none)
    (hmax : 0 < max)
    (hpos : c.reader.feed.bytes.size ≤ c.reader.pos) (hend : c.reader.feed.failure = some e) :
    (c.readChunk into max).1 = .error e ∧ (c.readChunk into max).2.1 = into ∧
      (c.readChunk into max).2.2.toStream = { c.toStream with failed := some e } ∧
      (c.readChunk into max).2.2.bytesRead = c.bytesRead := by
  have hn : 0 < Nat.min max readChunkSize := by
    rw [Nat.min_eq_min]
    simp only [readChunkSize]
    omega
  obtain ⟨hres, hfeed, hpos'⟩ := Reader.readRetrying_at_end hn hpos
  rcases hr : c.reader.readRetrying (Nat.min max readChunkSize) with ⟨res, r'⟩
  rw [hr] at hres hfeed hpos'
  dsimp only at hres hfeed hpos'
  rw [hend] at hres
  subst hres
  have hc : c.readChunk into max = (.error e, into, { c with reader := r', failed := some e }) := by
    simp only [readChunk, hf, hr]
  rw [hc]
  exact ⟨rfl, rfl, by simp only [toStream, hfeed, hpos'], rfl⟩

end Read

end ReaderStream

/-! ## §3 Filling in two steps -/

namespace Stream

variable {s : Stream}

/-- Below a goal inside the window, with no end or failure met, the reader stands right after
the buffer and nothing past the window was read. -/
theorem Valid.reading (hv : s.Valid) (hshort : s.buffer.size < s.window)
    (hex : s.exhausted = false) (hf : s.failed = none) :
    s.pulled = s.buffer.size ∧ s.overflow.size = 0 ∧ s.tailCache = none := by
  have htail : s.tailCache = none := by
    cases ht : s.tailCache with
    | none => rfl
    | some t => simp [(hv.tailCache t ht).1] at hex
  have hover : s.overflow.size = 0 := by
    have := hv.overflow_full
    omega
  refine ⟨?_, hover, htail⟩
  rw [hv.pulled_eq htail hf, hover, Nat.add_zero]

/-- Taking bytes at the end of the reader's bytes takes nothing. -/
theorem filled_of_end (hp : s.feed.bytes.size ≤ s.pulled) (goal : Nat) : s.filled goal = s := by
  have hempty : s.feed.bytes.extract s.pulled (s.pulled + (goal - s.buffer.size)) =
      ByteArray.empty := by
    rw [ByteArray.extract_eq_empty_iff]
    omega
  simp only [filled, hempty, ByteArray.append_empty, ByteArray.size_empty, Nat.add_zero]

/-- Filling to `a` and then to `b` is filling to `b`. -/
theorem filled_filled (hv : s.Valid) (hp : s.pulled = s.buffer.size) {a b : Nat}
    (ha : s.buffer.size ≤ a) (hab : a ≤ b) : (s.filled a).filled b = s.filled b := by
  have h1 := filled_buffer hv hp ha
  have h2 := filled_pulled hv hp ha
  have h3 := filled_buffer hv hp (Nat.le_trans ha hab)
  have h4 := filled_pulled hv hp (Nat.le_trans ha hab)
  have hsize : (s.filled a).buffer.size = min a s.feed.bytes.size := by
    rw [h1, ByteArray.size_extract, Nat.sub_zero]
  -- the second step starts where the first stopped, at `min a B`
  have hbuf : ((s.filled a).filled b).buffer = (s.filled b).buffer := by
    have hstep : ((s.filled a).filled b).buffer = (s.filled a).buffer ++
        s.feed.bytes.extract (s.filled a).pulled
          ((s.filled a).pulled + (b - (s.filled a).buffer.size)) := rfl
    calc ((s.filled a).filled b).buffer
        = s.feed.bytes.extract 0 a ++ s.feed.bytes.extract (min a s.feed.bytes.size) b := by
          rw [hstep, hsize, h2, h1, Nat.add_sub_cancel' (by omega)]
      _ = s.feed.bytes.extract 0 (min a s.feed.bytes.size) ++
            s.feed.bytes.extract (min a s.feed.bytes.size) b := by
          rw [ByteArray.extract_min_size]
      _ = (s.filled b).buffer := by
          rw [ByteArray.extract_append_extract, h3, Nat.zero_min, Nat.max_eq_right (by omega)]
  have hpulled : ((s.filled a).filled b).pulled = (s.filled b).pulled := by
    have hstep : ((s.filled a).filled b).pulled = (s.filled a).pulled +
        (s.feed.bytes.extract (s.filled a).pulled
          ((s.filled a).pulled + (b - (s.filled a).buffer.size))).size := rfl
    rw [hstep, h4, ByteArray.size_extract, hsize, h2]
    omega
  -- both are `s` with its buffer and count replaced
  have hshape : ∀ u p, u = (s.filled b).buffer → p = (s.filled b).pulled →
      ({ s with buffer := u, pulled := p } : Stream) = s.filled b := by
    rintro u p rfl rfl
    rfl
  exact hshape _ _ hbuf hpulled

/-- Taking part of the way towards the goal first changes nothing about filling to it. -/
theorem bufferTo_filled (hv : s.Valid) (hp : s.pulled = s.buffer.size)
    (hex : s.exhausted = false) (hf : s.failed = none) (target a : Nat)
    (ha : s.buffer.size ≤ a) (hgoal : a ≤ Nat.min target s.window)
    (hshort : s.buffer.size < Nat.min target s.window) (hB : a ≤ s.feed.bytes.size) :
    (s.filled a).bufferTo target = s.bufferTo target := by
  have hnot : ¬(Nat.min target s.window ≤ s.buffer.size ∨ s.exhausted = true) := by
    rw [hex]
    simp only [Bool.false_eq_true, or_false, Nat.not_le]
    exact hshort
  have hsize : (s.filled a).buffer.size = a := by
    rw [filled_size hv hp ha]
    omega
  rw [bufferTo_of_read hnot hf]
  by_cases hdone : Nat.min target s.window ≤ a
  · -- the first step already reached the goal
    have hga : a = Nat.min target s.window := by omega
    have hdone' : Nat.min target (s.filled a).window ≤ (s.filled a).buffer.size ∨
        (s.filled a).exhausted = true := .inl (by rw [hsize]; exact hdone)
    rw [bufferTo_of_done hdone', ← hga, if_pos (by omega)]
  · have hnot' : ¬(Nat.min target (s.filled a).window ≤ (s.filled a).buffer.size ∨
        (s.filled a).exhausted = true) := by
      show ¬(Nat.min target s.window ≤ (s.filled a).buffer.size ∨ s.exhausted = true)
      rw [hsize, hex]
      simp only [Bool.false_eq_true, or_false]
      exact hdone
    have hw : (s.filled a).window = s.window := rfl
    rw [bufferTo_of_read hnot' hf, hw, filled_filled hv hp ha hgoal]

end Stream

/-! ## §4 Filling the buffer call by call -/

namespace ReaderStream

/-- A result on a reader stream stands for a result on a stream: the same answer, a state that
forgets to the stream's, and a count of bytes read that is still the reader's position. -/
structure Tracks {α : Type} (r : Except IoError α × ReaderStream) (r' : Except IoError α × Stream) :
    Prop where
  answer : r.1 = r'.1
  state : r.2.toStream = r'.2
  count : r.2.bytesRead = r.2.reader.pos

theorem Tracks.eq {α : Type} {r : Except IoError α × ReaderStream}
    {r' : Except IoError α × Stream} (h : Tracks r r') : r' = (r.1, r.2.toStream) := by
  rw [h.answer, h.state]

/-- Filling the buffer call by call ends as filling it at once does, with every byte read
counted. -/
theorem fillTo_toStream (c : ReaderStream) (target : Nat) :
    c.toStream.Valid → c.bytesRead = c.reader.pos →
      Tracks (c.fillTo target) (c.toStream.bufferTo target) := by
  fun_induction fillTo c target with
  | case1 c hgo e buf s1 h =>
    intro hv hb
    have hnot : ¬(Nat.min target c.toStream.window ≤ c.toStream.buffer.size ∨
        c.toStream.exhausted = true) := by
      show ¬(Nat.min target c.window ≤ c.buffer.size ∨ c.exhausted = true)
      rw [hgo.2]
      simp only [Bool.false_eq_true, or_false, Nat.not_le]
      exact hgo.1
    cases hf : c.failed with
    | some e' =>
      -- the remembered failure is replayed
      rw [readChunk_of_failed hf] at h
      cases h
      rw [Stream.bufferTo_of_failed hnot hf]
      exact ⟨rfl, rfl, hb⟩
    | none =>
      by_cases hpos : c.reader.pos < c.reader.feed.bytes.size
      · obtain ⟨k, -, -, -, hres, -⟩ :=
          readChunk_before_end c.buffer (Nat.min target c.window - c.buffer.size) hf (by omega) hpos
        rw [h] at hres
        cases hres
      cases hend : c.reader.feed.failure with
      | none =>
        obtain ⟨hres, -⟩ := readChunk_at_end_ok c.buffer (Nat.min target c.window - c.buffer.size) hf (by omega) (by omega) hend
        rw [h] at hres
        cases hres
      | some e' =>
        -- the reader fails at its end
        obtain ⟨hres, hbuf, hst, hbr⟩ :=
          readChunk_at_end_error c.buffer (Nat.min target c.window - c.buffer.size) hf (by omega) (by omega) hend
        rw [h] at hres hbuf hst hbr
        dsimp only at hres hbuf hst hbr
        cases hres
        have hpulled : s1.reader.pos = c.reader.pos := congrArg Stream.pulled hst
        rw [Stream.bufferTo_of_read hnot hf,
          Stream.filled_of_end (by show c.reader.feed.bytes.size ≤ c.reader.pos; omega),
          if_neg (by show ¬(Nat.min target c.window ≤ c.buffer.size); omega),
          Stream.runOut_of_some hend]
        refine ⟨rfl, ?_, by rw [hbr, hb, hpulled]⟩
        show { s1.toStream with buffer := buf } = _
        rw [hst, hbuf]
        rfl
  | case2 c hgo n buf s1 h ih =>
    intro hv hb
    have hgw : Nat.min target c.window ≤ c.window := Nat.min_le_right _ _
    have hnot : ¬(Nat.min target c.toStream.window ≤ c.toStream.buffer.size ∨
        c.toStream.exhausted = true) := by
      show ¬(Nat.min target c.window ≤ c.buffer.size ∨ c.exhausted = true)
      rw [hgo.2]
      simp only [Bool.false_eq_true, or_false, Nat.not_le]
      exact hgo.1
    cases hf : c.failed with
    | some e' =>
      rw [readChunk_of_failed hf] at h
      cases h
    | none =>
      obtain ⟨hp, hover, htail⟩ :=
        Stream.Valid.reading hv (by show c.buffer.size < c.window; omega) hgo.2 hf
      change c.reader.pos = c.buffer.size at hp
      by_cases hpos : c.reader.pos < c.reader.feed.bytes.size
      · -- a chunk of `k` bytes arrives: the buffer is filled part of the way
        obtain ⟨k, hk, hkmax, hkB, hres, hbuf, hst, hbr⟩ :=
          readChunk_before_end c.buffer (Nat.min target c.window - c.buffer.size) hf (by omega) hpos
        rw [h] at hres hbuf hst hbr
        dsimp only at hres hbuf hst hbr
        cases hres
        have hsz : (c.reader.feed.bytes.extract c.reader.pos (c.reader.pos + n)).size = n := by
          simp only [ByteArray.size_extract]
          omega
        have hnew : ({ s1 with buffer := buf } : ReaderStream).toStream =
            c.toStream.filled (c.buffer.size + n) := by
          show { s1.toStream with buffer := buf } = _
          rw [hst, hbuf]
          simp only [Stream.filled, toStream, Nat.add_sub_cancel_left, hsz]
        have hvalid : (c.toStream.filled (c.buffer.size + n)).Valid :=
          Stream.filled_valid hv hp hover hgo.2 hf htail (Nat.le_add_right _ _)
            (by show c.buffer.size + n ≤ c.window; omega)
        have hfill : (c.toStream.filled (c.buffer.size + n)).bufferTo target =
            c.toStream.bufferTo target :=
          Stream.bufferTo_filled hv hp hgo.2 hf target (c.buffer.size + n) (Nat.le_add_right _ _)
            (by show c.buffer.size + n ≤ Nat.min target c.window; omega)
            (by show c.buffer.size < Nat.min target c.window; omega)
            (by show c.buffer.size + n ≤ c.reader.feed.bytes.size; omega)
        have hpulled : s1.reader.pos = c.reader.pos + n := congrArg Stream.pulled hst
        have hih := ih (by rw [hnew]; exact hvalid)
          (by show s1.bytesRead = s1.reader.pos; rw [hbr, hb, hpulled])
        rwa [hnew, hfill] at hih
      cases hend : c.reader.feed.failure with
      | some e' =>
        obtain ⟨hres, -⟩ := readChunk_at_end_error c.buffer (Nat.min target c.window - c.buffer.size) hf (by omega) (by omega) hend
        rw [h] at hres
        cases hres
      | none =>
        -- the reader ends before the goal: the end is recorded and nothing more is read
        obtain ⟨hres, hbuf, hst, hbr⟩ :=
          readChunk_at_end_ok c.buffer (Nat.min target c.window - c.buffer.size) hf (by omega) (by omega) hend
        rw [h] at hres hbuf hst hbr
        dsimp only at hres hbuf hst hbr
        cases hres
        have hnew : ({ s1 with buffer := buf } : ReaderStream).toStream =
            { c.toStream with exhausted := true } := by
          show { s1.toStream with buffer := buf } = _
          rw [hst, hbuf]
          rfl
        have hall : c.reader.pos = c.reader.feed.bytes.size := by
          have := hv.pulled_le
          change c.reader.pos ≤ c.reader.feed.bytes.size at this
          omega
        have hvalid : ({ c.toStream with exhausted := true } : Stream).Valid :=
          hv.exhaust hend hall (by
            show c.buffer.size = min c.window c.reader.feed.bytes.size
            omega)
        have hpulled : s1.reader.pos = c.reader.pos := congrArg Stream.pulled hst
        have hih := ih (by rw [hnew]; exact hvalid)
          (by show s1.bytesRead = s1.reader.pos; rw [hbr, hb, hpulled])
        rw [hnew, Stream.bufferTo_of_done (.inr rfl)] at hih
        rwa [Stream.bufferTo_of_read hnot hf,
          Stream.filled_of_end (by show c.reader.feed.bytes.size ≤ c.reader.pos; omega),
          if_neg (by show ¬(Nat.min target c.window ≤ c.buffer.size); omega),
          Stream.runOut_of_none hend]
  | case3 c hgo =>
    intro hv hb
    have hdone : Nat.min target c.toStream.window ≤ c.toStream.buffer.size ∨
        c.toStream.exhausted = true := by
      simp only [window_toStream]
      show Nat.min target c.window ≤ c.buffer.size ∨ c.exhausted = true
      by_cases hx : c.exhausted = true
      · exact .inr hx
      · exact .inl (Nat.le_of_not_lt fun hlt => hgo ⟨hlt, by simpa using hx⟩)
    rw [Stream.bufferTo_of_done hdone]
    exact ⟨rfl, rfl, hb⟩

end ReaderStream

/-! ## §5 Reading to the end through a ring -/

/-- `ring` holds the bytes of `data` just before `pos`: at least the last `w` of them, or all
of them when there are fewer. -/
def RingOf (data : ByteArray) (w pos : Nat) (ring : ByteArray) : Prop :=
  ring = data.extract (pos - ring.size) pos ∧ min w pos ≤ ring.size

namespace RingOf

variable {data ring : ByteArray} {w pos : Nat}

theorem size_le (h : RingOf data w pos ring) (hp : pos ≤ data.size) : ring.size ≤ pos := by
  have hs := congrArg ByteArray.size h.1
  rw [ByteArray.size_extract] at hs
  omega

theorem of_prefix (hp : pos ≤ data.size) : RingOf data w pos (data.extract 0 pos) := by
  have hs : (data.extract 0 pos).size = pos := by
    rw [ByteArray.size_extract]
    omega
  refine ⟨by rw [hs, Nat.sub_self], by omega⟩

/-- Appending the next bytes keeps the ring, further on. -/
theorem append (h : RingOf data w pos ring) {k : Nat} (hk : pos + k ≤ data.size) :
    RingOf data w (pos + k) (ring ++ data.extract pos (pos + k)) := by
  have hle := h.size_le (by omega)
  have hs : (ring ++ data.extract pos (pos + k)).size = ring.size + k := by
    rw [ByteArray.size_append, ByteArray.size_extract]
    omega
  refine ⟨?_, by rw [hs]; have := h.2; omega⟩
  rw [hs]
  conv => lhs; rw [h.1]
  rw [ByteArray.extract_append_extract, Nat.min_eq_left (by omega), Nat.max_eq_right (by omega)]
  congr 1
  omega

/-- Cutting the ring back to the last window keeps it. -/
theorem keepLast (h : RingOf data w pos ring) (hp : pos ≤ data.size) :
    RingOf data w pos (ContainerProbe.keepLast w ring) := by
  have hle := h.size_le hp
  have hs : (ContainerProbe.keepLast w ring).size = min w ring.size := by
    simp only [ContainerProbe.keepLast, ByteArray.size_extract]
    omega
  refine ⟨?_, by rw [hs]; have := h.2; omega⟩
  rw [hs]
  conv => lhs; unfold ContainerProbe.keepLast; rw [h.1]
  rw [ByteArray.extract_extract]
  -- the two bounds separately: `congr 1` would try to close them by unfolding the sizes
  refine congr (congrArg data.extract ?_) ?_
  · have hsz := congrArg ByteArray.size h.1
    rw [ByteArray.size_extract] at hsz
    rw [ByteArray.size_extract]
    omega
  · rw [ByteArray.size_extract]
    omega

/-- The last window of a ring at the end is the last window of all the bytes. -/
theorem keepLast_eq (h : RingOf data w data.size ring) :
    ContainerProbe.keepLast w ring = ContainerProbe.keepLast w data := by
  have hle := h.size_le (Nat.le_refl _)
  unfold ContainerProbe.keepLast
  conv => lhs; rw [h.1]
  rw [ByteArray.extract_extract, ByteArray.size_extract]
  congr 1
  · have := h.2
    omega
  · omega

end RingOf

namespace ReaderStream

/-- What a read changes is read off the stream it stands for. -/
theorem toStream_fields {c' : ReaderStream} {t : Stream} (h : c'.toStream = t) :
    c'.reader.feed = t.feed ∧ c'.reader.pos = t.pulled ∧ c'.limit = t.limit ∧
      c'.exhausted = t.exhausted ∧ c'.failed = t.failed := by
  subst h
  exact ⟨rfl, rfl, rfl, rfl, rfl⟩

/-- Reading to the end through the ring drains the reader to its clean end or its failure.
At a clean end the last window of the ring is the last window of the entry, and `beyond`
learns whether anything was left to read. -/
theorem readToEnd_spec (c : ReaderStream) (ring : ByteArray) (beyond : Bool) :
    c.failed = none → c.bytesRead = c.reader.pos → c.reader.pos ≤ c.reader.feed.bytes.size →
    (c.exhausted = true →
      c.reader.pos = c.reader.feed.bytes.size ∧ c.reader.feed.failure = none) →
    RingOf c.reader.feed.bytes c.window c.reader.pos ring →
    (c.readToEnd ring beyond).2.bytesRead = (c.readToEnd ring beyond).2.reader.pos ∧
    match c.reader.feed.failure with
    | some e => (c.readToEnd ring beyond).1 = .error e ∧
        (c.readToEnd ring beyond).2.toStream =
          { c.toStream with pulled := c.reader.feed.bytes.size, failed := some e }
    | none => (∃ ring', (c.readToEnd ring beyond).1 =
          .ok (ring', beyond || decide (c.reader.pos < c.reader.feed.bytes.size)) ∧
          keepLast c.window ring' = keepLast c.window c.reader.feed.bytes) ∧
        (c.readToEnd ring beyond).2.toStream =
          { c.toStream with pulled := c.reader.feed.bytes.size, exhausted := true } := by
  fun_induction readToEnd c ring beyond with
  | case1 c ring beyond hgo e junk c1 h =>
    intro hf hb hle hex hring
    by_cases hpos : c.reader.pos < c.reader.feed.bytes.size
    · obtain ⟨k, -, -, -, hres, -⟩ :=
        readChunk_before_end ring readChunkSize hf (by decide) hpos
      rw [h] at hres
      cases hres
    cases hend : c.reader.feed.failure with
    | none =>
      obtain ⟨hres, -⟩ := readChunk_at_end_ok ring readChunkSize hf (by decide) (by omega) hend
      rw [h] at hres
      cases hres
    | some e' =>
      -- the failure is met at the end of the bytes
      obtain ⟨hres, -, hst, hbr⟩ :=
        readChunk_at_end_error ring readChunkSize hf (by decide) (by omega) hend
      rw [h] at hres hst hbr
      dsimp only at hres hst hbr
      cases hres
      have hpB : c.reader.pos = c.reader.feed.bytes.size := by omega
      have hpos1 := (toStream_fields hst).2.1
      refine ⟨by rw [hbr, hb]; exact hpos1.symm, rfl, ?_⟩
      rw [hst]
      simp only [toStream, hpB]
  | case2 c ring beyond hgo n ring1 c1 h ring2 ih =>
    intro hf hb hle hex hring
    by_cases hpos : c.reader.pos < c.reader.feed.bytes.size
    · -- a chunk arrives and is appended to the ring
      obtain ⟨k, hk, -, hkB, hres, hbuf, hst, hbr⟩ :=
        readChunk_before_end ring readChunkSize hf (by decide) hpos
      rw [h] at hres hbuf hst hbr
      dsimp only at hres hbuf hst hbr
      cases hres
      obtain ⟨hfeed1, hpos1, hlim1, hex1, hf1⟩ := toStream_fields hst
      dsimp only [toStream] at hfeed1 hpos1 hlim1 hex1 hf1
      have hw1 : c1.window = c.window := by simp only [window, hlim1]
      have hring1 : RingOf c.reader.feed.bytes c.window (c.reader.pos + n) ring1 := by
        rw [hbuf]
        exact hring.append hkB
      obtain ⟨hb2, hrest⟩ := ih (hf1.trans hf) (by rw [hbr, hb, hpos1])
        (by rw [hfeed1, hpos1]; exact hkB)
        (fun h1 => by rw [hex1] at h1; simp [hgo] at h1)
        (by
          rw [hfeed1, hpos1, hw1]
          show RingOf _ _ _ (if _ then _ else _)
          split
          · exact hring1.keepLast hkB
          · exact hring1)
      refine ⟨hb2, ?_⟩
      rw [hfeed1, hpos1, hw1] at hrest
      -- something was left to read, so `beyond` is set on both sides
      have hbeyond : (beyond || decide (0 < n) ||
          decide (c.reader.pos + n < c.reader.feed.bytes.size)) =
          (beyond || decide (c.reader.pos < c.reader.feed.bytes.size)) := by
        simp [hk, hpos]
      cases hend : c.reader.feed.failure with
      | some e =>
        rw [hend] at hrest
        obtain ⟨herr, hst2⟩ := hrest
        refine ⟨herr, ?_⟩
        rw [hst2, hst]
      | none =>
        rw [hend] at hrest
        obtain ⟨⟨ring', hok, hlast⟩, hst2⟩ := hrest
        refine ⟨⟨ring', by rw [hok, hbeyond], hlast⟩, ?_⟩
        rw [hst2, hst]
    · cases hend : c.reader.feed.failure with
      | some e' =>
        obtain ⟨hres, -⟩ :=
          readChunk_at_end_error ring readChunkSize hf (by decide) (by omega) hend
        rw [h] at hres
        cases hres
      | none =>
        -- the end is met and recorded; the ring is kept as it is, or cut back
        obtain ⟨hres, hbuf, hst, hbr⟩ :=
          readChunk_at_end_ok ring readChunkSize hf (by decide) (by omega) hend
        rw [h] at hres hbuf hst hbr
        dsimp only at hres hbuf hst hbr
        cases hres
        subst hbuf
        obtain ⟨hfeed1, hpos1, hlim1, hex1, hf1⟩ := toStream_fields hst
        dsimp only [toStream] at hfeed1 hpos1 hlim1 hex1 hf1
        have hw1 : c1.window = c.window := by simp only [window, hlim1]
        have hpB : c.reader.pos = c.reader.feed.bytes.size := by omega
        obtain ⟨hb2, hrest⟩ := ih (hf1.trans hf) (by rw [hbr, hb, hpos1])
          (by rw [hfeed1, hpos1]; exact hle)
          (fun _ => ⟨by rw [hfeed1, hpos1]; exact hpB, by rw [hfeed1]; exact hend⟩)
          (by
            rw [hfeed1, hpos1, hw1]
            show RingOf _ _ _ (if _ then _ else _)
            split
            · exact hring.keepLast hle
            · exact hring)
        refine ⟨hb2, ?_⟩
        rw [hfeed1, hpos1, hw1, hend] at hrest
        obtain ⟨⟨ring', hok, hlast⟩, hst2⟩ := hrest
        refine ⟨⟨ring', by rw [hok]; simp [hpB], hlast⟩, ?_⟩
        rw [hst2, hst]
  | case3 c ring beyond hgo =>
    intro hf hb hle hex hring
    obtain ⟨hpB, hend⟩ := hex (by simpa using hgo)
    refine ⟨hb, ?_⟩
    rw [hend]
    refine ⟨⟨ring, by simp [hpB], ?_⟩, ?_⟩
    · rw [hpB] at hring
      exact hring.keepLast_eq
    · have hx : c.exhausted = true := by simpa using hgo
      simp only [toStream, hpB, hx]

theorem readToEnd_of_exhausted {c : ReaderStream} {ring : ByteArray} {beyond : Bool} (h : c.exhausted = true) :
    c.readToEnd ring beyond = (.ok (ring, beyond), c) := by
  rw [readToEnd, dif_neg (by simp [h])]

theorem readToEnd_of_failed {c : ReaderStream} {e : IoError} {ring : ByteArray} {beyond : Bool}
    (hx : c.exhausted = false) (h : c.failed = some e) :
    c.readToEnd ring beyond = (.error e, c) := by
  rw [readToEnd, dif_pos hx]
  split
  · rename_i h'
    rw [readChunk_of_failed h] at h'
    cases h'
    rfl
  · rename_i h'
    rw [readChunk_of_failed h] at h'
    cases h'

end ReaderStream

/-! ## §6 Each request on both sides -/

theorem Stream.lastWindow_eq_keepLast (s : Stream) (ring : ByteArray) :
    s.lastWindow ring = keepLast s.window ring := by
  simp only [Stream.lastWindow, keepLast]
  congr 1
  rw [Nat.min_eq_min]
  omega

namespace ReaderStream

theorem toStream_settle (c : ReaderStream) (v : Option Bool) (t : Option ByteArray) :
    ({ c with truncated := v, tailCache := t } : ReaderStream).toStream =
      { c.toStream with truncated := v, tailCache := t } := rfl

theorem toStream_probe (c : ReaderStream) (o : ByteArray) (v : Option Bool) :
    ({ c with overflow := o, truncated := v } : ReaderStream).toStream =
      { c.toStream with overflow := o, truncated := v } := rfl

section Requests

variable (c : ReaderStream)

theorem head_toStream (n : Nat) (hv : c.toStream.Valid) (hb : c.bytesRead = c.reader.pos) :
    Tracks (c.head n) (c.toStream.head n) := by
  have hfill := fillTo_toStream c n hv hb
  rcases hc : c.fillTo n with ⟨r, c1⟩
  rw [hc] at hfill
  unfold head Stream.head
  rw [hc, hfill.eq]
  cases r with
  | error e => exact ⟨rfl, rfl, hfill.count⟩
  | ok u => exact ⟨rfl, rfl, hfill.count⟩

theorem contents_toStream (hv : c.toStream.Valid) (hb : c.bytesRead = c.reader.pos) :
    Tracks c.contents c.toStream.contents := by
  have hfill := fillTo_toStream c Size.max hv hb
  rcases hc : c.fillTo Size.max with ⟨r, c1⟩
  rw [hc] at hfill
  unfold contents Stream.contents
  rw [hc, hfill.eq]
  cases r with
  | error e => exact ⟨rfl, rfl, hfill.count⟩
  | ok u => exact ⟨rfl, rfl, hfill.count⟩

theorem tail_toStream (hv : c.toStream.Valid) (hb : c.bytesRead = c.reader.pos) :
    Tracks c.tail c.toStream.tail := by
  cases htc : c.tailCache with
  | some t =>
    have hs : c.toStream.tailCache = some t := htc
    rw [show c.tail = (.ok t, c) by simp [tail, htc],
      show c.toStream.tail = (.ok t, c.toStream) by simp [Stream.tail, hs]]
    exact ⟨rfl, rfl, hb⟩
  | none =>
    have hs : c.toStream.tailCache = none := htc
    have hfill := fillTo_toStream c Size.max hv hb
    obtain ⟨hv1, ⟨-, -, -, -, htc1, -, -⟩, -, -⟩ := Stream.bufferTo_spec hv Size.max
    rcases hc : c.fillTo Size.max with ⟨r, c1⟩
    rw [hc] at hfill
    rw [hfill.eq] at hv1 htc1
    dsimp only at hv1 htc1
    have hcount : c1.bytesRead = c1.reader.pos := hfill.count
    cases r with
    | error e =>
      rw [show c.tail = (.error e, c1) by simp [tail, htc, hc],
        show c.toStream.tail = (.error e, c1.toStream) by simp [Stream.tail, hs, hfill.eq]]
      exact ⟨rfl, rfl, hcount⟩
    | ok u =>
      cases u
      have hkept := hv1.buffer_append_overflow
      change c1.buffer ++ c1.overflow =
        c1.reader.feed.bytes.extract 0 (c1.buffer.size + c1.overflow.size) at hkept
      by_cases hx : c1.exhausted = true
      · have hxs : c1.toStream.exhausted = true := hx
        rw [show c.toStream.tail = (.ok (c1.toStream.lastWindow (c1.buffer ++ c1.overflow)),
            { c1.toStream with
              truncated := some (decide (0 < c1.overflow.size))
              tailCache := some (c1.toStream.lastWindow (c1.buffer ++ c1.overflow)) }) by
          simp [Stream.tail, hs, hfill.eq, hxs]; exact ⟨rfl, Iff.rfl⟩,
          Stream.lastWindow_eq_keepLast, window_toStream]
        by_cases ho : c1.overflow.size = 0
        · -- nothing was read past the window: the buffer is the whole entry, and its own tail
          have hbw : c1.buffer.size ≤ c1.window := hv1.buffer_le
          have hbuf : c1.buffer = c1.reader.feed.bytes.extract 0 c1.buffer.size := hv1.buffer_eq
          have hkeep : keepLast c1.window (c1.buffer ++ c1.overflow) = c1.buffer := by
            rw [hkept, ho, Nat.add_zero, ← hbuf, keepLast, Nat.sub_eq_zero_of_le hbw]
            exact ByteArray.extract_zero_size
          rw [show c.tail = (.ok c1.buffer,
              { c1 with truncated := some false, tailCache := some c1.buffer }) by
            simp [tail, htc, hc, hx, ho], hkeep, ho]
          exact ⟨rfl, rfl, hcount⟩
        · rw [show c.tail = (.ok (keepLast c1.window (c1.buffer ++ c1.overflow)),
              { c1 with
                truncated := some (decide (0 < c1.overflow.size))
                tailCache := some (keepLast c1.window (c1.buffer ++ c1.overflow)) }) by
            simp [tail, htc, hc, hx, ho, readToEnd_of_exhausted hx]]
          exact ⟨rfl, rfl, hcount⟩
      · have hxf : c1.exhausted = false := by simpa using hx
        have hxs : c1.toStream.exhausted = false := hxf
        cases hf1 : c1.failed with
        | some e =>
          -- the remembered failure is replayed on both sides
          have hfs : c1.toStream.failed = some e := hf1
          rw [show c.tail = (.error e, c1) by simp [tail, htc, hc, hx, readToEnd_of_failed hxf hf1],
            show c.toStream.tail = (.error e, c1.toStream) by
              simp [Stream.tail, hs, hfill.eq, hxs, hfs]]
          exact ⟨rfl, rfl, hcount⟩
        | none =>
          have hfs : c1.toStream.failed = none := hf1
          have hpos : c1.reader.pos = c1.buffer.size + c1.overflow.size :=
            hv1.pulled_eq (htc1.trans hs) hfs
          have hple : c1.toStream.pulled ≤ c1.toStream.feed.bytes.size := hv1.pulled_le
          have hring : RingOf c1.reader.feed.bytes c1.window c1.reader.pos
              (c1.buffer ++ c1.overflow) := by
            rw [hkept, ← hpos]
            exact RingOf.of_prefix hple
          have hspec := readToEnd_spec c1 (c1.buffer ++ c1.overflow)
            (decide (0 < c1.overflow.size)) hf1 hcount hple (fun h => absurd h hx) hring
          rcases hr : c1.readToEnd (c1.buffer ++ c1.overflow) (decide (0 < c1.overflow.size))
            with ⟨r2, c2⟩
          rw [hr] at hspec
          dsimp only at hspec
          obtain ⟨hcount2, hspec⟩ := hspec
          -- the stream takes the rest of the entry at once
          have hrest : c1.toStream.feed.bytes.extract c1.toStream.pulled
              (c1.toStream.pulled + c1.toStream.pending.size) =
              c1.toStream.feed.bytes.extract c1.toStream.pulled c1.toStream.feed.bytes.size := by
            simp only [Stream.pending, ByteArray.size_extract, Nat.min_self]
            rw [Nat.add_sub_cancel' hple]
          have hpr : c1.toStream.pulled + (c1.toStream.feed.bytes.extract c1.toStream.pulled
              c1.toStream.feed.bytes.size).size = c1.reader.feed.bytes.size := by
            simp only [ByteArray.size_extract, Nat.min_self]
            exact Nat.add_sub_cancel' hple
          cases hrun : c1.reader.feed.failure with
          | some e =>
            rw [hrun] at hspec
            obtain ⟨herr, hst⟩ := hspec
            have hruns : c1.toStream.feed.failure = some e := hrun
            rw [show c.tail = (.error e, c2) by simp [tail, htc, hc, hx, hr, herr],
              show c.toStream.tail = (.error e,
                { c1.toStream with
                  pulled := c1.toStream.pulled + (c1.toStream.feed.bytes.extract c1.toStream.pulled
                    c1.toStream.feed.bytes.size).size
                  failed := some e }) by
                simp [Stream.tail, hs, hfill.eq, hxs, hfs, Stream.take, Stream.runOut, hruns, hrest]]
            refine ⟨rfl, ?_, hcount2⟩
            rw [hst, hpr]
          | none =>
            rw [hrun] at hspec
            obtain ⟨⟨ring', hok, hlast⟩, hst⟩ := hspec
            have hruns : c1.toStream.feed.failure = none := hrun
            have hw2 : c2.window = c1.window := congrArg Stream.window hst
            have hwhole : c1.toStream.buffer ++ c1.toStream.overflow ++
                c1.toStream.feed.bytes.extract c1.toStream.pulled c1.toStream.feed.bytes.size =
                c1.toStream.feed.bytes := by
              have hple' : c1.reader.pos ≤ c1.reader.feed.bytes.size := hple
              show c1.buffer ++ c1.overflow ++
                c1.reader.feed.bytes.extract c1.reader.pos c1.reader.feed.bytes.size =
                c1.reader.feed.bytes
              rw [hkept, ← hpos, ByteArray.extract_append_extract, Nat.zero_min,
                Nat.max_eq_right hple', ByteArray.extract_zero_size]
            have ht : keepLast c2.window ring' = c1.toStream.lastWindow (c1.toStream.buffer ++
                c1.toStream.overflow ++
                c1.toStream.feed.bytes.extract c1.toStream.pulled c1.toStream.feed.bytes.size) := by
              rw [hw2, hlast, hwhole, Stream.lastWindow_eq_keepLast, window_toStream]
              rfl
            -- bytes lay past the window exactly when one was kept past it or some were left
            have hbool : (decide (0 < c1.overflow.size) ||
                decide (c1.reader.pos < c1.reader.feed.bytes.size)) =
                decide (0 < c1.toStream.overflow.size ∨ 0 < (c1.toStream.feed.bytes.extract
                  c1.toStream.pulled c1.toStream.feed.bytes.size).size) := by
              rw [Bool.decide_or]
              simp only [ByteArray.size_extract, Nat.min_self]
              show _ = (_ || decide (0 < c1.reader.feed.bytes.size - c1.reader.pos))
              rw [decide_eq_decide.mpr Nat.sub_pos_iff_lt]
              rfl
            rw [show c.tail = (.ok (keepLast c2.window ring'),
                { c2 with
                  truncated := some (decide (0 < c1.overflow.size) ||
                    decide (c1.reader.pos < c1.reader.feed.bytes.size))
                  tailCache := some (keepLast c2.window ring') }) by
                simp [tail, htc, hc, hx, hr, hok],
              show c.toStream.tail = (.ok (c1.toStream.lastWindow (c1.toStream.buffer ++
                  c1.toStream.overflow ++
                  c1.toStream.feed.bytes.extract c1.toStream.pulled c1.toStream.feed.bytes.size)),
                { c1.toStream with
                  pulled := c1.toStream.pulled + (c1.toStream.feed.bytes.extract c1.toStream.pulled
                    c1.toStream.feed.bytes.size).size
                  exhausted := true
                  truncated := some (decide (0 < c1.toStream.overflow.size ∨
                    0 < (c1.toStream.feed.bytes.extract c1.toStream.pulled
                      c1.toStream.feed.bytes.size).size))
                  tailCache := some (c1.toStream.lastWindow (c1.toStream.buffer ++
                    c1.toStream.overflow ++ c1.toStream.feed.bytes.extract c1.toStream.pulled
                      c1.toStream.feed.bytes.size)) }) by
                simp [Stream.tail, hs, hfill.eq, hxs, hfs, Stream.take, Stream.runOut, hruns, hrest]]
            refine ⟨by rw [ht], ?_, hcount2⟩
            rw [toStream_settle, hst, ht, hbool, hpr]

theorem isTruncated_toStream (hv : c.toStream.Valid) (hb : c.bytesRead = c.reader.pos) :
    Tracks c.isTruncated c.toStream.isTruncated := by
  cases htr : c.truncated with
  | some v =>
    have hs : c.toStream.truncated = some v := htr
    rw [show c.isTruncated = (.ok v, c) by simp [isTruncated, htr],
      show c.toStream.isTruncated = (.ok v, c.toStream) by simp [Stream.isTruncated, hs]]
    exact ⟨rfl, rfl, hb⟩
  | none =>
    have hs : c.toStream.truncated = none := htr
    have hfill := fillTo_toStream c Size.max hv hb
    have hv1 := (Stream.bufferTo_spec hv Size.max).1
    rcases hc : c.fillTo Size.max with ⟨r, c1⟩
    rw [hc] at hfill
    rw [hfill.eq] at hv1
    dsimp only at hv1
    have hcount : c1.bytesRead = c1.reader.pos := hfill.count
    cases r with
    | error e =>
      rw [show c.isTruncated = (.error e, c1) by simp [isTruncated, htr, hc],
        show c.toStream.isTruncated = (.error e, c1.toStream) by
          simp [Stream.isTruncated, hs, hfill.eq]]
      exact ⟨rfl, rfl, hcount⟩
    | ok u =>
      cases u
      by_cases hlt : c1.buffer.size < c1.window
      · -- the entry ended inside the window
        have hlts : c1.toStream.buffer.size < c1.window := hlt
        rw [show c.isTruncated = (.ok false, { c1 with truncated := some false }) by
            simp [isTruncated, htr, hc, hlt],
          show c.toStream.isTruncated = (.ok false, { c1.toStream with truncated := some false }) by
            simp [Stream.isTruncated, hs, hfill.eq, hlts]]
        exact ⟨rfl, rfl, hcount⟩
      have hlts : ¬c1.toStream.buffer.size < c1.window := hlt
      by_cases ho : 0 < c1.overflow.size
      · -- a byte past the window was read before
        have hos : 0 < c1.toStream.overflow.size := ho
        rw [show c.isTruncated = (.ok true, { c1 with truncated := some true }) by
            simp [isTruncated, htr, hc, hlt, ho],
          show c.toStream.isTruncated = (.ok true, { c1.toStream with truncated := some true }) by
            simp [Stream.isTruncated, hs, hfill.eq, hlts, hos]]
        exact ⟨rfl, rfl, hcount⟩
      have hos : ¬0 < c1.toStream.overflow.size := ho
      cases hf1 : c1.failed with
      | some e =>
        have hfs : c1.toStream.failed = some e := hf1
        rw [show c.isTruncated = (.error e, c1) by
            simp [isTruncated, htr, hc, hlt, ho, readChunk_of_failed hf1],
          show c.toStream.isTruncated = (.error e, c1.toStream) by
            simp [Stream.isTruncated, hs, hfill.eq, hlts, hos, hfs]]
        exact ⟨rfl, rfl, hcount⟩
      | none =>
        have hfs : c1.toStream.failed = none := hf1
        have hov : c1.overflow = ByteArray.empty := ByteArray.size_eq_zero_iff.mp (by omega)
        rcases hrc : c1.readChunk c1.overflow 1 with ⟨r2, o, c2⟩
        by_cases hpos : c1.reader.pos < c1.reader.feed.bytes.size
        · -- the byte past the window arrives
          obtain ⟨k, hk, hk1, -, hres, ho2, hst, hbr⟩ :=
            readChunk_before_end c1.overflow 1 hf1 (by decide) hpos
          rw [hrc] at hres ho2 hst hbr
          dsimp only at hres ho2 hst hbr
          obtain rfl : k = 1 := by omega
          rw [hov, ByteArray.empty_append] at ho2
          have hgot : (c1.toStream.feed.bytes.extract c1.toStream.pulled
              (c1.toStream.pulled + 1)).size = 1 := by
            simp only [ByteArray.size_extract]
            show min (c1.reader.pos + 1) c1.reader.feed.bytes.size - c1.reader.pos = 1
            omega
          rw [show c.isTruncated = (.ok (decide (0 < o.size)),
              { c2 with overflow := o, truncated := some (decide (0 < o.size)) }) by
              simp [isTruncated, htr, hc, hlt, ho, hrc, hres],
            show c.toStream.isTruncated = (.ok true,
              { c1.toStream with
                pulled := c1.toStream.pulled + 1
                overflow := c1.toStream.feed.bytes.extract c1.toStream.pulled
                  (c1.toStream.pulled + 1)
                truncated := some true }) by
              simp [Stream.isTruncated, hs, hfill.eq, hlts, hos, hfs, Stream.take, hgot]]
          have hosz : 0 < o.size := by
            have h1 : o.size = 1 := by rw [ho2]; exact hgot
            omega
          refine ⟨by rw [decide_eq_true hosz], ?_, ?_⟩
          · rw [toStream_probe, decide_eq_true hosz, hst, ho2]
            rfl
          · have hp2 : c2.reader.pos = c1.reader.pos + 1 := congrArg Stream.pulled hst
            show c2.bytesRead = c2.reader.pos
            rw [hbr, hcount, hp2]
        · cases hend : c1.reader.feed.failure with
          | some e =>
            -- the reader fails where the byte past the window would be
            obtain ⟨hres, ho2, hst, hbr⟩ :=
              readChunk_at_end_error c1.overflow 1 hf1 (by decide) (by omega) hend
            rw [hrc] at hres ho2 hst hbr
            dsimp only at hres ho2 hst hbr
            have hends : c1.toStream.feed.failure = some e := hend
            have hgot : (c1.toStream.feed.bytes.extract c1.toStream.pulled
                (c1.toStream.pulled + 1)).size = 0 := by
              simp only [ByteArray.size_extract]
              show min (c1.reader.pos + 1) c1.reader.feed.bytes.size - c1.reader.pos = 0
              omega
            rw [show c.isTruncated = (.error e, { c2 with overflow := o }) by
                simp [isTruncated, htr, hc, hlt, ho, hrc, hres],
              show c.toStream.isTruncated = (.error e, { c1.toStream with failed := some e }) by
                simp [Stream.isTruncated, hs, hfill.eq, hlts, hos, hfs, Stream.take, hgot,
                  Stream.runOut, hends]]
            refine ⟨rfl, ?_, ?_⟩
            · show ({ c2.toStream with overflow := o } : Stream) = _
              rw [hst, ho2]
              rfl
            · have hp2 : c2.reader.pos = c1.reader.pos := congrArg Stream.pulled hst
              show c2.bytesRead = c2.reader.pos
              rw [hbr, hcount, hp2]
          | none =>
            -- the reader ends exactly at the window: nothing lies past it
            obtain ⟨hres, ho2, hst, hbr⟩ :=
              readChunk_at_end_ok c1.overflow 1 hf1 (by decide) (by omega) hend
            rw [hrc] at hres ho2 hst hbr
            dsimp only at hres ho2 hst hbr
            have hends : c1.toStream.feed.failure = none := hend
            have hgot : (c1.toStream.feed.bytes.extract c1.toStream.pulled
                (c1.toStream.pulled + 1)).size = 0 := by
              simp only [ByteArray.size_extract]
              show min (c1.reader.pos + 1) c1.reader.feed.bytes.size - c1.reader.pos = 0
              omega
            rw [show c.isTruncated = (.ok (decide (0 < o.size)),
                { c2 with overflow := o, truncated := some (decide (0 < o.size)) }) by
                simp [isTruncated, htr, hc, hlt, ho, hrc, hres],
              show c.toStream.isTruncated = (.ok false,
                { c1.toStream with exhausted := true, truncated := some false }) by
                simp [Stream.isTruncated, hs, hfill.eq, hlts, hos, hfs, Stream.take, hgot,
                  Stream.runOut, hends]]
            have hosz : ¬0 < o.size := by rw [ho2]; exact ho
            refine ⟨by rw [decide_eq_false hosz], ?_, ?_⟩
            · rw [toStream_probe, decide_eq_false hosz, hst, ho2]
              rfl
            · have hp2 : c2.reader.pos = c1.reader.pos := congrArg Stream.pulled hst
              show c2.bytesRead = c2.reader.pos
              rw [hbr, hcount, hp2]

theorem Tracks.map {α β : Type} {r : Except IoError α × ReaderStream}
    {r' : Except IoError α × Stream} (h : Tracks r r') (f : α → β) :
    Tracks (r.1.map f, r.2) (r'.1.map f, r'.2) :=
  ⟨by rw [h.answer], h.state, h.count⟩

/-- One request of any kind, on both sides. -/
theorem serve_toStream (q : Request) (hv : c.toStream.Valid) (hb : c.bytesRead = c.reader.pos) :
    Tracks (ByteAccess.serve c q) (ByteAccess.serve c.toStream q) := by
  cases q with
  | head n => exact (head_toStream c n hv hb).map Answer.bytes
  | contents => exact (contents_toStream c hv hb).map Answer.bytes
  | tail => exact (tail_toStream c hv hb).map Answer.bytes
  | isTruncated => exact (isTruncated_toStream c hv hb).map Answer.truncated

end Requests

end ReaderStream

/-! ## §7 Runs of requests -/

section Runs

variable {σ τ : Type} [ByteAccess σ] [ByteAccess τ]

/-- Related states of two sources answer each request alike and stay related. -/
def AnswersAlike (R : σ → τ → Prop) : Prop :=
  ∀ s t q, R s t → (ByteAccess.serve s q).1 = (ByteAccess.serve t q).1 ∧
    R (ByteAccess.serve s q).2 (ByteAccess.serve t q).2

/-- Related states stay related along a run of requests. -/
theorem AnswersAlike.serveAll {R : σ → τ → Prop} (hR : AnswersAlike R) (qs : List Request) :
    ∀ {s t}, R s t → R (ByteAccess.serveAll s qs) (ByteAccess.serveAll t qs) := by
  induction qs with
  | nil => exact id
  | cons q qs ih => exact fun hst => ih (hR _ _ q hst).2

/-- Related states answer every run of requests alike: induction on the run, carrying the
relation from each request to the next. -/
theorem AnswersAlike.outcomes_eq {R : σ → τ → Prop} (hR : AnswersAlike R) (qs : List Request) :
    ∀ {s t}, R s t → ByteAccess.outcomes s qs = ByteAccess.outcomes t qs := by
  induction qs with
  | nil => intro s t _; rfl
  | cons q qs ih =>
    intro s t hst
    obtain ⟨hans, hnext⟩ := hR s t q hst
    simp only [ByteAccess.outcomes, hans, ih hnext]

theorem Keeps.serve {Inv : σ → Prop} (hk : Keeps Inv) {s : σ} (hs : Inv s) (q : Request) :
    Inv (ByteAccess.serve s q).2 := by
  cases q with
  | head n => exact hk.head s n hs
  | contents => exact hk.contents s hs
  | tail => exact hk.tail s hs
  | isTruncated => exact hk.isTruncated s hs

/-- An answer of a view is the window's answer. -/
theorem WindowView.serve_ok {Inv : σ → Prop} {D : ByteArray} {limit : Option Nat}
    (hv : WindowView Inv D limit) {s : σ} (hs : Inv s) {q : Request} {a : Answer}
    (h : (ByteAccess.serve s q).1 = .ok a) :
    (ByteAccess.serve (Window.make D limit) q).1 = .ok a := by
  cases q with
  | head n => exact map_of_view (hv.headAnswer s n hs) h
  | contents => exact map_of_view (hv.contentsAnswer s hs) h
  | tail => exact map_of_view (hv.tailAnswer s hs) h
  | isTruncated => exact map_of_view (hv.truncatedAnswer s hs) h

theorem NeverFails.serve {Inv : σ → Prop} (hf : NeverFails Inv) {s : σ} (hs : Inv s)
    (q : Request) : ∃ a, (ByteAccess.serve s q).1 = .ok a := by
  cases q with
  | head n =>
    obtain ⟨x, hx⟩ := hf.head s n hs
    exact ⟨.bytes x, by show (ByteAccess.head s n).1.map _ = _; rw [hx]; rfl⟩
  | contents =>
    obtain ⟨x, hx⟩ := hf.contents s hs
    exact ⟨.bytes x, by show (ByteAccess.contents s).1.map _ = _; rw [hx]; rfl⟩
  | tail =>
    obtain ⟨x, hx⟩ := hf.tail s hs
    exact ⟨.bytes x, by show (ByteAccess.tail s).1.map _ = _; rw [hx]; rfl⟩
  | isTruncated =>
    obtain ⟨v, hv⟩ := hf.isTruncated s hs
    exact ⟨.truncated v, by show (ByteAccess.isTruncated s).1.map _ = _; rw [hv]; rfl⟩

/-- A view that never fails answers each request as the window does. -/
theorem WindowView.serve_eq {Inv : σ → Prop} {D : ByteArray} {limit : Option Nat}
    (hv : WindowView Inv D limit) (hf : NeverFails Inv) {s : σ} (hs : Inv s) (q : Request) :
    (ByteAccess.serve s q).1 = (ByteAccess.serve (Window.make D limit) q).1 := by
  obtain ⟨a, ha⟩ := hf.serve hs q
  rw [ha, hv.serve_ok hs ha]

/-- The window source is left as it is by every request. -/
theorem Window.serve_snd (w : Window) (q : Request) : (ByteAccess.serve w q).2 = w := by
  cases q <;> rfl

/-- A view that never fails answers every run of requests as the window does. -/
theorem WindowView.outcomes_eq {Inv : σ → Prop} {D : ByteArray} {limit : Option Nat}
    (hv : WindowView Inv D limit) (hf : NeverFails Inv) {s : σ} (hs : Inv s)
    (qs : List Request) :
    ByteAccess.outcomes s qs = ByteAccess.outcomes (Window.make D limit) qs := by
  have hR : AnswersAlike (fun (s : σ) (w : Window) => Inv s ∧ w = Window.make D limit) := by
    rintro s w q ⟨hs, rfl⟩
    exact ⟨hv.serve_eq hf hs q, hv.toKeeps.serve hs q, Window.serve_snd _ q⟩
  exact hR.outcomes_eq qs ⟨hs, rfl⟩

end Runs

namespace ReaderStream

/-- A reader stream stands for a valid stream over `F` with limit `limit`: it forgets to that
stream, and counts as read what its reader has handed over. -/
def StandsFor (F : Feed) (limit : Option Nat) (c : ReaderStream) (s : Stream) : Prop :=
  c.toStream = s ∧ c.bytesRead = c.reader.pos ∧ s.Valid ∧ s.feed = F ∧ s.limit = limit

/-- A reader stream and the stream it stands for answer alike, request after request. -/
theorem answersAlike_standsFor (F : Feed) (limit : Option Nat) (hw : windowOf limit ≤ Size.max) :
    AnswersAlike (StandsFor F limit) := by
  rintro c s q ⟨rfl, hb, hv, hF, hL⟩
  have h := serve_toStream c q hv hb
  exact ⟨h.answer, h.state, h.count, h.state ▸ (Stream.keeps F limit hw).serve ⟨hv, hF, hL⟩ q⟩

/-- A run of requests on a reader stream answers as the same run on the stream it forgets to. -/
theorem outcomes_toStream (c : ReaderStream) (hw : c.window ≤ Size.max)
    (hv : c.toStream.Valid) (hb : c.bytesRead = c.reader.pos) (qs : List Request) :
    ByteAccess.outcomes c qs = ByteAccess.outcomes c.toStream qs :=
  (answersAlike_standsFor c.reader.feed c.limit hw).outcomes_eq qs ⟨rfl, hb, hv, rfl, rfl⟩

/-- A fresh reader stream answers every run of requests as the fresh stream over its reader's
feed. -/
theorem outcomes_make (feed : Feed) (script : List ReadStep) (limit : Option Nat)
    (hw : windowOf limit ≤ Size.max) (qs : List Request) :
    ByteAccess.outcomes (make { feed, script } limit) qs =
      ByteAccess.outcomes (Stream.make feed limit) qs :=
  (make { feed, script } limit).outcomes_toStream hw (Stream.make_valid feed limit) rfl qs

end ReaderStream

/-- However a reader that never fails splits an entry's bytes into chunks, and however often
it interrupts a call, a stream source over it answers every run of requests exactly as the
window over the bytes does. -/
theorem outcomes_chunked_eq_window (d : ByteArray) (script : List ReadStep)
    (limit : Option Nat) (hw : windowOf limit ≤ Size.max) (qs : List Request) :
    ByteAccess.outcomes (ReaderStream.make { feed := .ofBytes d, script } limit) qs =
      ByteAccess.outcomes (Window.make d limit) qs := by
  calc ByteAccess.outcomes (ReaderStream.make { feed := .ofBytes d, script } limit) qs
      = ByteAccess.outcomes (Stream.make (.ofBytes d) limit) qs :=
        ReaderStream.outcomes_make _ script limit hw qs
    _ = ByteAccess.outcomes (Window.make d limit) qs :=
        (Stream.view _ limit hw (Feed.completes_bytes _)).outcomes_eq
          (Stream.neverFails _ limit hw rfl) ⟨Stream.make_valid _ _, rfl, rfl⟩ qs

theorem outcomes_chunked_eq_window_split :
    windowOf (some 2) ≤ Size.max ∧
      ByteAccess.outcomes
        (ReaderStream.make
          { feed := .ofBytes (ByteArray.mk #[1, 2, 3]),
            script := [.upTo 1 Nat.one_pos, .interrupted, .upTo 1 Nat.one_pos] } (some 2))
        [.isTruncated, .head 1, .tail] =
      ByteAccess.outcomes (Window.make (ByteArray.mk #[1, 2, 3]) (some 2))
        [.isTruncated, .head 1, .tail] :=
  ⟨by decide, outcomes_chunked_eq_window _ _ _ (by decide) _⟩

end ContainerProbe
