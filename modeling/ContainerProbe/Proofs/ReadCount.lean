import Mathlib
import ContainerProbe.Proofs.Failure

/-!
# How many bytes a stream source reads

A stream source takes bytes from its reader only as far as a request needs. Every request
first fills the buffer towards a target (`Request.fillTarget`): the head of `n` bytes towards
`n`, every other request towards the largest size, that is the whole window. Then the
truncation check reads at most one byte past a full window, and the tail reads the entry to its
end. Over a reader that never fails the count of bytes taken is therefore fixed by the requests
issued so far, with `W` the window and `d` the entry:

* until the tail is asked for, the source keeps everything it took, at most `W` bytes in the
  buffer and one past them, so it has taken at most `min |d| (W + 1)` bytes, and at most
  `min |d| W` until the truncation is checked;
* over heads and contents alone it has taken exactly the largest of their targets, cut to the
  window and to the entry;
* once the tail is asked for it has taken the whole entry, and the reader's end is known from
  then on.

A stream source over a reader that hands its bytes over in chunks of any sizes counts as read
what the stream it stands for has taken (`ReaderStream.StandsFor`), so the same counts hold
of it.

## Main statements

* `Stream.bufferTo_buffer_size`: filling the buffer over a reader that never fails.
* `Stream.pulled_serveAll_heads`: the count after heads and contents.
* `ReaderStream.bytesRead_serveAll`: a reader stream counts what its stream takes.
* `bytesRead_after_requests`: the three counts, over a reader with any chunking.
-/

namespace ContainerProbe

/-- How far a request fills the buffer before it answers or looks further: the head of `n`
bytes towards `n`, every other request towards the largest size, so the whole window. -/
def Request.fillTarget : Request → Nat
  | .head n => n
  | _ => Size.max

/-- What every request of a kind keeps holds after any run of requests of that kind. -/
theorem serveAll_of_step {σ : Type} [ByteAccess σ] {I : σ → Prop} {K : Request → Prop}
    (hstep : ∀ s q, K q → I s → I (ByteAccess.serve s q).2) :
    ∀ qs : List Request, (∀ q ∈ qs, K q) → ∀ {s : σ}, I s → I (ByteAccess.serveAll s qs)
  | [], _, _, hs => hs
  | q :: qs, hk, _, hs =>
    serveAll_of_step hstep qs (fun q' hq' => hk q' (List.mem_cons_of_mem _ hq'))
      (hstep _ q (hk q List.mem_cons_self) hs)

namespace Stream

variable {s : Stream}

/-! ## §1 What a stream over a clean reader has taken -/

section Clean

variable (hv : s.Valid) (hF : s.feed.failure = none)
include hv hF

/-- Over a reader that never fails no failure is remembered. -/
theorem Valid.failed_eq_none : s.failed = none := by
  cases h : s.failed with
  | none => rfl
  | some e =>
    rw [(hv.failed e h).1] at hF
    cases hF

/-- Until the tail is read, at most one byte past the window has been taken. -/
theorem Valid.pulled_le_window_succ (ht : s.tailCache = none) :
    s.pulled ≤ min s.feed.bytes.size (s.window + 1) := by
  -- everything taken is kept: the buffer, inside the window, and at most one byte past it
  have hkept := hv.pulled_eq ht (hv.failed_eq_none hF)
  have hle := hv.pulled_le
  have hbw := hv.buffer_le
  have hover := hv.overflow_le
  omega

/-- Until a byte past the window is read, nothing past the window has been taken. -/
theorem Valid.pulled_le_window (ht : s.tailCache = none) (hover : s.overflow.size = 0) :
    s.pulled ≤ min s.feed.bytes.size s.window := by
  have hkept := hv.pulled_eq ht (hv.failed_eq_none hF)
  have hle := hv.pulled_le
  have hbw := hv.buffer_le
  omega

/-- Filling the buffer towards `target` leaves it holding the first `min target W` bytes of
the entry, or all of them when the entry is shorter, unless it already held more. -/
theorem bufferTo_buffer_size (target : Nat) :
    (s.bufferTo target).2.buffer.size =
      max s.buffer.size (min (min target s.window) s.feed.bytes.size) := by
  have hbw := hv.buffer_le
  have hbd := hv.buffer_size_le
  by_cases hdone : Nat.min target s.window ≤ s.buffer.size ∨ s.exhausted = true
  · rw [bufferTo_of_done hdone]
    dsimp only
    rcases hdone with hgoal | hex
    · rw [Nat.min_eq_min] at hgoal
      omega
    · -- an ended reader has filled the window as far as the entry goes
      have hsize := (hv.exhausted hex).2.2
      omega
  · have hfailed := hv.failed_eq_none hF
    rw [bufferTo_of_read hdone hfailed]
    simp only [not_or, Bool.not_eq_true, Nat.not_le] at hdone
    obtain ⟨hshort, hnotex⟩ := hdone
    have hg : s.buffer.size ≤ Nat.min target s.window := Nat.le_of_lt hshort
    obtain ⟨hpulled, -, -⟩ := hv.reading (Nat.lt_of_lt_of_le hshort (Nat.min_le_right _ _))
      hnotex hfailed
    have hsize := filled_size hv hpulled hg
    rw [Nat.min_eq_min] at hsize hshort ⊢
    split
    · show (s.filled _).buffer.size = _
      omega
    · rw [runOut_of_none (s := s.filled _) hF]
      show (s.filled _).buffer.size = _
      omega

/-- Reading the tail over a reader that never fails meets the reader's end. -/
theorem tail_exhausted : s.tail.2.exhausted = true := by
  cases htc : s.tailCache with
  | some t =>
    simpa [tail, htc] using (hv.tailCache t htc).1
  | none =>
    obtain ⟨hv1, ⟨hfeed, -⟩, -, htotal⟩ := bufferTo_spec hv Size.max
    rcases hb : s.bufferTo Size.max with ⟨r, s1⟩
    rw [hb] at hv1 hfeed htotal
    dsimp only at hv1 hfeed htotal
    obtain rfl : r = .ok () := htotal hF
    have hF1 : s1.feed.failure = none := hfeed ▸ hF
    by_cases hex : s1.exhausted = true
    · simp [tail, htc, hb, hex]
    · -- the reader is read to its end, which is clean
      simp [tail, htc, hb, hex, hv1.failed_eq_none hF1, take, runOut, hF1]

end Clean

/-! ## §2 What one request takes -/

/-- A request other than the tail leaves the tail unread. -/
theorem serve_tailCache (hv : s.Valid) {q : Request} (hq : q ≠ .tail) :
    (ByteAccess.serve s q).2.tailCache = s.tailCache := by
  cases q with
  | head n =>
    show (s.head n).2.tailCache = _
    rw [head_snd]
    exact (bufferTo_spec hv n).2.1.2.2.2.2.1
  | contents =>
    show s.contents.2.tailCache = _
    rw [contents_snd]
    exact (bufferTo_spec hv Size.max).2.1.2.2.2.2.1
  | tail => exact absurd rfl hq
  | isTruncated =>
    show s.isTruncated.2.tailCache = _
    cases htr : s.truncated with
    | some v => simp [isTruncated, htr]
    | none =>
      have htc1 := (bufferTo_spec hv Size.max).2.1.2.2.2.2.1
      rcases hb : s.bufferTo Size.max with ⟨r, s1⟩
      rw [hb] at htc1
      dsimp only at htc1
      cases r with
      | error e => simpa [isTruncated, htr, hb] using htc1
      | ok u =>
        -- every branch answers on the filled state, after at most one more read
        cases hrun : s1.feed.failure <;>
          simp only [isTruncated, htr, hb, take, runOut, hrun] <;> repeat' split
        all_goals exact htc1

/-- The head and the contents fill the buffer towards their target and change nothing else
that counts: the byte past the window and the tail stay as they were. -/
theorem serve_of_fill (hv : s.Valid) (hF : s.feed.failure = none) {q : Request}
    (hq : q = .contents ∨ ∃ n, q = .head n) :
    (ByteAccess.serve s q).2.buffer.size =
        max s.buffer.size (min (min q.fillTarget s.window) s.feed.bytes.size) ∧
      (ByteAccess.serve s q).2.overflow = s.overflow ∧
      (ByteAccess.serve s q).2.tailCache = s.tailCache := by
  have hfill : (ByteAccess.serve s q).2 = (s.bufferTo q.fillTarget).2 := by
    rcases hq with rfl | ⟨n, rfl⟩
    · exact contents_snd
    · exact head_snd n
  obtain ⟨-, ⟨-, -, hover, -, htc, -⟩, -⟩ := bufferTo_spec hv q.fillTarget
  rw [hfill]
  exact ⟨bufferTo_buffer_size hv hF q.fillTarget, hover, htc⟩

/-- Once the reader's end is met, every request keeps it. -/
theorem serve_exhausted (hv : s.Valid) (hw : s.window ≤ Size.max) (hex : s.exhausted = true)
    (q : Request) : (ByteAccess.serve s q).2.exhausted = true := by
  cases q with
  | head n => exact (head_spec hv n).ends hex
  | contents => exact (contents_spec hv hw).ends hex
  | tail => exact (tail_spec hv hw).ends hex
  | isTruncated => exact (isTruncated_spec hv hw).ends hex

/-! ## §3 Runs of requests -/

section Runs

variable {F : Feed} {limit : Option Nat} (hw : windowOf limit ≤ Size.max)
include hw

theorem window_le_of_limit (hlim : s.limit = limit) : s.window ≤ Size.max := by
  rw [Stream.window, hlim]
  exact hw

/-- The run lemma: a property that every request of a kind keeps on the valid states over `F`
holds, together with validity, after any run of such requests. -/
theorem serveAll_over {P : Stream → Prop} {K : Request → Prop}
    (hstep : ∀ (s : Stream) q, K q → s.Valid → s.feed = F → s.limit = limit → P s →
      P (ByteAccess.serve s q).2)
    (qs : List Request) (hk : ∀ q ∈ qs, K q) (hs : s.Valid ∧ s.feed = F ∧ s.limit = limit)
    (hp : P s) :
    ((ByteAccess.serveAll s qs).Valid ∧ (ByteAccess.serveAll s qs).feed = F ∧
      (ByteAccess.serveAll s qs).limit = limit) ∧ P (ByteAccess.serveAll s qs) :=
  serveAll_of_step (I := fun s : Stream => (s.Valid ∧ s.feed = F ∧ s.limit = limit) ∧ P s)
    (fun s q hq ⟨hs, hp⟩ => ⟨(keeps F limit hw).serve hs q, hstep s q hq hs.1 hs.2.1 hs.2.2 hp⟩)
    qs hk ⟨hs, hp⟩

variable (hF : F.failure = none)
include hF

/-- Before the tail is asked for, a stream has taken at most one byte past the window, and
none past it before the truncation is checked. -/
theorem pulled_serveAll_before_tail (qs : List Request) (htail : ∀ q ∈ qs, q ≠ .tail) :
    (ByteAccess.serveAll (make F limit) qs).pulled ≤ min F.bytes.size (windowOf limit + 1) ∧
      ((∀ q ∈ qs, q ≠ .isTruncated) →
        (ByteAccess.serveAll (make F limit) qs).pulled ≤ min F.bytes.size (windowOf limit)) := by
  -- the tail stays unread along the run
  obtain ⟨⟨hv, hfeed, hlim⟩, ht⟩ := serveAll_over hw (P := fun s => s.tailCache = none)
    (fun _ _ hq hv _ _ ht => (serve_tailCache hv hq).trans ht) qs htail
    ⟨make_valid F limit, rfl, rfl⟩ rfl
  have hF' : (ByteAccess.serveAll (make F limit) qs).feed.failure = none := by rw [hfeed]; exact hF
  refine ⟨?_, fun htrunc => ?_⟩
  · have h := hv.pulled_le_window_succ hF' ht
    rwa [hfeed, Stream.window, hlim] at h
  · -- without a truncation check nothing is read past the window
    have hover := serveAll_over hw (P := fun s => s.overflow.size = 0)
      (K := fun q => q ≠ .tail ∧ q ≠ .isTruncated)
      (fun s q hq hv hfeed _ ho => by
        have hfill : q = .contents ∨ ∃ n, q = .head n := by
          cases q with
          | head n => exact .inr ⟨n, rfl⟩
          | contents => exact .inl rfl
          | tail => exact absurd rfl hq.1
          | isTruncated => exact absurd rfl hq.2
        rw [(serve_of_fill hv (by rw [hfeed]; exact hF) hfill).2.1, ho])
      qs (fun q hq => ⟨htail q hq, htrunc q hq⟩) ⟨make_valid F limit, rfl, rfl⟩ rfl
    have h := hv.pulled_le_window hF' ht hover.2
    rwa [hfeed, Stream.window, hlim] at h

/-- After heads and contents alone, a stream has taken the largest of their targets, cut to
the window and to the entry: induction on the run, from any state that has taken its buffer
and kept no byte past it. -/
theorem pulled_serveAll_heads :
    ∀ (qs : List Request), (∀ q ∈ qs, q = .contents ∨ ∃ n, q = .head n) →
      ∀ (m : Nat) (s : Stream), s.Valid → s.feed = F → s.limit = limit →
      s.tailCache = none → s.overflow.size = 0 →
      s.buffer.size = min F.bytes.size (min (windowOf limit) m) →
      (ByteAccess.serveAll s qs).pulled =
        min F.bytes.size (min (windowOf limit) ((qs.map Request.fillTarget).foldl max m))
  | [], _, m, s, hv, hfeed, _, ht, hover, hbuf => by
    have hkept := hv.pulled_eq ht (hv.failed_eq_none (by rw [hfeed]; exact hF))
    rw [hover, Nat.add_zero] at hkept
    rw [List.map_nil, List.foldl_nil, ← hbuf, ← hkept]
    rfl
  | q :: qs, hq, m, s, hv, hfeed, hlim, ht, hover, hbuf => by
    obtain ⟨hv', hfeed', hlim'⟩ := (keeps F limit hw).serve ⟨hv, hfeed, hlim⟩ q
    obtain ⟨hbuf', hover', ht'⟩ := serve_of_fill hv (by rw [hfeed]; exact hF)
      (hq q List.mem_cons_self)
    have hwin : s.window = windowOf limit := by rw [Stream.window, hlim]
    refine pulled_serveAll_heads qs (fun q' hq' => hq q' (List.mem_cons_of_mem _ hq'))
      (max m q.fillTarget) _ hv' hfeed' hlim' (ht'.trans ht) (by rw [hover', hover]) ?_
    -- the buffer grows to the new target, cut to the window and the entry
    rw [hbuf', hbuf, hwin, hfeed]
    omega

/-- Once the tail has been asked for, a stream has taken the whole entry: from then on every
request keeps the reader's end, met once every byte is taken. -/
theorem pulled_serveAll_after_tail :
    ∀ (qs : List Request), .tail ∈ qs → ∀ (s : Stream), s.Valid → s.feed = F →
      s.limit = limit → (ByteAccess.serveAll s qs).pulled = F.bytes.size
  | [], hmem, _, _, _, _ => by cases hmem
  | q :: qs, hmem, s, hv, hfeed, hlim => by
    obtain ⟨hv', hfeed', hlim'⟩ := (keeps F limit hw).serve ⟨hv, hfeed, hlim⟩ q
    show (ByteAccess.serveAll (ByteAccess.serve s q).2 qs).pulled = _
    rcases List.mem_cons.1 hmem with rfl | hmem'
    · obtain ⟨⟨hv'', hfeed'', -⟩, hex⟩ := serveAll_over hw (P := fun s => s.exhausted = true)
        (K := fun _ => True)
        (fun _ q _ hv _ hlim hex => serve_exhausted hv (window_le_of_limit hw hlim) hex q) qs
        (fun _ _ => trivial) ⟨hv', hfeed', hlim'⟩ (tail_exhausted hv (by rw [hfeed]; exact hF))
      rw [(hv''.exhausted hex).2.1, hfeed'']
    · exact pulled_serveAll_after_tail qs hmem' _ hv' hfeed' hlim'

end Runs

end Stream

/-! ## §4 Reader streams -/

/-- A stream source over a reader counts as read, after any run of requests, what the stream
over the reader's feed has taken after the same run, however the reader chunks its bytes. -/
theorem ReaderStream.bytesRead_serveAll (feed : Feed) (script : List ReadStep)
    (limit : Option Nat) (hw : windowOf limit ≤ Size.max) (qs : List Request) :
    (ByteAccess.serveAll (make { feed, script } limit) qs).bytesRead =
      (ByteAccess.serveAll (Stream.make feed limit) qs).pulled := by
  obtain ⟨hstream, hcount, -⟩ := (answersAlike_standsFor feed limit hw).serveAll qs
    (s := make { feed, script } limit) ⟨rfl, rfl, Stream.make_valid feed limit, rfl, rfl⟩
  rw [hcount]
  exact congrArg Stream.pulled hstream

/-- A stream source over a reader that never fails, however the reader chunks the entry's bytes
`d`, reads only what its requests need. Before the tail is asked for it has read at most
`min |d| (W + 1)` bytes, `W` being the window, and at most `min |d| W` unless the truncation
was checked; after heads and contents alone it has read exactly the largest length they asked
for (the contents asking for the whole window), cut to the window and to the entry; and once
the tail is asked for it has read the whole entry. -/
theorem bytesRead_after_requests (d : ByteArray) (script : List ReadStep) (limit : Option Nat)
    (hw : windowOf limit ≤ Size.max) (qs : List Request) :
    let c := ByteAccess.serveAll (ReaderStream.make { feed := .ofBytes d, script } limit) qs
    (Request.tail ∉ qs → c.bytesRead ≤ min d.size (windowOf limit + 1) ∧
      (Request.isTruncated ∉ qs → c.bytesRead ≤ min d.size (windowOf limit))) ∧
    ((∀ q ∈ qs, q = .contents ∨ ∃ n, q = .head n) →
      c.bytesRead = min d.size (min (windowOf limit) ((qs.map Request.fillTarget).foldl max 0))) ∧
    (Request.tail ∈ qs → c.bytesRead = d.size) := by
  intro c
  have hcount : c.bytesRead = (ByteAccess.serveAll (Stream.make (.ofBytes d) limit) qs).pulled :=
    ReaderStream.bytesRead_serveAll _ script limit hw qs
  rw [hcount]
  refine ⟨fun htail => ?_, fun hheads => ?_, fun htail => ?_⟩
  · have h := Stream.pulled_serveAll_before_tail (F := .ofBytes d) hw rfl qs
      (fun q hq hq' => htail (hq' ▸ hq))
    exact ⟨h.1, fun htrunc => h.2 fun q hq hq' => htrunc (hq' ▸ hq)⟩
  · exact Stream.pulled_serveAll_heads (F := .ofBytes d) hw rfl qs hheads 0 _
      (Stream.make_valid _ _) rfl rfl rfl rfl (by simp [Stream.make])
  · exact Stream.pulled_serveAll_after_tail (F := .ofBytes d) hw rfl qs htail _
      (Stream.make_valid _ _) rfl rfl

/-- Three bytes handed over one at a time, with an interrupted call between, in a window of
two: a head of one byte and then the contents read the two bytes of the window and no more. -/
theorem bytesRead_after_requests_heads :
    windowOf (some 2) ≤ Size.max ∧
      let c := ByteAccess.serveAll
        (ReaderStream.make
          { feed := .ofBytes (ByteArray.mk #[1, 2, 3]),
            script := [.upTo 1 Nat.one_pos, .interrupted, .upTo 1 Nat.one_pos] } (some 2))
        [.head 1, .contents]
      (Request.tail ∉ [Request.head 1, .contents] →
          c.bytesRead ≤ min (ByteArray.mk #[1, 2, 3]).size (windowOf (some 2) + 1) ∧
        (Request.isTruncated ∉ [Request.head 1, .contents] →
          c.bytesRead ≤ min (ByteArray.mk #[1, 2, 3]).size (windowOf (some 2)))) ∧
      ((∀ q ∈ [Request.head 1, .contents], q = .contents ∨ ∃ n, q = .head n) →
        c.bytesRead = min (ByteArray.mk #[1, 2, 3]).size (min (windowOf (some 2))
          (([Request.head 1, .contents].map Request.fillTarget).foldl max 0))) ∧
      (Request.tail ∈ [Request.head 1, .contents] →
        c.bytesRead = (ByteArray.mk #[1, 2, 3]).size) :=
  ⟨by decide, bytesRead_after_requests _ _ _ (by decide) _⟩

end ContainerProbe
