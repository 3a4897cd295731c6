import Mathlib
import ContainerProbe.Proofs.Chunking

/-!
# What a remembered read failure answers

A stream source remembers the first failure of its reader and replays it to every later
request that needs more bytes. Every request then answers as a function of the reader alone:
the window's answer over the delivered bytes, or the reader's failure when the request reads
past them (`Feed.answer`). Which requests came before does not matter, with one exception.
Reading the tail reads to the end of the entry without keeping the byte past the window; if
the reader fails on the way, that byte is lost, and a later question about truncation meets
the remembered failure where a fresh source would have read the byte and answered yes
(`Stream.Lost`).

## Main statements

* `Stream.serve_eq_answer`: each request answers `Feed.answer`, unless the truncation check
  was lost.
* `Stream.lost_serveAll`: only reading the tail loses the check.
* `outcome_after_requests`: the outcome of a request after any others, against the outcome of
  the same request on a fresh source.
-/

namespace ContainerProbe

/-! ## §1 Reading past the delivered bytes -/

/-- Whether answering a request in window `w` asks the reader for more than its first `size`
bytes: the head and the contents ask up to the window, the tail asks to the end, and the
truncation check asks for one byte past the window. -/
def Request.readsPast (w size : Nat) : Request → Bool
  | .head n => decide (size < min n w)
  | .contents => decide (size < w)
  | .tail => true
  | .isTruncated => decide (size ≤ w)

/-- What a request answers over a reader that delivers `F`: the window's answer over the
delivered bytes, or the reader's failure when the request reads past them into it. -/
def Feed.answer (F : Feed) (limit : Option Nat) (q : Request) : Except IoError Answer :=
  match F.failure with
  | some e =>
    if q.readsPast (windowOf limit) F.bytes.size then .error e
    else (ByteAccess.serve (Window.make F.bytes limit) q).1
  | none => (ByteAccess.serve (Window.make F.bytes limit) q).1

namespace Stream

/-! ## §2 What a failure leaves behind -/

/-- A remembered failure comes with a buffer as full as the delivered bytes allow. -/
def FullWhenFailed (s : Stream) : Prop :=
  ∀ e, s.failed = some e → s.buffer.size = min s.window s.feed.bytes.size

/-- The check for a byte past the window is lost: more bytes than the window holds were
delivered, none of them was kept past the window, and the reader has failed since. -/
def Lost (s : Stream) : Prop :=
  s.failed ≠ none ∧ s.truncated = none ∧ s.overflow.size = 0 ∧ s.window < s.feed.bytes.size

/-- What a request keeps of a remembered failure: a full buffer behind it, and a lost
truncation check only where one was lost before. -/
structure KeepsFailure (s s' : Stream) : Prop where
  full : s.FullWhenFailed → s'.FullWhenFailed
  lost : s'.Lost → s.Lost

theorem KeepsFailure.refl (s : Stream) : KeepsFailure s s := ⟨id, id⟩

theorem KeepsFailure.of_failed_none {s s' : Stream} (h : s'.failed = none) : KeepsFailure s s' :=
  ⟨fun _ e he => by simp [h] at he, fun hl => absurd h hl.1⟩

/-- A request from `s` that fails does so with the reader's failure, and only when `reads`
holds. -/
def FailsOnlyIf {α : Type} (s : Stream) (r : Except IoError α) (reads : Prop) : Prop :=
  ∀ e, r = .error e → s.feed.failure = some e ∧ reads

variable {s : Stream}

/-! ## §3 Filling the buffer -/

/-- Everything filling the buffer can do: succeed, without meeting a new failure; replay the
remembered failure and change nothing; or meet the reader's failure having taken every byte,
short of the goal. -/
theorem bufferTo_cases (hv : s.Valid) (t : Nat) :
    ((s.bufferTo t).1 = .ok () ∧ ((s.bufferTo t).2 = s ∨ (s.bufferTo t).2.failed = none)) ∨
    (∃ e, s.failed = some e ∧ s.buffer.size < Nat.min t s.window ∧
      s.bufferTo t = (.error e, s)) ∨
    (∃ e, s.feed.failure = some e ∧ s.feed.bytes.size < Nat.min t s.window ∧
      (s.bufferTo t).1 = .error e ∧ (s.bufferTo t).2.failed = some e ∧
      (s.bufferTo t).2.buffer.size = s.feed.bytes.size) := by
  by_cases hdone : Nat.min t s.window ≤ s.buffer.size ∨ s.exhausted = true
  · exact .inl ⟨by rw [bufferTo_of_done hdone], .inl (by rw [bufferTo_of_done hdone])⟩
  cases hfail : s.failed with
  | some e =>
    refine .inr (.inl ⟨e, rfl, ?_, bufferTo_of_failed hdone hfail⟩)
    simp only [not_or] at hdone
    omega
  | none =>
    obtain ⟨hv1, -, -, -⟩ := bufferTo_spec hv t
    rw [bufferTo_of_read hdone hfail] at hv1 ⊢
    simp only [not_or, Bool.not_eq_true] at hdone
    obtain ⟨hshort, hnotex⟩ := hdone
    by_cases hfull : Nat.min t s.window ≤ (s.filled (Nat.min t s.window)).buffer.size
    · rw [if_pos hfull]
      exact .inl ⟨rfl, .inr hfail⟩
    rw [if_neg hfull] at hv1 ⊢
    cases hrun : s.feed.failure with
    | none =>
      rw [runOut_of_none (show (s.filled _).feed.failure = none from hrun)]
      exact .inl ⟨rfl, .inr hfail⟩
    | some e =>
      rw [runOut_of_some (show (s.filled _).feed.failure = some e from hrun)]
      -- the reader delivered fewer bytes than the goal, and all of them are in the buffer
      have hgw : Nat.min t s.window ≤ s.window := Nat.min_le_right _ _
      obtain ⟨hp, -, -⟩ := hv.reading (by omega) hnotex hfail
      have hsize := filled_size hv hp (show s.buffer.size ≤ Nat.min t s.window by omega)
      refine .inr (.inr ⟨e, rfl, by omega, rfl, rfl, ?_⟩)
      show (s.filled (Nat.min t s.window)).buffer.size = s.feed.bytes.size
      omega

theorem bufferTo_keepsFailure (hv : s.Valid) (t : Nat) : KeepsFailure s (s.bufferTo t).2 := by
  obtain ⟨-, ⟨hfeed, hlimit, -⟩, -, -⟩ := bufferTo_spec hv t
  rcases bufferTo_cases hv t with ⟨-, h | h⟩ | ⟨e, -, -, h⟩ | ⟨e, -, hshort, -, -, hsize⟩
  · rw [h]
    exact .refl s
  · exact .of_failed_none h
  · rw [h]
    exact .refl s
  · -- every delivered byte is in the buffer, and they do not fill the window
    have hw := window_eq_of_limit hlimit
    have hgw : Nat.min t s.window ≤ s.window := Nat.min_le_right _ _
    refine ⟨fun _ e' _ => ?_, fun hl => absurd hl.2.2.2 ?_⟩
    · rw [hsize, hw, hfeed]
      omega
    · rw [hw, hfeed]
      omega

theorem bufferTo_error_failure (hv : s.Valid) {t : Nat} {e : IoError}
    (h : (s.bufferTo t).1 = .error e) : s.feed.failure = some e := by
  rcases bufferTo_cases hv t with ⟨h', -⟩ | ⟨e', hf, -, h'⟩ | ⟨e', hrun, -, h', -⟩
  · rw [h'] at h
    cases h
  · rw [h'] at h
    cases h
    exact (hv.failed e hf).1
  · rw [h'] at h
    cases h
    exact hrun

theorem bufferTo_failsOnlyIf (hv : s.Valid) (hff : s.FullWhenFailed) (t : Nat) :
    FailsOnlyIf s (s.bufferTo t).1 (s.feed.bytes.size < Nat.min t s.window) := by
  intro e he
  rcases bufferTo_cases hv t with ⟨h, -⟩ | ⟨e', hf, hshort, h⟩ | ⟨e', hrun, hshort, h, -⟩
  · rw [h] at he
    cases he
  · rw [h] at he
    cases he
    -- the replayed failure came with a buffer as full as the bytes allow
    have hb := hff e hf
    have hgw : Nat.min t s.window ≤ s.window := Nat.min_le_right _ _
    exact ⟨(hv.failed e hf).1, by omega⟩
  · rw [h] at he
    cases he
    exact ⟨hrun, hshort⟩

/-! ## §4 Requests -/

theorem head_snd (n : Nat) : (s.head n).2 = (s.bufferTo n).2 := by
  rcases hb : s.bufferTo n with ⟨r, s1⟩
  cases r <;> simp [head, hb]

theorem head_error {n : Nat} {e : IoError} (h : (s.head n).1 = .error e) :
    (s.bufferTo n).1 = .error e := by
  rcases hb : s.bufferTo n with ⟨r, s1⟩
  cases r <;> simp_all [head]

theorem contents_snd : s.contents.2 = (s.bufferTo Size.max).2 := by
  rcases hb : s.bufferTo Size.max with ⟨r, s1⟩
  cases r <;> simp [contents, hb]

theorem contents_error {e : IoError} (h : s.contents.1 = .error e) :
    (s.bufferTo Size.max).1 = .error e := by
  rcases hb : s.bufferTo Size.max with ⟨r, s1⟩
  cases r <;> simp_all [contents]

/-- Reading the tail keeps a full buffer behind a remembered failure, and fails exactly when
the reader fails, with the reader's failure. -/
theorem tail_failure (hv : s.Valid) (hw : s.window ≤ Size.max) :
    (s.FullWhenFailed → s.tail.2.FullWhenFailed) ∧ FailsOnlyIf s s.tail.1 True ∧
      (∀ x, s.tail.1 = .ok x → s.feed.failure = none) := by
  cases htc : s.tailCache with
  | some t =>
    rw [show s.tail = (.ok t, s) by simp [tail, htc]]
    exact ⟨id, fun e he => (by cases he), fun _ _ => (hv.exhausted (hv.tailCache t htc).1).1⟩
  | none =>
    obtain ⟨hv1, ⟨hfeed, hlimit, -, -, -, -, -⟩, hreach, -⟩ := bufferTo_spec hv Size.max
    have hk1 := bufferTo_keepsFailure hv Size.max
    rcases hb : s.bufferTo Size.max with ⟨r, s1⟩
    rw [hb] at hv1 hfeed hlimit hreach hk1
    dsimp only at hv1 hfeed hlimit hreach hk1
    have hw1 := window_eq_of_limit hlimit
    cases r with
    | error e =>
      rw [show s.tail = (.error e, s1) by simp [tail, htc, hb]]
      refine ⟨hk1.full, fun e' he' => ?_, fun _ h => by cases h⟩
      cases he'
      exact ⟨bufferTo_error_failure hv (by rw [hb]), trivial⟩
    | ok u =>
      cases u
      have hfull := hreach rfl
      rw [Nat.min_eq_min, Nat.min_eq_right hw, ← hw1] at hfull
      by_cases hex : s1.exhausted = true
      · rw [show s.tail = (.ok (s1.lastWindow (s1.buffer ++ s1.overflow)),
            { s1 with
              truncated := some (decide (0 < s1.overflow.size))
              tailCache := some (s1.lastWindow (s1.buffer ++ s1.overflow)) }) by
          simp [tail, htc, hb, hex]]
        exact ⟨hk1.full, fun e he => (by cases he), fun _ _ => hfeed ▸ (hv1.exhausted hex).1⟩
      · -- the window is full: the tail is read past it, to the end
        have hB : s1.buffer.size = s1.window := by
          have := hv1.buffer_le
          rcases hfull with h | h
          · omega
          · exact absurd h hex
        cases hf1 : s1.failed with
        | some e =>
          rw [show s.tail = (.error e, s1) by simp [tail, htc, hb, hex, hf1]]
          refine ⟨hk1.full, fun e' he' => ?_, fun _ h => by cases h⟩
          cases he'
          exact ⟨hfeed ▸ (hv1.failed e hf1).1, trivial⟩
        | none =>
          have hple := hv1.pulled_le
          have hrest : s1.feed.bytes.extract s1.pulled (s1.pulled + s1.pending.size) =
              s1.feed.bytes.extract s1.pulled s1.feed.bytes.size := by
            simp only [pending, ByteArray.size_extract, Nat.min_self]
            rw [Nat.add_sub_cancel' hple]
          cases hrun : s1.feed.failure with
          | some e =>
            rw [show s.tail = (.error e,
                { s1 with
                  pulled := s1.pulled + (s1.feed.bytes.extract s1.pulled s1.feed.bytes.size).size
                  failed := some e }) by
              simp [tail, htc, hb, hex, hf1, take, runOut, hrun, hrest]]
            refine ⟨fun _ e' _ => ?_, fun e' he' => ?_, fun _ h => by cases h⟩
            · -- the failure is met with the window full, and the bytes reach it
              show s1.buffer.size = min s1.window s1.feed.bytes.size
              have := hv1.buffer_size_le
              omega
            · cases he'
              exact ⟨hfeed ▸ hrun, trivial⟩
          | none =>
            rw [show s.tail = (.ok (s1.lastWindow (s1.buffer ++ s1.overflow ++
                  s1.feed.bytes.extract s1.pulled s1.feed.bytes.size)),
                { s1 with
                  pulled := s1.pulled + (s1.feed.bytes.extract s1.pulled s1.feed.bytes.size).size
                  exhausted := true
                  truncated := some (decide (0 < s1.overflow.size ∨
                    0 < (s1.feed.bytes.extract s1.pulled s1.feed.bytes.size).size))
                  tailCache := some (s1.lastWindow (s1.buffer ++ s1.overflow ++
                    s1.feed.bytes.extract s1.pulled s1.feed.bytes.size)) }) by
              simp [tail, htc, hb, hex, hf1, take, runOut, hrun, hrest]]
            refine ⟨fun _ e' he' => ?_, fun e he => (by cases he), fun _ _ => hfeed ▸ hrun⟩
            -- a clean end remembers no failure
            change s1.failed = some e' at he'
            rw [hf1] at he'
            cases he'

/-- The truncation check keeps what a remembered failure leaves behind, and fails only with
the reader's failure, and only when the bytes end inside the window or the check was lost. -/
theorem isTruncated_failure (hv : s.Valid) (hff : s.FullWhenFailed) :
    KeepsFailure s s.isTruncated.2 ∧
      FailsOnlyIf s s.isTruncated.1 (s.feed.bytes.size ≤ s.window ∨ s.Lost) := by
  cases htr : s.truncated with
  | some v =>
    rw [show s.isTruncated = (.ok v, s) by simp [isTruncated, htr]]
    exact ⟨.refl s, fun e he => (by cases he)⟩
  | none =>
    obtain ⟨hv1, ⟨hfeed, hlimit, -, htr1, htc1, -, -⟩, -, -⟩ := bufferTo_spec hv Size.max
    have hk1 := bufferTo_keepsFailure hv Size.max
    have hfails := bufferTo_failsOnlyIf hv hff Size.max
    have hgw : Nat.min Size.max s.window ≤ s.window := Nat.min_le_right _ _
    rcases hb : s.bufferTo Size.max with ⟨r, s1⟩
    rw [hb] at hv1 hfeed hlimit htr1 htc1 hk1 hfails
    dsimp only at hv1 hfeed hlimit htr1 htc1 hk1 hfails
    have hw1 := window_eq_of_limit hlimit
    cases r with
    | error e =>
      rw [show s.isTruncated = (.error e, s1) by simp [isTruncated, htr, hb]]
      refine ⟨hk1, fun e' he' => ?_⟩
      cases he'
      obtain ⟨hrun, hshort⟩ := hfails e rfl
      exact ⟨hrun, .inl (by omega)⟩
    | ok u =>
      cases u
      -- a recorded answer is no lost check
      have hanswered : ∀ v : Bool, KeepsFailure s { s1 with truncated := some v } :=
        fun v => ⟨hk1.full, fun hl => absurd hl.2.1 (by simp)⟩
      by_cases hshort : s1.buffer.size < s1.window
      · rw [show s.isTruncated = (.ok false, { s1 with truncated := some false }) by
          simp [isTruncated, htr, hb, hshort]]
        exact ⟨hanswered false, fun e he => (by cases he)⟩
      have hB : s1.buffer.size = s1.window := by
        have := hv1.buffer_le
        omega
      by_cases hO : 0 < s1.overflow.size
      · rw [show s.isTruncated = (.ok true, { s1 with truncated := some true }) by
          simp [isTruncated, htr, hb, hshort, hO]]
        exact ⟨hanswered true, fun e he => (by cases he)⟩
      cases hf1 : s1.failed with
      | some e =>
        rw [show s.isTruncated = (.error e, s1) by simp [isTruncated, htr, hb, hshort, hO, hf1]]
        refine ⟨hk1, fun e' he' => ?_⟩
        cases he'
        refine ⟨hfeed ▸ (hv1.failed e hf1).1, ?_⟩
        by_cases hWB : s.feed.bytes.size ≤ s.window
        · exact .inl hWB
        · -- the window is full, more bytes were delivered, and none was kept past it
          refine .inr (hk1.lost ⟨by simp [hf1], htr1.trans htr, by omega, ?_⟩)
          rw [hw1, hfeed]
          omega
      | none =>
        have hkept := hv1.pulled_eq (htc1.trans ?_) hf1
        · by_cases hmore : 0 < (s1.feed.bytes.extract s1.pulled (s1.pulled + 1)).size
          · have hmore' : 0 < min (s1.pulled + 1) s1.feed.bytes.size - s1.pulled := by
              simpa only [ByteArray.size_extract] using hmore
            rw [show s.isTruncated = (.ok true,
                { s1 with
                  overflow := s1.feed.bytes.extract s1.pulled (s1.pulled + 1)
                  pulled := s1.pulled + (s1.feed.bytes.extract s1.pulled (s1.pulled + 1)).size
                  truncated := some true }) by
              simp [isTruncated, htr, hb, hshort, hO, hf1, take, hmore']]
            exact ⟨.of_failed_none hf1, fun e he => (by cases he)⟩
          have hzero : (s1.feed.bytes.extract s1.pulled (s1.pulled + 1)).size = 0 := by omega
          have hzero' : min (s1.pulled + 1) s1.feed.bytes.size - s1.pulled = 0 := by
            simpa only [ByteArray.size_extract] using hzero
          have hple := hv1.pulled_le
          -- nothing lies past the full window: the bytes end exactly at it
          have hall : s1.feed.bytes.size = s1.window := by omega
          cases hrun : s1.feed.failure with
          | some e =>
            rw [show s.isTruncated = (.error e,
                { s1 with
                  pulled := s1.pulled + (s1.feed.bytes.extract s1.pulled (s1.pulled + 1)).size
                  failed := some e }) by
              simp [isTruncated, htr, hb, hshort, hO, hf1, take, hzero', runOut, hrun]]
            refine ⟨⟨fun _ e' _ => ?_, fun hl => absurd hl.2.2.2 ?_⟩, fun e' he' => ?_⟩
            · show s1.buffer.size = min s1.window s1.feed.bytes.size
              omega
            · show ¬s1.window < s1.feed.bytes.size
              omega
            · cases he'
              refine ⟨hfeed ▸ hrun, .inl ?_⟩
              rw [← hw1, ← hfeed]
              omega
          | none =>
            rw [show s.isTruncated = (.ok false,
                { s1 with
                  pulled := s1.pulled + (s1.feed.bytes.extract s1.pulled (s1.pulled + 1)).size
                  exhausted := true
                  truncated := some false }) by
              simp [isTruncated, htr, hb, hshort, hO, hf1, take, hzero', runOut, hrun]]
            exact ⟨.of_failed_none hf1, fun e he => (by cases he)⟩
        · -- while the truncation is unknown, so is the tail
          cases h : s.tailCache with
          | none => rfl
          | some t =>
            have hsome := (hv.tailCache t h).2.1
            simp [htr] at hsome

/-- A lost check meets the remembered failure. -/
theorem isTruncated_of_lost (hv : s.Valid) (hw : s.window ≤ Size.max) (hff : s.FullWhenFailed)
    (hl : s.Lost) : ∃ e, s.feed.failure = some e ∧ s.isTruncated.1 = .error e := by
  obtain ⟨hfailed, htr, hover, hWB⟩ := hl
  obtain ⟨e, he⟩ := Option.ne_none_iff_exists'.mp hfailed
  -- the failure came with a full window
  have hB : s.buffer.size = s.window := by
    have := hff e he
    omega
  have hdone : Nat.min Size.max s.window ≤ s.buffer.size ∨ s.exhausted = true := by
    left
    rw [Nat.min_eq_min, Nat.min_eq_right hw]
    omega
  refine ⟨e, (hv.failed e he).1, ?_⟩
  simp [isTruncated, htr, bufferTo_of_done hdone, hB, hover, he]

end Stream

/-! ## §5 Answers as a function of the reader -/

theorem Except.eq_error_of_map {ε α β : Type} {f : α → β} {r : Except ε α} {e : ε}
    (h : r.map f = .error e) : r = .error e := by
  cases r with
  | error e' => cases h; rfl
  | ok a => cases h

/-- Past the delivered bytes a failing reader could have been delivering anything: a request
that reads past them, other than the tail, is answered otherwise by the window over some
completion. -/
theorem Feed.answers_differ_past {F : Feed} {e : IoError} (hF : F.failure = some e)
    (limit : Option Nat) {q : Request} (hq : q ≠ .tail)
    (hp : q.readsPast (windowOf limit) F.bytes.size = true) :
    ∃ D, F.Completes D ∧ (ByteAccess.serve (Window.make D limit) q).1 ≠
      (ByteAccess.serve (Window.make F.bytes limit) q).1 := by
  -- the delivered bytes followed by more than a window of zeros
  let D := F.bytes ++ ⟨Array.replicate (windowOf limit + 1) 0⟩
  have hD : D.size = F.bytes.size + (windowOf limit + 1) := by
    simp only [D, ByteArray.size_append]
    exact congrArg (F.bytes.size + ·) Array.size_replicate
  refine ⟨D, ⟨(ByteArray.extract_append_eq_left rfl).symm, by omega, fun h => by simp [hF] at h⟩,
    ?_⟩
  cases q with
  | head n =>
    have hlt : F.bytes.size < min n (windowOf limit) := by simpa [Request.readsPast] using hp
    intro h
    change Except.ok (Answer.bytes (D.extract 0 (Nat.min n (Nat.min (windowOf limit) D.size)))) =
      Except.ok (Answer.bytes (F.bytes.extract 0
        (Nat.min n (Nat.min (windowOf limit) F.bytes.size)))) at h
    have hsize := congrArg ByteArray.size (Answer.bytes.inj (Except.ok.inj h))
    simp only [ByteArray.size_extract, Nat.min_eq_min] at hsize
    omega
  | contents =>
    have hlt : F.bytes.size < windowOf limit := by simpa [Request.readsPast] using hp
    intro h
    change Except.ok (Answer.bytes (D.extract 0 (Nat.min (windowOf limit) D.size))) =
      Except.ok (Answer.bytes (F.bytes.extract 0 (Nat.min (windowOf limit) F.bytes.size))) at h
    have hsize := congrArg ByteArray.size (Answer.bytes.inj (Except.ok.inj h))
    simp only [ByteArray.size_extract, Nat.min_eq_min] at hsize
    omega
  | tail => exact absurd rfl hq
  | isTruncated =>
    have hle : F.bytes.size ≤ windowOf limit := by simpa [Request.readsPast] using hp
    intro h
    change Except.ok (Answer.truncated (decide (Nat.min (windowOf limit) D.size < D.size))) =
      Except.ok (Answer.truncated
        (decide (Nat.min (windowOf limit) F.bytes.size < F.bytes.size))) at h
    have hv := Answer.truncated.inj (Except.ok.inj h)
    rw [decide_eq_decide, Nat.min_eq_min, Nat.min_eq_min] at hv
    omega

namespace Stream

variable {s : Stream}

/-- A request that fails only by reading past the delivered bytes into the reader's failure,
never succeeds there, and otherwise answers as the window over the delivered bytes, answers
`Feed.answer`. -/
theorem eq_answer_of {q : Request} {r : Except IoError Answer}
    (hok : ∀ a, r = .ok a → (ByteAccess.serve (Window.make s.feed.bytes s.limit) q).1 = .ok a)
    (hfails : FailsOnlyIf s r (q.readsPast s.window s.feed.bytes.size = true))
    (hpast : ∀ e a, s.feed.failure = some e → q.readsPast s.window s.feed.bytes.size = true →
      r ≠ .ok a) :
    r = s.feed.answer s.limit q := by
  cases r with
  | error e =>
    obtain ⟨hF, hp⟩ := hfails e rfl
    have hp' : q.readsPast (windowOf s.limit) s.feed.bytes.size = true := hp
    simp only [Feed.answer, hF, hp', if_true]
  | ok a =>
    have hB := hok a rfl
    cases hF : s.feed.failure with
    | none =>
      simp only [Feed.answer, hF]
      exact hB.symm
    | some e =>
      -- succeeding over a failing reader, the request cannot have read past the bytes
      have hp : q.readsPast (windowOf s.limit) s.feed.bytes.size = false := by
        cases h : q.readsPast (windowOf s.limit) s.feed.bytes.size with
        | false => rfl
        | true => exact absurd rfl (hpast e a hF h)
      simp only [Feed.answer, hF, hp, Bool.false_eq_true, if_false]
      exact hB.symm

/-- An answer from a valid state is the window's answer over every completion of the reader. -/
theorem serve_ok_window (hv : s.Valid) (hw : s.window ≤ Size.max) {D : ByteArray}
    (hD : s.feed.Completes D) {q : Request} {a : Answer}
    (h : (ByteAccess.serve s q).1 = .ok a) :
    (ByteAccess.serve (Window.make D s.limit) q).1 = .ok a :=
  (view s.feed s.limit hw hD).serve_ok ⟨hv, rfl, rfl⟩ h

/-- Over a failing reader, a request other than the tail that reads past the delivered bytes
does not succeed. -/
theorem serve_not_ok_of_readsPast (hv : s.Valid) (hw : s.window ≤ Size.max) {q : Request}
    (hq : q ≠ .tail) {e : IoError} (hF : s.feed.failure = some e)
    (hp : q.readsPast s.window s.feed.bytes.size = true) (a : Answer) :
    (ByteAccess.serve s q).1 ≠ .ok a := by
  intro h
  obtain ⟨D, hD, hne⟩ := Feed.answers_differ_past hF s.limit hq hp
  exact hne ((serve_ok_window hv hw hD h).trans
    (serve_ok_window hv hw (Feed.completes_bytes _) h).symm)

/-- Every request from a valid state with a full buffer behind any remembered failure answers
`Feed.answer`, as a function of what the reader delivers, unless it asks about a truncation
whose check was lost. -/
theorem serve_eq_answer (hv : s.Valid) (hw : s.window ≤ Size.max) (hff : s.FullWhenFailed)
    (q : Request) (hq : ¬(s.Lost ∧ q = .isTruncated)) :
    (ByteAccess.serve s q).1 = s.feed.answer s.limit q := by
  have hok : ∀ a, (ByteAccess.serve s q).1 = .ok a →
      (ByteAccess.serve (Window.make s.feed.bytes s.limit) q).1 = .ok a :=
    fun _ h => serve_ok_window hv hw (Feed.completes_bytes _) h
  have hgw : Nat.min Size.max s.window = s.window := by
    rw [Nat.min_eq_min, Nat.min_eq_right hw]
  cases q with
  | head n =>
    refine eq_answer_of hok (fun e he => ?_)
      (fun e a hF hp => serve_not_ok_of_readsPast hv hw (by simp) hF hp a)
    obtain ⟨hF, hshort⟩ := bufferTo_failsOnlyIf hv hff n e
      (head_error (Except.eq_error_of_map (show (s.head n).1.map Answer.bytes = .error e from he)))
    refine ⟨hF, ?_⟩
    simp only [Request.readsPast, decide_eq_true_eq]
    rwa [Nat.min_eq_min] at hshort
  | contents =>
    refine eq_answer_of hok (fun e he => ?_)
      (fun e a hF hp => serve_not_ok_of_readsPast hv hw (by simp) hF hp a)
    obtain ⟨hF, hshort⟩ := bufferTo_failsOnlyIf hv hff Size.max e
      (contents_error (Except.eq_error_of_map (show s.contents.1.map Answer.bytes = .error e from he)))
    refine ⟨hF, ?_⟩
    simp only [Request.readsPast, decide_eq_true_eq]
    rwa [hgw] at hshort
  | tail =>
    obtain ⟨-, hfails, hclean⟩ := tail_failure hv hw
    refine eq_answer_of hok (fun e he => ⟨(hfails e (Except.eq_error_of_map
      (show s.tail.1.map Answer.bytes = .error e from he))).1, rfl⟩) (fun e a hF _ h => ?_)
    -- the tail succeeds only over a reader that ends cleanly
    obtain ⟨x, hx, -⟩ := Except.map_eq_ok (show s.tail.1.map Answer.bytes = .ok a from h)
    rw [hclean x hx] at hF
    cases hF
  | isTruncated =>
    obtain ⟨-, hfails⟩ := isTruncated_failure hv hff
    refine eq_answer_of hok (fun e he => ?_)
      (fun e a hF hp => serve_not_ok_of_readsPast hv hw (by simp) hF hp a)
    obtain ⟨hF, hreads⟩ := hfails e (Except.eq_error_of_map
      (show s.isTruncated.1.map Answer.truncated = .error e from he))
    refine ⟨hF, ?_⟩
    rcases hreads with h | h
    · simpa [Request.readsPast] using h
    · exact absurd ⟨h, rfl⟩ hq

end Stream

/-! ## §6 Runs of requests -/

theorem Keeps.serveAll {σ : Type} [ByteAccess σ] {Inv : σ → Prop} (hk : Keeps Inv)
    (qs : List Request) : ∀ {s : σ}, Inv s → Inv (ByteAccess.serveAll s qs) := by
  induction qs with
  | nil => exact id
  | cons q qs ih => exact fun hs => ih (hk.serve hs q)

/-- The truncation check answers yes from the delivered bytes alone once they run past the
window. -/
theorem Feed.answer_isTruncated_of_lt {F : Feed} {limit : Option Nat}
    (h : windowOf limit < F.bytes.size) : F.answer limit .isTruncated = .ok (.truncated true) := by
  have hwin : (ByteAccess.serve (Window.make F.bytes limit) .isTruncated).1 =
      .ok (.truncated true) := by
    show Except.ok (Answer.truncated
      (decide (Nat.min (windowOf limit) F.bytes.size < F.bytes.size))) = _
    rw [decide_eq_true (by rw [Nat.min_eq_min]; omega)]
  have hp : Request.isTruncated.readsPast (windowOf limit) F.bytes.size = false := by
    simp only [Request.readsPast, decide_eq_false_iff_not, Nat.not_le]
    exact h
  unfold Feed.answer
  cases F.failure with
  | none => exact hwin
  | some e =>
    simp only [hp, Bool.false_eq_true, if_false]
    exact hwin

namespace Stream

/-- What every state reached from a fresh stream over `F` with limit `limit` satisfies. -/
def Reached (F : Feed) (limit : Option Nat) (s : Stream) : Prop :=
  s.Valid ∧ s.feed = F ∧ s.limit = limit ∧ s.FullWhenFailed

theorem reached_make (F : Feed) (limit : Option Nat) : Reached F limit (make F limit) :=
  ⟨make_valid F limit, rfl, rfl, fun _ h => by cases h⟩

theorem not_lost_make (F : Feed) (limit : Option Nat) : ¬(make F limit).Lost :=
  fun hl => hl.1 rfl

/-- Every request other than the tail keeps what a remembered failure leaves behind. -/
theorem serve_keepsFailure {s : Stream} (hv : s.Valid) (hff : s.FullWhenFailed) {q : Request}
    (hq : q ≠ .tail) : KeepsFailure s (ByteAccess.serve s q).2 := by
  cases q with
  | head n =>
    show KeepsFailure s (s.head n).2
    rw [head_snd]
    exact bufferTo_keepsFailure hv n
  | contents =>
    show KeepsFailure s s.contents.2
    rw [contents_snd]
    exact bufferTo_keepsFailure hv Size.max
  | tail => exact absurd rfl hq
  | isTruncated => exact (isTruncated_failure hv hff).1

theorem keeps_reached (F : Feed) (limit : Option Nat) (hw : windowOf limit ≤ Size.max) :
    Keeps (Reached F limit) where
  head := by
    rintro s n ⟨hv, hF, hL, hff⟩
    obtain ⟨hv', hF', hL'⟩ := (keeps F limit hw).head s n ⟨hv, hF, hL⟩
    exact ⟨hv', hF', hL',
      (serve_keepsFailure hv hff (show Request.head n ≠ .tail by simp)).full hff⟩
  contents := by
    rintro s ⟨hv, hF, hL, hff⟩
    obtain ⟨hv', hF', hL'⟩ := (keeps F limit hw).contents s ⟨hv, hF, hL⟩
    exact ⟨hv', hF', hL',
      (serve_keepsFailure hv hff (show Request.contents ≠ .tail by simp)).full hff⟩
  tail := by
    rintro s ⟨hv, hF, hL, hff⟩
    obtain ⟨hv', hF', hL'⟩ := (keeps F limit hw).tail s ⟨hv, hF, hL⟩
    have hw' : s.window ≤ Size.max := by
      show windowOf s.limit ≤ Size.max
      rw [hL]
      exact hw
    exact ⟨hv', hF', hL', (tail_failure hv hw').1 hff⟩
  isTruncated := by
    rintro s ⟨hv, hF, hL, hff⟩
    obtain ⟨hv', hF', hL'⟩ := (keeps F limit hw).isTruncated s ⟨hv, hF, hL⟩
    exact ⟨hv', hF', hL', (isTruncated_failure hv hff).1.full hff⟩

/-- Only reading the tail loses the truncation check: a check lost after a run of requests was
lost before it, or the run read the tail. -/
theorem lost_serveAll {F : Feed} {limit : Option Nat} (hw : windowOf limit ≤ Size.max)
    (pre : List Request) :
    ∀ {s : Stream}, Reached F limit s → (ByteAccess.serveAll s pre).Lost →
      s.Lost ∨ .tail ∈ pre := by
  induction pre with
  | nil => exact fun _ hl => .inl hl
  | cons q pre ih =>
    intro s hs hl
    rcases ih ((keeps_reached F limit hw).serve hs q) hl with h | h
    · by_cases hq : q = .tail
      · exact .inr (hq ▸ List.mem_cons_self)
      · exact .inl ((serve_keepsFailure hs.1 hs.2.2.2 hq).lost h)
    · exact .inr (List.mem_cons_of_mem q h)

/-- After any run of requests on a fresh stream, a request has the outcome it has on the fresh
stream, unless it asks about truncation after the run read the tail: then it may fail with
the reader's failure where the fresh stream answers that the entry runs past the window. -/
theorem outcome_serveAll (F : Feed) (limit : Option Nat) (hw : windowOf limit ≤ Size.max)
    (pre : List Request) (q : Request) :
    (ByteAccess.serve (ByteAccess.serveAll (make F limit) pre) q).1 =
        (ByteAccess.serve (make F limit) q).1 ∨
      (q = .isTruncated ∧ .tail ∈ pre ∧
        (ByteAccess.serve (make F limit) q).1 = .ok (.truncated true) ∧
        ∃ e, F.failure = some e ∧
          (ByteAccess.serve (ByteAccess.serveAll (make F limit) pre) q).1 = .error e) := by
  have h0 := reached_make F limit
  obtain ⟨hv, hF, hL, hff⟩ := (keeps_reached F limit hw).serveAll pre h0
  have hw' : (ByteAccess.serveAll (make F limit) pre).window ≤ Size.max := by
    show windowOf _ ≤ Size.max
    rw [hL]
    exact hw
  -- the fresh stream answers as the reader decides
  have hfresh : (ByteAccess.serve (make F limit) q).1 = F.answer limit q :=
    serve_eq_answer h0.1 hw h0.2.2.2 q (fun h => not_lost_make F limit h.1)
  by_cases hl : (ByteAccess.serveAll (make F limit) pre).Lost ∧ q = .isTruncated
  · obtain ⟨hl, rfl⟩ := hl
    obtain ⟨e, hE, herr⟩ := isTruncated_of_lost hv hw' hff hl
    have hpast : windowOf limit < F.bytes.size := by
      have h := hl.2.2.2
      change windowOf _ < _ at h
      rwa [hL, hF] at h
    refine .inr ⟨rfl, (lost_serveAll hw pre h0 hl).resolve_left (not_lost_make F limit), ?_,
      e, hF ▸ hE, ?_⟩
    · rw [hfresh]
      exact Feed.answer_isTruncated_of_lt hpast
    · show (ByteAccess.serveAll (make F limit) pre).isTruncated.1.map _ = _
      rw [herr]
      rfl
  · left
    rw [serve_eq_answer hv hw' hff q hl, hfresh, hF, hL]

end Stream

/-! ## §7 Over a reader -/

/-- After any run of requests on a fresh stream source, over any reader, however it splits its
bytes and wherever it fails, a request has the outcome it has on a fresh source over the same
reader, with one exception: a truncation check after the tail was read, where the fresh
source answers that the entry runs past the window and this one fails with the reader's
failure. -/
theorem outcome_after_requests (F : Feed) (script : List ReadStep) (limit : Option Nat)
    (hw : windowOf limit ≤ Size.max) (pre : List Request) (q : Request) :
    (ByteAccess.serve (ByteAccess.serveAll (ReaderStream.make { feed := F, script } limit) pre)
        q).1 = (ByteAccess.serve (ReaderStream.make { feed := F, script } limit) q).1 ∨
      (q = .isTruncated ∧ .tail ∈ pre ∧
        (ByteAccess.serve (ReaderStream.make { feed := F, script } limit) q).1 =
          .ok (.truncated true) ∧
        ∃ e, F.failure = some e ∧
          (ByteAccess.serve (ByteAccess.serveAll (ReaderStream.make { feed := F, script } limit)
            pre) q).1 = .error e) := by
  let c := ReaderStream.make { feed := F, script } limit
  have hR := ReaderStream.answersAlike_standsFor F limit hw
  have h0 : ReaderStream.StandsFor F limit c (Stream.make F limit) :=
    ⟨rfl, rfl, Stream.make_valid F limit, rfl, rfl⟩
  -- the reader stream answers as the stream over its feed, before and after the run
  have hfresh := (hR _ _ q h0).1
  have hafter := (hR _ _ q (hR.serveAll pre h0)).1
  rw [hfresh, hafter]
  exact Stream.outcome_serveAll F limit hw pre q

theorem outcome_after_requests_tail_first :
    windowOf (some 1) ≤ Size.max ∧
      let c := ReaderStream.make
        { feed := Feed.failingAt (ByteArray.mk #[0, 1]) (some 2) ⟨"injected read failure"⟩,
          script := [.upTo 1 Nat.one_pos] } (some 1)
      ((ByteAccess.serve (ByteAccess.serveAll c [.tail]) .isTruncated).1 =
          (ByteAccess.serve c .isTruncated).1 ∨
        (Request.isTruncated = .isTruncated ∧ Request.tail ∈ [Request.tail] ∧
          (ByteAccess.serve c .isTruncated).1 = .ok (.truncated true) ∧
          ∃ e, (Feed.failingAt (ByteArray.mk #[0, 1]) (some 2) ⟨"injected read failure"⟩).failure =
              some e ∧
            (ByteAccess.serve (ByteAccess.serveAll c [.tail]) .isTruncated).1 = .error e)) :=
  ⟨by decide, outcome_after_requests _ _ _ (by decide) _ _⟩

/-- A reader that delivers `00 01` and then fails, seen through a window of one byte: on a
fresh source the truncation check reads the second byte and answers yes; after the tail was
read, the second byte is gone with the failure, and the check fails. -/
theorem truncation_lost_after_failed_tail :
    ByteAccess.outcomes (ReaderStream.make
        { feed := Feed.failingAt (ByteArray.mk #[0, 1]) (some 2) ⟨"injected read failure"⟩,
          script := [] } (some 1)) [.tail, .isTruncated] =
      [.error ⟨"injected read failure"⟩, .error ⟨"injected read failure"⟩] ∧
    ByteAccess.outcomes (ReaderStream.make
        { feed := Feed.failingAt (ByteArray.mk #[0, 1]) (some 2) ⟨"injected read failure"⟩,
          script := [] } (some 1)) [.isTruncated] =
      [.ok (.truncated true)] := by
  -- the reader stream answers as the stream over its feed, which computes directly
  rw [ReaderStream.outcomes_make _ _ (some 1) (by decide),
    ReaderStream.outcomes_make _ _ (some 1) (by decide)]
  exact ⟨rfl, rfl⟩

end ContainerProbe
