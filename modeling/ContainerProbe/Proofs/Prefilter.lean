import Mathlib
import ContainerProbe.Proofs.Stream
import ContainerProbe.Verdict.Identify
import ContainerProbe.Proofs.ByteRuns

/-!
# The literal prefilter changes no verdict

A floating pattern that begins with a literal can only match where the literal occurs, so
trying only the offsets where the prefilter found the literal, in the same window, finds a
match exactly when trying every offset does. The offsets are ascending, so the matcher's cut
at the last useful start keeps all of them that matter.

On an open entry the prefilter reads the window once, the first time a covered pattern asks,
and keeps the bytes. The pattern itself then reads the window again, which a full stream
answers from its buffer: the source ends up where it would without the prefilter. An entry
seen with the prefilter on therefore shadows the same entry seen with it off, step for step,
and identification gives the same answer, warnings and counters included.

## Main statements

* `Prefilter.takeWhile_occurrences`: the occurrences up to the last useful start are the starts
  up to it where the literal stands.
* `Pattern.evaluate_prefiltered`: for a covered pattern, the verdict from the prefilter's
  offsets is the unrestricted verdict.
* `OpenEntry.evaluate_shadows`: one pattern run on a prefiltered entry and on an unfiltered
  one gives the same answer and leaves the entries in step.
* `identify_unfiltered`: identification answers as it does with the prefilter off.
* `prefilter_changes_nothing`: the prefilter setting changes nothing in identification, and
  on one entry every pattern gets the answer it gets without the prefilter.
-/

namespace ContainerProbe

/-! ## §1 Where a literal occurs -/

namespace Prefilter

theorem mem_occurrences (d : ByteArray) (lit : List UInt8) (s : Nat) :
    s ∈ occurrences d lit ↔ s ≤ d.size ∧ bytesAt d s lit = true := by
  simp only [occurrences, List.mem_filter, List.mem_range, Nat.lt_succ_iff]

theorem occurrences_ascending (d : ByteArray) (lit : List UInt8) :
    (occurrences d lit).Pairwise (· < ·) :=
  (List.pairwise_lt_range).filter _

/-- In an ascending list, the members before the first one past `a` are the members up
to `a`. -/
theorem mem_takeWhile_le {l : List Nat} (hl : l.Pairwise (· < ·)) (a x : Nat) :
    x ∈ l.takeWhile (· ≤ a) ↔ x ∈ l ∧ x ≤ a := by
  induction l with
  | nil => simp
  | cons y ys ih =>
    rw [List.pairwise_cons] at hl
    by_cases hy : y ≤ a
    · have htw : (y :: ys).takeWhile (· ≤ a) = y :: ys.takeWhile (· ≤ a) := by
        simp [hy]
      rw [htw, List.mem_cons, List.mem_cons, ih hl.2]
      constructor
      · rintro (rfl | h)
        · exact ⟨.inl rfl, hy⟩
        · exact ⟨.inr h.1, h.2⟩
      · rintro ⟨rfl | h, hx⟩
        · exact .inl rfl
        · exact .inr ⟨h, hx⟩
    · have htw : (y :: ys).takeWhile (· ≤ a) = [] := by
        simp [hy]
      rw [htw, List.mem_cons]
      simp only [List.not_mem_nil, false_iff, not_and]
      -- every later member is above `y`, hence above `a`
      rintro (rfl | h)
      · exact hy
      · have := hl.1 x h
        omega

end Prefilter

/-- In the ascending occurrences of a literal, those up to `last` are the offsets up to `last`
where the literal stands. -/
theorem Prefilter.takeWhile_occurrences (d : ByteArray) (lit : List UInt8) {last : Nat}
    (hlast : last ≤ d.size) :
    (Prefilter.occurrences d lit).takeWhile (· ≤ last) =
      (List.range (last + 1)).filter fun s => bytesAt d s lit := by
  have hasc : ((Prefilter.occurrences d lit).takeWhile (· ≤ last)).Pairwise (· < ·) :=
    (Prefilter.occurrences_ascending d lit).sublist (List.takeWhile_sublist _)
  refine hasc.eq_of_mem_iff (List.pairwise_lt_range.filter _) fun s => ?_
  rw [Prefilter.mem_takeWhile_le (Prefilter.occurrences_ascending d lit), Prefilter.mem_occurrences,
    List.mem_filter, List.mem_range]
  constructor
  · rintro ⟨⟨-, h⟩, hs⟩
    exact ⟨by omega, h⟩
  · rintro ⟨hs, h⟩
    exact ⟨⟨by omega, h⟩, by omega⟩

/-- Within the bytes of `d`, the backtracker's literal test is the prefilter's. -/
theorem matchesLiteral_eq_bytesAt {d : ByteArray} {s : Nat} (hs : s ≤ d.size) (lit : List UInt8) :
    View.matchesLiteral ⟨d.data, .forward⟩ s lit = bytesAt d s lit := by
  rw [Bool.eq_iff_iff, View.matchesLiteral_iff, bytesAt_iff]
  simp only [View.bytes, between, Nat.add_sub_cancel_left]
  constructor
  · rintro ⟨y, hy⟩
    have hlen := congrArg List.length hy
    simp only [List.length_drop, Array.length_toList, ByteArray.size_data,
      List.length_append] at hlen
    refine ⟨by omega, ?_⟩
    rw [hy, List.take_left]
  · rintro ⟨-, hrun⟩
    refine ⟨(d.data.toList.drop s).drop lit.length, ?_⟩
    conv_lhs => rw [← List.take_append_drop lit.length (d.data.toList.drop s)]
    rw [hrun]

/-- A floating pattern with a leading literal, run from the offsets where the literal occurs
in the window, gives the unrestricted verdict: the window is read the same way, and a start
where the literal does not stand answers false at once and teaches the backtracker nothing, so
leaving it out changes no later call. The source may be one that already answered the window. -/
theorem Pattern.evaluate_prefiltered {σ : Type} [ByteAccess σ] {p : Pattern}
    {lit : List UInt8} (hfl : p.anchor = .floating) (hlit : p.leadingLiteral? = some lit)
    {s s' : σ} {data : ByteArray} (hs : ByteAccess.contents s = (.ok data, s'))
    (hs' : ByteAccess.contents s' = (.ok data, s')) :
    p.evaluate (some (Prefilter.occurrences data lit)) s' = p.evaluate none s := by
  obtain ⟨rest, hfrag⟩ : ∃ rest, p.fragments = .literal lit :: rest := by
    unfold Pattern.leadingLiteral? at hlit
    split at hlit
    · cases hlit
      exact ⟨_, ‹_›⟩
    · cases hlit
  simp only [Pattern.evaluate, hfl, hs, hs', Except.map, hfrag]
  congr 2
  split
  · rfl
  · rw [Prefilter.takeWhile_occurrences data lit (Nat.sub_le _ _)]
    refine Backtracker.anyMatch_filter _ (fun bt' hbt' start hk => ?_) _
    by_cases hstart : start ≤ data.size
    · exact Backtracker.matchAt_of_matchesLiteral_eq_false hbt'
        (by rw [matchesLiteral_eq_bytesAt hstart, hk])
    · -- a start past the end is refused before any fragment is tried
      unfold Backtracker.matchAt
      rw [if_pos (by simpa [View.len] using hstart)]

/-! ## §2 The prefilter of a catalog -/

section Catalog

variable {patterns : List Pattern} {config : PrefilterSettings} {pf : Prefilter}

theorem Prefilter.literalOf_build (h : Prefilter.build patterns config = some pf) :
    pf.literalOf = patterns.map (Prefilter.coverOf config) := by
  unfold Prefilter.build at h
  dsimp only at h
  split at h
  · cases h
  · split at h
    · cases h
    · cases h
      rfl

/-- What the prefilter of a catalog's patterns knows of a pattern it covers: the pattern is
floating, begins with the literal, and gets the literal's occurrences as its offsets. -/
theorem Prefilter.covers_build (h : Prefilter.build patterns config = some pf) {id : Nat}
    (hc : pf.covers id = true) :
    ∃ p lit, patterns[id]? = some p ∧ p.anchor = .floating ∧ p.leadingLiteral? = some lit ∧
      ∀ data, pf.offsets id data = some (Prefilter.occurrences data lit) := by
  have hlo := Prefilter.literalOf_build h
  unfold Prefilter.covers at hc
  unfold Prefilter.offsets
  rw [hlo, List.getElem?_map] at hc ⊢
  cases hp : patterns[id]? with
  | none => simp [hp] at hc
  | some p =>
    simp only [hp, Option.map_some, Option.getD_some] at hc ⊢
    cases hcov : Prefilter.coverOf config p with
    | none => simp [hcov] at hc
    | some lit =>
      unfold Prefilter.coverOf at hcov
      split at hcov
      · split at hcov
        · split at hcov
          · cases hcov
            exact ⟨p, _, rfl, ‹_›, ‹_›, fun _ => rfl⟩
          · cases hcov
        · cases hcov
      · cases hcov

end Catalog

/-! ## §3 One entry, with and without the prefilter -/

namespace OpenEntry

/-- What `evaluate` makes of a pattern's answer on the entry `c`: a read failure is reported
under the entry's name, a verdict is remembered and counted. -/
def recordVerdict {σ : Type} (id : Nat) (c : OpenEntry σ) :
    Except IoError Bool × σ → Except Fault Bool × OpenEntry σ
  | (.error e, s) => (.error (.entryRead c.entry e.message), { c with source := s })
  | (.ok r, s) =>
    (.ok r, { c with source := s, results := (id, r) :: c.results, evaluated := c.evaluated + 1 })

theorem evaluate_eq_record {σ : Type} [ByteAccess σ] {lib : Library} {id : Nat}
    {c c1 : OpenEntry σ} {p : Pattern} {starts : Option (List Nat)}
    (hlook : c.results.lookup id = none) (hp : lib.pattern? id = some p)
    (hst : c.startsFor lib id = (.ok starts, c1)) :
    c.evaluate lib id = recordVerdict id c1 (p.evaluate starts c1.source) := by
  simp only [evaluate, hlook, hp, hst]
  rcases p.evaluate starts c1.source with ⟨_ | _, _⟩ <;> rfl

theorem startsFor_unfiltered {σ : Type} [ByteAccess σ] (lib : Library) (id : Nat)
    {c : OpenEntry σ} (h : c.usePrefilter = false) : c.startsFor lib id = (.ok none, c) := by
  unfold startsFor
  split <;> simp [h]

/-- An entry seen with the prefilter (`c`) and the same entry seen without it (`c'`) are in
step: the same source, verdicts and counters, and the bytes the prefilter scanned are the full
window the source still holds. -/
structure Shadows (F : Feed) (limit : Option Nat) (c c' : OpenEntry Stream) : Prop where
  entry : c'.entry = c.entry
  source : c'.source = c.source
  results : c'.results = c.results
  evaluated : c'.evaluated = c.evaluated
  unfiltered : c'.usePrefilter = false
  stream : c.source.Valid ∧ c.source.feed = F ∧ c.source.limit = limit
  scanned : ∀ data, c.scanned = some data → c.source.Full ∧ c.source.buffer = data

section Shadows

variable {F : Feed} {limit : Option Nat}

/-- A fresh entry with the prefilter on is in step with the same entry with it off. -/
theorem shadows_make (name : String) (F : Feed) (limit : Option Nat) (use : Bool) :
    Shadows F limit (make name (Stream.make F limit) use) (make name (Stream.make F limit) false) :=
  ⟨rfl, rfl, rfl, rfl, rfl, ⟨Stream.make_valid F limit, rfl, rfl⟩, fun _ h => by cases h⟩

/-- The same answer of a pattern, recorded on two entries in step, leaves them in step. -/
theorem shadows_record {c' : OpenEntry Stream} (c : OpenEntry Stream) (id : Nat)
    (hent : c'.entry = c.entry)
    (hres : c'.results = c.results) (hev : c'.evaluated = c.evaluated)
    (hun : c'.usePrefilter = false) {r : Except IoError Bool × Stream}
    (hs : r.2.Valid ∧ r.2.feed = F ∧ r.2.limit = limit)
    (hscan : ∀ data, c.scanned = some data → r.2.Full ∧ r.2.buffer = data) :
    (recordVerdict id c' r).1 = (recordVerdict id c r).1 ∧
      Shadows F limit (recordVerdict id c r).2 (recordVerdict id c' r).2 := by
  obtain ⟨x, s⟩ := r
  cases x with
  | error e => exact ⟨by simp [recordVerdict, hent], ⟨hent, rfl, hres, hev, hun, hs, hscan⟩⟩
  | ok b =>
    exact ⟨rfl, ⟨hent, rfl, by simp [recordVerdict, hres], by simp [recordVerdict, hev], hun,
      hs, hscan⟩⟩

variable {lib : Library} {settings : PrefilterSettings}
  (hpf : lib.prefilter = Prefilter.build lib.patterns settings) (hw : windowOf limit ≤ Size.max)
include hpf hw

/-- One pattern run on two entries in step gives the same answer and leaves them in step. -/
theorem evaluate_shadows {c c' : OpenEntry Stream} (h : Shadows F limit c c') (id : Nat) :
    (c'.evaluate lib id).1 = (c.evaluate lib id).1 ∧
      Shadows F limit (c.evaluate lib id).2 (c'.evaluate lib id).2 := by
  -- a pattern run keeps the stream valid, and a scanned window where it was
  have hkeep : ∀ (p : Pattern) (starts : Option (List Nat)) {s : Stream},
      (s.Valid ∧ s.feed = F ∧ s.limit = limit) →
        (p.evaluate starts s).2.Valid ∧ (p.evaluate starts s).2.feed = F ∧
          (p.evaluate starts s).2.limit = limit :=
    fun p starts _ hs => Pattern.evaluate_keeps (Stream.keeps F limit hw) p starts hs
  have hkeepFull : ∀ (p : Pattern) (starts : Option (List Nat)) {s : Stream} (data : ByteArray),
      (s.Valid ∧ s.feed = F ∧ s.limit = limit) → s.Full ∧ s.buffer = data →
        (p.evaluate starts s).2.Full ∧ (p.evaluate starts s).2.buffer = data :=
    fun p starts _ data hs hfull =>
      (Pattern.evaluate_keeps (Stream.keeps_full F limit hw data) p starts ⟨hs, hfull⟩).2
  cases hlook : c.results.lookup id with
  | some r =>
    have hlook' : c'.results.lookup id = some r := by rw [h.results, hlook]
    have e : c.evaluate lib id = (.ok r, c) := by simp [evaluate, hlook]
    have e' : c'.evaluate lib id = (.ok r, c') := by simp [evaluate, hlook']
    rw [e, e']
    exact ⟨rfl, h⟩
  | none =>
    have hlook' : c'.results.lookup id = none := by rw [h.results, hlook]
    cases hp : lib.pattern? id with
    | none =>
      have e : c.evaluate lib id = (.error (.definition (.unknownPattern id)), c) := by
        simp [evaluate, hlook, hp]
      have e' : c'.evaluate lib id = (.error (.definition (.unknownPattern id)), c') := by
        simp [evaluate, hlook', hp]
      rw [e, e']
      exact ⟨rfl, h⟩
    | some p =>
      -- without the prefilter the pattern runs on the source as it is
      rw [evaluate_eq_record hlook' hp (startsFor_unfiltered lib id h.unfiltered), h.source]
      by_cases hcov : ∃ pf, lib.prefilter = some pf ∧ c.usePrefilter = true ∧ pf.covers id = true
      · obtain ⟨pf, hpf', huse, hc⟩ := hcov
        obtain ⟨p', lit, hp', hfl, hlit, hoffs⟩ := Prefilter.covers_build (hpf ▸ hpf') hc
        obtain rfl : p = p' := Option.some.inj (hp.symm.trans hp')
        cases hscan : c.scanned with
        | some data =>
          -- the window was scanned before, and the source still holds it
          have hst : c.startsFor lib id = (.ok (some (Prefilter.occurrences data lit)), c) := by
            simp [startsFor, hpf', huse, hc, hscan, hoffs]
          obtain ⟨hfull, hbuf⟩ := h.scanned data hscan
          have hcont : ByteAccess.contents c.source = (.ok data, c.source) := by
            rw [← hbuf]
            exact Stream.contents_of_full hfull
          rw [evaluate_eq_record hlook hp hst, Pattern.evaluate_prefiltered hfl hlit hcont hcont]
          exact shadows_record _ id h.entry h.results h.evaluated h.unfiltered
            (hkeep p none h.stream) (fun d hd => hkeepFull p none d h.stream (h.scanned d hd))
        | none =>
          -- the prefilter reads the window first
          rcases hc0 : ByteAccess.contents c.source with ⟨r0, s1⟩
          have hs1 : s1.Valid ∧ s1.feed = F ∧ s1.limit = limit := by
            have := (Stream.keeps F limit hw).contents c.source h.stream
            rwa [hc0] at this
          cases r0 with
          | error e =>
            have hst : c.startsFor lib id =
                (.error (.entryRead c.entry e.message), { c with source := s1 }) := by
              simp [startsFor, hpf', huse, hc, hscan, hc0]
            have hev : c.evaluate lib id =
                (.error (.entryRead c.entry e.message), { c with source := s1 }) := by
              simp [evaluate, hlook, hp, hst]
            have hpe : p.evaluate none c.source = (.error e, s1) := by
              simp [Pattern.evaluate, hfl, hc0, Except.map]
            rw [hev, hpe]
            exact ⟨by simp [recordVerdict, h.entry], ⟨h.entry, rfl, h.results, h.evaluated,
              h.unfiltered, hs1, fun d hd => by simp [hscan] at hd⟩⟩
          | ok data =>
            have hst : c.startsFor lib id = (.ok (some (Prefilter.occurrences data lit)),
                { c with source := s1, scanned := some data }) := by
              simp [startsFor, hpf', huse, hc, hscan, hc0, hoffs]
            have hfull : s1.Full ∧ s1.buffer = data := by
              have hdata : c.source.contents.1 = .ok data := by
                rw [show c.source.contents = (.ok data, s1) from hc0]
              have := Stream.full_of_contents h.stream.1
                (by rw [Stream.window, h.stream.2.2]; exact hw) hdata
              rwa [show c.source.contents = (.ok data, s1) from hc0] at this
            have hc1 : ByteAccess.contents s1 = (.ok data, s1) := by
              rw [← hfull.2]
              exact Stream.contents_of_full hfull.1
            rw [evaluate_eq_record hlook hp hst, Pattern.evaluate_prefiltered hfl hlit hc0 hc1]
            refine shadows_record { c with source := s1, scanned := some data } id
              h.entry h.results h.evaluated h.unfiltered (hkeep p none h.stream) (fun d hd => ?_)
            cases hd
            rw [← Pattern.evaluate_prefiltered hfl hlit hc0 hc1]
            exact hkeepFull p _ data hs1 hfull
      · -- the pattern is not covered, or the prefilter is off: it runs on every start
        have hst : c.startsFor lib id = (.ok none, c) := by
          unfold startsFor
          split
          · rename_i pf hpf'
            have hnot : ¬(c.usePrefilter = true ∧ pf.covers id = true) :=
              fun hc => hcov ⟨pf, hpf', hc⟩
            simp only [Bool.and_eq_true] at hnot ⊢
            rw [if_neg hnot]
          · rfl
        rw [evaluate_eq_record hlook hp hst]
        exact shadows_record _ id h.entry h.results h.evaluated h.unfiltered
          (hkeep p none h.stream) (fun d hd => hkeepFull p none d h.stream (h.scanned d hd))

/-- A conjunction checked on two entries in step gets the same answer and leaves them in
step. -/
theorem allMatch_shadows {c c' : OpenEntry Stream} (h : Shadows F limit c c') (ids : List Nat) :
    (allMatch lib ids c').1 = (allMatch lib ids c).1 ∧
      Shadows F limit (allMatch lib ids c).2 (allMatch lib ids c').2 := by
  induction ids generalizing c c' with
  | nil => exact ⟨rfl, h⟩
  | cons id rest ih =>
    obtain ⟨hr, hsh⟩ := evaluate_shadows hpf hw h id
    simp only [allMatch]
    rcases he : c.evaluate lib id with ⟨r, c2⟩
    rcases he' : c'.evaluate lib id with ⟨r', c2'⟩
    rw [he, he'] at hr hsh
    dsimp only at hr hsh
    obtain rfl : r = r' := hr.symm
    cases r with
    | error e => exact ⟨rfl, hsh⟩
    | ok b =>
      cases b with
      | true => exact ih hsh
      | false => exact ⟨rfl, hsh⟩

/-- The alternatives of a file checked on two entries in step get the same answer and leave
them in step. -/
theorem anyMatch_shadows {c c' : OpenEntry Stream} (h : Shadows F limit c c')
    (alts : List (List Nat)) :
    (anyMatch lib alts c').1 = (anyMatch lib alts c).1 ∧
      Shadows F limit (anyMatch lib alts c).2 (anyMatch lib alts c').2 := by
  induction alts generalizing c c' with
  | nil => exact ⟨rfl, h⟩
  | cons conj rest ih =>
    obtain ⟨hr, hsh⟩ := allMatch_shadows hpf hw h conj
    simp only [anyMatch]
    rcases he : allMatch lib conj c with ⟨r, c2⟩
    rcases he' : allMatch lib conj c' with ⟨r', c2'⟩
    rw [he, he'] at hr hsh
    dsimp only at hr hsh
    obtain rfl : r = r' := hr.symm
    cases r with
    | error e => exact ⟨rfl, hsh⟩
    | ok b =>
      cases b with
      | true => exact ⟨rfl, hsh⟩
      | false => exact ih hsh

/-- Entries in step stay in step over any run of patterns. -/
theorem shadows_foldl {c c' : OpenEntry Stream} (h : Shadows F limit c c') (ids : List Nat) :
    Shadows F limit (ids.foldl (fun c id => (c.evaluate lib id).2) c)
      (ids.foldl (fun c id => (c.evaluate lib id).2) c') := by
  induction ids generalizing c c' with
  | nil => exact h
  | cons id ids ih => exact ih (evaluate_shadows hpf hw h id).2

end Shadows

end OpenEntry

/-! ## §4 Identification does not see the prefilter -/

namespace Candidate

open OpenEntry

section Lifting

variable {F : Feed} {limit : Option Nat} {lib : Library} {settings : PrefilterSettings}

/-- Two runs over the files that agree on the files and the outcome, with entries in step. -/
def Agree (F : Feed) (limit : Option Nat)
    (x x' : List FileTally × ContentOutcome × OpenEntry Stream) : Prop :=
  x'.1 = x.1 ∧ x'.2.1 = x.2.1 ∧ Shadows F limit x.2.2 x'.2.2

theorem Agree.cons {x x' : List FileTally × ContentOutcome × OpenEntry Stream}
    (h : Agree F limit x x') (g : FileTally) :
    Agree F limit (g :: x.1, x.2.1, x.2.2) (g :: x'.1, x'.2.1, x'.2.2) := by
  obtain ⟨h1, h2, h3⟩ := h
  exact ⟨by rw [h1], h2, h3⟩

variable (hpf : lib.prefilter = Prefilter.build lib.patterns settings)
  (hw : windowOf limit ≤ Size.max)
include hpf hw

/-- Feeding an entry to the files gives the same files and outcome whether or not the entry
is prefiltered. -/
theorem noteContentFiles_shadows (name : String) (files : List FileTally)
    {c c' : OpenEntry Stream} (h : Shadows F limit c c') :
    Agree F limit (noteContentFiles lib name files c) (noteContentFiles lib name files c') := by
  induction files generalizing c c' with
  | nil => exact ⟨rfl, rfl, h⟩
  | cons f rest ih =>
    by_cases hwant : f.wantsEntry name = true
    · obtain ⟨hr, hsh⟩ := anyMatch_shadows hpf hw h f.requirement.binary
      simp only [noteContentFiles, hwant, Bool.not_true, Bool.false_eq_true, if_false]
      rcases ha : anyMatch lib f.requirement.binary c with ⟨r, c2⟩
      rcases ha' : anyMatch lib f.requirement.binary c' with ⟨r', c2'⟩
      rw [ha, ha'] at hr hsh
      dsimp only at hr hsh
      obtain rfl : r = r' := hr.symm
      cases r with
      | error e => exact ⟨rfl, rfl, hsh⟩
      | ok b =>
        cases hpres : f.requirement.presence <;> cases b
        · -- a required file that fails: a glob moves on, any other path rejects
          dsimp only
          split
          · exact (ih hsh).cons f
          · exact ⟨rfl, rfl, hsh⟩
        · exact (ih hsh).cons _
        · exact (ih hsh).cons f
        · exact ⟨rfl, rfl, hsh⟩
    · simp only [noteContentFiles, hwant, Bool.not_false, if_true]
      exact (ih h).cons f

/-- Showing an entry to a candidate gives the same candidate and outcome whether or not the
entry is prefiltered. -/
theorem noteContent_shadows (name : String) (cand : Candidate) {c c' : OpenEntry Stream}
    (h : Shadows F limit c c') :
    (cand.noteContent lib name c').1 = (cand.noteContent lib name c).1 ∧
      (cand.noteContent lib name c').2.1 = (cand.noteContent lib name c).2.1 ∧
      Shadows F limit (cand.noteContent lib name c).2.2 (cand.noteContent lib name c').2.2 := by
  unfold noteContent
  split
  · exact ⟨rfl, rfl, h⟩
  · obtain ⟨h1, h2, h3⟩ := noteContentFiles_shadows hpf hw name cand.files h
    rcases hn : noteContentFiles lib name cand.files c with ⟨fs, o, c2⟩
    rcases hn' : noteContentFiles lib name cand.files c' with ⟨fs', o', c2'⟩
    rw [hn, hn'] at h1 h2 h3
    dsimp only at h1 h2 h3
    obtain rfl : fs = fs' := h1.symm
    obtain rfl : o = o' := h2.symm
    cases o <;> exact ⟨rfl, rfl, h3⟩

end Lifting

end Candidate

namespace Identify

open OpenEntry

section Lifting

variable {F : Feed} {limit : Option Nat} {lib : Library} {settings : PrefilterSettings}
  (hpf : lib.prefilter = Prefilter.build lib.patterns settings)
include hpf

/-- Showing an entry to candidates in turn gives the same candidates, count and first failure
whether or not the entry is prefiltered. -/
theorem showContent_shadows (hw : windowOf limit ≤ Size.max) (name : String) (is : List Nat)
    (cs : List Candidate) {c c' : OpenEntry Stream} (h : Shadows F limit c c') (shown : Nat)
    (first : Option Fault) :
    (showContent lib name is cs c' shown first).1 = (showContent lib name is cs c shown first).1 ∧
      (showContent lib name is cs c' shown first).2.2 =
        (showContent lib name is cs c shown first).2.2 ∧
      Shadows F limit (showContent lib name is cs c shown first).2.1
        (showContent lib name is cs c' shown first).2.1 := by
  induction is generalizing cs c c' shown first with
  | nil => exact ⟨rfl, rfl, h⟩
  | cons i is ih =>
    simp only [showContent]
    cases hi : cs[i]? with
    | none => exact ih cs h (shown + 1) first
    | some cand =>
      obtain ⟨h1, h2, h3⟩ := Candidate.noteContent_shadows hpf hw name cand h
      rcases hn : cand.noteContent lib name c with ⟨r, cand', c2⟩
      rcases hn' : cand.noteContent lib name c' with ⟨r', cand'', c2'⟩
      dsimp only
      rw [hn, hn'] at h1 h2 h3 ⊢
      dsimp only at h1 h2 h3 ⊢
      obtain rfl : r = r' := h1.symm
      obtain rfl : cand' = cand'' := h2.symm
      exact ih _ h3 _ _

/-- Examining an entry does not depend on the prefilter setting. -/
theorem examineEntry_unfiltered (config : ScanSettings)
    (hw : windowOf config.scanLimit ≤ Size.max) (e : Entry) (needers : List Nat) (p : Progress) :
    examineEntry lib config e needers p =
      examineEntry lib { config with usePrefilter := false } e needers p := by
  unfold examineEntry
  by_cases h1 : needers.isEmpty = true
  · simp only [h1, if_true]
  simp only [h1, Bool.false_eq_true, if_false]
  by_cases h2 : config.expired = true
  · simp only [h2, if_true]
  simp only [h2, Bool.false_eq_true, if_false]
  split
  · rfl
  cases e.content with
  | error f => rfl
  | ok feed =>
    dsimp only
    obtain ⟨hcs, hrest, hsh⟩ := showContent_shadows hpf hw e.name
      (needers.filter fun i => (p.candidates[i]?.map (·.needsContent e.name)) = some true)
      p.candidates (shadows_make e.name feed config.scanLimit config.usePrefilter) 0 none
    rcases hs : showContent lib e.name
      (needers.filter fun i => (p.candidates[i]?.map (·.needsContent e.name)) = some true)
      p.candidates (make e.name (Stream.make feed config.scanLimit) config.usePrefilter) 0 none
      with ⟨cs, c1, shown, first⟩
    rcases hs' : showContent lib e.name
      (needers.filter fun i => (p.candidates[i]?.map (·.needsContent e.name)) = some true)
      p.candidates (make e.name (Stream.make feed config.scanLimit) false) 0 none
      with ⟨cs', c1', shown', first'⟩
    rw [hs, hs'] at hcs hrest hsh
    dsimp only at hcs hrest hsh
    obtain rfl : cs = cs' := hcs.symm
    obtain ⟨rfl, rfl⟩ : shown = shown' ∧ first = first' := Prod.ext_iff.1 hrest.symm
    rw [hsh.evaluated, hsh.source]

/-- The content pass does not depend on the prefilter setting. -/
theorem contentPass_unfiltered (config : ScanSettings)
    (hw : windowOf config.scanLimit ≤ Size.max) (es : List Entry) (ns : List (List Nat))
    (p : Progress) :
    contentPass lib config es ns p =
      contentPass lib { config with usePrefilter := false } es ns p := by
  induction es generalizing ns p with
  | nil => cases ns <;> rfl
  | cons e es ih =>
    cases ns with
    | nil => rfl
    | cons n ns =>
      simp only [contentPass, examineEntry_unfiltered hpf config hw e n p]
      congr 1
      funext p'
      exact ih ns p'

end Lifting

end Identify

/-- Identification does not depend on the prefilter setting. -/
theorem identify_unfiltered (cat : Catalog) (config : ScanSettings)
    (hw : windowOf config.scanLimit ≤ Size.max) (c : Container) :
    identify (Library.ofCatalog cat) config c =
      identify (Library.ofCatalog cat) { config with usePrefilter := false } c := by
  have hpass := Identify.contentPass_unfiltered
    (show (Library.ofCatalog cat).prefilter =
      Prefilter.build (Library.ofCatalog cat).patterns cat.prefilter from rfl) config hw
  simp only [identify, hpass]

/-- The literal prefilter changes nothing: identification gives the same answer, warnings and
counters with the prefilter on as with it off; and on one entry, after any run of patterns,
the next pattern gets the same verdict or the same failure either way. -/
theorem prefilter_changes_nothing (cat : Catalog) (config : ScanSettings)
    (hw : windowOf config.scanLimit ≤ Size.max) :
    (∀ c : Container, identify (Library.ofCatalog cat) { config with usePrefilter := true } c =
      identify (Library.ofCatalog cat) { config with usePrefilter := false } c) ∧
    ∀ (F : Feed) (name : String) (ids : List Nat) (id : Nat),
      ((ids.foldl (fun c id => (c.evaluate (Library.ofCatalog cat) id).2)
          (OpenEntry.make name (Stream.make F config.scanLimit) true)).evaluate
            (Library.ofCatalog cat) id).1 =
        ((ids.foldl (fun c id => (c.evaluate (Library.ofCatalog cat) id).2)
          (OpenEntry.make name (Stream.make F config.scanLimit) false)).evaluate
            (Library.ofCatalog cat) id).1 := by
  have hpf : (Library.ofCatalog cat).prefilter =
      Prefilter.build (Library.ofCatalog cat).patterns cat.prefilter := rfl
  refine ⟨fun c => ?_, fun F name ids id => ?_⟩
  · -- both settings switch the prefilter off to the same settings
    exact (identify_unfiltered cat { config with usePrefilter := true } hw c).trans
      (identify_unfiltered cat { config with usePrefilter := false } hw c).symm
  · have h :=
      OpenEntry.shadows_foldl hpf hw (OpenEntry.shadows_make name F config.scanLimit true) ids
    exact ((OpenEntry.evaluate_shadows hpf hw h id).1).symm

/-- The prefilter changes nothing without a scan limit, over the catalog built from a document
whose one pattern, `opendocument` anywhere in the `mimetype` entry, the prefilter covers. -/
theorem prefilter_changes_nothing_covered :
    let doc : Definitions :=
      { signatures := [{ id := 1, container := .zip,
                         files := [{ path := "mimetype",
                                     binary := [[{ sequence := "'opendocument'" }]] }] }] }
    let cat : Catalog :=
      { patterns := [⟨"'opendocument'", .floating, [.literal "opendocument".toUTF8.data.toList]⟩],
        signatures := [{ id := 1, container := .zip, description := none,
                         files := [{ path := .exact "mimetype", presence := .required,
                                     binary := [[0]] }] }] }
    ({} : Catalog).add doc = .ok cat ∧
      (Library.ofCatalog cat).prefilter.map (·.covers 0) = some true ∧
      windowOf (({} : ScanSettings).scanLimit) ≤ Size.max ∧
      (∀ c : Container,
        identify (Library.ofCatalog cat) { ({} : ScanSettings) with usePrefilter := true } c =
          identify (Library.ofCatalog cat) { ({} : ScanSettings) with usePrefilter := false } c) ∧
      ∀ (F : Feed) (name : String) (ids : List Nat) (id : Nat),
        ((ids.foldl (fun c id => (c.evaluate (Library.ofCatalog cat) id).2)
            (OpenEntry.make name (Stream.make F none) true)).evaluate
              (Library.ofCatalog cat) id).1 =
          ((ids.foldl (fun c id => (c.evaluate (Library.ofCatalog cat) id).2)
            (OpenEntry.make name (Stream.make F none) false)).evaluate
              (Library.ofCatalog cat) id).1 := by
  intro doc cat
  exact ⟨by decide +kernel, by decide +kernel, Nat.le_refl _,
    prefilter_changes_nothing cat {} (Nat.le_refl _)⟩

end ContainerProbe
