import Mathlib
import ContainerProbe.Proofs.WellFormed

/-!
# Byte sequences placed by a window

A byte sequence may be declared with a reference and offsets: `bof` with offsets `m ..= M`
places its pattern `m` to `M` bytes after the start of the entry, `eof` the same distance
before its end. The greatest offset defaults to the least, and the least to zero. Offsets
without a `bof` or `eof` reference, and a greatest offset below the least, are refused.

The compiler realizes a window as a gap of `m` to `M` bytes put in front of the base pattern's
fragments (behind them for `eof`), adds a start (end) anchor to the base pattern's own, and
coalesces the fragments again, so that a gap the base pattern begins (ends) with merges into
the window's gap. None of this changes what the window means: over an entry read with no scan
limit, the placed pattern finds a match exactly when the base fragments match a piece of the
entry that starts (ends) between `m` and `M` bytes from the start (end), a piece that must also
reach the last (first) byte when the base pattern was anchored there.

The entry is held in memory, so it is shorter than the largest size, where coalescing keeps
what fragments match (`Fragment.matchesAll_coalesce`).

## Main statements

* `Pattern.finds_placeAfterStart`, `Pattern.finds_placeBeforeEnd`: the meaning of a window.
* `SequenceDef.compile_window`: which declarations are refused, and what the others compile
  to.
-/

namespace ContainerProbe

/-! ## §1 Anchors and the scan window -/

theorem Anchor.combine_atStart (a : Anchor) :
    a.combine .atStart = if a.fixesEnd then .exact else .atStart := by
  cases a <;> rfl

theorem Anchor.combine_atEnd (a : Anchor) :
    a.combine .atEnd = if a.fixesStart then .exact else .atEnd := by
  cases a <;> rfl

namespace Pattern

variable {p q : Pattern} {lo hi : Nat} {d s : List UInt8}

/-- With no scan limit, the window of an entry held in memory is the whole entry. -/
theorem windowWidth_unlimited (hd : d.length ≤ Size.max) : windowWidth none d = d.length := by
  simp [windowWidth, windowOf, Nat.min_eq_right hd]

theorem finds_atStart (hp : p.anchor = .atStart) (hd : d.length ≤ Size.max) :
    p.Finds none d ↔ ∃ w, w <+: d ∧ Fragment.MatchesAll p.fragments w := by
  simp only [Finds, hp, windowWidth_unlimited hd, List.take_length]
  constructor
  · rintro ⟨k, hk⟩
    exact ⟨d.take k, List.take_prefix k d, hk⟩
  · rintro ⟨w, hw, hm⟩
    exact ⟨w.length, List.prefix_iff_eq_take.1 hw ▸ hm⟩

theorem finds_atEnd (hp : p.anchor = .atEnd) (hd : d.length ≤ Size.max) :
    p.Finds none d ↔ ∃ w, w <:+ d ∧ Fragment.MatchesAll p.fragments w := by
  simp only [Finds, hp, windowWidth_unlimited hd, Nat.sub_self, List.drop_zero]
  constructor
  · rintro ⟨k, hk⟩
    exact ⟨d.drop k, List.drop_suffix k d, hk⟩
  · rintro ⟨w, hw, hm⟩
    exact ⟨d.length - w.length, List.suffix_iff_eq_drop.1 hw ▸ hm⟩

theorem finds_exact (hp : p.anchor = .exact) (hd : d.length ≤ Size.max) :
    p.Finds none d ↔ Fragment.MatchesAll p.fragments d := by
  simp [Finds, hp, windowWidth_unlimited hd]

/-! ## §2 The window's gap -/

theorem ordered_window (hle : lo ≤ hi) : (Fragment.gap lo (some hi)).Ordered := by
  intro lo' hi' h
  cases h
  exact hle

/-- The fragments of a pattern placed after the start match a run that a gap of `lo` to `hi`
bytes begins and the base fragments end. -/
theorem matchesAll_placeAfterStart (hq : ∀ f ∈ q.fragments, f.Ordered) (hle : lo ≤ hi)
    (hs : s.length < Size.max) :
    Fragment.MatchesAll (q.placeAfterStart lo hi).fragments s ↔
      ∃ u piece, s = u ++ piece ∧ lo ≤ u.length ∧ u.length ≤ hi ∧
        Fragment.MatchesAll q.fragments piece := by
  have hord : ∀ f ∈ Fragment.gap lo (some hi) :: q.fragments, f.Ordered := by
    intro f hf
    rcases List.mem_cons.1 hf with rfl | hf
    · exact ordered_window hle
    · exact hq f hf
  show Fragment.MatchesAll (Fragment.coalesce _) s ↔ _
  rw [Fragment.matchesAll_coalesce hord hs, Fragment.matchesAll_cons_iff]
  simp only [Fragment.matches_gap_iff, Option.some.injEq, forall_eq', and_assoc]

/-- The fragments of a pattern placed before the end match a run that the base fragments begin
and a gap of `lo` to `hi` bytes ends. -/
theorem matchesAll_placeBeforeEnd (hq : ∀ f ∈ q.fragments, f.Ordered) (hle : lo ≤ hi)
    (hs : s.length < Size.max) :
    Fragment.MatchesAll (q.placeBeforeEnd lo hi).fragments s ↔
      ∃ piece v, s = piece ++ v ∧ lo ≤ v.length ∧ v.length ≤ hi ∧
        Fragment.MatchesAll q.fragments piece := by
  have hord : ∀ f ∈ q.fragments ++ [Fragment.gap lo (some hi)], f.Ordered := by
    intro f hf
    rcases List.mem_append.1 hf with hf | hf
    · exact hq f hf
    · rw [List.mem_singleton.1 hf]
      exact ordered_window hle
  show Fragment.MatchesAll (Fragment.coalesce _) s ↔ _
  rw [Fragment.matchesAll_coalesce hord hs, Fragment.matchesAll_iff_chain, Chain.append_iff]
  simp only [Chain.singleton_iff, Fragment.matches_gap_iff, Option.some.injEq, forall_eq',
    ← Fragment.matchesAll_iff_chain]
  constructor
  · rintro ⟨piece, v, rfl, hp, hlo, hhi⟩
    exact ⟨piece, v, rfl, hlo, hhi, hp⟩
  · rintro ⟨piece, v, rfl, hlo, hhi, hp⟩
    exact ⟨piece, v, rfl, hp, hlo, hhi⟩

/-! ## §3 What a window means -/

/-- With no scan limit, a pattern placed `lo` to `hi` bytes after the start of an entry finds
a match exactly when the base fragments match a piece of the entry that starts between `lo`
and `hi` bytes after its start, and ends at its last byte when the base pattern must. -/
theorem finds_placeAfterStart (hq : ∀ f ∈ q.fragments, f.Ordered) (hle : lo ≤ hi)
    (hd : d.length < Size.max) :
    (q.placeAfterStart lo hi).Finds none d ↔
      ∃ u piece v, d = u ++ piece ++ v ∧ lo ≤ u.length ∧ u.length ≤ hi ∧
        Fragment.MatchesAll q.fragments piece ∧ (q.anchor.fixesEnd = true → v = []) := by
  have hanchor : (q.placeAfterStart lo hi).anchor = q.anchor.combine .atStart := rfl
  rw [Anchor.combine_atStart] at hanchor
  cases he : q.anchor.fixesEnd
  · -- the placed pattern is anchored at the start only: the piece ends anywhere
    rw [he] at hanchor
    rw [finds_atStart hanchor (Nat.le_of_lt hd)]
    constructor
    · rintro ⟨w, ⟨v, rfl⟩, hw⟩
      have hwlen : w.length < Size.max := by simp only [List.length_append] at hd; omega
      obtain ⟨u, piece, rfl, hlo, hhi, hp⟩ := (matchesAll_placeAfterStart hq hle hwlen).1 hw
      exact ⟨u, piece, v, rfl, hlo, hhi, hp, fun h => by cases h⟩
    · rintro ⟨u, piece, v, rfl, hlo, hhi, hp, -⟩
      have hwlen : (u ++ piece).length < Size.max := by
        simp only [List.length_append] at hd ⊢; omega
      exact ⟨u ++ piece, ⟨v, rfl⟩,
        (matchesAll_placeAfterStart hq hle hwlen).2 ⟨u, piece, rfl, hlo, hhi, hp⟩⟩
  · -- anchored at both ends: the piece runs to the last byte
    rw [he] at hanchor
    rw [finds_exact hanchor (Nat.le_of_lt hd), matchesAll_placeAfterStart hq hle hd]
    constructor
    · rintro ⟨u, piece, rfl, hlo, hhi, hp⟩
      exact ⟨u, piece, [], by simp, hlo, hhi, hp, fun _ => rfl⟩
    · rintro ⟨u, piece, v, rfl, hlo, hhi, hp, hv⟩
      rw [hv rfl, List.append_nil]
      exact ⟨u, piece, rfl, hlo, hhi, hp⟩

/-- With no scan limit, a pattern placed `lo` to `hi` bytes before the end of an entry finds
a match exactly when the base fragments match a piece of the entry that ends between `lo` and
`hi` bytes before its end, and starts at its first byte when the base pattern must. -/
theorem finds_placeBeforeEnd (hq : ∀ f ∈ q.fragments, f.Ordered) (hle : lo ≤ hi)
    (hd : d.length < Size.max) :
    (q.placeBeforeEnd lo hi).Finds none d ↔
      ∃ u piece v, d = u ++ piece ++ v ∧ lo ≤ v.length ∧ v.length ≤ hi ∧
        Fragment.MatchesAll q.fragments piece ∧ (q.anchor.fixesStart = true → u = []) := by
  have hanchor : (q.placeBeforeEnd lo hi).anchor = q.anchor.combine .atEnd := rfl
  rw [Anchor.combine_atEnd] at hanchor
  cases hs : q.anchor.fixesStart
  · -- the placed pattern is anchored at the end only: the piece starts anywhere
    rw [hs] at hanchor
    rw [finds_atEnd hanchor (Nat.le_of_lt hd)]
    constructor
    · rintro ⟨w, ⟨u, rfl⟩, hw⟩
      have hwlen : w.length < Size.max := by simp only [List.length_append] at hd; omega
      obtain ⟨piece, v, rfl, hlo, hhi, hp⟩ := (matchesAll_placeBeforeEnd hq hle hwlen).1 hw
      exact ⟨u, piece, v, by simp, hlo, hhi, hp, fun h => by cases h⟩
    · rintro ⟨u, piece, v, rfl, hlo, hhi, hp, -⟩
      have hwlen : (piece ++ v).length < Size.max := by
        simp only [List.length_append] at hd ⊢; omega
      exact ⟨piece ++ v, ⟨u, by simp⟩,
        (matchesAll_placeBeforeEnd hq hle hwlen).2 ⟨piece, v, rfl, hlo, hhi, hp⟩⟩
  · -- anchored at both ends: the piece starts at the first byte
    rw [hs] at hanchor
    rw [finds_exact hanchor (Nat.le_of_lt hd), matchesAll_placeBeforeEnd hq hle hd]
    constructor
    · rintro ⟨piece, v, rfl, hlo, hhi, hp⟩
      exact ⟨[], piece, v, by simp, hlo, hhi, hp, fun _ => rfl⟩
    · rintro ⟨u, piece, v, rfl, hlo, hhi, hp, hu⟩
      rw [hu rfl, List.nil_append]
      exact ⟨piece, v, rfl, hlo, hhi, hp⟩

end Pattern

/-! ## §4 Declared windows -/

namespace SequenceDef

/-- The least offset of a byte sequence: zero unless given. -/
def lowOffset (s : SequenceDef) : Nat := s.minOffset.getD 0

/-- The greatest offset of a byte sequence: the least unless given. -/
def highOffset (s : SequenceDef) : Nat := s.maxOffset.getD s.lowOffset

/-- A declaration whose window is refused: offsets without a `bof` or `eof` reference, or a
greatest offset below the least. -/
def WindowRefused (s : SequenceDef) : Prop :=
  ((s.minOffset ≠ none ∨ s.maxOffset ≠ none) ∧
      (s.reference = none ∨ s.reference = some .variable)) ∨
    s.highOffset < s.lowOffset

instance (s : SequenceDef) : Decidable s.WindowRefused :=
  inferInstanceAs (Decidable (_ ∨ _))

/-- What a declared byte sequence asks of an entry `d`, for the base pattern `q` of its
expression: with `bof`, the base fragments match a piece of `d` that starts between the least
and the greatest offset after the start of `d`, reaching the end of `d` when `q` is anchored
there; with `eof`, a piece that ends between the offsets before the end of `d`, beginning at
the start of `d` when `q` is anchored there; without a reference, what `q` itself asks. -/
def Placed (s : SequenceDef) (q : Pattern) (d : List UInt8) : Prop :=
  match s.reference with
  | some .bof =>
    ∃ u piece v, d = u ++ piece ++ v ∧ s.lowOffset ≤ u.length ∧ u.length ≤ s.highOffset ∧
      Fragment.MatchesAll q.fragments piece ∧ (q.anchor.fixesEnd = true → v = [])
  | some .eof =>
    ∃ u piece v, d = u ++ piece ++ v ∧ s.lowOffset ≤ v.length ∧ v.length ≤ s.highOffset ∧
      Fragment.MatchesAll q.fragments piece ∧ (q.anchor.fixesStart = true → u = [])
  | _ => q.Finds none d

variable {s : SequenceDef} {q : Pattern}

theorem compile_of_bof (hq : Pattern.compile s.sequence = .ok q) (hr : s.reference = some .bof) :
    s.compile =
      if s.highOffset < s.lowOffset then
        .error (.definition (.maxBelowMin s.highOffset s.lowOffset s.sequence))
      else .ok (q.placeAfterStart s.lowOffset s.highOffset) := by
  simp only [compile, hq, hr, highOffset, lowOffset]
  rfl

theorem compile_of_eof (hq : Pattern.compile s.sequence = .ok q) (hr : s.reference = some .eof) :
    s.compile =
      if s.highOffset < s.lowOffset then
        .error (.definition (.maxBelowMin s.highOffset s.lowOffset s.sequence))
      else .ok (q.placeBeforeEnd s.lowOffset s.highOffset) := by
  simp only [compile, hq, hr, highOffset, lowOffset]
  rfl

theorem compile_of_unplaced (hq : Pattern.compile s.sequence = .ok q)
    (hr : s.reference = none ∨ s.reference = some .variable) :
    s.compile =
      if s.minOffset ≠ none ∨ s.maxOffset ≠ none then
        .error (.definition (.offsetsNeedReference s.sequence))
      else .ok q := by
  have hset : (s.minOffset.isSome || s.maxOffset.isSome) = true ↔
      (s.minOffset ≠ none ∨ s.maxOffset ≠ none) := by
    simp [Option.isSome_iff_ne_none]
  rcases hr with hr | hr <;>
  · simp only [compile, hq, hr]
    by_cases h : s.minOffset ≠ none ∨ s.maxOffset ≠ none
    · rw [if_pos (hset.2 h), if_pos h]
    · rw [if_neg (mt hset.1 h), if_neg h]

/-- Without a `bof` or `eof` reference, a window is refused exactly when offsets are given. -/
theorem windowRefused_of_unplaced (hu : s.reference = none ∨ s.reference = some .variable) :
    s.WindowRefused ↔ (s.minOffset ≠ none ∨ s.maxOffset ≠ none) := by
  constructor
  · rintro (⟨hset, -⟩ | hlt)
    · exact hset
    · -- with no offsets given, both default to zero
      by_contra hnone
      simp only [not_or, not_not] at hnone
      simp [highOffset, lowOffset, hnone.1, hnone.2] at hlt
  · exact fun hset => .inl ⟨hset, hu⟩

/-- With a `bof` or `eof` reference, a window is refused exactly when its greatest offset is
below its least. -/
theorem windowRefused_of_placed (hp : s.reference = some .bof ∨ s.reference = some .eof) :
    s.WindowRefused ↔ s.highOffset < s.lowOffset := by
  constructor
  · rintro (⟨-, hu⟩ | hlt)
    · rcases hp with hp | hp <;> rcases hu with hu | hu <;> simp [hp] at hu
    · exact hlt
  · exact .inr

/-- Without a `bof` or `eof` reference, a sequence is refused when it has offsets, and is its
expression's pattern otherwise. -/
theorem compile_window_unplaced (hq : Pattern.compile s.sequence = .ok q)
    (hu : s.reference = none ∨ s.reference = some .variable) :
    (s.WindowRefused → ∃ problem, s.compile = .error (.definition problem)) ∧
    (¬s.WindowRefused → ∃ p, s.compile = .ok p ∧
      ∀ d : List UInt8, d.length < Size.max → (p.Finds none d ↔ s.Placed q d)) ∧
    (s.minOffset = none → s.maxOffset = none → s.compile = .ok q) := by
  rw [compile_of_unplaced hq hu, windowRefused_of_unplaced hu]
  refine ⟨fun h => ⟨_, if_pos h⟩, fun h => ⟨q, if_neg h, fun d _ => ?_⟩,
    fun hmin hmax => by simp [hmin, hmax]⟩
  rcases hu with hr | hr <;> simp only [Placed, hr]

/-- A declared byte sequence whose expression compiles to `q` is refused, with a definition
fault, exactly when its offsets lack a `bof` or `eof` reference or its greatest offset is below
its least. Otherwise it compiles to a pattern that, over every entry held in memory and read
with no scan limit, finds a match exactly when the entry holds `q` where the window puts it;
and a sequence with neither reference nor offsets compiles to `q` itself. -/
theorem compile_window (hq : Pattern.compile s.sequence = .ok q) :
    (s.WindowRefused → ∃ problem, s.compile = .error (.definition problem)) ∧
    (¬s.WindowRefused → ∃ p, s.compile = .ok p ∧
      ∀ d : List UInt8, d.length < Size.max → (p.Finds none d ↔ s.Placed q d)) ∧
    ((s.reference = none ∨ s.reference = some .variable) → s.minOffset = none →
      s.maxOffset = none → s.compile = .ok q) := by
  have hord : ∀ f ∈ q.fragments, f.Ordered :=
    fun f hf => Fragment.ordered_of_wellFormed (Pattern.compile_wellFormed hq f hf)
  -- the reference decides which window, if any, is built
  rcases hr : s.reference with _ | ⟨_ | _ | _⟩
  · obtain ⟨hrefused, hplaced, hsame⟩ := compile_window_unplaced hq (.inl hr)
    exact ⟨hrefused, hplaced, fun _ => hsame⟩
  · rw [compile_of_bof hq hr, windowRefused_of_placed (.inl hr)]
    refine ⟨fun h => ⟨_, if_pos h⟩, fun h => ⟨_, if_neg h, fun d hd => ?_⟩,
      fun hu => by simp at hu⟩
    simp only [Placed, hr]
    exact Pattern.finds_placeAfterStart hord (Nat.le_of_not_lt h) hd
  · rw [compile_of_eof hq hr, windowRefused_of_placed (.inr hr)]
    refine ⟨fun h => ⟨_, if_pos h⟩, fun h => ⟨_, if_neg h, fun d hd => ?_⟩,
      fun hu => by simp at hu⟩
    simp only [Placed, hr]
    exact Pattern.finds_placeBeforeEnd hord (Nat.le_of_not_lt h) hd
  · obtain ⟨hrefused, hplaced, hsame⟩ := compile_window_unplaced hq (.inr hr)
    exact ⟨hrefused, hplaced, fun _ => hsame⟩

/-- The sequence `'ABC'` placed two to five bytes after the start is not refused, and an entry
with the text three bytes in is read where the window puts it. -/
theorem compile_window_bof :
    let s : SequenceDef := ⟨"'ABC'", some .bof, some 2, some 5⟩
    let q : Pattern := ⟨"'ABC'", .floating, [.literal [65, 66, 67]]⟩
    Pattern.compile s.sequence = .ok q ∧ ¬s.WindowRefused ∧
      ∃ p, s.compile = .ok p ∧
        (p.Finds none [0, 0, 0, 65, 66, 67] ↔ s.Placed q [0, 0, 0, 65, 66, 67]) := by
  intro s q
  have hq : Pattern.compile s.sequence = .ok q := by decide +kernel
  have hok : ¬s.WindowRefused := by decide
  obtain ⟨p, hp, hmeaning⟩ := (compile_window hq).2.1 hok
  exact ⟨hq, hok, p, hp, hmeaning _ (by decide)⟩

end SequenceDef

end ContainerProbe
