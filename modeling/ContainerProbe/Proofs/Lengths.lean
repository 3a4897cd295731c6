import Mathlib
import ContainerProbe.Proofs.WellFormed

/-!
# The length bounds of a pattern

Before matching, a pattern's anchor and its length bounds decide how much of an entry is read:
an entry shorter than the shortest span is refused at once, and an anchored pattern reads no
more than its longest span. Both bounds are machine sizes, summed over the fragments.

The longest span is a checked sum: it is absent when a gap has no upper bound, and also when
the fragments' longest spans add up past the largest size, which gap bounds as large as the
largest size make possible. The matcher then reads such a pattern as unbounded. The shortest
span is the plain sum of the fragments' shortest spans as long as that sum is a size.

Whatever the sums, both bounds are sound for the matcher's purpose: a run the fragments match
is never shorter than the shortest span, nor longer than the longest when there is one.

## Main statements

* `Pattern.minLength_eq_sum`: the shortest span is the sum of the fragments' shortest spans
  when that sum is a size.
* `Pattern.maxLength_eq`: the longest span is the sum of the fragments' longest spans, absent
  exactly when a gap is unbounded or the sum is not a size.
* `Pattern.length_bounds`: both, with the bounds on every match.
-/

namespace ContainerProbe

/-! ## §1 Sums of sizes -/

/-- The wrapping sum is the sum modulo the number of sizes. -/
theorem Size.wrapSum_eq_mod (xs : List Nat) : Size.wrapSum xs = xs.sum % Size.modulus := by
  -- the accumulator is carried modulo the number of sizes
  suffices h : ∀ a, xs.foldl Size.wrapAdd (a % Size.modulus) = (a + xs.sum) % Size.modulus by
    simpa [Size.wrapSum] using h 0
  induction xs with
  | nil => simp
  | cons x xs ih =>
    intro a
    have hstep : Size.wrapAdd (a % Size.modulus) x = (a + x) % Size.modulus := by
      simp [Size.wrapAdd, Nat.mod_add_mod]
    rw [List.foldl_cons, hstep, ih, List.sum_cons, Nat.add_assoc]

theorem Size.max_lt_modulus : Size.max < Size.modulus := by decide

theorem Size.checkedSum_eq (xs : List Nat) :
    Size.checkedSum xs = if xs.sum ≤ Size.max then some xs.sum else none := by
  simp [Size.checkedSum, Size.total_eq_sum]

/-! ## §2 The shortest span -/

/-- The shortest span of a pattern is the sum of its fragments' shortest spans whenever that sum
is a size. -/
theorem Pattern.minLength_eq_sum (p : Pattern)
    (h : (p.fragments.map Fragment.minLength).sum ≤ Size.max) :
    p.minLength = (p.fragments.map Fragment.minLength).sum := by
  rw [Pattern.minLength, Size.wrapSum_eq_mod]
  exact Nat.mod_eq_of_lt (Nat.lt_of_le_of_lt h Size.max_lt_modulus)

/-! ## §3 The longest span -/

/-- Only a gap without an upper bound has no longest span. -/
theorem Fragment.maxLength_eq_none_iff {f : Fragment} :
    f.maxLength = none ↔ ∃ lo, f = .gap lo none := by
  cases f <;> simp [Fragment.maxLength]

/-- The longest spans of a run of fragments all exist unless a gap is unbounded. -/
theorem Fragment.mapM_maxLength_eq_none_iff {fs : List Fragment} :
    fs.mapM Fragment.maxLength = none ↔ ∃ lo, Fragment.gap lo none ∈ fs := by
  induction fs with
  | nil => simp
  | cons f fs ih =>
    rw [List.mapM_cons]
    cases hf : f.maxLength with
    | none =>
      -- the unbounded gap in front settles it
      obtain ⟨lo, rfl⟩ := Fragment.maxLength_eq_none_iff.1 hf
      simp only [Option.bind_eq_bind, Option.bind_none, true_iff]
      exact ⟨lo, List.mem_cons_self⟩
    | some m =>
      have hne : ∀ lo, f ≠ .gap lo none := fun lo h => by simp [h, Fragment.maxLength] at hf
      have hiff : (∃ lo, Fragment.gap lo none ∈ f :: fs) ↔ ∃ lo, Fragment.gap lo none ∈ fs := by
        simp only [List.mem_cons]
        constructor
        · rintro ⟨lo, h⟩
          exact ⟨lo, h.resolve_left (hne lo ·.symm)⟩
        · rintro ⟨lo, h⟩
          exact ⟨lo, .inr h⟩
      rw [hiff, ← ih]
      cases fs.mapM Fragment.maxLength <;> simp

/-- When they all exist, the longest spans of a run of fragments are read off in order. -/
theorem Fragment.mapM_maxLength_eq_some {fs : List Fragment} {ms : List Nat}
    (h : fs.mapM Fragment.maxLength = some ms) : ms = fs.filterMap Fragment.maxLength := by
  induction fs generalizing ms with
  | nil =>
    simp only [List.mapM_nil, Option.pure_def, Option.some.injEq] at h
    simp [← h]
  | cons f fs ih =>
    simp only [List.mapM_cons, Option.pure_def, Option.bind_eq_bind, Option.bind_eq_some_iff,
      Option.some.injEq] at h
    obtain ⟨m, hm, rest, hrest, rfl⟩ := h
    rw [List.filterMap_cons, hm, ih hrest]

/-- The longest span of a pattern is the sum of its fragments' longest spans; it is absent
exactly when a gap is unbounded or that sum is past the largest size. -/
theorem Pattern.maxLength_eq (p : Pattern) :
    (p.maxLength = none ↔ (∃ lo, Fragment.gap lo none ∈ p.fragments) ∨
        Size.max < (p.fragments.filterMap Fragment.maxLength).sum) ∧
      ∀ m, p.maxLength = some m → m = (p.fragments.filterMap Fragment.maxLength).sum := by
  rw [Pattern.maxLength]
  cases hms : p.fragments.mapM Fragment.maxLength with
  | none =>
    refine ⟨iff_of_true rfl (.inl (Fragment.mapM_maxLength_eq_none_iff.1 hms)), fun m h => ?_⟩
    simp at h
  | some ms =>
    have hms' := Fragment.mapM_maxLength_eq_some hms
    have hbounded : ¬∃ lo, Fragment.gap lo none ∈ p.fragments := fun h =>
      absurd (Fragment.mapM_maxLength_eq_none_iff.2 h) (by simp [hms])
    subst hms'
    simp only [Option.bind_some, Size.checkedSum_eq, hbounded, false_or]
    constructor
    · split <;> simp_all
    · intro m hm
      split at hm <;> simp_all

/-! ## §4 The bounds together -/

/-- The length bounds of a pattern: the shortest span is the sum of the fragments' shortest
spans whenever that sum is a size; every run the fragments match is at least the shortest span
and at most the longest; and the longest span is the sum of the fragments' longest spans,
absent exactly when some gap is unbounded or that sum is past the largest size. -/
theorem Pattern.length_bounds (p : Pattern) :
    ((p.fragments.map Fragment.minLength).sum ≤ Size.max →
      p.minLength = (p.fragments.map Fragment.minLength).sum) ∧
    (∀ s, Fragment.MatchesAll p.fragments s →
      p.minLength ≤ s.length ∧ ∀ m, p.maxLength = some m → s.length ≤ m) ∧
    (p.maxLength = none ↔ (∃ lo, Fragment.gap lo none ∈ p.fragments) ∨
        Size.max < (p.fragments.filterMap Fragment.maxLength).sum) ∧
      ∀ m, p.maxLength = some m → m = (p.fragments.filterMap Fragment.maxLength).sum :=
  ⟨p.minLength_eq_sum, fun _ hs => ⟨Pattern.minLength_le_length hs,
    fun _ hm => Pattern.length_le_maxLength hs hm⟩, p.maxLength_eq⟩

/-- A gap of up to the largest size followed by one byte: the shortest span is one byte, and
the longest span is absent because the sum of the longest spans is past the largest size. -/
theorem Pattern.length_bounds_wide_gap :
    let p : Pattern := ⟨"{0-18446744073709551615} 01", .floating,
      [.gap 0 (some 18446744073709551615), .literal [1]]⟩
    p.minLength = 1 ∧ p.maxLength = none := by
  intro p
  have hbounds := Pattern.length_bounds p
  exact ⟨hbounds.1 (by decide), hbounds.2.2.1.2 (.inr (by decide))⟩

/-- A gap of up to the largest size followed by one byte has no longest span, although no gap
is unbounded: the longest span, one more than the largest size, is not a size. -/
theorem compile_bounded_gap_no_maxLength :
    let p : Pattern := ⟨"{0-18446744073709551615} 01", .floating,
      [.gap 0 (some 18446744073709551615), .literal [1]]⟩
    Pattern.compile p.expression = .ok p ∧ (∀ f ∈ p.fragments, f.maxLength.isSome) ∧
      p.maxLength = none := by
  intro p
  refine ⟨by decide +kernel, ?_, by decide⟩
  intro f hf
  simp only [p, List.mem_cons, List.not_mem_nil, or_false] at hf
  rcases hf with rfl | rfl <;> rfl

/-- Two gaps of the largest size around one byte: the shortest span, twice the largest size and
one more, is past the largest size, and the least length, a sum of sizes that wraps around,
reports the largest size instead. -/
theorem compile_min_length_wraps :
    let p : Pattern := ⟨"{18446744073709551615} 01 {18446744073709551615}", .floating,
      [.gap 18446744073709551615 (some 18446744073709551615), .literal [1],
        .gap 18446744073709551615 (some 18446744073709551615)]⟩
    Pattern.compile p.expression = .ok p ∧
      (p.fragments.map Fragment.minLength).sum = 36893488147419103231 ∧
      p.minLength = 18446744073709551615 := by
  intro p
  exact ⟨by decide +kernel, by decide, by decide⟩

end ContainerProbe
