import Mathlib
import ContainerProbe.Proofs.Backtrack
import ContainerProbe.Pattern.Evaluate

/-!
# The matcher over a scan window

`Pattern.evaluate` asks its source for the bytes its anchor needs and runs a new backtracker on
them. Over bytes in memory (`Window`) it never fails, and for the fragments of a compiled
pattern it decides exactly the anchored relation `Pattern.Finds`:

* a start-anchored pattern reads at most its longest span from the head of the window, which
  holds every prefix match since no match is longer;
* an end-anchored pattern reads the tail and runs its fragments reversed from the last byte;
* an exact pattern refuses an entry longer than the window and matches the rest end to end;
* a floating pattern tries the starts that leave room for its shortest span, and no match can
  begin later. When its first fragment is a gap without an upper bound it is tried from offset
  0 alone: that gap also takes the bytes before any later start.

The backtracker answers as the matching relation does when no gap's least bound exceeds its
greatest, which is the compiler's promise. The shortest span is a size that wraps around, so it
may be smaller than the true shortest match; it only ever cuts off inputs that no match fits,
which is all the matcher needs.

## Main statements

* `matchAt_zero_iff`, `matchAt_backward_iff`, `anyMatch_range_iff`: a new backtracker over
  bytes in memory, from the first byte, from the last byte, and from every start up to a last.
* `Pattern.evaluate_window_iff_finds`: the matcher over a window decides `Pattern.Finds` for
  every compiled pattern.
-/

namespace ContainerProbe

/-! ## §1 What a window answers -/

theorem ByteArray.toList_extract (d : ByteArray) (a b : Nat) :
    (d.extract a b).data.toList = (d.data.toList.drop a).take (b - a) := by
  simp [ByteArray.data_extract, Array.toList_extract]

theorem ByteArray.toList_length (d : ByteArray) : d.data.toList.length = d.size := by
  simp

namespace Window

variable (d : ByteArray) (limit : Option Nat)

theorem width_make : (make d limit).width = Pattern.windowWidth limit d.data.toList := by
  simp [make, Pattern.windowWidth]

@[simp] theorem head_make (n : Nat) :
    ByteAccess.head (make d limit) n =
      (.ok (d.extract 0 (Nat.min n (make d limit).width)), make d limit) := rfl

@[simp] theorem contents_make :
    ByteAccess.contents (make d limit) = (.ok (d.extract 0 (make d limit).width), make d limit) :=
  rfl

@[simp] theorem tail_make :
    ByteAccess.tail (make d limit) =
      (.ok (d.extract (d.size - (make d limit).width) d.size), make d limit) := rfl

@[simp] theorem isTruncated_make :
    ByteAccess.isTruncated (make d limit) =
      (.ok (decide ((make d limit).width < d.size)), make d limit) := rfl

theorem width_le : (make d limit).width ≤ d.size := Nat.min_le_right _ _

end Window

/-! ## §2 A new backtracker over bytes in memory -/

section Backtracker

variable {fs : List Fragment}

/-- Read forwards from an offset, the fragments match a run that starts there. -/
theorem matchesFrom_forward_iff (D : ByteArray) (s : Nat) :
    View.MatchesFrom ⟨D.data, .forward⟩ fs s false ↔
      s ≤ D.size ∧ ∃ k, Fragment.MatchesAll fs ((D.data.toList.drop s).take k) := by
  simp only [View.MatchesFrom, View.bytes, View.len, ByteArray.size_data, Bool.false_eq_true,
    false_implies, and_true]
  refine and_congr_right fun _ => ?_
  constructor
  · rintro ⟨x, y, hxy, hx⟩
    refine ⟨x.length, ?_⟩
    rwa [hxy, List.take_left]
  · rintro ⟨k, hk⟩
    exact ⟨_, _, (List.take_append_drop k _).symm, hk⟩

/-- From offset `0` with no end required: some prefix of the bytes matches. -/
theorem matchAt_zero_iff (hord : ∀ f ∈ fs, f.Ordered) (D : ByteArray) :
    ((Backtracker.new fs).matchAt ⟨D.data, .forward⟩ 0 false).1 = true ↔
      ∃ k, Fragment.MatchesAll fs (D.data.toList.take k) := by
  rw [(Backtracker.matchAt_spec 0 hord (Query.sound_empty _ _)).1, matchesFrom_forward_iff]
  simp [Backtracker.new]

/-- From offset `0` to the last byte: all of the bytes match. -/
theorem matchAt_zero_toEnd_iff (hord : ∀ f ∈ fs, f.Ordered) (D : ByteArray) :
    ((Backtracker.new fs).matchAt ⟨D.data, .forward⟩ 0 true).1 = true ↔
      Fragment.MatchesAll fs D.data.toList := by
  rw [(Backtracker.matchAt_spec 0 hord (Query.sound_empty _ _)).1]
  simp only [View.MatchesFrom, View.bytes, List.drop_zero, Nat.zero_le, true_and, forall_const,
    Backtracker.new]
  constructor
  · rintro ⟨x, y, hxy, hx, rfl⟩
    rwa [hxy, List.append_nil]
  · intro h
    exact ⟨_, [], (List.append_nil _).symm, h, rfl⟩

/-- The fragments of a pattern reversed, from the last byte: some suffix of the bytes
matches the pattern's fragments. -/
theorem matchAt_backward_iff {p : Pattern} (hord : ∀ f ∈ p.fragments, f.Ordered) (T : ByteArray) :
    ((Backtracker.new p.backward).matchAt ⟨T.data, .backward⟩ 0 false).1 = true ↔
      ∃ k, Fragment.MatchesAll p.fragments (T.data.toList.drop k) := by
  have hord' : ∀ f ∈ p.backward, f.Ordered := by
    intro f hf
    obtain ⟨g, hg, rfl⟩ := List.mem_map.mp (List.mem_reverse.mp hf)
    exact Fragment.ordered_reversed (hord g hg)
  have hview : (⟨T.data, .backward⟩ : View) = ⟨T.data.toList.toArray, .backward⟩ := by simp
  rw [(Backtracker.matchAt_spec 0 hord' (Query.sound_empty _ _)).1, hview,
    View.matchesFrom_backward_iff]
  simp only [Backtracker.new, Fragment.matchesAll_backward_iff, List.reverse_reverse]
  constructor
  · rintro ⟨s, hs, hm⟩
    rw [List.suffix_iff_eq_drop] at hs
    exact ⟨_, hs ▸ hm⟩
  · rintro ⟨k, hk⟩
    exact ⟨_, List.drop_suffix k _, hk⟩

/-- Every start up to `last`, in turn: some run from one of them matches. -/
theorem anyMatch_range_iff (hord : ∀ f ∈ fs, f.Ordered) (D : ByteArray) {last : Nat}
    (hlast : last ≤ D.size) :
    (Backtracker.new fs).anyMatch ⟨D.data, .forward⟩ false (List.range (last + 1)) = true ↔
      ∃ s ≤ last, ∃ k, Fragment.MatchesAll fs ((D.data.toList.drop s).take k) := by
  rw [Backtracker.anyMatch_iff _ hord (Query.sound_empty _ _)]
  simp only [List.mem_range, Nat.lt_succ_iff, Backtracker.new, matchesFrom_forward_iff]
  constructor
  · rintro ⟨s, hs, -, h⟩
    exact ⟨s, hs, h⟩
  · rintro ⟨s, hs, h⟩
    exact ⟨s, hs, by omega, h⟩

/-- A leading gap without an upper bound takes any bytes put in front of its run. -/
theorem matchesAll_gap_append {lo : Nat} {rest : List Fragment} {x : List UInt8}
    (pre : List UInt8) (h : Fragment.MatchesAll (.gap lo none :: rest) x) :
    Fragment.MatchesAll (.gap lo none :: rest) (pre ++ x) := by
  cases h with
  | cons hg hrest =>
    rw [← List.append_assoc]
    refine .cons ?_ hrest
    cases hg with
    | gap hlo _ => exact .gap (by simp only [List.length_append]; omega) (by simp)

end Backtracker

/-- A prefix match of the head `H` is a prefix match of the first `c` bytes when no match
is longer than `c`, and it passes the shortest-span check. -/
theorem prefix_match_iff (p : Pattern) (H : List UInt8) (c : Nat)
    (hc : ∀ k, Fragment.MatchesAll p.fragments (H.take k) → (H.take k).length ≤ c) :
    (p.minLength ≤ (H.take c).length ∧ ∃ k, Fragment.MatchesAll p.fragments ((H.take c).take k)) ↔
      ∃ k, Fragment.MatchesAll p.fragments (H.take k) := by
  constructor
  · rintro ⟨-, k, hk⟩
    exact ⟨min k c, by rwa [List.take_take] at hk⟩
  · rintro ⟨k, hk⟩
    have hmin := Pattern.minLength_le_length hk
    have hlen := hc k hk
    -- the match is the prefix of its own length, which lies within the first `c` bytes
    have hprefix : (H.take c).take (H.take k).length = H.take k := by
      simp only [List.length_take] at hlen
      rw [List.take_take, List.length_take, Nat.min_eq_left hlen, ← List.take_eq_take_min]
    refine ⟨?_, _, hprefix ▸ hk⟩
    simp only [List.length_take] at hlen hmin ⊢
    omega


/-! ## §3 The four anchors -/

section Anchors

variable (p : Pattern) (d : ByteArray) (limit : Option Nat)
variable {p} (hord : ∀ f ∈ p.fragments, f.Ordered)

/-- The head of the window of an entry. -/
abbrev headOf : List UInt8 := d.data.toList.take (Pattern.windowWidth limit d.data.toList)

/-- The tail of the window of an entry. -/
abbrev tailOf : List UInt8 :=
  d.data.toList.drop (d.data.toList.length - Pattern.windowWidth limit d.data.toList)

include hord

/-- The start-anchored answer on the first `c` bytes of the window, when no match of the
head is longer than `c`. -/
theorem start_answer_iff (c : Nat)
    (hc : ∀ k, Fragment.MatchesAll p.fragments ((headOf d limit).take k) →
      ((headOf d limit).take k).length ≤ c) :
    (decide (p.minLength ≤ (d.extract 0 (Nat.min c (Window.make d limit).width)).size) &&
      ((Backtracker.new p.fragments).matchAt
        ⟨(d.extract 0 (Nat.min c (Window.make d limit).width)).data, .forward⟩ 0 false).1)
        = true ↔ ∃ k, Fragment.MatchesAll p.fragments ((headOf d limit).take k) := by
  have hlist : (d.extract 0 (Nat.min c (Window.make d limit).width)).data.toList =
      (headOf d limit).take c := by
    rw [ByteArray.toList_extract, Window.width_make]
    simp [headOf, List.take_take, Nat.min_eq_min]
  rw [Bool.and_eq_true, decide_eq_true_eq, matchAt_zero_iff hord, ← prefix_match_iff p _ c hc,
    ← ByteArray.toList_length, hlist]

theorem evaluate_atStart_window (hp : p.anchor = .atStart) :
    ∃ b, (p.evaluate none (Window.make d limit)).1 = .ok b ∧
      (b = true ↔ ∃ k, Fragment.MatchesAll p.fragments ((headOf d limit).take k)) := by
  -- the head read is the window, cut to the longest span when there is one
  cases hmax : p.maxLength with
  | some m =>
    refine ⟨_, by simp only [Pattern.evaluate, hp, hmax, Window.head_make]; rfl, ?_⟩
    exact start_answer_iff d limit hord m fun k hk => Pattern.length_le_maxLength hk hmax
  | none =>
    refine ⟨_, by simp only [Pattern.evaluate, hp, hmax, Window.contents_make]; rfl, ?_⟩
    have hwidth : Nat.min (Window.make d limit).width (Window.make d limit).width =
        (Window.make d limit).width := Nat.min_self _
    rw [← hwidth]
    refine start_answer_iff d limit hord _ fun k _ => ?_
    calc ((headOf d limit).take k).length
        ≤ (headOf d limit).length := List.length_take_le' _ _
      _ ≤ Pattern.windowWidth limit d.data.toList := List.length_take_le _ _
      _ = (Window.make d limit).width := (Window.width_make d limit).symm

theorem evaluate_atEnd_window (hp : p.anchor = .atEnd) :
    ∃ b, (p.evaluate none (Window.make d limit)).1 = .ok b ∧
      (b = true ↔ ∃ k, Fragment.MatchesAll p.fragments ((tailOf d limit).drop k)) := by
  refine ⟨_, by simp only [Pattern.evaluate, hp, Window.tail_make]; rfl, ?_⟩
  generalize hT : d.extract (d.size - (Window.make d limit).width) d.size = T
  have hlist : T.data.toList = tailOf d limit := by
    rw [← hT]
    simp only [ByteArray.toList_extract, Window.width_make, ByteArray.toList_length, tailOf]
    exact List.take_of_length_le (by simp)
  rw [Bool.and_eq_true, decide_eq_true_eq, matchAt_backward_iff hord, hlist]
  constructor
  · rintro ⟨-, h⟩
    exact h
  · rintro ⟨k, hk⟩
    -- a match is no shorter than the shortest span, and lies within the tail
    have hmin := Pattern.minLength_le_length hk
    refine ⟨Nat.le_trans hmin ?_, k, hk⟩
    rw [List.length_drop, hlist.symm, ByteArray.toList_length]
    exact Nat.sub_le _ _

theorem evaluate_exact_window (hp : p.anchor = .exact) :
    ∃ b, (p.evaluate none (Window.make d limit)).1 = .ok b ∧
      (b = true ↔ d.data.toList.length ≤ Pattern.windowWidth limit d.data.toList ∧
        Fragment.MatchesAll p.fragments d.data.toList) := by
  have hwidth := Window.width_make d limit
  by_cases htrunc : (Window.make d limit).width < d.size
  · -- the entry runs past the window: no exact match is possible
    refine ⟨false, by simp [Pattern.evaluate, hp, htrunc], ?_⟩
    simp only [Bool.false_eq_true, false_iff, not_and]
    intro h
    rw [← hwidth, ByteArray.toList_length] at h
    omega
  · have hall : (Window.make d limit).width = d.size := by
      have := Window.width_le d limit
      omega
    refine ⟨_, by simp only [Pattern.evaluate, hp, Window.isTruncated_make, htrunc,
      decide_false, Window.contents_make]; rfl, ?_⟩
    rw [hall, ByteArray.extract_zero_size]
    simp only [Bool.and_eq_true, decide_eq_true_eq, Option.all_eq_true]
    rw [matchAt_zero_toEnd_iff hord]
    constructor
    · rintro ⟨-, hrun⟩
      exact ⟨by simp [← hwidth, hall], hrun⟩
    · rintro ⟨-, hrun⟩
      refine ⟨⟨?_, fun m hm => ?_⟩, hrun⟩
      · simpa using Pattern.minLength_le_length hrun
      · simpa using Pattern.length_le_maxLength hrun hm

theorem evaluate_floating_window (hp : p.anchor = .floating) :
    ∃ b, (p.evaluate none (Window.make d limit)).1 = .ok b ∧
      (b = true ↔ ∃ i k, Fragment.MatchesAll p.fragments (((headOf d limit).drop i).take k)) := by
  refine ⟨_, by simp only [Pattern.evaluate, hp, Window.contents_make]; rfl, ?_⟩
  dsimp only
  generalize hD : d.extract 0 (Window.make d limit).width = D
  have hlist : D.data.toList = headOf d limit := by
    rw [← hD, ByteArray.toList_extract, Window.width_make]
    simp
  have hsize : (headOf d limit).length = D.size := by
    rw [← hlist, ByteArray.toList_length]
  by_cases hshort : D.size < p.minLength
  · -- no match fits in the window
    rw [if_pos hshort]
    simp only [Bool.false_eq_true, false_iff, not_exists]
    intro i k hk
    have hmin := Pattern.minLength_le_length hk
    have hfit : (((headOf d limit).drop i).take k).length ≤ D.size := by
      simp only [List.length_take, List.length_drop, hsize]
      omega
    omega
  rw [if_neg hshort]
  split
  · -- a leading gap without an upper bound: offset 0 stands for every start
    rename_i lo rest hfs
    rw [matchAt_zero_iff hord, hlist]
    constructor
    · rintro ⟨k, hk⟩
      exact ⟨0, k, by rwa [List.drop_zero]⟩
    · rintro ⟨i, k, hk⟩
      rw [hfs] at hk ⊢
      refine ⟨i + k, ?_⟩
      rw [List.take_add]
      exact matchesAll_gap_append _ hk
  · rw [anyMatch_range_iff hord D (Nat.sub_le _ _), hlist]
    constructor
    · rintro ⟨s, -, k, hk⟩
      exact ⟨s, k, hk⟩
    · rintro ⟨i, k, hk⟩
      have hmin := Pattern.minLength_le_length hk
      -- the match starts at `i`, or is empty and stands at the end when `i` is past it
      rcases Nat.le_total i D.size with h | h
      · refine ⟨i, ?_, k, hk⟩
        have : (((headOf d limit).drop i).take k).length ≤ D.size - i := by
          simp only [List.length_take, List.length_drop, hsize]
          omega
        omega
      · have hnil : (headOf d limit).drop i = [] := List.drop_of_length_le (by omega)
        rw [hnil] at hk hmin
        refine ⟨D.size, by simp at hmin; omega, k, ?_⟩
        rwa [List.drop_of_length_le (by omega)]

end Anchors

/-! ## §4 The matcher decides the anchored relation -/

/-- Over bytes in memory the matcher never fails, and for a pattern compiled from an expression
or from a byte sequence it finds a match exactly when the pattern's fragments match the part of
the window its anchor names: a prefix of the head, a suffix of the tail, the whole entry when
it fits, or any run inside the head. -/
theorem Pattern.evaluate_window_iff_finds (p : Pattern)
    (hc : (∃ raw, Pattern.compile raw = .ok p) ∨ ∃ s : SequenceDef, s.compile = .ok p)
    (d : ByteArray) (limit : Option Nat) :
    (∃ b, (p.evaluate none (Window.make d limit)).1 = .ok b) ∧
      ((p.evaluate none (Window.make d limit)).1 = .ok true ↔ p.Finds limit d.data.toList) := by
  -- the compiler keeps every gap's bounds in order, which the backtracker needs
  have hord : ∀ f ∈ p.fragments, f.Ordered := by
    rcases hc with ⟨raw, h⟩ | ⟨s, h⟩
    · exact fun f hf => Fragment.ordered_of_wellFormed (Pattern.compile_wellFormed h f hf)
    · exact fun f hf => Fragment.ordered_of_wellFormed (SequenceDef.compile_wellFormed h f hf)
  have hanswer : ∀ (P : Prop), (∃ b, (p.evaluate none (Window.make d limit)).1 = .ok b ∧
      (b = true ↔ P)) → (∃ b, (p.evaluate none (Window.make d limit)).1 = .ok b) ∧
        ((p.evaluate none (Window.make d limit)).1 = .ok true ↔ P) := by
    rintro P ⟨b, hb, hiff⟩
    refine ⟨⟨b, hb⟩, ?_⟩
    rw [hb, ← hiff]
    exact ⟨fun h => by cases h; rfl, fun h => by rw [h]⟩
  cases hp : p.anchor with
  | atStart =>
    have := evaluate_atStart_window d limit hord hp
    simp only [Pattern.Finds, hp]
    exact hanswer _ this
  | atEnd =>
    have := evaluate_atEnd_window d limit hord hp
    simp only [Pattern.Finds, hp]
    exact hanswer _ this
  | exact =>
    have := evaluate_exact_window d limit hord hp
    simp only [Pattern.Finds, hp]
    exact hanswer _ this
  | floating =>
    have := evaluate_floating_window d limit hord hp
    simp only [Pattern.Finds, hp]
    exact hanswer _ this

/-- `* 'AB'` compiles to a leading gap without an upper bound, so the matcher tries offset 0
alone; over `ZAB` it finds the run `AB` that starts at offset 1. -/
theorem Pattern.evaluate_window_iff_finds_leading_gap :
    let p : Pattern := ⟨"* 'AB'", .floating, [.gap 0 none, .literal [65, 66]]⟩
    Pattern.compile "* 'AB'" = .ok p ∧
      (∃ b, (p.evaluate none (Window.make ⟨#[90, 65, 66]⟩ none)).1 = .ok b) ∧
      ((p.evaluate none (Window.make ⟨#[90, 65, 66]⟩ none)).1 = .ok true ↔
        p.Finds none [90, 65, 66]) := by
  intro p
  have hc : Pattern.compile "* 'AB'" = .ok p := by decide +kernel
  exact ⟨hc, Pattern.evaluate_window_iff_finds p (.inl ⟨_, hc⟩) ⟨#[90, 65, 66]⟩ none⟩

example : (Pattern.evaluate ⟨"* 'AB'", .floating, [.gap 0 none, .literal [65, 66]]⟩ none
    (Window.make ⟨#[90, 65, 66]⟩ none)).1 = .ok true := by
  decide +kernel

end ContainerProbe
