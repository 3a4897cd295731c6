import Mathlib
import ContainerProbe.Pattern.Semantics

/-!
# Runs of fragments

The fragments of a pattern, and the pieces of a branch of alternatives, both match a string
by splitting it into consecutive parts, one part per item. `Chain` states that shape once,
for any relation between items and strings, so that what follows from it (splitting at a
cons or at an append, reading the items backwards, bounding the length) is proved once and
used for both.

## Main statements

* `Fragment.matchesAll_iff_chain`, `Piece.matchesAll_iff_chain`: both semantics are chains.
* `Fragment.matchesAll_backward_iff`: the fragments as met from the last byte match a string
  exactly when the fragments match the string read forwards.
* `Pattern.minLength_le_length`, `Pattern.length_le_maxLength`: every match spans at least
  the pattern's shortest span and at most its longest.
-/

namespace ContainerProbe

/-! ## §1 Chains -/

/-- Items match a string split into consecutive parts, one per item, each part matched by
its item under `One`. -/
inductive Chain {α : Type} (One : α → List UInt8 → Prop) : List α → List UInt8 → Prop where
  /-- No items match the empty string. -/
  | nil : Chain One [] []
  /-- The first item matches a first part, the other items the remainder. -/
  | cons {a : α} {as : List α} {xs ys : List UInt8} :
      One a xs → Chain One as ys → Chain One (a :: as) (xs ++ ys)

namespace Chain

variable {α : Type} {One : α → List UInt8 → Prop}

theorem nil_iff {s : List UInt8} : Chain One [] s ↔ s = [] := by
  constructor
  · intro h
    cases h
    rfl
  · rintro rfl
    exact .nil

theorem cons_iff {a : α} {as : List α} {s : List UInt8} :
    Chain One (a :: as) s ↔ ∃ xs ys, s = xs ++ ys ∧ One a xs ∧ Chain One as ys := by
  constructor
  · intro h
    cases h with
    | cons ha hrest => exact ⟨_, _, rfl, ha, hrest⟩
  · rintro ⟨xs, ys, rfl, ha, hrest⟩
    exact .cons ha hrest

theorem singleton_iff {a : α} {s : List UInt8} : Chain One [a] s ↔ One a s := by
  simp [cons_iff, nil_iff]

/-- Items split at an append match a string split at the corresponding place. -/
theorem append_iff {as bs : List α} {s : List UInt8} :
    Chain One (as ++ bs) s ↔ ∃ xs ys, s = xs ++ ys ∧ Chain One as xs ∧ Chain One bs ys := by
  induction as generalizing s with
  | nil =>
    simp only [List.nil_append, nil_iff]
    exact ⟨fun h => ⟨[], s, rfl, rfl, h⟩, fun ⟨_, _, hs, hx, hy⟩ => by simpa [hs, hx] using hy⟩
  | cons a as ih =>
    simp only [List.cons_append, cons_iff, ih]
    constructor
    · rintro ⟨u, v, rfl, ha, xs, ys, rfl, hxs, hys⟩
      exact ⟨u ++ xs, ys, by simp, ⟨u, xs, rfl, ha, hxs⟩, hys⟩
    · rintro ⟨_, ys, rfl, ⟨u, xs, rfl, ha, hxs⟩, hys⟩
      exact ⟨u, xs ++ ys, by simp, ha, xs, ys, rfl, hxs, hys⟩

/-- Reading a chain backwards: when each reversed item matches exactly the reversed strings
of its item, the reversed list of reversed items matches exactly the reversed strings. -/
theorem reverse_map_iff {One' : α → List UInt8 → Prop} {r : α → α}
    (hrev : ∀ a s, One' (r a) s ↔ One a s.reverse) (as : List α) (s : List UInt8) :
    Chain One' (as.map r).reverse s ↔ Chain One as s.reverse := by
  induction as generalizing s with
  | nil => simp [nil_iff]
  | cons a as ih =>
    simp only [List.map_cons, List.reverse_cons, append_iff, singleton_iff, ih, hrev]
    rw [cons_iff]
    constructor
    · rintro ⟨xs, ys, rfl, hxs, hys⟩
      exact ⟨ys.reverse, xs.reverse, by simp, hys, hxs⟩
    · rintro ⟨u, v, hs, hu, hv⟩
      refine ⟨v.reverse, u.reverse, ?_, by simpa using hv, by simpa using hu⟩
      rw [← List.reverse_append, ← hs, List.reverse_reverse]

/-- A lower bound on every item's part bounds the whole string by the sum. -/
theorem sum_le_length {lo : α → Nat} (hlo : ∀ a x, One a x → lo a ≤ x.length)
    {as : List α} {s : List UInt8} (h : Chain One as s) : (as.map lo).sum ≤ s.length := by
  induction h with
  | nil => simp
  | cons ha _ ih =>
    have := hlo _ _ ha
    simp only [List.map_cons, List.sum_cons, List.length_append]
    omega

/-- Upper bounds on every item's part, when all of them exist, bound the string by their
sum. -/
theorem length_le_sum {hi : α → Option Nat}
    (hhi : ∀ a x m, One a x → hi a = some m → x.length ≤ m)
    {as : List α} {s : List UInt8} (h : Chain One as s) {ms : List Nat}
    (hms : as.mapM hi = some ms) : s.length ≤ ms.sum := by
  induction h generalizing ms with
  | nil =>
    simp only [List.mapM_nil] at hms
    cases hms
    simp
  | @cons a as xs ys ha _ ih =>
    simp only [List.mapM_cons, Option.pure_def, Option.bind_eq_bind, Option.bind_eq_some_iff,
      Option.some.injEq] at hms
    obtain ⟨m, hm, rest, hrest, rfl⟩ := hms
    have hx := hhi _ _ _ ha hm
    have hy := ih hrest
    simp only [List.length_append, List.sum_cons]
    omega

end Chain

/-! ## §2 Pieces and fragments as chains -/

theorem Piece.matchesAll_iff_chain (ps : List Piece) (s : List UInt8) :
    Piece.MatchesAll ps s ↔ Chain Piece.Matches ps s := by
  constructor
  · intro h
    induction h with
    | nil => exact .nil
    | cons hp _ ih => exact .cons hp ih
  · intro h
    induction h with
    | nil => exact .nil
    | cons hp _ ih => exact .cons hp ih

theorem Fragment.matchesAll_iff_chain (fs : List Fragment) (s : List UInt8) :
    Fragment.MatchesAll fs s ↔ Chain Fragment.Matches fs s := by
  constructor
  · intro h
    induction h with
    | nil => exact .nil
    | cons hf _ ih => exact .cons hf ih
  · intro h
    induction h with
    | nil => exact .nil
    | cons hf _ ih => exact .cons hf ih

theorem Piece.matches_literal_iff {bytes s : List UInt8} :
    Piece.Matches (.literal bytes) s ↔ s = bytes := by
  constructor
  · rintro ⟨⟩
    rfl
  · rintro rfl
    exact .literal _

theorem Piece.matches_byteSet_iff {c : ByteSet} {s : List UInt8} :
    Piece.Matches (.byteSet c) s ↔ ∃ b, s = [b] ∧ c.accepts b = true := by
  constructor
  · rintro ⟨⟩
    exact ⟨_, rfl, ‹_›⟩
  · rintro ⟨b, rfl, hb⟩
    exact .byteSet hb

theorem Fragment.matches_literal_iff {bytes s : List UInt8} :
    Fragment.Matches (.literal bytes) s ↔ s = bytes := by
  constructor
  · rintro ⟨⟩
    rfl
  · rintro rfl
    exact .literal _

theorem Fragment.matches_byteSet_iff {c : ByteSet} {s : List UInt8} :
    Fragment.Matches (.byteSet c) s ↔ ∃ b, s = [b] ∧ c.accepts b = true := by
  constructor
  · rintro ⟨⟩
    exact ⟨_, rfl, ‹_›⟩
  · rintro ⟨b, rfl, hb⟩
    exact .byteSet hb

theorem Fragment.matches_gap_iff {lo : Nat} {hi : Option Nat} {s : List UInt8} :
    Fragment.Matches (.gap lo hi) s ↔ lo ≤ s.length ∧ ∀ m, hi = some m → s.length ≤ m := by
  constructor
  · rintro ⟨⟩
    exact ⟨‹_›, ‹_›⟩
  · rintro ⟨hlo, hhi⟩
    exact .gap hlo hhi

/-- A gap whose least length exceeds its greatest matches no run, so no fragments that begin
with it match anything. -/
theorem Fragment.not_matchesAll_unordered_gap {lo hi : Nat} (h : hi < lo) (rest : List Fragment)
    (s : List UInt8) : ¬Fragment.MatchesAll (.gap lo (some hi) :: rest) s := by
  rw [Fragment.matchesAll_iff_chain, Chain.cons_iff]
  rintro ⟨w, -, -, hw, -⟩
  obtain ⟨hlo, hhi⟩ := Fragment.matches_gap_iff.1 hw
  have := hhi hi rfl
  omega

theorem Fragment.matches_alternatives_iff {branches : List (List Piece)} {s : List UInt8} :
    Fragment.Matches (.alternatives branches) s ↔
      ∃ branch ∈ branches, Chain Piece.Matches branch s := by
  constructor
  · rintro ⟨⟩
    exact ⟨_, ‹_›, (Piece.matchesAll_iff_chain _ _).1 ‹_›⟩
  · rintro ⟨branch, hmem, h⟩
    exact .alternatives hmem ((Piece.matchesAll_iff_chain _ _).2 h)

/-! ## §3 Reading backwards -/

theorem Piece.matches_reversed_iff (p : Piece) (s : List UInt8) :
    Piece.Matches p.reversed s ↔ Piece.Matches p s.reverse := by
  cases p with
  | literal bytes =>
    simp only [Piece.reversed, Piece.matches_literal_iff]
    exact ⟨fun h => by simp [h], fun h => by simp [← h]⟩
  | byteSet c =>
    simp only [Piece.reversed, Piece.matches_byteSet_iff]
    exact ⟨fun ⟨b, hs, hb⟩ => ⟨b, by simp [hs], hb⟩,
      fun ⟨b, hs, hb⟩ => ⟨b, by simpa using congrArg List.reverse hs, hb⟩⟩

theorem Fragment.matches_reversed_iff (f : Fragment) (s : List UInt8) :
    Fragment.Matches f.reversed s ↔ Fragment.Matches f s.reverse := by
  cases f with
  | literal bytes =>
    simp only [Fragment.reversed, Fragment.matches_literal_iff]
    exact ⟨fun h => by simp [h], fun h => by simp [← h]⟩
  | byteSet c =>
    simp only [Fragment.reversed, Fragment.matches_byteSet_iff]
    exact ⟨fun ⟨b, hs, hb⟩ => ⟨b, by simp [hs], hb⟩,
      fun ⟨b, hs, hb⟩ => ⟨b, by simpa using congrArg List.reverse hs, hb⟩⟩
  | gap lo hi => simp [Fragment.reversed, Fragment.matches_gap_iff]
  | alternatives branches =>
    -- each branch runs backwards, and a branch is a chain of pieces
    simp only [Fragment.reversed, Fragment.matches_alternatives_iff, List.mem_map]
    constructor
    · rintro ⟨_, ⟨branch, hmem, rfl⟩, h⟩
      exact ⟨branch, hmem, (Chain.reverse_map_iff Piece.matches_reversed_iff branch s).1 h⟩
    · rintro ⟨branch, hmem, h⟩
      exact ⟨_, ⟨branch, hmem, rfl⟩,
        (Chain.reverse_map_iff Piece.matches_reversed_iff branch s).2 h⟩

/-- The fragments as met when reading an entry from its last byte match a string exactly when
the fragments match that string read forwards. -/
theorem Fragment.matchesAll_backward_iff (p : Pattern) (s : List UInt8) :
    Fragment.MatchesAll p.backward s ↔ Fragment.MatchesAll p.fragments s.reverse := by
  rw [Fragment.matchesAll_iff_chain, Fragment.matchesAll_iff_chain, Pattern.backward]
  exact Chain.reverse_map_iff Fragment.matches_reversed_iff p.fragments s

/-! ## §4 Length bounds -/

theorem Size.total_eq_sum (xs : List Nat) : Size.total xs = xs.sum := by
  induction xs with
  | nil => rfl
  | cons x xs ih => simp [Size.total, List.foldr_cons, ← ih]

/-- Wrapping a sum never makes it larger. -/
theorem Size.wrapSum_le_sum (xs : List Nat) : Size.wrapSum xs ≤ xs.sum := by
  suffices h : ∀ a, xs.foldl Size.wrapAdd a ≤ a + xs.sum by simpa [Size.wrapSum] using h 0
  induction xs with
  | nil => simp
  | cons x xs ih =>
    intro a
    have hwrap : Size.wrapAdd a x ≤ a + x := Nat.mod_le _ _
    have := ih (Size.wrapAdd a x)
    simp only [List.foldl_cons, List.sum_cons]
    omega

theorem Piece.length_of_matches {p : Piece} {s : List UInt8} (h : Piece.Matches p s) :
    s.length = p.length := by
  cases h <;> rfl

theorem branchLength_of_chain {branch : List Piece} {s : List UInt8}
    (h : Chain Piece.Matches branch s) : s.length = branchLength branch := by
  induction h with
  | nil => rfl
  | cons hp _ ih =>
    simp [branchLength, Size.total, List.length_append, Piece.length_of_matches hp, ih,
      branchLength, Size.total]

/-- A left fold of `Nat.max` is at least its start and every member. -/
theorem foldl_max_bounds (l : List Nat) (init : Nat) :
    init ≤ l.foldl Nat.max init ∧ ∀ x ∈ l, x ≤ l.foldl Nat.max init := by
  induction l generalizing init with
  | nil => simp
  | cons y l ih =>
    obtain ⟨hinit, hmem⟩ := ih (Nat.max init y)
    simp only [List.foldl_cons]
    refine ⟨Nat.le_trans (Nat.le_max_left _ _) hinit, fun x hx => ?_⟩
    rcases List.mem_cons.1 hx with rfl | hx
    · exact Nat.le_trans (Nat.le_max_right _ _) hinit
    · exact hmem x hx

theorem Fragment.minLength_le_length {f : Fragment} {s : List UInt8}
    (h : Fragment.Matches f s) : f.minLength ≤ s.length := by
  cases h with
  | literal => simp [Fragment.minLength]
  | byteSet => simp [Fragment.minLength]
  | gap hlo _ => exact hlo
  | @alternatives branches branch _ hmem hmatch =>
    have hlen := branchLength_of_chain ((Piece.matchesAll_iff_chain _ _).1 hmatch)
    obtain ⟨m, hm⟩ : ∃ m, (branches.map branchLength).min? = some m :=
      Option.isSome_iff_exists.1 (List.isSome_min?_of_mem (List.mem_map_of_mem hmem))
    have hle := (List.min?_eq_some_iff.1 hm).2 _ (List.mem_map_of_mem hmem)
    simp only [Fragment.minLength, hm, Option.getD_some]
    omega

theorem Fragment.length_le_maxLength {f : Fragment} {s : List UInt8} {m : Nat}
    (h : Fragment.Matches f s) (hm : f.maxLength = some m) : s.length ≤ m := by
  cases h with
  | literal => simp_all [Fragment.maxLength]
  | byteSet => simp_all [Fragment.maxLength]
  | gap _ hhi => exact hhi m hm
  | @alternatives branches branch _ hmem hmatch =>
    have hlen := branchLength_of_chain ((Piece.matchesAll_iff_chain _ _).1 hmatch)
    simp only [Fragment.maxLength, Option.some.injEq] at hm
    rw [hlen, ← hm]
    exact (foldl_max_bounds _ 0).2 _ (List.mem_map_of_mem hmem)

/-- Every match of a pattern's fragments is at least its shortest span, even as a size that
wraps around. -/
theorem Pattern.minLength_le_length {p : Pattern} {s : List UInt8}
    (h : Fragment.MatchesAll p.fragments s) : p.minLength ≤ s.length := by
  have hlo : ∀ f x, Fragment.Matches f x → f.minLength ≤ x.length :=
    fun _ _ hf => Fragment.minLength_le_length hf
  exact Nat.le_trans (Size.wrapSum_le_sum _)
    (Chain.sum_le_length hlo ((Fragment.matchesAll_iff_chain _ _).1 h))

/-- Every match of a pattern's fragments is at most its longest span, when it has one. -/
theorem Pattern.length_le_maxLength {p : Pattern} {s : List UInt8} {m : Nat}
    (h : Fragment.MatchesAll p.fragments s) (hm : p.maxLength = some m) : s.length ≤ m := by
  simp only [Pattern.maxLength, Option.bind_eq_some_iff] at hm
  obtain ⟨ms, hms, hsum⟩ := hm
  simp only [Size.checkedSum, Option.ite_none_right_eq_some, Option.some.injEq] at hsum
  have hhi : ∀ f x m, Fragment.Matches f x → f.maxLength = some m → x.length ≤ m :=
    fun _ _ _ hf hm => Fragment.length_le_maxLength hf hm
  rw [← hsum.2, Size.total_eq_sum]
  exact Chain.length_le_sum hhi ((Fragment.matchesAll_iff_chain _ _).1 h) hms

end ContainerProbe
