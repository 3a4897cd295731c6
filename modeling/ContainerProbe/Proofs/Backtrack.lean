import Mathlib
import ContainerProbe.Proofs.View
import ContainerProbe.Proofs.WellFormed

/-!
# The backtracker decides the matching relation

A backtracker shared between calls on one view and one end requirement answers each call
exactly as the matching relation does: from a start offset, the fragments match some run of the
view (a run reaching its end, when the end is required). What earlier calls and earlier branches
recorded, the failed states and the gap floors, never cuts off a branch that could succeed.

The search is read as a walk over the naive search tree. Its frontier is the state being
advanced from and the untried options of the choice points on the stack, and the invariant
`Query.Inv` says three things about it:

* the start succeeds exactly when something on the frontier succeeds (`root`);
* an option a choice point already tried succeeds only if something pushed after it is still
  live (`tried`);
* a state on the trail succeeds only if something pushed after it was entered is still live
  (`entered`).

When a choice point is popped nothing above it is live any more, so the last two say that its
tried options, and the states entered since it was pushed, all fail: this is what makes
recording them sound. The floor of a gap is the same fact for all its takes at once.

## Main statements

* `Query.succeeds_literal`, `succeeds_gap`, `succeeds_alternatives`: one fragment of matching.
* `advance_spec`, `backtrack_spec`: each inner loop keeps the invariant.
* `matchEach_iff_matchesFrom`: every answer of a shared backtracker is the matching relation's,
  and its memo stays sound.
* `backward_matchAt_iff_suffix`: the fragments reversed, each one and their order, match the
  reversed strings; so a backtracker over them reading from the last byte finds exactly the
  suffixes the fragments match.
-/

namespace ContainerProbe

/-! ## §1 One fragment at a time -/

/-- A search: fragments matched over a view, up to its end or not. A backtracker is shared only
between calls that ask the same query. -/
structure Query where
  /-- The view the fragments are matched over. -/
  view : View
  /-- The fragments. -/
  fragments : List Fragment
  /-- Whether a match must reach the end of the view. -/
  requireEnd : Bool

namespace Query

/-- The fragments from index `i` on match from offset `p`. -/
def Succeeds (q : Query) (i p : Nat) : Prop :=
  q.view.MatchesFrom (q.fragments.drop i) p q.requireEnd

variable {q : Query} {i p : Nat}

theorem succeeds_le (h : q.Succeeds i p) : p ≤ q.view.len := h.1

/-- Past the last fragment, a state succeeds where the run may end. -/
theorem succeeds_end (h : q.fragments.length ≤ i) :
    q.Succeeds i p ↔ p ≤ q.view.len ∧ (q.requireEnd = true → p = q.view.len) := by
  rw [Succeeds, List.drop_eq_nil_of_le h, View.matchesFrom_nil]

theorem succeeds_cons {f : Fragment} (hf : q.fragments[i]? = some f) :
    q.Succeeds i p ↔ ∃ x y, q.view.bytes.drop p = x ++ y ∧ Fragment.Matches f x ∧
      q.Succeeds (i + 1) (p + x.length) := by
  obtain ⟨hi, rfl⟩ := List.getElem?_eq_some_iff.1 hf
  rw [Succeeds, List.drop_eq_getElem_cons hi, View.matchesFrom_cons]
  rfl

theorem succeeds_literal {b : List UInt8} (hf : q.fragments[i]? = some (.literal b)) :
    q.Succeeds i p ↔ q.view.matchesLiteral p b = true ∧ q.Succeeds (i + 1) (p + b.length) := by
  rw [succeeds_cons hf, View.matchesLiteral_iff]
  simp only [Fragment.matches_literal_iff]
  constructor
  · rintro ⟨_, y, hxy, rfl, hs⟩
    exact ⟨⟨y, hxy⟩, hs⟩
  · rintro ⟨⟨y, hxy⟩, hs⟩
    exact ⟨b, y, hxy, rfl, hs⟩

theorem succeeds_byteSet {c : ByteSet} (hf : q.fragments[i]? = some (.byteSet c)) :
    q.Succeeds i p ↔
      (p < q.view.len ∧ c.accepts (q.view.byte p) = true) ∧ q.Succeeds (i + 1) (p + 1) := by
  rw [succeeds_cons hf]
  simp only [Fragment.matches_byteSet_iff]
  constructor
  · rintro ⟨_, y, hxy, ⟨b, rfl, hacc⟩, hs⟩
    have hlt : p < q.view.len := by
      have := succeeds_le hs
      simp only [List.length_singleton] at this
      omega
    rw [View.drop_bytes hlt] at hxy
    obtain ⟨rfl, -⟩ := List.cons.inj hxy
    exact ⟨⟨hlt, hacc⟩, hs⟩
  · rintro ⟨⟨hlt, hacc⟩, hs⟩
    exact ⟨[q.view.byte p], _, View.drop_bytes hlt, ⟨_, rfl, hacc⟩, hs⟩

/-- A gap succeeds by one of the takes from its least bound up to what it may take. -/
theorem succeeds_gap {lo : Nat} {hi : Option Nat} (hf : q.fragments[i]? = some (.gap lo hi))
    (hp : p ≤ q.view.len) :
    q.Succeeds i p ↔ ∃ t, lo ≤ t ∧ t ≤ q.view.maxTake hi p ∧ q.Succeeds (i + 1) (p + t) := by
  rw [succeeds_cons hf]
  simp only [Fragment.matches_gap_iff]
  constructor
  · rintro ⟨x, y, hxy, ⟨hlo, hhi⟩, hs⟩
    refine ⟨x.length, hlo, ?_, hs⟩
    have := (View.drop_bytes_of_eq hp hxy).1
    cases hi with
    | none => simp only [View.maxTake]; omega
    | some m =>
      have := hhi m rfl
      simp only [View.maxTake]
      omega
  · rintro ⟨t, hlo, ht, hs⟩
    have htm : t ≤ q.view.len - p := by
      simp only [View.maxTake] at ht
      split at ht <;> omega
    have hlen : ((q.view.bytes.drop p).take t).length = t := by simp; omega
    refine ⟨(q.view.bytes.drop p).take t, (q.view.bytes.drop p).drop t,
      (List.take_append_drop _ _).symm, ⟨by omega, fun m hm => ?_⟩, by rw [hlen]; exact hs⟩
    subst hm
    simp only [View.maxTake] at ht
    omega

/-- Alternatives succeed by one branch matching from the offset, and the rest after it. -/
theorem succeeds_alternatives {branches : List (List Piece)}
    (hf : q.fragments[i]? = some (.alternatives branches)) (hp : p ≤ q.view.len) :
    q.Succeeds i p ↔
      ∃ run ∈ branches, ∃ e, q.view.matchFixed p run = some e ∧ q.Succeeds (i + 1) e := by
  rw [succeeds_cons hf]
  simp only [Fragment.matches_alternatives_iff]
  constructor
  · rintro ⟨x, y, hxy, ⟨run, hrun, hchain⟩, hs⟩
    exact ⟨run, hrun, p + x.length, (View.matchFixed_eq_some_iff hp).2 ⟨x, y, hxy, hchain, rfl⟩,
      hs⟩
  · rintro ⟨run, hrun, e, he, hs⟩
    obtain ⟨x, y, hxy, hchain, rfl⟩ := (View.matchFixed_eq_some_iff hp).1 he
    exact ⟨x, y, hxy, ⟨run, hrun, hchain⟩, hs⟩

/-! ## §2 The frontier of the search -/

variable (q) in
/-- Some option of the choice point not yet tried leads to a match. -/
def Open : Choice → Prop
  | .gap g base _ taken maxTake => ∃ t, taken < t ∧ t ≤ maxTake ∧ q.Succeeds (g + 1) (base + t)
  | .alternative a offset next =>
    ∃ branches, q.fragments[a]? = some (.alternatives branches) ∧
      ∃ k run e, next ≤ k ∧ branches[k]? = some run ∧ q.view.matchFixed offset run = some e ∧
        q.Succeeds (a + 1) e

variable (q) in
/-- Some option the choice point has tried, the current one included, leads to a match. -/
def Tried : Choice → Prop
  | .gap g base lo taken _ => ∃ t, lo ≤ t ∧ t ≤ taken ∧ q.Succeeds (g + 1) (base + t)
  | .alternative a offset next =>
    ∃ branches, q.fragments[a]? = some (.alternatives branches) ∧
      ∃ k run e, k < next ∧ branches[k]? = some run ∧ q.view.matchFixed offset run = some e ∧
        q.Succeeds (a + 1) e

variable (q) in
/-- The offsets the choice point reaches lie in the view. -/
def Within : Choice → Prop
  | .gap _ base _ _ maxTake => base + maxTake ≤ q.view.len
  | .alternative _ offset _ => offset ≤ q.view.len

variable (q) in
/-- Something on the frontier succeeds: the state advanced from in `mode`, or an untried option
of a choice point in `above`. -/
def Live (mode : Option (Nat × Nat)) (above : List (Choice × Nat)) : Prop :=
  (∃ i p, mode = some (i, p) ∧ q.Succeeds i p) ∨ ∃ c ∈ above, q.Open c.1

variable (q) in
/-- What a memo holds is true: a recorded state fails, and after a gap every continuation
from its floor on fails. -/
structure Sound (memo : Memo) : Prop where
  failed : ∀ s ∈ memo.failed, ¬q.Succeeds s.1 s.2
  floors : ∀ g f, memo.floors.getD g none = some f →
    ∀ p, f ≤ p → p ≤ q.view.len → ¬q.Succeeds (g + 1) p

section Live

variable {mode : Option (Nat × Nat)} {c : Choice × Nat} {above : List (Choice × Nat)}

theorem live_cons : q.Live mode (c :: above) ↔ q.Open c.1 ∨ q.Live mode above := by
  simp only [Live, List.mem_cons, exists_eq_or_imp]
  exact or_left_comm

@[simp] theorem live_some : q.Live (some (i, p)) above ↔ q.Succeeds i p ∨ ∃ c ∈ above, q.Open c.1 := by
  simp [Live]

@[simp] theorem live_none : q.Live none above ↔ ∃ c ∈ above, q.Open c.1 := by
  simp [Live]

/-- A state that fails adds nothing to the frontier. -/
theorem live_some_iff_none (h : ¬q.Succeeds i p) : q.Live (some (i, p)) above ↔ q.Live none above := by
  simp [h]

/-- States that succeed together are interchangeable on the frontier. -/
theorem live_some_congr {i' p' : Nat} (h : q.Succeeds i p ↔ q.Succeeds i' p') :
    q.Live (some (i, p)) above ↔ q.Live (some (i', p')) above := by
  simp [h]

end Live

/-! ### Options of gaps -/

section Gap

variable {g base lo taken maxTake : Nat}

/-- A gap's untried takes: the next one, or one after it. -/
theorem open_gap_next (h : taken < maxTake) :
    q.Open (.gap g base lo taken maxTake) ↔
      q.Succeeds (g + 1) (base + (taken + 1)) ∨ q.Open (.gap g base lo (taken + 1) maxTake) := by
  simp only [Open]
  constructor
  · rintro ⟨t, hlt, hle, hs⟩
    by_cases ht : t = taken + 1
    · exact .inl (ht ▸ hs)
    · exact .inr ⟨t, by omega, hle, hs⟩
  · rintro (hs | ⟨t, hlt, hle, hs⟩)
    · exact ⟨taken + 1, by omega, by omega, hs⟩
    · exact ⟨t, by omega, hle, hs⟩

theorem tried_gap_next :
    q.Tried (.gap g base lo (taken + 1) maxTake) →
      q.Tried (.gap g base lo taken maxTake) ∨ q.Succeeds (g + 1) (base + (taken + 1)) := by
  rintro ⟨t, hlo, hle, hs⟩
  by_cases ht : t = taken + 1
  · exact .inr (ht ▸ hs)
  · exact .inl ⟨t, hlo, by omega, hs⟩

theorem not_open_gap (h : ¬taken < maxTake) : ¬q.Open (.gap g base lo taken maxTake) := by
  rintro ⟨t, hlt, hle, -⟩
  omega

/-- A gap about to be pushed: the state before it succeeds by its least take, or by a longer
one left untried. Its least bound is at most its greatest, so the least take is a take. -/
theorem succeeds_gap_push {hi : Option Nat} (hf : q.fragments[g]? = some (.gap lo hi))
    (hord : (Fragment.gap lo hi).Ordered) (hp : base ≤ q.view.len)
    (hroom : ¬q.view.len - base < lo) :
    q.Succeeds g base ↔
      q.Succeeds (g + 1) (base + lo) ∨ q.Open (.gap g base lo lo (q.view.maxTake hi base)) := by
  have hlo : lo ≤ q.view.maxTake hi base := by
    cases hi with
    | none => simp only [View.maxTake]; omega
    | some m =>
      have := hord lo m rfl
      simp only [View.maxTake]
      omega
  rw [succeeds_gap hf hp]
  constructor
  · rintro ⟨t, hlt, hle, hs⟩
    by_cases ht : t = lo
    · exact .inl (ht ▸ hs)
    · exact .inr ⟨t, by omega, hle, hs⟩
  · rintro (hs | ⟨t, hlt, hle, hs⟩)
    · exact ⟨lo, Nat.le_refl _, hlo, hs⟩
    · exact ⟨t, by omega, hle, hs⟩

theorem tried_gap_push : q.Tried (.gap g base lo lo maxTake) → q.Succeeds (g + 1) (base + lo) := by
  rintro ⟨t, hlo, hle, hs⟩
  obtain rfl : t = lo := by omega
  exact hs

end Gap

/-! ### Options of alternatives -/

section Alternatives

variable {a offset next b e : Nat} {branches : List (List Piece)}

/-- The untried branches of alternatives: the first of them that matches, or one after it. -/
theorem open_alternative_next (hf : q.fragments[a]? = some (.alternatives branches))
    (h : q.view.firstBranch branches offset next = some (b, e)) :
    q.Open (.alternative a offset next) ↔
      q.Succeeds (a + 1) e ∨ q.Open (.alternative a offset (b + 1)) := by
  obtain ⟨hb, ⟨run, hrun, he⟩, hbefore⟩ := View.firstBranch_eq_some h
  simp only [Open, hf, Option.some.injEq, Fragment.alternatives.injEq, exists_eq_left']
  constructor
  · rintro ⟨k, r, e', hk, hr, he', hs⟩
    by_cases hkb : k = b
    · subst hkb
      rw [hrun, Option.some.injEq] at hr
      subst hr
      rw [he, Option.some.injEq] at he'
      exact .inl (he' ▸ hs)
    · have hlt : b < k := by
        by_contra hge
        have := hbefore k r hk (by omega) hr
        rw [this] at he'
        cases he'
      exact .inr ⟨k, r, e', hlt, hr, he', hs⟩
  · rintro (hs | ⟨k, r, e', hk, hr, he', hs⟩)
    · exact ⟨b, run, e, hb, hrun, he, hs⟩
    · exact ⟨k, r, e', by omega, hr, he', hs⟩

theorem tried_alternative_next (hf : q.fragments[a]? = some (.alternatives branches))
    (h : q.view.firstBranch branches offset next = some (b, e)) :
    q.Tried (.alternative a offset (b + 1)) →
      q.Tried (.alternative a offset next) ∨ q.Succeeds (a + 1) e := by
  obtain ⟨-, ⟨run, hrun, he⟩, hbefore⟩ := View.firstBranch_eq_some h
  simp only [Tried, hf, Option.some.injEq, Fragment.alternatives.injEq, exists_eq_left']
  rintro ⟨k, r, e', hk, hr, he', hs⟩
  by_cases hkn : k < next
  · exact .inl ⟨k, r, e', hkn, hr, he', hs⟩
  · by_cases hkb : k = b
    · subst hkb
      rw [hrun, Option.some.injEq] at hr
      subst hr
      rw [he, Option.some.injEq] at he'
      exact .inr (he' ▸ hs)
    · have := hbefore k r (by omega) (by omega) hr
      rw [this] at he'
      cases he'

theorem not_open_alternative_none (hf : q.fragments[a]? = some (.alternatives branches))
    (h : q.view.firstBranch branches offset next = none) :
    ¬q.Open (.alternative a offset next) := by
  simp only [Open, hf, Option.some.injEq, Fragment.alternatives.injEq, exists_eq_left']
  rintro ⟨k, r, e', hk, hr, he', -⟩
  rw [View.firstBranch_eq_none h k r hk hr] at he'
  cases he'

theorem not_open_alternative_other
    (hf : ∀ branches, q.fragments[a]? = some (.alternatives branches) → False) :
    ¬q.Open (.alternative a offset next) := by
  rintro ⟨branches, hb, -⟩
  exact hf branches hb

/-- Before any branch is tried, alternatives succeed by one of their branches. -/
theorem succeeds_iff_open_alternative (hf : q.fragments[a]? = some (.alternatives branches))
    (hp : offset ≤ q.view.len) :
    q.Succeeds a offset ↔ q.Open (.alternative a offset 0) := by
  rw [succeeds_alternatives hf hp]
  simp only [Open, hf, Option.some.injEq, Fragment.alternatives.injEq, exists_eq_left',
    Nat.zero_le, true_and]
  constructor
  · rintro ⟨run, hrun, e, he, hs⟩
    obtain ⟨k, hk⟩ := List.mem_iff_getElem?.1 hrun
    exact ⟨k, run, e, hk, he, hs⟩
  · rintro ⟨k, run, e, hk, he, hs⟩
    exact ⟨run, List.mem_iff_getElem?.2 ⟨k, hk⟩, e, he, hs⟩

theorem not_tried_alternative_zero : ¬q.Tried (.alternative a offset 0) := by
  rintro ⟨branches, -, k, -, -, hk, -⟩
  omega

end Alternatives

/-! ## §3 The invariant and its steps -/

variable (q) in
/-- The invariant of the search from `start`. In `mode` the search advances from a state, or
backtracks (`none`); `stack` holds the choice points, newest first, each with the length the
trail had when it was pushed. -/
structure Inv (start : Nat) (memo : Memo) (mode : Option (Nat × Nat))
    (stack : List (Choice × Nat)) (trail : List (Nat × Nat)) : Prop where
  sound : q.Sound memo
  /-- The start succeeds exactly when something on the frontier does. -/
  root : q.Succeeds 0 start ↔ q.Live mode stack
  /-- A tried option succeeds only if something pushed after its choice point is live. -/
  tried : ∀ k (hk : k < stack.length), q.Tried stack[k].1 → q.Live mode (stack.take k)
  /-- A state on the trail succeeds only if something pushed after it was entered is live. -/
  entered : ∀ r (hr : r < trail.length), q.Succeeds trail[r].1 trail[r].2 →
    q.Live mode (stack.filter fun c => r < c.2)
  marks_le : ∀ c ∈ stack, c.2 ≤ trail.length
  marks_sorted : stack.Pairwise fun c c' => c'.2 ≤ c.2
  within : ∀ c ∈ stack, q.Within c.1
  mode_le : ∀ i p, mode = some (i, p) → p ≤ q.view.len

theorem Sound.record {memo : Memo} {states : List (Nat × Nat)} (hs : q.Sound memo)
    (h : ∀ s ∈ states, ¬q.Succeeds s.1 s.2) : q.Sound (memo.record states) :=
  ⟨fun s hs' => (List.mem_append.1 hs').elim (hs.failed s) (h s), hs.floors⟩

/-- From a floor on, the continuations after the gap fail. -/
theorem Sound.not_succeeds_of_floor {memo : Memo} {g f t : Nat} (hs : q.Sound memo)
    (hf : memo.floorReached g f = true) (hft : f ≤ t) (ht : t ≤ q.view.len) :
    ¬q.Succeeds (g + 1) t := by
  unfold Memo.floorReached at hf
  split at hf
  · rename_i fl hfl
    exact hs.floors g fl hfl t (by simp at hf; omega) ht
  · cases hf

/-- Lowering a floor to an offset from which every continuation fails keeps the memo true. -/
theorem Sound.lowerFloor {memo : Memo} {g f : Nat} (hs : q.Sound memo)
    (h : ∀ p, f ≤ p → p ≤ q.view.len → ¬q.Succeeds (g + 1) p) : q.Sound (memo.lowerFloor g f) := by
  refine ⟨hs.failed, fun g' f' hf' p hp hpl => ?_⟩
  simp only [Memo.lowerFloor, List.getD_eq_getElem?_getD, List.getElem?_set] at hf'
  by_cases hg : g = g'
  · subst hg
    by_cases hlt : g < memo.floors.length
    · simp only [if_pos hlt, Option.getD_some, Option.some.injEq, if_true] at hf'
      subst hf'
      -- the new floor is the old one or `f`, whichever is lower
      split at hp
      · rename_i fl hfl
        by_cases hle : fl ≤ p
        · exact hs.floors g fl hfl p hle hpl
        · exact h p (by rw [Nat.min_def] at hp; split at hp <;> omega) hpl
      · exact h p hp hpl
    · simp only [if_neg hlt, if_true, Option.getD_none, reduceCtorEq] at hf'
  · simp only [if_neg hg] at hf'
    exact hs.floors g' f' (by rwa [List.getD_eq_getElem?_getD]) p hp hpl

variable {start : Nat} {memo : Memo} {stack : List (Choice × Nat)} {trail : List (Nat × Nat)}

theorem Inv.withMemo {memo' : Memo} {mode : Option (Nat × Nat)}
    (h : q.Inv start memo mode stack trail) (hs : q.Sound memo') :
    q.Inv start memo' mode stack trail :=
  { h with sound := hs }

/-- Entering a state puts it on the trail. -/
theorem Inv.enter (h : q.Inv start memo (some (i, p)) stack trail) :
    q.Inv start memo (some (i, p)) stack (trail ++ [(i, p)]) := by
  refine { h with entered := fun r hr hs => ?_, marks_le := fun c hc => ?_ }
  · by_cases hr' : r < trail.length
    · rw [List.getElem_append_left hr'] at hs
      exact h.entered r hr' hs
    · -- the state just entered is the one advanced from
      have hr'' : r = trail.length := by
        simp only [List.length_append, List.length_singleton] at hr
        omega
      subst hr''
      simp only [List.getElem_append_right (Nat.le_refl _), Nat.sub_self,
        List.getElem_cons_zero] at hs
      exact (live_some).2 (.inl hs)
  · have := h.marks_le c hc
    simp only [List.length_append, List.length_singleton]
    omega

theorem Inv.visit (h : q.Inv start memo (some (i, p)) stack trail) (b : Bool) :
    q.Inv start memo (some (i, p)) stack (if b = true then trail ++ [(i, p)] else trail) := by
  split
  · exact h.enter
  · exact h

/-- A step that keeps the stack and the trail, and replaces the frontier's state by one that
succeeds when it did. -/
theorem Inv.move {mode mode' : Option (Nat × Nat)} (h : q.Inv start memo mode stack trail)
    (hlive : ∀ above, q.Live mode above ↔ q.Live mode' above)
    (hle : ∀ i p, mode' = some (i, p) → p ≤ q.view.len) :
    q.Inv start memo mode' stack trail :=
  { h with
    root := h.root.trans (hlive stack)
    tried := fun k hk ht => (hlive _).1 (h.tried k hk ht)
    entered := fun r hr hs => (hlive _).1 (h.entered r hr hs)
    mode_le := hle }

/-- A state that fails leaves the frontier. -/
theorem Inv.fail (h : q.Inv start memo (some (i, p)) stack trail) (hs : ¬q.Succeeds i p) :
    q.Inv start memo none stack trail :=
  h.move (fun _ => live_some_iff_none hs) (by simp)

/-- Pushing a choice point: the state advanced from succeeds exactly when the point's first
option or one of its untried options does. -/
theorem Inv.push (h : q.Inv start memo (some (i, p)) stack trail) {c : Choice} {i' p' : Nat}
    (hsplit : q.Succeeds i p ↔ q.Succeeds i' p' ∨ q.Open c)
    (htried : q.Tried c → q.Succeeds i' p') (hwithin : q.Within c) (hp' : p' ≤ q.view.len) :
    q.Inv start memo (some (i', p')) ((c, trail.length) :: stack) trail := by
  have hmove : ∀ above, q.Live (some (i, p)) above ↔
      q.Live (some (i', p')) ((c, trail.length) :: above) := by
    intro above
    rw [live_cons, live_some, live_some, hsplit, or_assoc, or_left_comm]
  refine ⟨h.sound, h.root.trans (hmove stack), fun k hk ht => ?_, fun r hr hs => ?_,
    fun c' hc' => ?_, .cons (fun c' hc' => h.marks_le c' hc') h.marks_sorted, fun c' hc' => ?_,
    fun _ _ he => ?_⟩
  · cases k with
    | zero => exact (live_some).2 (.inl (htried ht))
    | succ k =>
      simp only [List.getElem_cons_succ, List.take_succ_cons] at ht ⊢
      exact (hmove _).1 (h.tried k (by simpa using hk) ht)
  · rw [List.filter_cons_of_pos (by simpa using hr)]
    exact (hmove _).1 (h.entered r hr hs)
  · rcases List.mem_cons.1 hc' with rfl | hc'
    · exact Nat.le_refl _
    · exact h.marks_le c' hc'
  · rcases List.mem_cons.1 hc' with rfl | hc'
    · exact hwithin
    · exact h.within c' hc'
  · cases he
    exact hp'

section Pop

variable {c : Choice} {m : Nat} (h : q.Inv start memo none ((c, m) :: stack) trail)
include h

theorem Inv.mark_le : m ≤ trail.length := h.marks_le (c, m) List.mem_cons_self

theorem Inv.marks_below : ∀ c' ∈ stack, c'.2 ≤ m := (List.pairwise_cons.1 h.marks_sorted).1

theorem Inv.length_take : (trail.take m).length = m := by
  simp [h.mark_le]

theorem Inv.marks_below_take : ∀ c' ∈ stack, c'.2 ≤ (trail.take m).length := by
  rw [h.length_take]
  exact h.marks_below

/-- Once nothing above a popped choice point is live, its tried options fail. -/
theorem Inv.not_tried : ¬q.Tried c := by
  intro ht
  have := h.tried 0 (by simp) ht
  simp at this

/-- Once nothing above a popped choice point is live, the states entered since it was pushed
fail. -/
theorem Inv.drained : ∀ s ∈ trail.drop m, ¬q.Succeeds s.1 s.2 := by
  intro s hs hsucc
  obtain ⟨j, hj, rfl⟩ := List.getElem_of_mem hs
  rw [List.getElem_drop] at hsucc
  have hlive := h.entered (m + j) (by simp at hj; omega) hsucc
  -- every choice point still on the stack was pushed before that state was entered
  have hnil : ((c, m) :: stack).filter (fun c' => m + j < c'.2) = [] := by
    refine List.filter_eq_nil_iff.2 fun c' hc' => ?_
    rcases List.mem_cons.1 hc' with rfl | hc'
    · simp
    · have := h.marks_below c' hc'
      simp only [decide_eq_true_eq]
      omega
  rw [hnil] at hlive
  simp at hlive

theorem Inv.sound_record : q.Sound (memo.record (trail.drop m)) :=
  h.sound.record h.drained

/-- Deeper down, a tried option succeeds only if the popped choice point or one above it is
live. -/
theorem Inv.tried_below {k : Nat} (hk : k < stack.length) (ht : q.Tried stack[k].1) :
    q.Live none ((c, m) :: stack.take k) := by
  have := h.tried (k + 1) (by simpa using hk) (by simpa using ht)
  simpa only [List.take_succ_cons] using this

/-- A state the trail keeps was entered before the popped choice point was pushed. -/
theorem Inv.entered_below {r : Nat} (hr : r < (trail.take m).length)
    (hs : q.Succeeds (trail.take m)[r].1 (trail.take m)[r].2) :
    q.Live none ((c, m) :: stack.filter fun c' => r < c'.2) := by
  have hrm : r < m := by simpa [h.mark_le] using hr
  simp only [List.getElem_take] at hs
  have := h.entered r (by have := h.mark_le; omega) hs
  rwa [List.filter_cons_of_pos (by simpa using hrm)] at this

/-- Resuming a popped choice point with its next option, which is the state advanced from
next. -/
theorem Inv.resume {c' : Choice} {i' p' : Nat}
    (hsplit : q.Open c ↔ q.Succeeds i' p' ∨ q.Open c')
    (htried : q.Tried c' → q.Tried c ∨ q.Succeeds i' p') (hwithin : q.Within c')
    (hp' : p' ≤ q.view.len) :
    q.Inv start (memo.record (trail.drop m)) (some (i', p'))
      ((c', (trail.take m).length) :: stack) (trail.take m) := by
  -- the popped point's untried options are the resumed state and the point's remaining ones
  have hmove : ∀ above, q.Live none ((c, m) :: above) ↔
      q.Live (some (i', p')) ((c', m) :: above) := by
    intro above
    rw [live_cons, live_cons, live_some, live_none, hsplit, or_assoc, or_left_comm]
  have hlen := h.length_take
  refine ⟨h.sound_record, by rw [hlen]; exact h.root.trans (hmove stack),
    fun k hk ht => ?_, fun r hr hs => ?_, fun c'' hc'' => ?_,
    .cons (fun c'' hc'' => h.marks_below_take c'' hc'') (List.pairwise_cons.1 h.marks_sorted).2,
    fun c'' hc'' => ?_, fun _ _ he => ?_⟩
  · rw [hlen] at ht ⊢
    cases k with
    | zero => exact (live_some).2 (.inl ((htried ht).resolve_left h.not_tried))
    | succ k =>
      simp only [List.getElem_cons_succ, List.take_succ_cons] at ht ⊢
      exact (hmove _).1 (h.tried_below (by simpa using hk) ht)
  · have hrm : r < m := by rwa [hlen] at hr
    rw [hlen, List.filter_cons_of_pos (by simpa using hrm)]
    exact (hmove _).1 (h.entered_below hr hs)
  · rcases List.mem_cons.1 hc'' with rfl | hc''
    · exact Nat.le_refl _
    · exact h.marks_below_take c'' hc''
  · rcases List.mem_cons.1 hc'' with rfl | hc''
    · exact hwithin
    · exact h.within c'' (List.mem_cons_of_mem _ hc'')
  · cases he
    exact hp'

/-- Dropping a popped choice point with no option left. -/
theorem Inv.drop (hopen : ¬q.Open c) :
    q.Inv start (memo.record (trail.drop m)) none stack (trail.take m) := by
  have hmove : ∀ above, q.Live none ((c, m) :: above) ↔ q.Live none above := by
    intro above
    rw [live_cons, or_iff_right hopen]
  refine ⟨h.sound_record, h.root.trans (hmove stack),
    fun k hk ht => (hmove _).1 (h.tried_below hk ht),
    fun r hr hs => (hmove _).1 (h.entered_below hr hs),
    h.marks_below_take, (List.pairwise_cons.1 h.marks_sorted).2,
    fun c'' hc'' => h.within c'' (List.mem_cons_of_mem _ hc''), by simp⟩

end Pop

/-- With no choice point left nothing is live: the start fails, and every state on the trail
fails. -/
theorem Inv.exhausted (h : q.Inv start memo none [] trail) :
    ¬q.Succeeds 0 start ∧ q.Sound (memo.record trail) := by
  refine ⟨fun hs => by simpa using h.root.1 hs, h.sound.record fun s hs hsucc => ?_⟩
  obtain ⟨r, hr, rfl⟩ := List.getElem_of_mem hs
  simpa using h.entered r hr hsucc

theorem Inv.matched (h : q.Inv start memo (some (i, p)) stack trail) (hs : q.Succeeds i p) :
    q.Succeeds 0 start :=
  h.root.2 ((live_some).2 (.inl hs))

/-! ## §4 The loops keep the invariant -/

variable (q) in
/-- What advancing leaves: a match of the start, or the invariant while backtracking. -/
def AdvanceSpec (start : Nat) (memo : Memo) : Advance → Prop
  | .matched => q.Succeeds 0 start
  | .stuck stack trail => q.Inv start memo none stack trail

variable (q) in
/-- What backtracking leaves: a start that fails with a true memo, or the invariant while
advancing. -/
def ResumeSpec (start : Nat) : Resume → Prop
  | .exhausted memo => ¬q.Succeeds 0 start ∧ q.Sound memo
  | .resume memo stack trail index pos => q.Inv start memo (some (index, pos)) stack trail

/-- Advancing from a state keeps the invariant, fragment after fragment, until every fragment
matched or one failed. -/
theorem advance_spec (hord : ∀ f ∈ q.fragments, f.Ordered) {index pos : Nat}
    (h : q.Inv start memo (some (index, pos)) stack trail) :
    q.AdvanceSpec start memo
      (advance q.fragments memo q.view q.requireEnd index pos stack trail) := by
  fun_induction advance q.fragments memo q.view q.requireEnd index pos stack trail
  case case1 index pos stack trail hi hmemo =>
    -- the state was recorded as failed
    exact h.fail (h.sound.failed _ hmemo.2)
  case case2 index pos stack trail hi _ trail' bytes hf hlit ih =>
    have hstep := succeeds_literal (p := pos) (List.getElem?_eq_some_iff.2 ⟨hi, hf⟩)
    obtain ⟨y, hy⟩ := (View.matchesLiteral_iff _ _ _).1 hlit
    have hle := (View.drop_bytes_of_eq (h.mode_le _ _ rfl) hy).1
    exact ih (((h.visit _).move (fun _ => live_some_congr (by rw [hstep]; simp [hlit])))
      fun _ _ he => by cases he; exact hle)
  case case3 index pos stack trail hi _ trail' bytes hf hlit =>
    have hstep := succeeds_literal (p := pos) (List.getElem?_eq_some_iff.2 ⟨hi, hf⟩)
    exact (h.visit _).fail fun hs => hlit (hstep.1 hs).1
  case case4 index pos stack trail hi _ trail' c hf hbyte ih =>
    have hstep := succeeds_byteSet (p := pos) (List.getElem?_eq_some_iff.2 ⟨hi, hf⟩)
    exact ih (((h.visit _).move (fun _ => live_some_congr (by rw [hstep]; simp [hbyte])))
      fun _ _ he => by cases he; exact hbyte.1)
  case case5 index pos stack trail hi _ trail' c hf hbyte =>
    have hstep := succeeds_byteSet (p := pos) (List.getElem?_eq_some_iff.2 ⟨hi, hf⟩)
    exact (h.visit _).fail fun hs => hbyte (hstep.1 hs).1
  case case6 index pos stack trail hi _ trail' lo hi' hf hroom =>
    -- fewer bytes left than the gap's least bound
    refine (h.visit _).fail fun hs => ?_
    obtain ⟨t, hlo, ht, -⟩ :=
      (succeeds_gap (List.getElem?_eq_some_iff.2 ⟨hi, hf⟩) (h.mode_le _ _ rfl)).1 hs
    have := q.view.maxTake_le hi' pos
    omega
  case case7 index pos stack trail hi _ trail' lo hi' hf hroom mt hfloor =>
    -- every take ends at or past the gap's floor
    have hp := h.mode_le _ _ rfl
    refine (h.visit _).fail fun hs => ?_
    obtain ⟨t, hlo, ht, hs⟩ := (succeeds_gap (List.getElem?_eq_some_iff.2 ⟨hi, hf⟩) hp).1 hs
    exact h.sound.not_succeeds_of_floor hfloor.2 (by omega) (by simp only [mt] at hfloor; omega) hs
  case case8 index pos stack trail hi _ trail' lo hi' hf hroom mt hfloor ih =>
    have hp := h.mode_le _ _ rfl
    have hf' := List.getElem?_eq_some_iff.2 ⟨hi, hf⟩
    have hmt := q.view.maxTake_le hi' pos
    exact ih ((h.visit _).push
      (succeeds_gap_push hf' (hord _ (List.mem_of_getElem hf)) hp hroom) tried_gap_push
      (by simp only [Within, mt]; omega) (by omega))
  case case9 index pos stack trail hi _ trail' branches hf b e hfirst ih =>
    have hp := h.mode_le _ _ rfl
    have hf' := List.getElem?_eq_some_iff.2 ⟨hi, hf⟩
    obtain ⟨-, ⟨run, -, he⟩, -⟩ := View.firstBranch_eq_some hfirst
    exact ih ((h.visit _).push
      ((succeeds_iff_open_alternative hf' hp).trans (open_alternative_next hf' hfirst))
      (fun ht => ((tried_alternative_next hf' hfirst ht).resolve_left not_tried_alternative_zero))
      hp (View.le_of_matchFixed hp he))
  case case10 index pos stack trail hi _ trail' branches hf hnone =>
    have hf' := List.getElem?_eq_some_iff.2 ⟨hi, hf⟩
    exact (h.visit _).fail fun hs =>
      not_open_alternative_none hf' hnone ((succeeds_iff_open_alternative hf' (h.mode_le _ _ rfl)).1 hs)
  case case11 index pos stack trail hi hend =>
    -- every fragment matched, and the run ends where the caller asks
    refine h.matched ((succeeds_end (by omega)).2 ⟨h.mode_le _ _ rfl, fun hr => ?_⟩)
    simpa [hr] using hend
  case case12 index pos stack trail hi hend =>
    refine h.fail fun hs => hend ?_
    obtain ⟨-, hreq⟩ := (succeeds_end (by omega)).1 hs
    cases hr : q.requireEnd
    · rfl
    · simp [hreq hr]

/-- A gap whose every take failed: when its takes reached the end of the view, no continuation
after it succeeds from its least take on. -/
theorem not_succeeds_of_exhausted {g base lo taken maxTake : Nat}
    (htried : ¬q.Tried (.gap g base lo taken maxTake)) (hge : ¬taken < maxTake)
    (hend : base + maxTake = q.view.len) :
    ∀ p, base + lo ≤ p → p ≤ q.view.len → ¬q.Succeeds (g + 1) p := by
  intro p hlo hp hs
  exact htried ⟨p - base, by omega, by omega, by rwa [Nat.add_sub_cancel' (by omega)]⟩

/-- Backtracking keeps the invariant: each popped choice point records the states entered
below it, and the first one with an option left resumes with it. -/
theorem backtrack_spec (h : q.Inv start memo none stack trail) :
    q.ResumeSpec start (backtrack q.fragments q.view memo trail stack) := by
  fun_induction backtrack q.fragments q.view memo trail stack
  case case1 => exact h.exhausted
  case case2 _ _ mark _ _ _ g base lo taken maxTake hlt =>
    have hw : base + maxTake ≤ q.view.len := h.within _ List.mem_cons_self
    exact h.resume (open_gap_next hlt) tried_gap_next hw (by omega)
  case case3 _ _ mark _ _ _ g base lo taken maxTake hge floored ih =>
    -- every take of the gap failed; its floor drops to its least take if it ran to the end
    have hdrop := h.drop (not_open_gap hge)
    refine ih (hdrop.withMemo ?_)
    simp only [floored]
    split
    · exact hdrop.sound.lowerFloor (not_succeeds_of_exhausted h.not_tried hge ‹_›)
    · exact hdrop.sound
  case case4 _ _ mark _ _ _ a offset next branches hf b e hfirst =>
    have hw : offset ≤ q.view.len := h.within _ List.mem_cons_self
    obtain ⟨-, ⟨run, -, he⟩, -⟩ := View.firstBranch_eq_some hfirst
    exact h.resume (open_alternative_next hf hfirst) (tried_alternative_next hf hfirst) hw
      (View.le_of_matchFixed hw he)
  case case5 _ _ mark _ _ _ a offset next branches hf hnone ih =>
    exact ih (h.drop (not_open_alternative_none hf hnone))
  case case6 _ _ mark _ _ _ a offset next hf ih =>
    exact ih (h.drop (not_open_alternative_other hf))

/-- The search answers whether the start succeeds, and leaves a true memo. -/
theorem search_spec (hord : ∀ f ∈ q.fragments, f.Ordered) {index pos : Nat}
    (h : q.Inv start memo (some (index, pos)) stack trail) :
    ((search q.fragments q.view q.requireEnd memo stack trail index pos).1 = true ↔
        q.Succeeds 0 start) ∧
      q.Sound (search q.fragments q.view q.requireEnd memo stack trail index pos).2 := by
  fun_induction search q.fragments q.view q.requireEnd memo stack trail index pos
  case case1 _ _ _ _ _ hadv =>
    have hm := advance_spec hord h
    rw [hadv] at hm
    exact ⟨iff_of_true rfl hm, h.sound⟩
  case case2 _ _ _ _ _ _ _ hadv _ hback =>
    have hstuck := advance_spec hord h
    rw [hadv] at hstuck
    have hm := backtrack_spec hstuck
    rw [hback] at hm
    exact ⟨iff_of_false Bool.false_ne_true hm.1, hm.2⟩
  case case3 _ _ _ _ _ _ _ hadv _ _ _ _ _ hback ih =>
    have hstuck := advance_spec hord h
    rw [hadv] at hstuck
    have hm := backtrack_spec hstuck
    rw [hback] at hm
    exact ih hm

variable (q) in
/-- Nothing is known yet, so nothing false is. -/
theorem sound_empty (n : Nat) : q.Sound ⟨[], List.replicate n none⟩ := by
  refine ⟨by simp, fun g f hf => ?_⟩
  simp only [List.getD_eq_getElem?_getD, List.getElem?_replicate] at hf
  split at hf <;> simp at hf

/-- At the start the frontier is the start state alone. -/
theorem Inv.initial (hs : q.Sound memo) (hp : start ≤ q.view.len) :
    q.Inv start memo (some (0, start)) [] [] :=
  ⟨hs, by simp, fun k hk => absurd hk (by simp), fun r hr => absurd hr (by simp), by simp, .nil,
    by simp, fun _ _ he => by cases he; exact hp⟩

end Query

/-! ## §5 Answers of a shared backtracker -/

namespace Backtracker

variable {v : View} {requireEnd : Bool}

/-- One call answers whether the fragments match from the start, and keeps the memo true. -/
theorem matchAt_spec {bt : Backtracker} (start : Nat) (hord : ∀ f ∈ bt.fragments, f.Ordered)
    (hs : Query.Sound ⟨v, bt.fragments, requireEnd⟩ bt.memo) :
    ((bt.matchAt v start requireEnd).1 = true ↔ v.MatchesFrom bt.fragments start requireEnd) ∧
      (bt.matchAt v start requireEnd).2.fragments = bt.fragments ∧
      Query.Sound ⟨v, bt.fragments, requireEnd⟩ (bt.matchAt v start requireEnd).2.memo := by
  unfold matchAt
  split
  · exact ⟨iff_of_false Bool.false_ne_true fun hm => by have := hm.1; omega, rfl, hs⟩
  · rename_i hstart
    have hinit : Query.Inv ⟨v, bt.fragments, requireEnd⟩ start bt.memo (some (0, start)) [] [] :=
      Query.Inv.initial hs (by simp only; omega)
    have := Query.search_spec hord hinit
    simp only [Query.Succeeds, List.drop_zero] at this
    exact ⟨this.1, rfl, this.2⟩

/-- Calls in turn: each answer is whether the fragments match from its start, whatever the
earlier calls recorded, and the memo stays true. -/
theorem matchEach_spec (bt : Backtracker) (hord : ∀ f ∈ bt.fragments, f.Ordered)
    (hs : Query.Sound ⟨v, bt.fragments, requireEnd⟩ bt.memo) (starts : List Nat) :
    List.Forall₂ (fun answer start => answer = true ↔ v.MatchesFrom bt.fragments start requireEnd)
        (bt.matchEach v requireEnd starts).1 starts ∧
      (bt.matchEach v requireEnd starts).2.fragments = bt.fragments ∧
      Query.Sound ⟨v, bt.fragments, requireEnd⟩ (bt.matchEach v requireEnd starts).2.memo := by
  induction starts generalizing bt with
  | nil => exact ⟨.nil, rfl, hs⟩
  | cons start starts ih =>
    obtain ⟨hanswer, hfs, hs'⟩ := matchAt_spec start hord hs
    obtain ⟨hanswers, hfs', hs''⟩ := ih _ (hfs ▸ hord) (hfs ▸ hs')
    rw [hfs] at hanswers hfs' hs''
    exact ⟨.cons hanswer hanswers, hfs', hs''⟩

/-- A call changes only what the backtracker learnt. -/
theorem matchAt_fragments (bt : Backtracker) (start : Nat) :
    (bt.matchAt v start requireEnd).2.fragments = bt.fragments := by
  unfold matchAt
  split <;> rfl

theorem anyMatch_cons (bt : Backtracker) (start : Nat) (starts : List Nat) :
    bt.anyMatch v requireEnd (start :: starts) =
      ((bt.matchAt v start requireEnd).1 ||
        (bt.matchAt v start requireEnd).2.anyMatch v requireEnd starts) := rfl

/-- Calls in turn until one matches: the answer is whether the fragments match from one of the
starts, whatever the earlier calls recorded. -/
theorem anyMatch_iff (bt : Backtracker) (hord : ∀ f ∈ bt.fragments, f.Ordered)
    (hs : Query.Sound ⟨v, bt.fragments, requireEnd⟩ bt.memo) (starts : List Nat) :
    bt.anyMatch v requireEnd starts = true ↔
      ∃ start ∈ starts, v.MatchesFrom bt.fragments start requireEnd := by
  induction starts generalizing bt with
  | nil => simp [anyMatch]
  | cons start starts ih =>
    obtain ⟨hanswer, hfs, hs'⟩ := matchAt_spec start hord hs
    have hrest := ih _ (hfs ▸ hord) (hfs ▸ hs')
    rw [hfs] at hrest
    rw [anyMatch_cons, Bool.or_eq_true, hanswer, hrest]
    simp only [List.mem_cons, exists_eq_or_imp]

/-- From a start where the leading literal does not stand, a call fails at once and learns
nothing: the literal is tested before any choice point is pushed or any state recorded. -/
theorem matchAt_of_matchesLiteral_eq_false {bt : Backtracker} {lit : List UInt8}
    {rest : List Fragment} (hfs : bt.fragments = .literal lit :: rest) {start : Nat}
    (hlit : v.matchesLiteral start lit = false) :
    bt.matchAt v start requireEnd = (false, bt) := by
  have hadv : advance bt.fragments bt.memo v requireEnd 0 start [] [] = .stuck [] [] := by
    rw [advance, hfs]
    simp [followsChoice, hlit]
  have hsearch : search bt.fragments v requireEnd bt.memo [] [] 0 start = (false, bt.memo) := by
    rw [search]
    split
    · rename_i h
      rw [hadv] at h
      cases h
    · rename_i stack₁ trail₁ h
      rw [hadv] at h
      obtain ⟨rfl, rfl⟩ := Advance.stuck.inj h
      simp [backtrack, Memo.record]
  unfold matchAt
  split
  · rfl
  · rw [hsearch]

/-- Starts where the calls fail at once and learn nothing can be left out. -/
theorem anyMatch_filter {bt : Backtracker} (keep : Nat → Bool)
    (hdead : ∀ bt' : Backtracker, bt'.fragments = bt.fragments → ∀ start, keep start = false →
      bt'.matchAt v start requireEnd = (false, bt'))
    (starts : List Nat) :
    bt.anyMatch v requireEnd (starts.filter keep) = bt.anyMatch v requireEnd starts := by
  induction starts generalizing bt with
  | nil => rfl
  | cons start starts ih =>
    -- a call leaves the fragments as they were, so later dead starts stay dead
    have hdead' : ∀ bt' : Backtracker,
        bt'.fragments = (bt.matchAt v start requireEnd).2.fragments → ∀ s, keep s = false →
          bt'.matchAt v s requireEnd = (false, bt') := by
      rw [matchAt_fragments]
      exact hdead
    cases hk : keep start with
    | true =>
      rw [List.filter_cons_of_pos hk, anyMatch_cons, anyMatch_cons, ih hdead']
    | false =>
      rw [List.filter_cons_of_neg (by simp [hk]), anyMatch_cons, hdead bt rfl start hk,
        Bool.false_or]
      exact ih hdead

end Backtracker

/-- A backtracker shared between calls on one view and end requirement answers every call as
the matching relation does: true exactly when the fragments match a run of the view from the
call's start, reaching the end of the view when that is required, and false from a start past
the end. What it records, failed states and gap floors, stays true, so it never cuts off a
branch that could succeed. The one promise asked of the fragments is the compiler's: no gap's
least bound exceeds its greatest. -/
theorem matchEach_iff_matchesFrom (fs : List Fragment) (hord : ∀ f ∈ fs, f.Ordered) (v : View)
    (requireEnd : Bool) (starts : List Nat) :
    List.Forall₂ (fun answer start => answer = true ↔ v.MatchesFrom fs start requireEnd)
        ((Backtracker.new fs).matchEach v requireEnd starts).1 starts ∧
      Query.Sound ⟨v, fs, requireEnd⟩ ((Backtracker.new fs).matchEach v requireEnd starts).2.memo := by
  obtain ⟨hanswers, hfs, hs⟩ :=
    Backtracker.matchEach_spec (Backtracker.new fs) hord
      (Query.sound_empty ⟨v, fs, requireEnd⟩ fs.length) starts
  exact ⟨hanswers, hs⟩

theorem matchEach_iff_matchesFrom_shared :
    let fs : List Fragment := [.literal [65], .gap 0 none, .literal [90]]
    let v : View := ⟨#[65, 65, 90, 65], .forward⟩
    (∀ f ∈ fs, f.Ordered) ∧
      List.Forall₂ (fun answer start => answer = true ↔ v.MatchesFrom fs start false)
          ((Backtracker.new fs).matchEach v false [0, 1, 3]).1 [0, 1, 3] ∧
        Query.Sound ⟨v, fs, false⟩ ((Backtracker.new fs).matchEach v false [0, 1, 3]).2.memo := by
  intro fs v
  have hord : ∀ f ∈ fs, f.Ordered := by
    intro f hf
    simp only [fs, List.mem_cons, List.not_mem_nil, or_false] at hf
    rcases hf with rfl | rfl | rfl <;> intro lo hi h <;> cases h
  exact ⟨hord, matchEach_iff_matchesFrom fs hord v false [0, 1, 3]⟩

/-- A gap whose least length exceeds its greatest, `{5-3}`, matches no run of bytes, yet the
backtracker takes its five bytes and accepts five zero bytes: the agreement needs gaps whose
bounds are ordered, as those of every compiled pattern are. -/
theorem matchEach_unordered_gap :
    let fs : List Fragment := [.gap 5 (some 3)]
    let v : View := ⟨#[0, 0, 0, 0, 0], .forward⟩
    ((Backtracker.new fs).matchEach v true [0]).1 = [true] ∧ ¬v.MatchesFrom fs 0 true := by
  intro fs v
  refine ⟨by decide +kernel, ?_⟩
  rintro ⟨-, x, y, -, hx, -⟩
  exact Fragment.not_matchesAll_unordered_gap (by decide) [] x hx

example : ((Backtracker.new [.literal [65], .gap 0 none, .literal [90]]).matchEach
    ⟨#[65, 65, 90, 65], .forward⟩ false [0, 1, 3]).1 = [true, true, false] := by
  decide +kernel

/-- The fragments of a compiled pattern keep the compiler's promise, so a backtracker shared
between calls on them answers each call as the matching relation does. -/
theorem Pattern.matchEach_of_compile {raw : String} {p : Pattern}
    (h : Pattern.compile raw = .ok p) (v : View) (requireEnd : Bool) (starts : List Nat) :
    List.Forall₂ (fun answer start => answer = true ↔ v.MatchesFrom p.fragments start requireEnd)
      ((Backtracker.new p.fragments).matchEach v requireEnd starts).1 starts :=
  (Backtracker.matchEach_spec (Backtracker.new p.fragments)
    (fun f hf => Fragment.ordered_of_wellFormed (Pattern.compile_wellFormed h f hf))
    (Query.sound_empty ⟨v, p.fragments, requireEnd⟩ p.fragments.length) starts).1

/-! ## §6 Reading from the last byte -/

/-- Reversing each fragment and their order matches exactly the reversed strings. -/
theorem Fragment.matchesAll_reverse_map_iff (fs : List Fragment) (s : List UInt8) :
    Fragment.MatchesAll (fs.map Fragment.reversed).reverse s.reverse ↔
      Fragment.MatchesAll fs s := by
  rw [Fragment.matchesAll_iff_chain, Fragment.matchesAll_iff_chain,
    Chain.reverse_map_iff Fragment.matches_reversed_iff fs s.reverse, List.reverse_reverse]

/-- Reversing keeps a gap's bounds, so it keeps them in order. -/
theorem Fragment.ordered_reversed {f : Fragment} (h : f.Ordered) : f.reversed.Ordered := by
  cases f with
  | gap lo hi => exact h
  | literal bytes => intro lo hi he; cases he
  | byteSet c => intro lo hi he; cases he
  | alternatives branches => intro lo hi he; cases he

/-- Read from the last byte with no end required, the fragments match a run read backwards
followed by anything: that run, read forwards, is a suffix of the input. -/
theorem View.matchesFrom_backward_iff (d : List UInt8) (fs : List Fragment) :
    View.MatchesFrom ⟨d.toArray, .backward⟩ fs 0 false ↔
      ∃ s, s <:+ d ∧ Fragment.MatchesAll fs s.reverse := by
  simp only [View.MatchesFrom, View.bytes, List.drop_zero, Nat.zero_le, true_and,
    Bool.false_eq_true, false_implies, and_true]
  constructor
  · rintro ⟨x, y, hxy, hx⟩
    refine ⟨x.reverse, ⟨y.reverse, ?_⟩, by simpa using hx⟩
    rw [← List.reverse_append, ← hxy, List.reverse_reverse]
  · rintro ⟨s, ⟨t, rfl⟩, hs⟩
    exact ⟨s.reverse, t.reverse, by simp, hs⟩

/-- Fragments reversed, each one and their order, match a string backwards exactly when the
fragments match it forwards. Hence a new backtracker over the reversed fragments, reading the
input from its last byte, accepts exactly when the fragments match some suffix of the input,
under the compiler's promise that no gap's least bound exceeds its greatest. -/
theorem backward_matchAt_iff_suffix (fs : List Fragment) :
    (∀ s, Fragment.MatchesAll (fs.map Fragment.reversed).reverse s.reverse ↔
        Fragment.MatchesAll fs s) ∧
      ((∀ f ∈ fs, f.Ordered) → ∀ d : List UInt8,
        ((Backtracker.new (fs.map Fragment.reversed).reverse).matchAt ⟨d.toArray, .backward⟩ 0 false).1 =
            true ↔ ∃ s, s <:+ d ∧ Fragment.MatchesAll fs s) := by
  refine ⟨Fragment.matchesAll_reverse_map_iff fs, fun hord d => ?_⟩
  have hord' : ∀ f ∈ (fs.map Fragment.reversed).reverse, f.Ordered := by
    intro f hf
    obtain ⟨g, hg, rfl⟩ := List.mem_map.mp (List.mem_reverse.mp hf)
    exact Fragment.ordered_reversed (hord g hg)
  rw [(Backtracker.matchAt_spec 0 hord' (Query.sound_empty _ _)).1, View.matchesFrom_backward_iff]
  exact exists_congr fun s => and_congr_right fun _ => Fragment.matchesAll_reverse_map_iff fs s

theorem backward_matchAt_iff_suffix_gap :
    let fs : List Fragment := [.literal [88], .gap 1 (some 1), .literal [89, 90]]
    (∀ f ∈ fs, f.Ordered) ∧
      (((Backtracker.new (fs.map Fragment.reversed).reverse).matchAt
          ⟨#[46, 46, 88, 46, 89, 90], .backward⟩ 0 false).1 = true ↔
        ∃ s, s <:+ [46, 46, 88, 46, 89, 90] ∧ Fragment.MatchesAll fs s) := by
  intro fs
  have hord : ∀ f ∈ fs, f.Ordered := by
    intro f hf
    simp only [fs, List.mem_cons, List.not_mem_nil, or_false] at hf
    rcases hf with rfl | rfl | rfl
    · intro lo hi h
      cases h
    · intro lo hi h
      cases h
      exact Nat.le_refl 1
    · intro lo hi h
      cases h
  exact ⟨hord, (backward_matchAt_iff_suffix fs).2 hord _⟩

/-- Read backwards too, the backtracker accepts five zero bytes against the unordered gap
`{5-3}`, which no suffix matches. -/
theorem backward_matchAt_unordered_gap :
    let fs : List Fragment := [.gap 5 (some 3)]
    ((Backtracker.new (fs.map Fragment.reversed).reverse).matchAt
        ⟨#[0, 0, 0, 0, 0], .backward⟩ 0 false).1 = true ∧
      ¬∃ s, s <:+ [0, 0, 0, 0, 0] ∧ Fragment.MatchesAll fs s := by
  intro fs
  refine ⟨by decide +kernel, ?_⟩
  rintro ⟨s, -, hs⟩
  exact Fragment.not_matchesAll_unordered_gap (by decide) [] s hs

example : ((Backtracker.new [.literal [90, 89], .gap 1 (some 1), .literal [88]]).matchAt
    ⟨#[46, 46, 88, 46, 89, 90], .backward⟩ 0 false).1 = true := by
  decide +kernel

end ContainerProbe
